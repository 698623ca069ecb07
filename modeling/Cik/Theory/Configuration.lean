import Cik.Source.Config
import Mathlib.Data.List.TakeWhile
import Mathlib.Data.Nat.Find

/-!
# Lines of the configuration

A line assigns a value to a name (`Assignment`), with white space around both. `parse_args`
puts a zero where the name ends before it looks for the `=`. When the name ends in the `=`
itself, the `=` is gone: the line is refused, or the value loses its beginning if that is
another `=`. With white space in between, the name and the value arrive as they are
(`assigned_iff`). The scan stays inside of every line, and lines without content and
comments do nothing. A file of such lines assigns its values one after the other
(`ConfigLine.parseLines_eq_run`).
-/

namespace Cik

open ByteMemory

namespace Line

variable {l : Line} {p : UInt8 → Bool} {c d : ℕ}

/-! ### The loops -/

theorem byteAt_of_le (h : c ≤ l.terminator) : l.byteAt c = some (l.buffer c) := if_pos h

theorem cut_of_le (h : c ≤ l.terminator) :
    l.cut c = some { l with buffer := l.buffer.write c [0] } := if_pos h

/-- A loop forwards runs to the first byte that it does not skip. -/
theorem skip_of_forall (hc : c ≤ d) (hd : d ≤ l.terminator)
    (hskip : ∀ i, c ≤ i → i < d → p (l.buffer i)) (hend : p (l.buffer d) = false) :
    l.skip p c = some d := by
  obtain ⟨n, rfl⟩ := Nat.exists_eq_add_of_le hc
  induction n generalizing c with
  | zero =>
    rw [Nat.add_zero] at hd hend
    rw [skip, if_pos hd, if_neg (ne_true_of_eq_false hend), Nat.add_zero]
  | succ n ih =>
    have hnext : c + (n + 1) = c + 1 + n := by omega
    rw [skip, if_pos (by omega), if_pos (hskip c (Nat.le_refl _) (by omega)), hnext]
    rw [hnext] at hd hend hskip
    exact ih (Nat.le_add_right _ _) hd (fun i hi hlt => hskip i (by omega) hlt) hend

/-- It stops at the terminator at the latest, if it does not skip zeros. -/
theorem skip_spec (hz : l.buffer l.terminator = 0) (hp : p 0 = false) (hc : c ≤ l.terminator) :
    ∃ d, l.skip p c = some d ∧ c ≤ d ∧ d ≤ l.terminator ∧ (∀ i, c ≤ i → i < d → p (l.buffer i)) ∧
      p (l.buffer d) = false := by
  have hex : ∃ d, c ≤ d ∧ p (l.buffer d) = false := ⟨l.terminator, hc, by rw [hz, hp]⟩
  obtain ⟨hle, hend⟩ := Nat.find_spec hex
  have hlast : Nat.find hex ≤ l.terminator := Nat.find_min' hex ⟨hc, by rw [hz, hp]⟩
  have hskip (i : ℕ) (hi : c ≤ i) (hlt : i < Nat.find hex) : p (l.buffer i) := by
    by_contra hne
    exact Nat.find_min hex hlt ⟨hi, eq_false_of_ne_true hne⟩
  exact ⟨_, skip_of_forall hle hlast hskip hend, hle, hlast, hskip, hend⟩

/-- A loop backwards runs to the last byte that it does not skip. -/
theorem trim_of_forall (hd : d + 1 ≤ c) (hc : c ≤ l.terminator + 1)
    (hskip : ∀ i, d < i → i < c → p (l.buffer i)) (hend : p (l.buffer d) = false) :
    l.trim p c = some (d + 1) := by
  obtain ⟨n, rfl⟩ := Nat.exists_eq_add_of_le hd
  induction n with
  | zero => rw [Nat.add_zero, trim, if_pos (by omega), if_neg (ne_true_of_eq_false hend)]
  | succ n ih =>
    rw [← Nat.add_assoc, trim, if_pos (by omega), if_pos (hskip _ (by omega) (by omega))]
    exact ih (Nat.le_add_right _ _) (by omega) fun i hi hlt => hskip i hi (by omega)

/-- It stops at the latest there. -/
theorem trim_spec (hd : d < c) (hc : c ≤ l.terminator + 1) (hend : p (l.buffer d) = false) :
    ∃ e, l.trim p c = some (e + 1) ∧ d ≤ e ∧ e < c := by
  induction c with
  | zero => exact absurd hd (Nat.not_lt_zero _)
  | succ c ih =>
    rw [trim, if_pos (by omega)]
    split_ifs with hp
    · have hne : d ≠ c := by
        rintro rfl
        rw [hend] at hp
        cases hp
      obtain ⟨e, he, hle, hlt⟩ := ih (by omega) (by omega)
      exact ⟨e, he, hle, Nat.lt_succ_of_lt hlt⟩
    · exact ⟨c, rfl, by omega, Nat.lt_succ_self _⟩

/-! ### Inside of the line -/

theorem string_isSome (hz : l.buffer l.terminator = 0) (hc : c ≤ l.terminator) :
    ∃ s, l.string c = some s := by
  obtain ⟨d, hd, -⟩ := @skip_spec l (· != 0) c hz rfl hc
  exact ⟨_, by rw [string, hd]; rfl⟩

/-- After a zero was put into it, a line still ends in one. -/
theorem write_terminator (hz : l.buffer l.terminator = 0) :
    (l.buffer.write c [0]) l.terminator = 0 := by
  rw [ByteMemory.write]
  split_ifs with h
  · have hc : l.terminator - c = 0 := by
      rw [List.length_singleton] at h
      omega
    rw [hc]
    rfl
  · exact hz

/-- The rest of a round stays inside of the line. -/
theorem parseValue_isSome {name : ℕ} (hz : l.buffer l.terminator = 0) (hn : name ≤ l.terminator)
    (hc : c ≤ l.terminator) :
    ∃ r, l.parseValue name c = some r := by
  obtain ⟨v, hv, -, hvt, -, hns⟩ := @skip_spec l isspace c hz rfl hc
  simp only [parseValue, hv, byteAt_of_le hvt, Option.bind_eq_bind, Option.bind_some]
  by_cases hzero : l.buffer v = 0
  · exact ⟨_, if_pos hzero⟩
  rw [if_neg hzero]
  obtain ⟨e, he, hve, het, -, hend⟩ := @skip_spec l (· != 0) v hz rfl hvt
  have hlt : v < e := by
    refine Nat.lt_of_le_of_ne hve ?_
    rintro rfl
    exact hzero (by simpa using hend)
  obtain ⟨t, ht, -, hte⟩ := trim_spec hlt (Nat.le_succ_of_le het) hns
  have hcut := @cut_of_le l (t + 1) (by omega)
  have hz' := @write_terminator l (t + 1) hz
  obtain ⟨s, hs⟩ := @string_isSome { l with buffer := l.buffer.write (t + 1) [0] } name hz' hn
  obtain ⟨w, hw⟩ := @string_isSome { l with buffer := l.buffer.write (t + 1) [0] } v hz' hvt
  simp only [he, ht, hcut, hs, hw, Option.bind_some]
  exact ⟨_, rfl⟩

/-- So does what comes before it. -/
theorem parseAssignment_isSome {name : ℕ} (hz : l.buffer l.terminator = 0)
    (hn : name ≤ l.terminator) (hc : c ≤ l.terminator) :
    ∃ r, l.parseAssignment name c = some r := by
  obtain ⟨a, ha, -, hat, -, -⟩ := @skip_spec l isspace c hz rfl hc
  simp only [parseAssignment, ha, byteAt_of_le hat, Option.bind_eq_bind, Option.bind_some]
  by_cases heq : l.buffer a = 0x3D
  · rw [if_pos heq]
    refine parseValue_isSome hz hn (Nat.lt_of_le_of_ne hat ?_)
    rintro rfl
    rw [hz] at heq
    exact absurd heq (by decide)
  · exact ⟨_, if_neg heq⟩

/-- **The scan stays inside of the line**: it never looks before the beginning of a line that ends
in a zero, and never behind this zero. -/
theorem parse_isSome (hz : l.buffer l.terminator = 0) : ∃ r, l.parse = some r := by
  obtain ⟨n, hn, -, hnt, -, -⟩ := @skip_spec l isspace 0 hz rfl (Nat.zero_le _)
  simp only [parse, hn, byteAt_of_le hnt, Option.bind_eq_bind, Option.bind_some]
  by_cases hcomment : l.buffer n = 0x23
  · exact ⟨_, if_pos hcomment⟩
  rw [if_neg hcomment]
  obtain ⟨e, he, -, het, -, -⟩ :=
    @skip_spec l (fun b => !isspace b && !(b == 0x3D) && !(b == 0)) n hz rfl hnt
  simp only [he, byteAt_of_le het, Option.bind_some]
  by_cases hend : l.buffer e = 0
  · exact ⟨_, if_pos hend⟩
  -- the terminator is behind the end of the name
  have hlt : e < l.terminator := by
    refine Nat.lt_of_le_of_ne het ?_
    rintro rfl
    exact hend hz
  rw [if_neg hend]
  simp only [cut_of_le het, Option.bind_some]
  exact @parseAssignment_isSome { l with buffer := l.buffer.write e [0] } (e + 1) n
    (write_terminator hz) hnt hlt

/-! ### What lies in the buffer -/

variable {name : ℕ} {s ws n value trail : CString}

theorem skip_of_holds (h : l.buffer.Holds c ws) (hws : ∀ b ∈ ws, p b)
    (hend : p (l.buffer (c + ws.length)) = false) (hle : c + ws.length ≤ l.terminator) :
    l.skip p c = some (c + ws.length) := by
  refine skip_of_forall (Nat.le_add_right _ _) hle (fun i hi hlt => ?_) hend
  obtain ⟨k, rfl⟩ := Nat.exists_eq_add_of_le hi
  exact hws _ (h.mem (by omega))

/-- A string is read. -/
theorem string_of_holds (h : l.buffer.Holds c (s ++ [0])) (hs : ∀ b ∈ s, b ≠ 0)
    (hle : c + s.length ≤ l.terminator) :
    l.string c = some s := by
  obtain ⟨hbytes, hzero⟩ := holds_append.mp h
  have hskip : l.skip (· != 0) c = some (c + s.length) := by
    refine skip_of_holds hbytes (fun b hb => bne_iff_ne.mpr (hs b hb)) ?_ hle
    rw [holds_singleton.mp hzero]
    rfl
  rw [string, hskip, Option.bind_eq_bind, Option.bind_some, Nat.add_sub_cancel_left]
  exact congrArg some hbytes

/-- A value neither begins nor ends in white space. -/
structure IsValue (value : CString) : Prop where
  /-- It is not empty. -/
  ne : value ≠ []
  /-- It is a string. -/
  string : ∀ b ∈ value, b ≠ 0
  /-- Its first character. -/
  head : ∀ b ∈ value.head?, isspace b = false
  /-- Its last character. -/
  last : ∀ b ∈ value.getLast?, isspace b = false

/-- What is left of a value behind its first character and the white space there. -/
theorem IsValue.dropWhile {b : UInt8} {rest : CString} (hv : IsValue (b :: rest))
    (hne : rest.dropWhile isspace ≠ []) :
    IsValue (rest.dropWhile isspace) where
  ne := hne
  string :=
    fun c hc => hv.string c (List.mem_cons_of_mem b ((List.dropWhile_sublist isspace).mem hc))
  head := by
    intro c hc
    have hnot := List.head?_dropWhile_not isspace rest
    rw [Option.mem_def.mp hc] at hnot
    exact hnot
  last := by
    intro c hc
    refine hv.last c ?_
    rw [← @List.takeWhile_append_dropWhile _ isspace rest, ← List.cons_append,
      List.getLast?_append_of_ne_nil _ hne]
    exact hc

theorem isspace_ne_zero {b : UInt8} (h : isspace b) : b ≠ 0 := by
  rintro rfl
  exact absurd h (by decide)

/-- Behind the assignment there is nothing but white space. -/
theorem parseValue_of_spaces (h : l.buffer.Holds c (ws ++ [0])) (hws : ∀ b ∈ ws, isspace b)
    (ht : l.terminator = c + ws.length) : l.parseValue name c = some (.emptyValue, l.buffer) := by
  obtain ⟨hbytes, hzero⟩ := holds_append.mp h
  rw [holds_singleton] at hzero
  have hskip := skip_of_holds hbytes hws (by rw [hzero]; rfl) (Nat.le_of_eq ht.symm)
  simp only [parseValue, hskip, byteAt_of_le (Nat.le_of_eq ht.symm), Option.bind_eq_bind,
    Option.bind_some]
  exact if_pos hzero

/-- Behind the assignment there is a value. -/
theorem parseValue_of_holds (hn : l.buffer.Holds name (n ++ [0])) (hns : ∀ b ∈ n, b ≠ 0)
    (hlt : name + n.length < c) (h : l.buffer.Holds c (ws ++ (value ++ (trail ++ [0]))))
    (hws : ∀ b ∈ ws, isspace b) (htrail : ∀ b ∈ trail, isspace b)
    (hv : IsValue value) (ht : l.terminator = c + (ws.length + (value.length + trail.length))) :
    ∃ next, l.parseValue name c = some (.call n value, next) := by
  rw [holds_append, holds_append, holds_append, holds_singleton] at h
  obtain ⟨hspace, hvalue, htr, hzero⟩ := h
  have hlen : 0 < value.length := List.length_pos_iff.mpr hv.ne
  have hend : c + ws.length + value.length + trail.length = l.terminator := by omega
  rw [hend] at hzero
  -- the first character and the last one
  obtain ⟨first, hfirst, hfs⟩ : ∃ b, l.buffer (c + ws.length) = b ∧ isspace b = false := by
    obtain ⟨b, rest, hb⟩ := List.exists_cons_of_ne_nil hv.ne
    rw [hb, holds_cons] at hvalue
    exact ⟨b, hvalue.1, hv.head b (by rw [hb]; rfl)⟩
  obtain ⟨last, hlast, hls⟩ : ∃ b, l.buffer (c + ws.length + (value.length - 1)) = b ∧
      isspace b = false := by
    obtain ⟨init, b, hb⟩ := (List.eq_nil_or_concat' value).resolve_left hv.ne
    rw [hb, holds_append, holds_singleton] at hvalue
    refine ⟨b, ?_, hv.last b (by rw [hb, List.getLast?_concat]; rfl)⟩
    rw [hb, List.length_append, List.length_singleton, Nat.add_sub_cancel]
    exact hvalue.2
  have hskip : l.skip isspace c = some (c + ws.length) :=
    skip_of_holds hspace hws (by rw [hfirst, hfs]) (by omega)
  have hne : l.buffer (c + ws.length) ≠ 0 := hv.string _ (hvalue.mem hlen)
  have hall : l.skip (· != 0) (c + ws.length) = some l.terminator := by
    have hboth : l.buffer.Holds (c + ws.length) (value ++ trail) := holds_append.mpr ⟨hvalue, htr⟩
    have hto : c + ws.length + (value ++ trail).length = l.terminator := by
      rw [List.length_append]
      omega
    rw [← hto]
    refine skip_of_holds hboth (fun b hb => bne_iff_ne.mpr ?_) (by rw [hto, hzero]; rfl)
      (Nat.le_of_eq hto)
    exact (List.mem_append.mp hb).elim (hv.string b) fun h => isspace_ne_zero (htrail b h)
  have htrim : l.trim isspace l.terminator = some (c + ws.length + value.length) := by
    have hback :=
      @trim_of_forall l isspace l.terminator (c + ws.length + (value.length - 1)) (by omega)
      (Nat.le_succ _) (fun i hi hlt => by
        obtain ⟨k, rfl⟩ : ∃ k, i = c + ws.length + value.length + k :=
          ⟨i - (c + ws.length + value.length), by omega⟩
        exact htrail _ (htr.mem (by omega))) (by rw [hlast, hls])
    rw [hback]
    congr 1
    omega
  have hcut := @cut_of_le l (c + ws.length + value.length) (by omega)
  have hname :=
    @string_of_holds { l with buffer := l.buffer.write (c + ws.length + value.length) [0] } name n
    (hn.write (Or.inl (by rw [List.length_append, List.length_singleton]; omega))) hns
    (show name + n.length ≤ l.terminator by omega)
  have hval :=
    @string_of_holds { l with buffer := l.buffer.write (c + ws.length + value.length) [0] }
    (c + ws.length) value
      (holds_append.mpr ⟨hvalue.write (Or.inl (Nat.le_refl _)), holds_write_self ..⟩) hv.string
    (show c + ws.length + value.length ≤ l.terminator by omega)
  simp only [parseValue, hskip, byteAt_of_le (by omega : c + ws.length ≤ l.terminator),
    Option.bind_eq_bind, Option.bind_some, if_neg hne, hall, htrim, hcut, hname, hval]
  exact ⟨_, rfl⟩

/-- The name of a variable. -/
structure IsVariable (name : CString) : Prop where
  /-- It is not empty. -/
  ne : name ≠ []
  /-- It is not a comment. -/
  head : ∀ b ∈ name.head?, b ≠ 0x23
  /-- It goes on to white space, an `=`, or the end of the line. -/
  chars : ∀ b ∈ name, isspace b = false ∧ b ≠ 0x3D ∧ b ≠ 0

variable {indent rest : CString} {b : UInt8}

/-- A name is found, and cut off where it ends. -/
theorem parse_of_holds (h : l.buffer.Holds 0 (indent ++ (n ++ b :: rest)))
    (hindent : ∀ b ∈ indent, isspace b) (hn : IsVariable n) (hb : isspace b ∨ b = 0x3D)
    (ht : indent.length + n.length ≤ l.terminator) :
    l.parse = Line.parseAssignment
      { l with buffer := l.buffer.write (indent.length + n.length) [0] } indent.length
      (indent.length + n.length + 1) := by
  rw [holds_append, holds_append, holds_cons, Nat.zero_add] at h
  obtain ⟨hspace, hname, hdelim, -⟩ := h
  have hlen : 0 < n.length := List.length_pos_iff.mpr hn.ne
  obtain ⟨hfs, -, -⟩ := hn.chars _ (hname.mem hlen)
  have hcomment : l.buffer indent.length ≠ 0x23 := by
    obtain ⟨first, tail, hfirst⟩ := List.exists_cons_of_ne_nil hn.ne
    rw [hfirst, holds_cons] at hname
    exact hname.1 ▸ hn.head first (by rw [hfirst]; rfl)
  have hskip := skip_of_holds hspace hindent (by rwa [Nat.zero_add]) (by omega)
  rw [Nat.zero_add] at hskip
  have hstop : (!isspace b && !(b == 0x3D) && !(b == 0)) = false := by
    rcases hb with hb | rfl
    · rw [hb]
      rfl
    · rfl
  have hnext : l.skip (fun b => !isspace b && !(b == 0x3D) && !(b == 0)) indent.length =
      some (indent.length + n.length) := by
    refine skip_of_holds hname (fun a ha => ?_) (by rw [hdelim]; exact hstop) ht
    obtain ⟨hs, heq, hz⟩ := hn.chars a ha
    rw [hs, beq_false_of_ne heq, beq_false_of_ne hz]
    rfl
  have hne : l.buffer (indent.length + n.length) ≠ 0 := by
    rw [hdelim]
    rcases hb with hb | rfl
    · exact isspace_ne_zero hb
    · decide
  simp only [parse, hskip, byteAt_of_le (Nat.le_trans (Nat.le_add_right _ _) ht),
    Option.bind_eq_bind, Option.bind_some, if_neg hcomment, hnext, byteAt_of_le ht,
    if_neg hne, cut_of_le ht]

/-- A line without content. -/
theorem parse_of_blank (h : l.buffer.Holds 0 (ws ++ [0])) (hws : ∀ b ∈ ws, isspace b)
    (ht : ws.length ≤ l.terminator) :
    l.parse = some (.skipped, l.buffer) := by
  rw [holds_append, holds_singleton, Nat.zero_add] at h
  have hskip := skip_of_holds h.1 hws (by rw [Nat.zero_add, h.2]; rfl) (by rwa [Nat.zero_add])
  rw [Nat.zero_add] at hskip
  have hstay :
      l.skip (fun b => !isspace b && !(b == 0x3D) && !(b == 0)) ws.length = some ws.length :=
    skip_of_forall (Nat.le_refl _) ht (fun i hi hlt => absurd hlt (Nat.not_lt.mpr hi))
      (by rw [h.2]; rfl)
  have hcomment : l.buffer ws.length ≠ 0x23 := by
    rw [h.2]
    decide
  simp only [parse, hskip, byteAt_of_le ht, Option.bind_eq_bind, Option.bind_some,
    if_neg hcomment, hstay]
  exact if_pos h.2

/-- A comment. -/
theorem parse_of_comment (h : l.buffer.Holds 0 (ws ++ 0x23 :: rest)) (hws : ∀ b ∈ ws, isspace b)
    (ht : ws.length ≤ l.terminator) : l.parse = some (.skipped, l.buffer) := by
  rw [holds_append, holds_cons, Nat.zero_add] at h
  have hskip := skip_of_holds h.1 hws (by rw [Nat.zero_add, h.2.1]; rfl) (by rwa [Nat.zero_add])
  rw [Nat.zero_add] at hskip
  simp only [parse, hskip, byteAt_of_le ht, Option.bind_eq_bind, Option.bind_some]
  exact if_pos h.2.1

/-- Behind a name with white space after it there is an assignment. -/
theorem parseAssignment_of_holds (h : l.buffer.Holds c (ws ++ 0x3D :: rest))
    (hws : ∀ b ∈ ws, isspace b) (ht : c + ws.length ≤ l.terminator) :
    l.parseAssignment name c = l.parseValue name (c + ws.length + 1) := by
  rw [holds_append, holds_cons] at h
  have hskip := skip_of_holds h.1 hws (by rw [h.2.1]; rfl) ht
  simp only [parseAssignment, hskip, byteAt_of_le ht, Option.bind_eq_bind,
    Option.bind_some, if_pos h.2.1]

/-- Behind it there is something else. -/
theorem parseAssignment_of_ne (h : l.buffer.Holds c (ws ++ b :: rest)) (hws : ∀ b ∈ ws, isspace b)
    (hb : isspace b = false) (hne : b ≠ 0x3D) (ht : c + ws.length ≤ l.terminator) :
    l.parseAssignment name c = some (.missingAssignment, l.buffer) := by
  rw [holds_append, holds_cons] at h
  have hskip := skip_of_holds h.1 hws (by rw [h.2.1, hb]) ht
  have hne' : l.buffer (c + ws.length) ≠ 0x3D := by rwa [h.2.1]
  simp only [parseAssignment, hskip, byteAt_of_le ht, Option.bind_eq_bind,
    Option.bind_some, if_neg hne']
  rfl

end Line

/-! ### Assignments -/

/-- A line that assigns a value to a name. -/
structure Assignment where
  /-- White space before the name. -/
  indent : CString
  /-- The name. -/
  name : CString
  /-- White space behind it. -/
  gap : CString
  /-- White space before the value. -/
  space : CString
  /-- The value. -/
  value : CString
  /-- White space behind it. -/
  trail : CString
  /-- It is white space. -/
  spaces : ∀ b ∈ indent ++ gap ++ space ++ trail, isspace b
  /-- It is a name. -/
  isVariable : Line.IsVariable name
  /-- It is a value. -/
  isValue : Line.IsValue value

namespace Assignment

/-- The line. -/
def text (a : Assignment) : CString :=
  a.indent ++ (a.name ++ (a.gap ++ 0x3D :: (a.space ++ (a.value ++ a.trail))))

variable (a : Assignment) {l : Line}

theorem length_text : a.text.length = a.indent.length + (a.name.length + (a.gap.length +
    (1 + (a.space.length + (a.value.length + a.trail.length))))) := by
  simp only [text, List.length_append, List.length_cons]
  omega

theorem indent_spaces : ∀ b ∈ a.indent, isspace b := fun b hb => a.spaces b (by simp [hb])
theorem gap_spaces : ∀ b ∈ a.gap, isspace b := fun b hb => a.spaces b (by simp [hb])
theorem space_spaces : ∀ b ∈ a.space, isspace b := fun b hb => a.spaces b (by simp [hb])
theorem trail_spaces : ∀ b ∈ a.trail, isspace b := fun b hb => a.spaces b (by simp [hb])

/-- The name lies before a zero when it was cut off, and the rest as it was. -/
theorem holds_cut {b : UInt8} {rest : CString}
    (h : l.buffer.Holds 0 (a.indent ++ (a.name ++ b :: rest))) :
    (l.buffer.write (a.indent.length + a.name.length) [0]).Holds a.indent.length (a.name ++ [0]) ∧
      (l.buffer.write (a.indent.length + a.name.length) [0]).Holds
        (a.indent.length + a.name.length + 1) rest := by
  rw [holds_append, holds_append, holds_cons, Nat.zero_add] at h
  obtain ⟨-, hname, -, hrest⟩ := h
  exact ⟨holds_append.mpr ⟨hname.write (Or.inl (Nat.le_refl _)), holds_write_self ..⟩,
    hrest.write (Or.inr (Nat.le_refl _))⟩

/-- With white space behind the name, it gets its value. -/
theorem parse_of_gap (hgap : a.gap ≠ []) (h : l.buffer.Holds 0 (a.text ++ [0]))
    (ht : l.terminator = a.text.length) :
    ∃ next, l.parse = some (.call a.name a.value, next) := by
  obtain ⟨b, gap, hb⟩ := List.exists_cons_of_ne_nil hgap
  have hgaps := a.gap_spaces
  rw [length_text, hb, List.length_cons] at ht
  rw [hb, List.forall_mem_cons] at hgaps
  have htext : a.text ++ [0] =
      a.indent ++ (a.name ++ b :: (gap ++ 0x3D :: (a.space ++ (a.value ++ (a.trail ++ [0]))))) := by
    simp only [text, hb, List.append_assoc, List.cons_append]
  rw [htext] at h
  obtain ⟨hname, hrest⟩ := a.holds_cut h
  have hvalue := (holds_cons.mp (holds_append.mp hrest).2).2
  rw [Line.parse_of_holds h a.indent_spaces a.isVariable (Or.inl hgaps.1) (by omega),
    @Line.parseAssignment_of_holds
      { l with buffer := l.buffer.write (a.indent.length + a.name.length) [0] } _ _ _ _ hrest
      hgaps.2 (show _ ≤ l.terminator by omega)]
  exact Line.parseValue_of_holds hname (fun c hc => (a.isVariable.chars c hc).2.2)
    (by omega) hvalue a.space_spaces a.trail_spaces a.isValue (show l.terminator = _ by omega)

/-- Without it, it does not. -/
theorem parse_of_no_gap (hgap : a.gap = []) (h : l.buffer.Holds 0 (a.text ++ [0]))
    (ht : l.terminator = a.text.length) :
    ∃ outcome next, l.parse = some (outcome, next) ∧
      (outcome = .missingAssignment ∨ outcome = .emptyValue ∨ ∃ v, outcome = .call a.name v ∧
        v.length < a.value.length) := by
  rw [length_text, hgap, List.length_nil, Nat.zero_add] at ht
  have htext :
      a.text ++ [0] = a.indent ++
      (a.name ++ 0x3D :: (a.space ++ (a.value ++ (a.trail ++ [0])))) := by
    simp only [text, hgap, List.append_assoc, List.cons_append, List.nil_append]
  rw [htext] at h
  obtain ⟨hname, hrest⟩ := a.holds_cut h
  rw [Line.parse_of_holds h a.indent_spaces a.isVariable (Or.inr rfl) (by omega)]
  obtain ⟨first, rest, hv⟩ := List.exists_cons_of_ne_nil a.isValue.ne
  have hlen : a.value.length = rest.length + 1 := by rw [hv, List.length_cons]
  rw [hv, List.cons_append] at hrest
  by_cases heq : first = 0x3D
  · -- the value's own first character is taken for the assignment
    subst heq
    rw [@Line.parseAssignment_of_holds
      { l with buffer := l.buffer.write (a.indent.length + a.name.length) [0] } _ _ _ _
      hrest a.space_spaces (show _ ≤ l.terminator by omega)]
    have hvalue := (holds_cons.mp (holds_append.mp hrest).2).2
    have hsplit : rest = rest.takeWhile isspace ++ rest.dropWhile isspace :=
      List.takeWhile_append_dropWhile.symm
    have hspaces : ∀ b ∈ rest.takeWhile isspace, isspace b := fun b hb => List.mem_takeWhile_imp hb
    have hrlen := congrArg List.length hsplit
    rw [List.length_append] at hrlen
    by_cases hnil : rest.dropWhile isspace = []
    · rw [hnil, List.append_nil] at hsplit
      rw [← hsplit] at hspaces
      rw [← List.append_assoc] at hvalue
      refine ⟨_, _,
        Line.parseValue_of_spaces hvalue (fun b hb => ?_) (show l.terminator = _ from ?_),
        Or.inr (Or.inl rfl)⟩
      · exact (List.mem_append.mp hb).elim (hspaces b) (a.trail_spaces b)
      · rw [List.length_append]
        omega
    · have hleft : Line.IsValue (rest.dropWhile isspace) :=
        Line.IsValue.dropWhile (hv ▸ a.isValue) hnil
      have hbefore :
        a.indent.length + a.name.length < a.indent.length + a.name.length + 1 +
        a.space.length + 1 := by omega
      rw [hsplit, List.append_assoc] at hvalue
      obtain ⟨next, hnext⟩ :=
        @Line.parseValue_of_holds
        { l with buffer := l.buffer.write (a.indent.length + a.name.length) [0] }
        _ _ _ _ _ _ hname (fun c hc => (a.isVariable.chars c hc).2.2)
          hbefore hvalue hspaces a.trail_spaces hleft
        (show l.terminator = _ by omega)
      exact ⟨_, next, hnext, Or.inr (Or.inr ⟨_, rfl, by omega⟩)⟩
  · refine ⟨_, _,
      @Line.parseAssignment_of_ne
      { l with buffer := l.buffer.write (a.indent.length + a.name.length) [0] }
      _ _ _ _ _ hrest a.space_spaces (a.isValue.head first (by rw [hv]; rfl)) heq
        (show _ ≤ l.terminator by omega), ?_⟩
    exact Or.inl rfl

end Assignment

/-! ### Files -/

section File

variable {getaddrinfo : CString → Except ℤ (List AddrInfo)} {buffer next : ByteMemory} {lineno : ℕ}
  {config : RuntimeConfig} {line rest file : List UInt8} {outcome : Line.Outcome}

/-- A line that the buffer has room for, and what comes after it in the file. -/
structure IsLine (line rest : List UInt8) : Prop where
  /-- There is room. -/
  short : line.length < CONFIG_BUFFER_SIZE
  /-- It ends in a newline, or with the file. -/
  ends : (∃ l, line = l ++ [0x0A] ∧ 0x0A ∉ l) ∨ (line ≠ [] ∧ 0x0A ∉ line ∧ rest = [])

theorem fgets_newline {n : ℕ} {l : List UInt8} (hl : 0x0A ∉ l) (hn : l.length < n) :
    fgets n (l ++ 0x0A :: rest) = (l ++ [0x0A], rest) := by
  induction l generalizing n with
  | nil =>
    obtain ⟨n, rfl⟩ := Nat.exists_eq_succ_of_ne_zero (Nat.ne_of_gt hn)
    rfl
  | cons b l ih =>
    obtain ⟨n, rfl⟩ := Nat.exists_eq_succ_of_ne_zero (Nat.ne_of_gt (Nat.zero_lt_of_lt hn))
    rw [List.mem_cons, not_or] at hl
    obtain ⟨hb, hl⟩ := hl
    rw [List.cons_append, fgets, if_neg (Ne.symm hb), ih hl (Nat.lt_of_succ_lt_succ hn)]
    rfl

theorem fgets_last {n : ℕ} {l : List UInt8} (hl : 0x0A ∉ l) (hn : l.length ≤ n) :
    fgets n l = (l, []) := by
  induction l generalizing n with
  | nil => cases n <;> rfl
  | cons b l ih =>
    obtain ⟨n, rfl⟩ := Nat.exists_eq_succ_of_ne_zero (Nat.ne_of_gt (Nat.zero_lt_of_lt hn))
    rw [List.mem_cons, not_or] at hl
    obtain ⟨hb, hl⟩ := hl
    rw [fgets, if_neg (Ne.symm hb), ih hl (Nat.le_of_succ_le_succ hn)]

/-- A line is read as it is. -/
theorem IsLine.fgets_eq (h : IsLine line rest) :
    fgets (CONFIG_BUFFER_SIZE - 1) (line ++ rest) = (line, rest) := by
  have hshort := h.short
  rcases h.ends with ⟨l, rfl, hl⟩ | ⟨-, hl, rfl⟩
  · rw [List.length_append, List.length_singleton] at hshort
    rw [List.append_assoc, List.singleton_append]
    exact fgets_newline hl (by omega)
  · rw [List.append_nil]
    exact fgets_last hl (by omega)

theorem IsLine.ne (h : IsLine line rest) : line ≠ [] := by
  rcases h.ends with ⟨l, rfl, -⟩ | ⟨hne, -⟩
  · exact List.append_ne_nil_of_right_ne_nil _ (List.cons_ne_nil _ _)
  · exact hne

theorem holds_ofString (buffer : ByteMemory) (line : CString) :
    (Line.ofString buffer line).buffer.Holds 0 (line ++ [0]) :=
  holds_write_self ..

theorem terminator_ofString (h : ∀ b ∈ line, b ≠ 0) :
    (Line.ofString buffer line).terminator = line.length :=
  congrArg List.length (List.takeWhile_eq_self_iff.mpr fun b hb => bne_iff_ne.mpr (h b hb))

/-- The terminator of a line is a zero. -/
theorem ofString_terminator (buffer : ByteMemory) (line : CString) :
    (Line.ofString buffer line).buffer (Line.ofString buffer line).terminator = 0 := by
  have hsplit : line = line.takeWhile (· != 0) ++ line.dropWhile (· != 0) :=
    List.takeWhile_append_dropWhile.symm
  have hholds := holds_ofString buffer line
  rw [hsplit, List.append_assoc, holds_append, ← hsplit, Nat.zero_add] at hholds
  have hrest := hholds.2
  cases hdrop : line.dropWhile (· != 0) with
  | nil =>
    rw [hdrop, List.nil_append, holds_singleton] at hrest
    exact hrest
  | cons b l =>
    have hnot := List.head?_dropWhile_not (· != 0) line
    rw [hdrop, List.cons_append, holds_cons] at hrest
    rw [hdrop] at hnot
    exact hrest.1.trans (by simpa using hnot)

/-- A round of the loop. -/
theorem parseLines_line (h : IsLine line rest)
    (hp : (Line.ofString buffer line).parse = some (outcome, next)) :
    parseLines getaddrinfo buffer lineno config (line ++ rest) =
      outcome.finish getaddrinfo (lineno + 1) config fun config =>
      parseLines getaddrinfo next (lineno + 1) config rest := by
  have hread := h.fgets_eq
  obtain ⟨b, l, rfl⟩ := List.exists_cons_of_ne_nil h.ne
  rw [List.cons_append] at hread ⊢
  rw [parseLines, hread]
  simp only [hp, Option.bind_eq_bind, Option.bind_some]

theorem finish_isSome {loop : RuntimeConfig → Option Parsed}
    (h : ∀ config, ∃ r, loop config = some r) :
    ∃ r, outcome.finish getaddrinfo lineno config loop = some r := by
  obtain ⟨r, hr⟩ := h config
  cases outcome with
  | skipped => exact ⟨r, hr⟩
  | missingAssignment => exact ⟨_, by rw [Line.Outcome.finish, hr, Option.map_some]⟩
  | emptyValue => exact ⟨_, by rw [Line.Outcome.finish, hr, Option.map_some]⟩
  | call name value =>
    rw [Line.Outcome.finish]
    cases parseVariable getaddrinfo lineno name value config with
    | error e => exact ⟨_, rfl⟩
    | ok config =>
      obtain ⟨r, hr⟩ := h config
      exact ⟨_, congrArg (Option.map _) hr⟩

/-- No file leads the scan out of a line. -/
theorem parseLines_isSome (file : List UInt8) (buffer : ByteMemory) (lineno : ℕ)
    (config : RuntimeConfig) :
    ∃ r, parseLines getaddrinfo buffer lineno config file = some r := by
  induction hn :
      file.length using Nat.strong_induction_on generalizing file buffer lineno config with
  | _ n ih =>
    cases file with
    | nil => exact ⟨_, by rw [parseLines]⟩
    | cons b file =>
      have hlt := length_fgets_cons_lt (CONFIG_BUFFER_SIZE - 2) b file
      obtain ⟨⟨outcome, next⟩, hp⟩ := Line.parse_isSome (ofString_terminator buffer
        (fgets (CONFIG_BUFFER_SIZE - 1) (b :: file)).1)
      rw [parseLines]
      simp only [hp, Option.bind_eq_bind, Option.bind_some]
      exact finish_isSome fun config => ih _ (hn ▸ hlt) _ next (lineno + 1) config rfl

theorem parseArgs_isSome (fopen : CString → Except CString (List UInt8)) (argv : List CString) :
    ∃ r, parseArgs fopen getaddrinfo buffer argv = some r := by
  cases argv with
  | nil => exact ⟨_, rfl⟩
  | cons filename argv =>
    rw [parseArgs]
    cases fopen filename with
    | error e => exact ⟨_, rfl⟩
    | ok file => exact parseLines_isSome file buffer 0 runtimeConfig

/-- A call is what is seen next. -/
theorem finish_call {loop : RuntimeConfig → Option Parsed} {name value : CString}
    (h : ∀ config, ∃ r, loop config = some r) :
    ∃ r, Line.Outcome.finish getaddrinfo lineno config loop (.call name value) = some r ∧
      r.events.head? = some (.parse_variable lineno name value) := by
  rw [Line.Outcome.finish]
  cases parseVariable getaddrinfo lineno name value config with
  | error e => exact ⟨_, rfl, rfl⟩
  | ok config =>
    obtain ⟨r, hr⟩ := h config
    exact ⟨_, congrArg (Option.map _) hr, rfl⟩

/-- The next thing that is seen of the loop is this call. -/
def Passes (getaddrinfo : CString → Except ℤ (List AddrInfo)) (buffer : ByteMemory) (lineno : ℕ)
    (config : RuntimeConfig) (file : List UInt8) (name value : CString) : Prop :=
  ∃ r, parseLines getaddrinfo buffer lineno config file = some r ∧
    r.events.head? = some (.parse_variable (lineno + 1) name value)

namespace Assignment

variable (a : Assignment)

/-- There are no zeros in the line. -/
theorem text_ne_zero : ∀ b ∈ a.text, b ≠ 0 := by
  intro b hb
  simp only [text, List.mem_append, List.mem_cons] at hb
  rcases hb with hb | hb | hb | rfl | hb | hb | hb
  · exact Line.isspace_ne_zero (a.indent_spaces b hb)
  · exact (a.isVariable.chars b hb).2.2
  · exact Line.isspace_ne_zero (a.gap_spaces b hb)
  · decide
  · exact Line.isspace_ne_zero (a.space_spaces b hb)
  · exact a.isValue.string b hb
  · exact Line.isspace_ne_zero (a.trail_spaces b hb)

/-- A call passes the name and the value if and only if there is white space between the name and
the `=`. -/
theorem passes_iff (h : IsLine a.text rest) :
    Passes getaddrinfo buffer lineno config (a.text ++ rest) a.name a.value ↔ a.gap ≠ [] := by
  have hholds := holds_ofString buffer a.text
  have hterm := @terminator_ofString buffer _ a.text_ne_zero
  constructor
  · rintro ⟨r, hr, hhead⟩ hgap
    obtain ⟨outcome, next, hp, hout⟩ := a.parse_of_no_gap hgap hholds hterm
    rw [parseLines_line h hp] at hr
    have hloop (config : RuntimeConfig) :=
      @parseLines_isSome getaddrinfo rest next (lineno + 1) config
    rcases hout with rfl | rfl | ⟨v, rfl, hlt⟩
    · obtain ⟨r', -, rfl⟩ := Option.map_eq_some_iff.mp hr
      cases hhead
    · obtain ⟨r', -, rfl⟩ := Option.map_eq_some_iff.mp hr
      cases hhead
    · obtain ⟨r', hr', hhead'⟩ := @finish_call getaddrinfo (lineno + 1) config _ a.name v hloop
      obtain rfl := Option.some.inj (hr.symm.trans hr')
      have heq := hhead.symm.trans hhead'
      simp only [Option.some.injEq, ConfigEvent.parse_variable.injEq, true_and] at heq
      rw [heq] at hlt
      exact absurd hlt (Nat.lt_irrefl _)
  · intro hgap
    obtain ⟨next, hp⟩ := a.parse_of_gap hgap hholds hterm
    rw [Passes, parseLines_line h hp]
    exact finish_call fun config => parseLines_isSome rest next (lineno + 1) config

end Assignment

/-- A line without content, or a comment. -/
def IsVoid (line : List UInt8) : Prop :=
  ∃ ws, (∀ b ∈ ws, isspace b) ∧ (line = ws ∨ ∃ comment, line = ws ++ 0x23 :: comment)

/-- It is skipped. -/
theorem parse_void (hv : IsVoid line) :
    (Line.ofString buffer line).parse = some (.skipped, (Line.ofString buffer line).buffer) := by
  obtain ⟨ws, hws, rfl | ⟨comment, rfl⟩⟩ := hv
  · exact Line.parse_of_blank (holds_ofString buffer line) hws
      (Nat.le_of_eq (terminator_ofString fun b hb => Line.isspace_ne_zero (hws b hb)).symm)
  · have hholds := holds_ofString buffer (ws ++ 0x23 :: comment)
    rw [List.append_assoc, List.cons_append] at hholds
    refine Line.parse_of_comment hholds hws ?_
    have hpos : ∀ b ∈ ws, (b != 0) = true :=
      fun b hb => bne_iff_ne.mpr (Line.isspace_ne_zero (hws b hb))
    rw [Line.ofString, List.takeWhile_append_of_pos hpos, List.length_append]
    exact Nat.le_add_right _ _

/-- It does nothing. -/
theorem parseLines_void (h : IsLine line rest) (hv : IsVoid line) :
    ∃ next, parseLines getaddrinfo buffer lineno config (line ++ rest) =
      parseLines getaddrinfo next (lineno + 1) config rest :=
  ⟨_, parseLines_line h (parse_void hv)⟩

/-- **Lines of the configuration.** In every state of the loop, the next line that assigns a value
to a name leads to a call with this name and this value if and only if there is white space between
the name and the `=`. Lines without content and comments do nothing. The scan stays inside of every
line that ends in a zero, and of all that are read from any file. -/
theorem assigned_iff (fopen : CString → Except CString (List UInt8))
    (getaddrinfo : CString → Except ℤ (List AddrInfo)) (buffer : ByteMemory) (lineno : ℕ)
    (config : RuntimeConfig) (rest : List UInt8) :
    (∀ a : Assignment, IsLine a.text rest →
      (Passes getaddrinfo buffer lineno config (a.text ++ rest) a.name a.value ↔ a.gap ≠ [])) ∧
    (∀ line, IsLine line rest → IsVoid line →
      ∃ next, parseLines getaddrinfo buffer lineno config (line ++ rest) =
        parseLines getaddrinfo next (lineno + 1) config rest) ∧
    (∀ l : Line, l.buffer l.terminator = 0 → l.parse ≠ none) ∧
    ∀ argv, parseArgs fopen getaddrinfo buffer argv ≠ none := by
  refine ⟨fun a h => a.passes_iff h, fun line h hv => parseLines_void h hv, fun l hz => ?_,
    fun argv => ?_⟩
  · obtain ⟨r, hr⟩ := Line.parse_isSome hz
    exact Option.ne_none_iff_exists'.mpr ⟨r, hr⟩
  · obtain ⟨r, hr⟩ := @parseArgs_isSome getaddrinfo buffer fopen argv
    exact Option.ne_none_iff_exists'.mpr ⟨r, hr⟩

/-- `listen_port`, with that many blanks before the `=`. -/
def listenPort (n : ℕ) : Assignment where
  indent := []
  name := [0x6C, 0x69, 0x73, 0x74, 0x65, 0x6E, 0x5F, 0x70, 0x6F, 0x72, 0x74]
  gap := List.replicate n 0x20
  space := []
  value := [0x31]
  trail := [0x0A]
  spaces := by
    intro b hb
    rcases List.mem_append.mp hb with hb | hb
    · rw [List.append_nil, List.nil_append] at hb
      rw [List.eq_of_mem_replicate hb]
      rfl
    · rw [List.mem_singleton.mp hb]
      rfl
  isVariable := ⟨List.cons_ne_nil _ _, by simp, by simp [isspace]⟩
  isValue := ⟨List.cons_ne_nil _ _, by simp, by simp [isspace], by simp [isspace]⟩

/-- With a blank it is passed. -/
theorem assigned_listen_port :
    Passes (fun _ => .error 0) (fun _ => 0) 0 runtimeConfig ((listenPort 1).text ++ [])
    (listenPort 1).name [0x31] :=
  ((assigned_iff (fun _ => .error []) (fun _ => .error 0) (fun _ => 0) 0 runtimeConfig []).1
    (listenPort 1) ⟨by decide, Or.inl ⟨(listenPort 1).text.dropLast, rfl, by decide⟩⟩).mpr
    (List.cons_ne_nil _ _)

/-- Without it, it is not. -/
theorem not_assigned_listen_port : IsLine (listenPort 0).text [] ∧
    ¬ Passes (fun _ => .error 0) (fun _ => 0) 0 runtimeConfig ((listenPort 0).text ++ [])
      (listenPort 0).name [0x31] := by
  have hline : IsLine (listenPort 0).text [] :=
    ⟨by decide, Or.inl ⟨(listenPort 0).text.dropLast, rfl, by decide⟩⟩
  exact ⟨hline, fun h => (Assignment.passes_iff _ hline).mp h rfl⟩

end File

/-! ### Whole files -/

/-- A line that does what it says. -/
inductive ConfigLine where
  /-- Nothing. -/
  | void (line : List UInt8) (h : IsVoid line)
  /-- It assigns a value. -/
  | assignment (a : Assignment) (h : a.gap ≠ [])

namespace ConfigLine

/-- The line. -/
def text : ConfigLine → List UInt8
  | void line _ => line
  | assignment a _ => a.text

/-- Lines that make up a file. -/
def AreLines : List ConfigLine → Prop
  | [] => True
  | l :: ls => IsLine l.text (ls.flatMap text) ∧ AreLines ls

/-- What lines mean: the values are assigned in order, up to the first that is refused. -/
def run (getaddrinfo : CString → Except ℤ (List AddrInfo)) : ℕ → RuntimeConfig →
    List ConfigLine → Parsed
  | _, config, [] => ⟨[], some config⟩
  | lineno, config, void _ _ :: ls => run getaddrinfo (lineno + 1) config ls
  | lineno, config, assignment a _ :: ls =>
    match parseVariable getaddrinfo (lineno + 1) a.name a.value config with
    | .error e => ⟨[.parse_variable (lineno + 1) a.name a.value, .err_print e], none⟩
    | .ok config =>
      (run getaddrinfo (lineno + 1) config ls).after (.parse_variable (lineno + 1) a.name a.value)

/-- **A file of such lines does what they mean.** -/
theorem parseLines_eq_run {getaddrinfo : CString → Except ℤ (List AddrInfo)} {ls : List ConfigLine}
    (h : AreLines ls) (buffer : ByteMemory) (lineno : ℕ) (config : RuntimeConfig) :
    parseLines getaddrinfo buffer lineno config (ls.flatMap text) =
    some (run getaddrinfo lineno config ls) := by
  induction ls generalizing buffer lineno config with
  | nil => rw [List.flatMap_nil, parseLines, run]
  | cons l ls ih =>
    obtain ⟨hl, hls⟩ := h
    rw [List.flatMap_cons]
    cases l with
    | void line hv => rw [parseLines_line hl (parse_void hv), Line.Outcome.finish, ih hls, run]
    | assignment a hgap =>
      obtain ⟨next, hp⟩ :=
        a.parse_of_gap hgap (holds_ofString buffer a.text) (terminator_ofString a.text_ne_zero)
      rw [parseLines_line hl hp, Line.Outcome.finish, run]
      cases parseVariable getaddrinfo (lineno + 1) a.name a.value config with
      | error e => rfl
      | ok config => exact congrArg (Option.map _) (ih hls next (lineno + 1) config)

end ConfigLine

end Cik
