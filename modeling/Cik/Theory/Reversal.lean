import Cik.Source.Util
import Mathlib.Tactic.NormNum

/-!
# Turning bytes round, with the addresses of the machine

The buffers that `reverse_bytes` is used on lie somewhere below `2 ^ 64`, and the model
counts their bytes without an end. Here the pointers are what they are in the machine,
64-bit numbers that wrap, and the end pointer is `base` and `nmemb - 1`, taken as a `u32`.
As long as that does not wrap the loop does what it does in the model
(`Mirrors.reverseBytes`). So a range is reversed, and the rest left alone, when it ends
where memory ends or before. An empty range has its end pointer four gigabytes further on;
it is left alone only where that wraps.
-/

namespace Cik

/-- A byte at each address of the machine. -/
abbrev AddressSpace := UInt64 → UInt8

namespace AddressSpace

/-- `*i ^= *j; *j ^= *i; *i ^= *j`. -/
def xorSwap (m : AddressSpace) (i j : UInt64) : AddressSpace :=
  let m := Function.update m i (m i ^^^ m j)
  let m := Function.update m j (m j ^^^ m i)
  Function.update m i (m i ^^^ m j)

/-- The loop of `reverse_bytes`, for at most `fuel` rounds. -/
def reverseLoop : ℕ → AddressSpace → UInt64 → UInt64 → AddressSpace
  | 0, m, _, _ => m
  | fuel + 1, m, i, j => if i < j then reverseLoop fuel (m.xorSwap i j) (i + 1) (j - 1) else m

/-- `reverse_bytes`. The pointers meet before `nmemb - 1` rounds are over. -/
def reverseBytes (m : AddressSpace) (base : UInt64) (nmemb : UInt32) : AddressSpace :=
  m.reverseLoop (nmemb - 1).toNat base (base + (nmemb - 1).toUInt64)

end AddressSpace

/-- The memory of the model has the bytes of the machine's. -/
def Mirrors (m : AddressSpace) (M : ByteMemory) : Prop := ∀ a, m a = M a.toNat

variable {m : AddressSpace} {M : ByteMemory} {i j base a : UInt64} {nmemb : UInt32}

theorem Mirrors.update (h : Mirrors m M) (i : UInt64) {b b' : UInt8} (hb : b = b') :
    Mirrors (Function.update m i b) (Function.update M i.toNat b') := by
  intro a
  rcases eq_or_ne a i with rfl | hne
  · rw [Function.update_self, Function.update_self, hb]
  · rw [Function.update_of_ne hne, Function.update_of_ne fun heq => hne (UInt64.toNat_inj.mp heq)]
    exact h a

theorem Mirrors.xorSwap (h : Mirrors m M) (i j : UInt64) :
    Mirrors (m.xorSwap i j) (Cik.xorSwap M i.toNat j.toNat) := by
  have xor {m : AddressSpace} {M : ByteMemory} (h : Mirrors m M) (i j : UInt64) :
      m i ^^^ m j = M i.toNat ^^^ M j.toNat := by
    rw [h i, h j]
  have h₁ := h.update i (xor h i j)
  have h₂ := h₁.update j (xor h₁ j i)
  exact h₂.update i (xor h₂ i j)

theorem Mirrors.reverseLoop (h : Mirrors m M) (fuel : ℕ) (i j : UInt64) :
    Mirrors (m.reverseLoop fuel i j) (Cik.reverseLoop fuel M i.toNat j.toNat) := by
  induction fuel generalizing m M i j with
  | zero => exact h
  | succ fuel ih =>
    rw [AddressSpace.reverseLoop, Cik.reverseLoop]
    by_cases hij : i < j
    · have hlt : i.toNat < j.toNat := UInt64.lt_iff_toNat_lt.mp hij
      have hi : (i + 1).toNat = i.toNat + 1 := by
        have hj := j.toNat_lt
        rw [UInt64.toNat_add, UInt64.toNat_one, Nat.mod_eq_of_lt (by omega)]
      have hj : (j - 1).toNat = j.toNat - 1 := by
        have hle : (1 : UInt64) ≤ j :=
          UInt64.le_iff_toNat_le.mpr (Nat.lt_of_le_of_lt (Nat.zero_le _) hlt)
        rw [UInt64.toNat_sub_of_le _ _ hle, UInt64.toNat_one]
      rw [if_pos hij, if_pos hlt]
      have hrest := ih (h.xorSwap i j) (i + 1) (j - 1)
      rwa [hi, hj] at hrest
    · have hge : ¬ i.toNat < j.toNat := fun hlt => hij (UInt64.lt_iff_toNat_lt.mpr hlt)
      rw [if_neg hij, if_neg hge]
      exact h

/-- How far the end pointer is from `base`. -/
theorem toNat_end (base : UInt64) (nmemb : UInt32) :
    (base + (nmemb - 1).toUInt64).toNat = (base.toNat + (nmemb - 1).toNat) % 2 ^ 64 := by
  rw [UInt64.toNat_add, UInt32.toNat_toUInt64]

/-- As long as the end pointer does not wrap, the model is exact. -/
theorem Mirrors.reverseBytes (h : Mirrors m M) (hend : base.toNat + (nmemb - 1).toNat < 2 ^ 64) :
    Mirrors (m.reverseBytes base nmemb) (Cik.reverseBytes M base.toNat nmemb) := by
  have hloop := h.reverseLoop (nmemb - 1).toNat base (base + (nmemb - 1).toUInt64)
  rwa [toNat_end, Nat.mod_eq_of_lt hend] at hloop

/-- When it wraps, nothing is done. -/
theorem reverseBytes_of_wrap (m : AddressSpace) (hend : 2 ^ 64 ≤ base.toNat + (nmemb - 1).toNat) :
    m.reverseBytes base nmemb = m := by
  have hb := base.toNat_lt
  have hn := (nmemb - 1).toNat_lt
  have hge : ¬ base < base + (nmemb - 1).toUInt64 := by
    rw [UInt64.lt_iff_toNat_lt, toNat_end]
    omega
  rw [AddressSpace.reverseBytes]
  cases (nmemb - 1).toNat with
  | zero => rfl
  | succ fuel => rw [AddressSpace.reverseLoop, if_neg hge]

theorem exists_mirror (m : AddressSpace) : ∃ M, Mirrors m M :=
  ⟨fun a => m (UInt64.ofNat a), fun _ => congrArg m UInt64.ofNat_toNat.symm⟩

/-- The range of `nmemb` bytes at `base` is reversed, nothing else is touched, and reversing it
again gives the memory back. -/
structure Reversed (base : UInt64) (nmemb : UInt32) (m : AddressSpace) : Prop where
  /-- The bytes of the range. -/
  inside :
    ∀ i < nmemb, m.reverseBytes base nmemb (base + i.toUInt64) = m (base + (nmemb - 1 - i).toUInt64)
  /-- The other bytes. -/
  outside : ∀ a, (∀ i < nmemb, a ≠ base + i.toUInt64) → m.reverseBytes base nmemb a = m a
  /-- Twice. -/
  twice : (m.reverseBytes base nmemb).reverseBytes base nmemb = m

/-! ### Ranges that end in memory -/

section Fits

variable (h₀ : 0 < nmemb.toNat) (hfits : base.toNat + nmemb.toNat ≤ 2 ^ 64)

include h₀ in
theorem toNat_pred : (nmemb - 1).toNat = nmemb.toNat - 1 := by
  have hle : (1 : UInt32) ≤ nmemb := UInt32.le_iff_toNat_le.mpr h₀
  rw [UInt32.toNat_sub_of_le _ _ hle, UInt32.toNat_one]

include h₀ hfits in
theorem reverseBytes_apply_of_fits (m : AddressSpace) (a : UInt64) : m.reverseBytes base nmemb a =
    if base.toNat ≤ a.toNat ∧ a.toNat < base.toNat + nmemb.toNat then
      m (UInt64.ofNat (2 * base.toNat + (nmemb.toNat - 1) - a.toNat))
    else m a := by
  obtain ⟨M, hM⟩ := exists_mirror m
  have hend : base.toNat + (nmemb - 1).toNat < 2 ^ 64 := by
    rw [toNat_pred h₀]
    omega
  rw [hM.reverseBytes hend a, reverseBytes_apply _ _ _ h₀, hM a]
  split_ifs with ha
  · rw [hM, UInt64.toNat_ofNat_of_lt']
    have hlt : 2 * base.toNat + (nmemb.toNat - 1) - a.toNat < 2 ^ 64 := by omega
    exact hlt
  · rfl

include h₀ hfits in
theorem reversed_of_fits (m : AddressSpace) : Reversed base nmemb m where
  inside := by
    intro i hi
    have hlt : i.toNat < nmemb.toNat := UInt32.lt_iff_toNat_lt.mp hi
    have ha : (base + i.toUInt64).toNat = base.toNat + i.toNat := by
      rw [UInt64.toNat_add, UInt32.toNat_toUInt64, Nat.mod_eq_of_lt (by omega)]
    have hi' : (nmemb - 1 - i).toNat = nmemb.toNat - 1 - i.toNat := by
      rw [UInt32.toNat_sub_of_le _ _ (UInt32.le_iff_toNat_le.mpr (by rw [toNat_pred h₀]; omega)),
        toNat_pred h₀]
    have hb :
        (base + (nmemb - 1 - i).toUInt64).toNat = base.toNat + (nmemb.toNat - 1 - i.toNat) := by
      rw [UInt64.toNat_add, UInt32.toNat_toUInt64, hi', Nat.mod_eq_of_lt (by omega)]
    rw [reverseBytes_apply_of_fits h₀ hfits, ha, if_pos (by omega)]
    congr 1
    rw [← UInt64.toNat_inj, hb, UInt64.toNat_ofNat_of_lt' (by omega : _ < 2 ^ 64)]
    omega
  outside := by
    intro a ha
    rw [reverseBytes_apply_of_fits h₀ hfits, if_neg]
    rintro ⟨hle, hlt⟩
    have hn := nmemb.toNat_lt
    have hi : (UInt32.ofNat (a.toNat - base.toNat)).toNat = a.toNat - base.toNat :=
      UInt32.toNat_ofNat_of_lt' (by omega : _ < 2 ^ 32)
    refine ha (UInt32.ofNat (a.toNat - base.toNat)) (UInt32.lt_iff_toNat_lt.mpr (by omega)) ?_
    rw [← UInt64.toNat_inj, UInt64.toNat_add, UInt32.toNat_toUInt64, hi,
      Nat.mod_eq_of_lt (by omega)]
    omega
  twice := by
    funext a
    have hn := a.toNat_lt
    rw [reverseBytes_apply_of_fits h₀ hfits]
    split_ifs with ha
    · have hb : (UInt64.ofNat (2 * base.toNat + (nmemb.toNat - 1) - a.toNat)).toNat =
          2 * base.toNat + (nmemb.toNat - 1) - a.toNat :=
          UInt64.toNat_ofNat_of_lt' (by omega : _ < 2 ^ 64)
      rw [reverseBytes_apply_of_fits h₀ hfits, hb, if_pos (by omega)]
      congr 1
      rw [← UInt64.toNat_inj, UInt64.toNat_ofNat_of_lt' (by omega : _ < 2 ^ 64)]
      omega
    · rw [reverseBytes_apply_of_fits h₀ hfits, if_neg ha]

end Fits

/-! ### All ranges -/

/-- Memory with a byte that is not zero, at `base`. -/
def markAt (base : UInt64) : AddressSpace := fun a => if a = base then 1 else 0

theorem markAt_self (base : UInt64) : markAt base base = 1 := if_pos rfl

theorem markAt_add {d : UInt32} (hd : d ≠ 0) (base : UInt64) :
    markAt base (base + d.toUInt64) = 0 := by
  refine if_neg fun heq => hd ?_
  have hb := base.toNat_lt
  have hlt := d.toNat_lt
  have hn := congrArg UInt64.toNat heq
  rw [UInt64.toNat_add, UInt32.toNat_toUInt64] at hn
  rw [← UInt32.toNat_inj, UInt32.toNat_zero]
  omega

/-- An empty range is left alone when its end pointer wraps, and only then. -/
theorem reversed_zero_iff : (∀ m, Reversed base 0 m) ↔ 2 ^ 64 ≤ base.toNat + (2 ^ 32 - 1) := by
  have hend : ((0 : UInt32) - 1).toNat = 2 ^ 32 - 1 := by decide
  constructor
  · intro h
    by_contra hlt
    -- the first byte is exchanged with one four gigabytes further on
    have hsame := (h (markAt base)).outside base fun i hi => absurd hi (by simp)
    obtain ⟨M, hM⟩ := exists_mirror (markAt base)
    have hfar : (base + ((0 : UInt32) - 1).toUInt64).toNat = base.toNat + (2 ^ 32 - 1) := by
      rw [toNat_end, hend, Nat.mod_eq_of_lt (by omega)]
    have hmoved := @Mirrors.reverseBytes _ M base 0 hM (by rw [hend]; omega) base
    rw [Cik.reverseBytes, hend, reverseLoop_apply _ _ _ _ _ (Nat.le_refl _),
      if_pos ⟨Nat.le_refl _, Nat.le_add_right _ _⟩, Nat.add_sub_cancel_left, ← hfar, ← hM,
      hsame, markAt_self, markAt_add (by decide)] at hmoved
    exact absurd hmoved (by decide)
  · intro hwrap m
    have hnone (m : AddressSpace) : m.reverseBytes base 0 = m :=
      reverseBytes_of_wrap m (by rwa [hend])
    exact ⟨fun i hi => absurd hi (by simp), fun a _ => by rw [hnone], by rw [hnone, hnone]⟩

/-- `reverse_bytes` reverses its range and touches nothing else just when the range is not empty and
ends where memory ends or before, or is empty and so near the end of memory that the end pointer
wraps. -/
theorem reversed_iff (base : UInt64) (nmemb : UInt32) : (∀ m, Reversed base nmemb m) ↔
    if nmemb = 0 then 2 ^ 64 ≤ base.toNat + (2 ^ 32 - 1) else base.toNat +
    nmemb.toNat ≤ 2 ^ 64 := by
  split_ifs with hzero
  · rw [hzero]
    exact reversed_zero_iff
  have h₀ : 0 < nmemb.toNat := Nat.pos_of_ne_zero fun heq => hzero (UInt32.toNat_inj.mp heq)
  refine ⟨fun h => ?_, fun hfits => reversed_of_fits h₀ hfits⟩
  by_contra hlt
  have hb := base.toNat_lt
  have hne : nmemb - 1 ≠ 0 := by
    intro heq
    have hone := toNat_pred h₀
    rw [heq, UInt32.toNat_zero] at hone
    omega
  -- the end pointer wraps, and nothing is done
  have hnone := @reverseBytes_of_wrap base nmemb (markAt base) (by rw [toNat_pred h₀]; omega)
  have hfirst := (h (markAt base)).inside 0 (UInt32.lt_iff_toNat_lt.mpr h₀)
  rw [hnone, UInt32.sub_zero, markAt_add hne] at hfirst
  have hself : base + (0 : UInt32).toUInt64 = base := UInt64.add_zero base
  rw [hself, markAt_self] at hfirst
  exact absurd hfirst (by decide)

/-- A key of no bytes, on the stack. -/
theorem not_reversed_zero : ¬ ∀ m, Reversed 0x7FFC00000000 (0 : UInt8).toUInt32 m :=
  fun h => absurd (reversed_zero_iff.mp h) (by decide)

end Cik
