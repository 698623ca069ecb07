import Cik.Source.Types
import Mathlib.Logic.Function.Basic
import Mathlib.Tactic.SplitIfs

/-!
# Turning bytes round

`reverse_bytes` of `util.h`: two pointers run towards each other and exchange the
bytes they stand at. On a range that is not empty the range is reversed and the
rest of memory is as before (`reverseBytes_apply`). On an empty range the end
pointer `base + (nmemb - 1)` wraps in `u32`, and the loop runs over four gigabytes;
the callers do not check for it.
-/

namespace Cik

/-- `*i ^= *j; *j ^= *i; *i ^= *j`. -/
def xorSwap (m : ByteMemory) (i j : ℕ) : ByteMemory :=
  let m := Function.update m i (m i ^^^ m j)
  let m := Function.update m j (m j ^^^ m i)
  Function.update m i (m i ^^^ m j)

/-- The loop of `reverse_bytes`, for at most `fuel` rounds. -/
def reverseLoop : ℕ → ByteMemory → ℕ → ℕ → ByteMemory
  | 0, m, _, _ => m
  | fuel + 1, m, i, j => if i < j then reverseLoop fuel (xorSwap m i j) (i + 1) (j - 1) else m

/-- `reverse_bytes`. The pointers meet before `nmemb - 1` rounds are over. -/
def reverseBytes (m : ByteMemory) (base : ℕ) (nmemb : UInt32) : ByteMemory :=
  reverseLoop (nmemb - 1).toNat m base (base + (nmemb - 1).toNat)

theorem xorSwap_apply {m : ByteMemory} {i j : ℕ} (h : i ≠ j) (a : ℕ) :
    xorSwap m i j a = if a = i then m j else if a = j then m i else m a := by
  have hx (x y : UInt8) : x ^^^ y ^^^ (y ^^^ (x ^^^ y)) = y := by
    rw [← UInt8.xor_assoc y, UInt8.xor_comm y x, UInt8.xor_assoc x y y, UInt8.xor_self,
      UInt8.xor_zero, UInt8.xor_comm x y, UInt8.xor_assoc, UInt8.xor_self, UInt8.xor_zero]
  have hy (x y : UInt8) : y ^^^ (x ^^^ y) = x := by
    rw [UInt8.xor_comm x y, ← UInt8.xor_assoc, UInt8.xor_self, UInt8.zero_xor]
  by_cases hi : a = i
  · subst hi
    have hxor : xorSwap m a j a = m a ^^^ m j ^^^ (m j ^^^ (m a ^^^ m j)) := by
      simp [xorSwap, Function.update, h, Ne.symm h]
    rw [hxor, hx, if_pos rfl]
  · by_cases hj : a = j
    · subst hj
      simp [xorSwap, Function.update, Ne.symm h, hy]
    · simp [xorSwap, Function.update, hi, hj]

theorem reverseLoop_of_lt {fuel : ℕ} {m : ByteMemory} {i j a : ℕ} (h : a < i) :
    reverseLoop fuel m i j a = m a := by
  induction fuel generalizing m i j with
  | zero => rfl
  | succ fuel ih =>
    rw [reverseLoop]
    split_ifs with hij
    · rw [ih (by omega), xorSwap_apply (Nat.ne_of_lt hij), if_neg (by omega), if_neg (by omega)]
    · rfl

theorem reverseBytes_of_lt {m : ByteMemory} {b a : ℕ} {n : UInt32} (h : a < b) :
    reverseBytes m b n a = m a :=
  reverseLoop_of_lt h

/-- The loop reverses what lies between the pointers and leaves the rest. -/
theorem reverseLoop_apply (fuel : ℕ) (m : ByteMemory) (i j a : ℕ) (hf : j ≤ i + fuel) :
    reverseLoop fuel m i j a = if i ≤ a ∧ a ≤ j then m (i + j - a) else m a := by
  induction fuel generalizing m i j with
  | zero =>
    rw [reverseLoop]
    split_ifs with h
    · congr 1
      omega
    · rfl
  | succ fuel ih =>
    rw [reverseLoop]
    by_cases hij : i < j
    · -- the outer bytes change places, the loop does the rest
      rw [if_pos hij, ih _ _ _ (by omega), xorSwap_apply (Nat.ne_of_lt hij),
        xorSwap_apply (Nat.ne_of_lt hij)]
      split_ifs <;> first | omega | (congr 1; omega) | rfl
    · rw [if_neg hij]
      split_ifs with h
      · congr 1
        omega
      · rfl

/-- A range that is not empty is reversed, and nothing else changes. -/
theorem reverseBytes_apply (m : ByteMemory) (base a : ℕ) {nmemb : UInt32} (h : 0 < nmemb.toNat) :
    reverseBytes m base nmemb a =
      if base ≤ a ∧ a < base + nmemb.toNat then m (2 * base + (nmemb.toNat - 1) - a) else m a := by
  have hn : (nmemb - 1).toNat = nmemb.toNat - 1 := by
    rw [UInt32.toNat_sub_of_le]
    · rfl
    · exact UInt32.le_iff_toNat_le.mpr h
  rw [reverseBytes, hn, reverseLoop_apply _ _ _ _ _ (by omega)]
  split_ifs <;> first | omega | (congr 1; omega) | rfl

/-- Reading back a range that was reversed. -/
theorem read_reverseBytes (m : ByteMemory) (base : ℕ) {nmemb : UInt32} (h : 0 < nmemb.toNat) :
    (reverseBytes m base nmemb).read base nmemb.toNat = (m.read base nmemb.toNat).reverse := by
  refine List.ext_getElem (by simp) fun i h₁ h₂ => ?_
  simp only [ByteMemory.length_read] at h₁
  rw [List.getElem_reverse, ByteMemory.getElem_read, ByteMemory.getElem_read,
    reverseBytes_apply _ _ _ h, if_pos (by omega)]
  congr 1
  simp only [ByteMemory.length_read]
  omega

/-- Reading what lies beside a range that was reversed. -/
theorem read_reverseBytes_of_disjoint (m : ByteMemory) {base b n : ℕ} {nmemb : UInt32}
    (h : 0 < nmemb.toNat) (hd : b + n ≤ base ∨ base + nmemb.toNat ≤ b) :
    (reverseBytes m base nmemb).read b n = m.read b n := by
  refine ByteMemory.read_congr fun i hi => ?_
  rw [reverseBytes_apply _ _ _ h, if_neg (by omega)]

end Cik
