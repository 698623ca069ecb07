import Mathlib.Algebra.Group.Nat.Defs
import Mathlib.Data.List.Basic

/-!
# Numbers as bytes

A number is laid out in memory as a string of bytes, least significant first
(`leBytes`), and read back (`leNat`). A machine that reads a number sent in the
other order turns the bytes round (`swapBytes`). The two layouts are inverse to
each other (`leNat_leBytes`, `leBytes_leNat`), turning twice changes nothing
(`swapBytes_swapBytes`), and a number is turned round by turning its halves and
exchanging them (`leBytes_swap_halves`).
-/

namespace ByteOrder

/-- The number whose bytes, least significant first, are `bs`. -/
def leNat : List UInt8 → ℕ
  | [] => 0
  | b :: bs => b.toNat + 256 * leNat bs

/-- The `n` low bytes of `x`, least significant first. -/
def leBytes : ℕ → ℕ → List UInt8
  | 0, _ => []
  | n + 1, x => UInt8.ofNat x :: leBytes n (x / 256)

/-- The number read when the `n` bytes of `x` are taken in the other order. -/
def swapBytes (n x : ℕ) : ℕ := leNat (leBytes n x).reverse

@[simp] theorem length_leBytes (n x : ℕ) : (leBytes n x).length = n := by
  induction n generalizing x with
  | zero => rfl
  | succ n ih => simp [leBytes, ih]

theorem leNat_lt (bs : List UInt8) : leNat bs < 256 ^ bs.length := by
  induction bs with
  | nil => simp [leNat]
  | cons b bs ih =>
    have hb := b.toNat_lt
    simp only [leNat, List.length_cons, Nat.pow_succ]
    omega

theorem leNat_leBytes (n x : ℕ) : leNat (leBytes n x) = x % 256 ^ n := by
  induction n generalizing x with
  | zero => simp [leBytes, leNat, Nat.mod_one]
  | succ n ih =>
    have hx : (UInt8.ofNat x).toNat = x % 256 := UInt8.toNat_ofNat'
    rw [leBytes, leNat, ih, hx, Nat.pow_succ', Nat.mod_mul]

theorem leBytes_leNat (bs : List UInt8) : leBytes bs.length (leNat bs) = bs := by
  induction bs with
  | nil => rfl
  | cons b bs ih =>
    have hb := b.toNat_lt
    have hd : (b.toNat + 256 * leNat bs) / 256 = leNat bs := by omega
    have hm : UInt8.ofNat (b.toNat + 256 * leNat bs) = b := by
      apply UInt8.toNat_inj.mp
      rw [UInt8.toNat_ofNat']
      omega
    simp only [leNat, List.length_cons, leBytes, hd, ih, hm]

theorem leBytes_mod (n x : ℕ) : leBytes n (x % 256 ^ n) = leBytes n x := by
  rw [← leNat_leBytes]
  simpa using leBytes_leNat (leBytes n x)

/-- The low bytes come first, then the high ones. -/
theorem leBytes_add (m n x : ℕ) : leBytes (m + n) x = leBytes m x ++ leBytes n (x / 256 ^ m) := by
  induction m generalizing x with
  | zero => simp [leBytes]
  | succ m ih =>
    have hd :
      x / 256 / 256 ^ m = x / 256 ^ (m + 1) := by rw [Nat.div_div_eq_div_mul, ← Nat.pow_succ']
    rw [Nat.succ_add, leBytes, ih, hd, leBytes, List.cons_append]

theorem swapBytes_lt (n x : ℕ) : swapBytes n x < 256 ^ n := by
  simpa [swapBytes] using leNat_lt (leBytes n x).reverse

/-- The bytes of a number that was turned round. -/
theorem leBytes_swapBytes (n x : ℕ) : leBytes n (swapBytes n x) = (leBytes n x).reverse := by
  simpa [swapBytes] using leBytes_leNat (leBytes n x).reverse

/-- Turning the bytes of a number that fits twice gives the number back. -/
theorem swapBytes_swapBytes {n x : ℕ} (h : x < 256 ^ n) : swapBytes n (swapBytes n x) = x := by
  rw [swapBytes, leBytes_swapBytes, List.reverse_reverse, leNat_leBytes, Nat.mod_eq_of_lt h]

/-- Turning two halves round and exchanging them turns the whole round. -/
theorem leBytes_swap_halves (n x : ℕ) :
    leBytes (n + n) (swapBytes n x * 256 ^ n + swapBytes n (x / 256 ^ n)) =
    (leBytes (n + n) x).reverse := by
  have hpos : 0 < 256 ^ n := Nat.pow_pos (by decide)
  have hlt := swapBytes_lt n (x / 256 ^ n)
  have hdiv : (swapBytes n x * 256 ^ n + swapBytes n (x / 256 ^ n)) / 256 ^ n = swapBytes n x := by
    rw [Nat.add_comm, Nat.add_mul_div_right _ _ hpos, Nat.div_eq_of_lt hlt, Nat.zero_add]
  have hmod :
      (swapBytes n x * 256 ^ n + swapBytes n (x / 256 ^ n)) % 256 ^ n = swapBytes n
      (x / 256 ^ n) := by
    rw [Nat.add_comm, Nat.add_mul_mod_self_right, Nat.mod_eq_of_lt hlt]
  rw [leBytes_add, hdiv, ← leBytes_mod, hmod, leBytes_swapBytes,
    leBytes_swapBytes, ← List.reverse_append, ← leBytes_add]

/-- The number whose bytes, most significant first, are `bs`. -/
def beNat (bs : List UInt8) : ℕ := leNat bs.reverse

theorem beNat_reverse_leBytes {n x : ℕ} (h : x < 256 ^ n) : beNat (leBytes n x).reverse = x := by
  rw [beNat, List.reverse_reverse, leNat_leBytes, Nat.mod_eq_of_lt h]

end ByteOrder
