import Mathlib.Data.List.Basic
import Mathlib.Data.List.GetD
import Mathlib.Tactic.SplitIfs

/-!
# Byte memory

Memory is a byte at every address. `read m a n` is the `n` bytes from `a` on, and
`write m a bs` is `m` with the bytes `bs` from `a` on. What was written is read back
(`read_write_self`), and a write is seen nowhere else (`read_write_of_disjoint`).
Memories that agree up to the beginning of a write agree up to its end after it
(`AgreeBelow.write`), whatever they hold further on. `Holds` says what bytes lie somewhere.
-/

/-- A byte at every address. -/
abbrev ByteMemory := ℕ → UInt8

namespace ByteMemory

/-- The `n` bytes from address `a` on. -/
def read (m : ByteMemory) (a n : ℕ) : List UInt8 := (List.range n).map fun i => m (a + i)

/-- The memory with the bytes `bs` from address `a` on. -/
def write (m : ByteMemory) (a : ℕ) (bs : List UInt8) : ByteMemory :=
  fun i => if a ≤ i ∧ i < a + bs.length then bs.getD (i - a) 0 else m i

@[simp] theorem length_read (m : ByteMemory) (a n : ℕ) : (m.read a n).length = n := by simp [read]

@[simp] theorem read_zero (m : ByteMemory) (a : ℕ) : m.read a 0 = [] := rfl

@[simp] theorem getElem_read (m : ByteMemory) (a n i : ℕ) (h : i < (m.read a n).length) :
    (m.read a n)[i] = m (a + i) := by simp [read]

/-- The bytes of a region. -/
theorem mem_read {m : ByteMemory} {a n i : ℕ} (hi : i < n) : m (a + i) ∈ m.read a n :=
  List.mem_map.mpr ⟨i, List.mem_range.mpr hi, rfl⟩

theorem read_congr {m m' : ByteMemory} {a n : ℕ} (h : ∀ i < n, m (a + i) = m' (a + i)) :
    m.read a n = m'.read a n :=
  List.map_congr_left fun i hi => h i (List.mem_range.mp hi)

theorem read_add (m : ByteMemory) (a n k : ℕ) :
    m.read a (n + k) = m.read a n ++ m.read (a + n) k := by
  simp only [read, List.range_add, List.map_append, List.map_map]
  congr 1
  exact List.map_congr_left fun i _ => by simp [Nat.add_assoc]

/-- What was written is read back. -/
theorem read_write_self (m : ByteMemory) (a : ℕ) (bs : List UInt8) :
    (m.write a bs).read a bs.length = bs := by
  refine List.ext_getElem (by simp) fun i h₁ h₂ => ?_
  rw [getElem_read, write, if_pos ⟨Nat.le_add_right a i, by omega⟩, Nat.add_sub_cancel_left]
  exact (List.getElem_eq_getD 0).symm

/-- A write is not seen where it did not write. -/
theorem read_write_of_disjoint (m : ByteMemory) {a b n : ℕ} {bs : List UInt8}
    (h : b + n ≤ a ∨ a + bs.length ≤ b) : (m.write a bs).read b n = m.read b n := by
  refine read_congr fun i hi => ?_
  rw [write, if_neg (by omega)]

/-- A write goes on where another one ended. -/
theorem write_append (m : ByteMemory) (a : ℕ) (bs cs : List UInt8) :
    (m.write a bs).write (a + bs.length) cs = m.write a (bs ++ cs) := by
  funext i
  rw [write, write, write, List.length_append]
  split_ifs with h₁ h₂ h₃ h₄
  · rw [List.getD_append_right _ _ _ _ (by omega), Nat.sub_sub]
  · omega
  · rw [List.getD_append _ _ _ _ (by omega)]
  · omega
  · omega
  · rfl

/-! ### Bytes in memory -/

/-- These bytes lie at address `a`. -/
def Holds (m : ByteMemory) (a : ℕ) (bs : List UInt8) : Prop := m.read a bs.length = bs

theorem holds_write_self (m : ByteMemory) (a : ℕ) (bs : List UInt8) : (m.write a bs).Holds a bs :=
  read_write_self m a bs

theorem holds_append {m : ByteMemory} {a : ℕ} {bs cs : List UInt8} :
    m.Holds a (bs ++ cs) ↔ m.Holds a bs ∧ m.Holds (a + bs.length) cs := by
  rw [Holds, List.length_append, read_add]
  constructor
  · intro h
    exact List.append_inj h (length_read ..)
  · rintro ⟨hb, hc⟩
    rw [hb, hc]

theorem holds_singleton {m : ByteMemory} {a : ℕ} {b : UInt8} : m.Holds a [b] ↔ m a = b := by
  rw [Holds, read]
  simp

theorem holds_cons {m : ByteMemory} {a : ℕ} {b : UInt8} {bs : List UInt8} :
    m.Holds a (b :: bs) ↔ m a = b ∧ m.Holds (a + 1) bs := by
  rw [← List.singleton_append, holds_append, holds_singleton, List.length_singleton]

/-- Elsewhere they lie there after a write. -/
theorem Holds.write {m : ByteMemory} {a c : ℕ} {bs cs : List UInt8} (h : m.Holds a bs)
    (hd : a + bs.length ≤ c ∨ c + cs.length ≤ a) : (m.write c cs).Holds a bs :=
  (read_write_of_disjoint m hd).trans h

/-- Each of them. -/
theorem Holds.mem {m : ByteMemory} {a i : ℕ} {bs : List UInt8} (h : m.Holds a bs)
    (hi : i < bs.length) :
    m (a + i) ∈ bs := by
  have hin : m (a + i) ∈ m.read a bs.length := mem_read hi
  rwa [h] at hin

/-! ### Memories that agree -/

/-- Two memories have the same bytes before address `n`. -/
def AgreeBelow (n : ℕ) (m m' : ByteMemory) : Prop := ∀ a < n, m a = m' a

namespace AgreeBelow

variable {m m' : ByteMemory} {n k p : ℕ}

theorem zero (m m' : ByteMemory) : AgreeBelow 0 m m' := fun _ h => absurd h (Nat.not_lt_zero _)

theorem mono (h : AgreeBelow n m m') (hk : k ≤ n) : AgreeBelow k m m' :=
  fun a ha => h a (Nat.lt_of_lt_of_le ha hk)

theorem read (h : AgreeBelow n m m') (hk : p + k ≤ n) : m.read p k = m'.read p k :=
  read_congr fun i _ => h (p + i) (by omega)

/-- A write that begins where they agree makes them agree to its end. -/
theorem write (h : AgreeBelow p m m') (bs : List UInt8) :
    AgreeBelow (p + bs.length) (m.write p bs) (m'.write p bs) := by
  intro a ha
  rw [ByteMemory.write, ByteMemory.write]
  split_ifs with hin
  · rfl
  · exact h a (by omega)

end AgreeBelow

end ByteMemory
