import Mathlib.Data.List.Nodup
import Mathlib.Logic.Function.Basic

/-!
# Linked lists

Cells in memory, each with a value and the address of the next one. `Segment cells p l q`
says what is met when the links are followed from `p` to `q`, and `Chain cells p l` what
is met up to the end. A list depends on its own cells only (`Segment.congr`), it is cut
anywhere and put together again (`segment_append`), and no cell is in it twice
(`Chain.nodup`).

A list is changed through the place where an address is kept: the variable for the first
cell, or the link of a cell. What is kept behind a segment is where the segment goes on
(`follow_behind`); when it is written over, the segment goes on there (`Segment.relink`).
-/

namespace LinkedList

/-- A cell. -/
structure Cell (ι α : Type*) where
  /-- The value. -/
  val : α
  /-- The address of the next cell. -/
  next : Option ι

variable {ι α : Type*} {cells cells' : ι → Option (Cell ι α)} {p q r : Option ι}
  {l l' l₁ l₂ : List (ι × α)} {a : ι} {x : α}

/-- From `p` to `q` the links lead through these cells, at these addresses. -/
def Segment (cells : ι → Option (Cell ι α)) : Option ι → List (ι × α) → Option ι → Prop
  | p, [], q => p = q
  | p, (a, x) :: l, q => p = some a ∧ ∃ n, cells a = some ⟨x, n⟩ ∧ Segment cells n l q

/-- The list that begins at `p`. -/
def Chain (cells : ι → Option (Cell ι α)) (p : Option ι) (l : List (ι × α)) : Prop :=
  Segment cells p l none

@[simp] theorem segment_nil : Segment cells p [] q ↔ p = q := Iff.rfl

theorem segment_cons : Segment cells p ((a, x) :: l) q ↔ p = some a ∧ ∃ n, cells a = some ⟨x, n⟩ ∧
    Segment cells n l q :=
  Iff.rfl

theorem segment_append : Segment cells p (l₁ ++ l₂) q ↔ ∃ r, Segment cells p l₁ r ∧
    Segment cells r l₂ q := by
  induction l₁ generalizing p with
  | nil => simp
  | cons y l₁ ih =>
    constructor
    · rintro ⟨rfl, n, hn, h⟩
      obtain ⟨r, h₁, h₂⟩ := ih.mp h
      exact ⟨r, ⟨rfl, n, hn, h₁⟩, h₂⟩
    · rintro ⟨r, ⟨rfl, n, hn, h₁⟩, h₂⟩
      exact ⟨rfl, n, hn, ih.mpr ⟨r, h₁, h₂⟩⟩

/-- One cell more. -/
theorem segment_concat : Segment cells p (l ++ [(a, x)]) q ↔ Segment cells p l (some a) ∧
    cells a = some ⟨x, q⟩ := by
  rw [segment_append]
  constructor
  · rintro ⟨r, h, rfl, n, hn, rfl⟩
    exact ⟨h, hn⟩
  · rintro ⟨h, hn⟩
    exact ⟨some a, h, rfl, q, hn, rfl⟩

/-- A segment depends on its own cells only. -/
theorem Segment.congr (h : Segment cells p l q) (hc : ∀ a ∈ l.map Prod.fst, cells' a = cells a) :
    Segment cells' p l q := by
  induction l generalizing p with
  | nil => exact h
  | cons y l ih =>
    obtain ⟨rfl, n, hn, h⟩ := h
    refine ⟨rfl, n, ?_, ih h fun a ha => hc a (List.mem_cons_of_mem _ ha)⟩
    rw [hc y.1 List.mem_cons_self, hn]

/-- Every address of a segment has a cell. -/
theorem Segment.exists_cell (h : Segment cells p l q) (ha : a ∈ l.map Prod.fst) :
    ∃ c, cells a = some c := by
  induction l generalizing p with
  | nil => cases ha
  | cons y l ih =>
    obtain ⟨rfl, n, hn, h⟩ := h
    rcases List.mem_cons.mp ha with rfl | ha
    · exact ⟨_, hn⟩
    · exact ih h ha

theorem Chain.unique (h : Chain cells p l) (h' : Chain cells p l') : l = l' := by
  induction l generalizing p l' with
  | nil =>
    cases l' with
    | nil => rfl
    | cons y l' =>
      obtain ⟨hp, -⟩ := h'
      cases h.symm.trans hp
  | cons y l ih =>
    obtain ⟨rfl, n, hn, h⟩ := h
    cases l' with
    | nil => cases h'
    | cons y' l' =>
      obtain ⟨a, x⟩ := y
      obtain ⟨b, z⟩ := y'
      obtain ⟨hp, n', hn', h'⟩ := h'
      obtain rfl : a = b := Option.some.inj hp
      cases hn.symm.trans hn'
      rw [ih h h']

/-- Up to the end no cell is met twice: after the second time the rest would be as long as after the
first. -/
theorem Chain.nodup (h : Chain cells p l) : (l.map Prod.fst).Nodup := by
  induction l generalizing p with
  | nil => exact List.nodup_nil
  | cons y l ih =>
    obtain ⟨a, x⟩ := y
    obtain ⟨rfl, n, hn, h⟩ := h
    refine List.nodup_cons.mpr ⟨fun ha => ?_, ih h⟩
    obtain ⟨⟨b, z⟩, hz, rfl⟩ := List.mem_map.mp ha
    obtain ⟨l₁, l₂, rfl⟩ := List.append_of_mem hz
    obtain ⟨r, -, rfl, n', hn', h₂⟩ := segment_append.mp h
    cases hn.symm.trans hn'
    have hlen := congrArg List.length (Chain.unique h h₂)
    simp at hlen
    omega

/-! ### Places -/

/-- Where an address is kept. -/
inductive Link (ι : Type*) where
  /-- The variable for the first cell. -/
  | head
  /-- The link of a cell. -/
  | next (a : ι)

/-- The place where it is kept how a segment goes on. -/
def behind (l : List (ι × α)) : Link ι :=
  match l.getLast? with
  | none => .head
  | some y => .next y.1

@[simp] theorem behind_nil : behind ([] : List (ι × α)) = .head := rfl

@[simp] theorem behind_concat : behind (l ++ [(a, x)]) = .next a := by simp [behind]

/-- What is kept at a place. -/
def follow (cells : ι → Option (Cell ι α)) (head : Option ι) : Link ι → Option (Option ι)
  | .head => some head
  | .next a => (cells a).map Cell.next

theorem follow_behind (h : Segment cells p l q) : follow cells p (behind l) = some q := by
  rcases List.eq_nil_or_concat l with rfl | ⟨l, ⟨a, x⟩, rfl⟩
  · exact congrArg some h
  · rw [List.concat_eq_append, segment_concat] at h
    rw [List.concat_eq_append, behind_concat, follow, h.2]
    rfl

/-- The link of the last cell is written over. -/
theorem Segment.relink [DecidableEq ι] (h : Segment cells p (l ++ [(a, x)]) q)
    (hd : ((l ++ [(a, x)]).map Prod.fst).Nodup) (r : Option ι) :
    Segment (Function.update cells a (some ⟨x, r⟩)) p (l ++ [(a, x)]) r := by
  rw [segment_concat] at h ⊢
  refine ⟨h.1.congr fun b hb => Function.update_of_ne ?_ _ _, Function.update_self ..⟩
  rintro rfl
  rw [List.map_append, List.nodup_append] at hd
  exact hd.2.2 b hb b (List.mem_singleton_self b) rfl

end LinkedList
