import Cik.Interleaving.Operations
import Mathlib.Algebra.Order.Group.Multiset
import Mathlib.Data.Set.Insert

/-!
# What a worker holds

The discipline that the handlers follow, as a contract for the operations. A worker has
blocks of its own, and guards; `Held` says which, and what it knows of what they guard.
`Held.spec` says what each operation asks for. Guards are asked for in this order: that
of a slot, that of the entry there, the lock of a key list, the mark of a free list; an
entry that no slot has yet, or has any more, is its owner's and does not count.

An entry that is in a slot changes hands with the slot's guard and its own. But for a
worker that has a slot's guard and has unlocked the entry there, nobody can be at the
entry: it may release it (`SlotView.quiet`), and then has to clear the slot
(`SlotView.stale`).
-/

namespace Cik

namespace Guarded

/-- What a worker that has the guard of a slot knows of the slot. -/
inductive SlotView where
  /-- It is not in use. -/
  | free
  /-- It is in use. -/
  | mapped (m : MapSlot)
  /-- It is in use, and the worker has unlocked the entry. -/
  | quiet (m : MapSlot)
  /-- It is in use, and the worker has released the entry. -/
  | stale (m : MapSlot)
  deriving DecidableEq

namespace SlotView

/-- What is in the slot. -/
def content : SlotView → Option MapSlot
  | free => none
  | mapped m => some m
  | quiet m => some m
  | stale m => some m

/-- What is in the slot and is not released. -/
def present : SlotView → Option MapSlot
  | free => none
  | mapped m => some m
  | quiet m => some m
  | stale _ => none

end SlotView

/-- An entry in a slot, which a worker has locked. -/
structure Mapped where
  /-- The slot. -/
  pos : SlotPos
  /-- What is in the slot. -/
  slot : MapSlot
  /-- What is in the entry. -/
  entry : CacheEntry

/-- What a worker holds. -/
structure Held where
  /-- Blocks of its own. -/
  blocks : Multiset ℕ
  /-- More of them: entries whose guard it has. -/
  locked : Multiset ℕ
  /-- Another one: a tag node without children and keys. -/
  node : Option ℕ
  /-- The slot whose guard it has. -/
  slot : Option (SlotPos × SlotView)
  /-- The entry in a slot whose guard it has. -/
  mapped : Option Mapped
  /-- The node whose key list it has locked, and the list. -/
  keys : Option (ℕ × List KeyElem)
  /-- The free list that it has marked. -/
  list : Option ℕ
  /-- Nodes that it has met in the tree. -/
  nodes : Set ℕ

/-- The addresses of the elements of a key list. -/
def bases (l : List KeyElem) : Multiset ℕ := (l.map KeyElem.base : List ℕ)

@[simp] theorem bases_nil : bases [] = 0 := rfl

@[simp] theorem bases_cons (elem : KeyElem) (l : List KeyElem) :
    bases (elem :: l) = elem.base ::ₘ bases l := rfl

namespace Held

/-- It knows the node to be in the tree; the root always is. -/
def Knows (h : Held) (n : ℕ) : Prop := n = root ∨ n ∈ h.nodes

/-- The blocks of its own. -/
def own (h : Held) : Multiset ℕ := h.blocks + h.locked + (h.node.toList : Multiset ℕ)

/-- It has no guard but those of entries of its own. -/
structure Unguarded (h : Held) : Prop where
  /-- It has no slot's guard. -/
  slot : h.slot = none
  /-- It has not locked an entry that is in a slot. -/
  mapped : h.mapped = none
  /-- It has not locked a key list. -/
  keys : h.keys = none
  /-- It has not marked a free list. -/
  list : h.list = none

/-- A worker between two requests. -/
structure AtRest (h : Held) : Prop extends Unguarded h where
  /-- It has no blocks. -/
  own : h.own = 0

/-- A worker at start-up. -/
def init : Held := ⟨0, 0, none, none, none, none, none, ∅⟩

theorem init_atRest : init.AtRest := ⟨⟨rfl, rfl, rfl, rfl⟩, rfl⟩

/-- What an operation asks of what its worker holds, given what is to hold after it. -/
def spec : (o : Op) → (o.Answer → Held → Prop) → Held → Prop
  | .lock (.slot p), Q, h =>
    h.slot = none ∧ h.mapped = none ∧ h.keys = none ∧ h.list = none ∧
      Q () { h with slot := some (p, .free) } ∧
      ∀ m, m.entry ∉ h.locked → Q () { h with slot := some (p, .mapped m) }
  | .lock (.entry e), Q, h =>
    h.keys = none ∧ h.list = none ∧
      ((h.mapped = none ∧ ∃ p v m, h.slot = some (p, v) ∧ v.present = some m ∧ m.entry = e ∧
          ∀ c, Q () { h with slot := some (p, .mapped m), mapped := some ⟨p, m, c⟩ }) ∨
        ∃ bs, h.blocks = e ::ₘ bs ∧ Q () { h with blocks := bs, locked := e ::ₘ h.locked })
  | .lock (.keys n), Q, h =>
    h.Knows n ∧ h.keys = none ∧ h.list = none ∧ ∀ l, Q () { h with keys := some (n, l) }
  | .lock (.list _), _, _ => False
  | .tryLock (.list p), Q, h => h.list = none ∧ Q true { h with list := some p } ∧ Q false h
  | .tryLock _, _, _ => False
  | .unlock (.slot p), Q, h =>
    ∃ v, h.slot = some (p, v) ∧ (∀ m, v ≠ .stale m) ∧ Q () { h with slot := none }
  | .unlock (.entry e), Q, h =>
    (h.slot = none ∧ ∃ p m c, h.mapped = some ⟨p, m, c⟩ ∧ m.entry = e ∧
      Q () { h with mapped := none }) ∨
      (∃ p m c, h.slot = some (p, .mapped m) ∧ h.mapped = some ⟨p, m, c⟩ ∧ m.entry = e ∧
        Q () { h with slot := some (p, .quiet m), mapped := none }) ∨
      ∃ es, h.locked = e ::ₘ es ∧ Q () { h with blocks := e ::ₘ h.blocks, locked := es }
  | .unlock (.keys n), Q, h => ∃ l, h.keys = some (n, l) ∧ Q () { h with keys := none }
  | .unlock (.list p), Q, h => h.list = some p ∧ Q () { h with list := none }
  | .readSlot p, Q, h => ∃ v, h.slot = some (p, v) ∧ Q v.content h
  | .returnEntry p e key, Q, h =>
    ∃ m c, h.mapped = some ⟨p, m, c⟩ ∧ m.entry = e ∧ c.key = key ∧ Q (some e) h
  | .writeSlot p none, Q, h =>
    (∃ m, h.slot = some (p, .stale m) ∧ Q () { h with slot := some (p, .free) }) ∨
      ∃ m c, h.slot = some (p, .mapped m) ∧ h.mapped = some ⟨p, m, c⟩ ∧
        Q () { h with slot := some (p, .free), mapped := none, locked := m.entry ::ₘ h.locked }
  | .writeSlot p (some m'), Q, h => ∃ es, h.locked = m'.entry ::ₘ es ∧
    ((h.slot = some (p, .free) ∧ h.mapped = none ∧
        ∀ c, Q ()
          { h with slot := some (p, .mapped m'), mapped := some ⟨p, m', c⟩, locked := es }) ∨
      ∃ m c, h.slot = some (p, .mapped m) ∧ h.mapped = some ⟨p, m, c⟩ ∧
        ∀ c', Q ()
          { h with
            slot := some (p, .mapped m')
            mapped := some ⟨p, m', c'⟩
            locked := m.entry ::ₘ es })
  | .readEntry e, Q, h =>
    (∃ p m c, h.mapped = some ⟨p, m, c⟩ ∧ m.entry = e ∧ Q c h) ∨ (e ∈ h.locked ∧ ∀ c, Q c h)
  | .writeEntry e v, Q, h =>
    (∃ p m c, h.mapped = some ⟨p, m, c⟩ ∧ m.entry = e ∧ Q () { h with mapped := some ⟨p, m, v⟩ }) ∨
      (e ∈ h.locked ∧ Q () h)
  | .initEntry e, Q, h => e ∈ h.blocks ∧ Q () h
  | .fill e _ _, Q, h => e ∈ h.locked ∧ Q () h
  | .readTag n, Q, h => h.Knows n ∧ ∀ tag, Q tag h
  | .readChild n _, Q, h =>
    h.Knows n ∧ Q none h ∧ ∀ m, Q (some m) { h with nodes := insert m h.nodes }
  | .initNode n _, Q, h =>
    h.node = none ∧ ∃ bs, h.blocks = n ::ₘ bs ∧ Q () { h with blocks := bs, node := some n }
  | .exchangeChild n _ c, Q, h =>
    h.Knows n ∧ h.node = some c ∧ Q true { h with node := none, nodes := insert c h.nodes } ∧
      Q false { h with node := none, blocks := c ::ₘ h.blocks }
  | .readKeys n, Q, h => ∃ l, h.keys = some (n, l) ∧ Q l h
  | .writeKeys n l', Q, h => ∃ l bs, h.keys = some (n, l) ∧ bases l' + bs = bases l + h.blocks ∧
    Q () { h with keys := some (n, l'), blocks := bs }
  | .bucket _, Q, h => Q none h ∧ ∀ b, Q (some b) { h with blocks := b ::ₘ h.blocks }
  | .release b, Q, h => h.list = none ∧
    ((∃ bs, h.blocks = b ::ₘ bs ∧ Q () { h with blocks := bs }) ∨
      ∃ p m, h.slot = some (p, .quiet m) ∧ m.entry = b ∧ Q () { h with slot := some (p, .stale m) })
  | .time, Q, h => ∀ now, Q now h
  | .read _, Q, h => ∀ r, Q r h
  | .info, Q, h => ∀ r, Q r h
  | .crash, _, _ => True

theorem spec_mono {o : Op} {Q Q' : o.Answer → Held → Prop} {h : Held} (hQ : ∀ r h, Q r h → Q' r h)
    (hs : spec o Q h) : spec o Q' h := by
  cases o with
  | lock g => cases g <;> grind [spec]
  | tryLock g => cases g <;> grind [spec]
  | unlock g => cases g <;> grind [spec]
  | writeSlot p v => cases v <;> grind [spec]
  | crash => trivial
  | _ => grind [spec]

end Held

/-- The contract of the operations. -/
def contract : Contract Op.Answer Held where
  spec := Held.spec
  mono := Held.spec_mono

end Guarded

end Cik
