import Cik.Source.Tag
import Cik.Library.LinkedList
import Mathlib.Data.Finset.Erase
import Mathlib.Data.Finset.Insert

/-!
# The walk over the tags in memory

`walk_all_tags` of `tag.c`, as it works on nodes and on elements of its stack, which lie in
one memory. The stack is a linked list of elements, each reserved when its node is met on
the way down to the left, and released when it is taken off again. What goes wrong in C is
an error here (`none`): to look at something else than a node or an element, and to
release what is not in use. So is a loop that has not ended when the fuel has.

All reservations succeed; which block they get is up to the allocator, but it is none in
use. It may depend on all calls so far. The locks of the nodes are left out, and so is of a
node what the walk does not read.
-/

namespace Cik

namespace TagWalk

/-- `TagNode`, with the address of the first key. -/
structure Node where
  /-- `tag`. -/
  tag : CacheTag
  /-- `keys`. -/
  keys : Option ℕ
  /-- `left`. -/
  left : Option ℕ
  /-- `right`. -/
  right : Option ℕ

/-- `struct TagElem`: the node, and `next`. -/
abbrev TagElem := LinkedList.Cell ℕ ℕ

/-- What is at an address in use. -/
inductive Block where
  /-- A node. -/
  | node (n : Node)
  /-- An element of the stack. -/
  | elem (e : TagElem)
  /-- Something else. -/
  | other

/-- A call of the allocator. -/
inductive Call where
  /-- `reserve_memory` returned this address. -/
  | reserve (a : ℕ)
  /-- `release_memory` was called with this address. -/
  | release (a : ℕ)
  deriving DecidableEq

/-- The memory. -/
structure Memory where
  /-- What is at an address. -/
  cells : ℕ → Option Block
  /-- The addresses in use. -/
  live : Finset ℕ
  /-- These are the ones with something there. -/
  mem_live : ∀ a, a ∈ live ↔ (cells a).isSome
  /-- The calls so far, the last one first. -/
  calls : List Call

/-- How `reserve_memory` chooses a block. -/
structure Allocator where
  /-- The block, given the calls so far and the blocks in use. -/
  pick : List Call → Finset ℕ → ℕ
  /-- It is not in use. -/
  fresh : ∀ calls live, pick calls live ∉ live

namespace Memory

/-- The node at an address. -/
def node (m : Memory) (a : ℕ) : Option Node :=
  match m.cells a with
  | some (.node n) => some n
  | _ => none

/-- The element at an address. -/
def elem (m : Memory) (a : ℕ) : Option TagElem :=
  match m.cells a with
  | some (.elem e) => some e
  | _ => none

/-- `reserve_memory`. -/
def reserve (A : Allocator) (m : Memory) : ℕ × Memory :=
  let a := A.pick m.calls m.live
  (a,
    { cells := Function.update m.cells a (some .other)
      live := insert a m.live
      mem_live := fun b => by
        by_cases hb : b = a
        · simp [hb]
        · simp [hb, m.mem_live]
      calls := .reserve a :: m.calls })

/-- `*tmp = e`. -/
def setElem (m : Memory) (tmp : ℕ) (e : TagElem) : Option Memory :=
  if h : tmp ∈ m.live then
    some { m with
      cells := Function.update m.cells tmp (some (.elem e))
      mem_live := fun b => by
        by_cases hb : b = tmp
        · simp [hb, h]
        · simp [hb, m.mem_live] }
  else none

/-- `release_memory`. -/
def release (m : Memory) (a : ℕ) : Option Memory :=
  if a ∈ m.live then
    some
      { cells := Function.update m.cells a none
        live := m.live.erase a
        mem_live := fun b => by
          by_cases hb : b = a
          · simp [hb]
          · simp [hb, m.mem_live]
        calls := .release a :: m.calls }
  else none

end Memory

variable (A : Allocator)

/-- The inner loop of `walk_all_tags`: the memory, and `stack`. -/
def descend : ℕ → Memory → Option ℕ → Option ℕ → Option (Memory × Option ℕ)
  | _, m, none, stack => some (m, stack)
  | 0, _, some _, _ => none
  | fuel + 1, m, some current, stack => do
    let (tmp, m) := m.reserve A
    let m ← m.setElem tmp ⟨current, stack⟩
    let node ← m.node current
    descend fuel m node.left (some tmp)

/-- The loop of `walk_all_tags`: `*user_data`, and the memory. -/
def walkLoop {σ : Type} (callback : CacheTag → σ → σ) : ℕ → Memory → Option ℕ → Option ℕ → σ →
    Option (σ × Memory)
  | _, m, none, none, user_data => some (user_data, m)
  | 0, _, _, _, _ => none
  | fuel + 1, m, current, stack, user_data => do
    let (m, stack) ← descend A fuel m current stack
    let tmp ← stack
    let elem ← m.elem tmp
    let m ← m.release tmp
    let node ← m.node elem.val
    let user_data := if node.keys = none then user_data else callback node.tag user_data
    walkLoop callback fuel m node.right elem.next user_data

/-- `walk_all_tags`. -/
def walkAllTags {σ : Type} (callback : CacheTag → σ → σ) (fuel : ℕ) (m : Memory) (root : ℕ)
    (user_data : σ) :
    Option (σ × Memory) :=
  walkLoop A callback fuel m (some root) none user_data

end TagWalk

end Cik
