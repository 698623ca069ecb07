import Cik.Source.Tag
import Cik.Library.LinkedList
import Mathlib.Algebra.Order.Group.Multiset
import Mathlib.Data.Finset.Card

/-!
# Key lists in memory

The functions of `tag.c` that copy key lists and unite and intersect the copies, as they
work on the elements of the lists in memory. What goes wrong in C is an error here
(`none`): an element that is used after it was released, an element released that is not
reserved, a null pointer that is dereferenced. So is a loop that has not ended after as
many rounds as there were elements in use when it began.

All reservations succeed; which block they get is up to the allocator, but it is none in
use. What was reserved and released is kept count of, of which the functions know nothing.
A pointer to a pointer that is only read through is given by what it points at.
-/

namespace Cik

namespace KeyLists

open LinkedList (Link follow)

/-- `KeyElem`: the key, and `next`. -/
abbrev KeyElem := LinkedList.Cell ℕ CacheKey

/-- The elements in use, by their addresses. -/
structure KeyMemory where
  /-- What is at an address. -/
  cells : ℕ → Option KeyElem
  /-- The addresses in use. -/
  live : Finset ℕ
  /-- These are the ones with something there. -/
  mem_live : ∀ a, a ∈ live ↔ (cells a).isSome
  /-- The addresses that reservations gave so far. -/
  reserved : Multiset ℕ
  /-- The addresses that were released so far. -/
  released : Multiset ℕ

/-- How `reserve_memory` chooses a block. -/
structure Allocator where
  /-- The block, given those in use. -/
  pick : Finset ℕ → ℕ
  /-- It is not in use. -/
  fresh : ∀ live, pick live ∉ live

namespace KeyMemory

/-- `create_key_elem`. -/
def createKeyElem (A : Allocator) (m : KeyMemory) (key : CacheKey) : ℕ × KeyMemory :=
  let elem := A.pick m.live
  (elem,
    { cells := Function.update m.cells elem (some ⟨key, none⟩)
      live := insert elem m.live
      mem_live := fun a => by
        by_cases ha : a = elem
        · simp [ha]
        · simp [ha, m.mem_live]
      reserved := elem ::ₘ m.reserved
      released := m.released })

/-- `release_memory`. -/
def release (m : KeyMemory) (elem : ℕ) : Option KeyMemory :=
  if elem ∈ m.live then
    some
      { cells := Function.update m.cells elem none
        live := m.live.erase elem
        mem_live := fun a => by
          by_cases ha : a = elem
          · simp [ha]
          · simp [ha, m.mem_live]
        reserved := m.reserved
        released := elem ::ₘ m.released }
  else none

/-- `elem->next = next`. -/
def setNext (m : KeyMemory) (elem : ℕ) (next : Option ℕ) : Option KeyMemory :=
  if elem ∈ m.live then
    some { m with
      cells := fun a => (m.cells a).map fun e => if a = elem then { e with next := next } else e
      mem_live := fun a => by rw [m.mem_live, Option.isSome_map] }
  else none

/-- An address is written to a place, which is `&head` or the link of an element. -/
def write (m : KeyMemory) (head : Option ℕ) (place : Link ℕ) (p : Option ℕ) :
    Option (Option ℕ × KeyMemory) :=
  match place with
  | .head => some (p, m)
  | .next a => (m.setNext a p).map fun m => (head, m)

end KeyMemory

variable (A : Allocator)

/-! ### One list -/

/-- A loop over a list that looks for a key. -/
def hasKey : ℕ → KeyMemory → Option ℕ → CacheKey → Option Bool
  | _, _, none, _ => some false
  | 0, _, some _, _ => none
  | fuel + 1, m, some elem, key => do
    let e ← m.cells elem
    if e.val = key then some true else hasKey fuel m e.next key

/-- `insert_if_unique`: `*list`, whether the key was put in, and the memory. -/
def insertIfUnique (m : KeyMemory) (list : Option ℕ) (key : CacheKey) :
    Option (Option ℕ × Bool × KeyMemory) := do
  if ← hasKey m.live.card m list key then some (list, false, m)
  else
    let (elem, m) := m.createKeyElem A key
    let m ← m.setNext elem list
    some (some elem, true, m)

/-- The loop of `copy_key_list`: `*elem`, `new_list` and `copy`. -/
def copyLoop : ℕ → KeyMemory → Option ℕ → Option ℕ → Link ℕ → Option (Option ℕ × KeyMemory)
  | _, m, none, new_list, _ => some (new_list, m)
  | 0, _, some _, _, _ => none
  | fuel + 1, m, some elem, new_list, copy => do
    let e ← m.cells elem
    let (new_elem, m) := m.createKeyElem A e.val
    let (new_list, m) ← m.write new_list copy (some new_elem)
    let e ← m.cells elem
    copyLoop fuel m e.next new_list (.next new_elem)

/-- `copy_key_list`. -/
def copyKeyList (m : KeyMemory) (list : Option ℕ) : Option (Option ℕ × KeyMemory) :=
  copyLoop A m.live.card m list none .head

/-- The loop of `release_key_list`. -/
def releaseLoop : ℕ → KeyMemory → Option ℕ → Option KeyMemory
  | _, m, none => some m
  | 0, _, some _ => none
  | fuel + 1, m, some elem => do
    let e ← m.cells elem
    let m ← m.release elem
    releaseLoop fuel m e.next

/-- `release_key_list`. -/
def releaseKeyList (m : KeyMemory) (elem : Option ℕ) : Option KeyMemory :=
  releaseLoop m.live.card m elem

/-! ### The lists of several tags -/

/-- `node->keys` of the tags that have a node. -/
abbrev KeyHeads := SearchTree CacheTag (Option ℕ)

/-- `get_key_list_copy_by_tag`. -/
def getKeyListCopyByTag (heads : KeyHeads) (m : KeyMemory) (tag : CacheTag) :
    Option (Option ℕ × KeyMemory) :=
  match heads.find compareTags tag with
  | none => some (none, m)
  | some keys => copyKeyList A m keys

/-- The loop over `keys` in `get_keys_matching_any_tag`. -/
def mergeLoop : ℕ → KeyMemory → Option ℕ → Option ℕ → Option (Option ℕ × KeyMemory)
  | _, m, none, found_keys => some (found_keys, m)
  | 0, _, some _, _ => none
  | fuel + 1, m, some tag_key, found_keys => do
    let e ← m.cells tag_key
    let (found_keys, _, m) ← insertIfUnique A m found_keys e.val
    let e ← m.cells tag_key
    mergeLoop fuel m e.next found_keys

/-- The loop over `found_keys` in `get_keys_matching_all_tags`. A round begins at the label
`skip_advancement`; `goto` says that it was jumped to, past the test whether there is
another element. -/
def retainLoop : ℕ → KeyMemory → Option ℕ → Option ℕ → Link ℕ → (goto : Bool) →
    Option (Option ℕ × KeyMemory)
  | 0, _, _, _, _, _ => none
  | fuel + 1, m, keys, found_keys, found_key, goto => do
    match ← follow m.cells found_keys found_key with
    | none => if goto then none else some (found_keys, m)
    | some elem =>
      let e ← m.cells elem
      if ← hasKey m.live.card m keys e.val then retainLoop fuel m keys found_keys (.next elem) false
      else
        let (found_keys, m) ← m.write found_keys found_key e.next
        let m ← m.release elem
        match ← follow m.cells found_keys found_key with
        | some _ => retainLoop fuel m keys found_keys found_key true
        | none => some (found_keys, m)

/-- The loop over the tags behind the first one: `combine` is given the memory, the keys of
the tag and `found_keys`. -/
def combineTags (combine : KeyMemory → Option ℕ → Option ℕ → Option (Option ℕ × KeyMemory))
    (heads : KeyHeads) :
    List CacheTag → KeyMemory → Option ℕ → Option (Option ℕ × KeyMemory)
  | [], m, found_keys => some (found_keys, m)
  | tag :: tags, m, found_keys => do
    let (keys, m) ← getKeyListCopyByTag A heads m tag
    let (found_keys, m) ← combine m keys found_keys
    let m ← releaseKeyList m keys
    combineTags combine heads tags m found_keys

/-- `get_keys_matching_any_tag`. -/
def getKeysMatchingAnyTag (heads : KeyHeads) (m : KeyMemory) : List CacheTag →
    Option (Option ℕ × KeyMemory)
  | [] => some (none, m)
  | tag :: tags => do
    let (found_keys, m) ← getKeyListCopyByTag A heads m tag
    combineTags A (fun m keys found_keys => mergeLoop A m.live.card m keys found_keys)
      heads tags m found_keys

/-- `get_keys_matching_all_tags`. -/
def getKeysMatchingAllTags (heads : KeyHeads) (m : KeyMemory) : List CacheTag →
    Option (Option ℕ × KeyMemory)
  | [] => some (none, m)
  | tag :: tags => do
    let (found_keys, m) ← getKeyListCopyByTag A heads m tag
    combineTags A
      (fun m keys found_keys => retainLoop (m.live.card + 1) m keys found_keys .head false)
      heads tags m found_keys

end KeyLists

end Cik
