import Cik.Interleaving.Handlers
import Cik.Library.Contracts

/-!
# What a worker knows

A second contract, beside the one of `Cik.Interleaving.Holding`: what a worker may rely on of
what is in the memory, and what it has to see to when it writes to it. A worker knows what
is in the entries whose guards it has, and which of them are new; which entry is in the slot
whose guard it has; what the nodes that it has met are, and for which tags a search meets
them; and which request it handles, and what it has read for it (`Belief`).

It has to put an entry into a slot of the map of its key, with the hash of its key, and
only while it handles a SET of just this entry (`Handling.Sets`); to leave key, tags and value of an
entry as they are but for new ones; to link a node where the search for its tag ends; and to
put no key into a list twice, nor one of an entry that does not have the tag.
-/

namespace Cik

namespace Guarded

open Prog

/-- What is read for a SET after its header: the key, each tag behind its length, the value; names
are sent from the last byte to the first. -/
def setReads (entry : CacheEntry) : List (List UInt8) :=
  entry.key.reverse :: (entry.tags.flatMap fun tag => [[UInt8.ofNat tag.length], tag.reverse]) ++
    [entry.value]

/-- Key, tags and value are the same. -/
structure SameContent (entry entry' : CacheEntry) : Prop where
  /-- The key. -/
  key : entry'.key = entry.key
  /-- The tags. -/
  tags : entry'.tags = entry.tags
  /-- The value. -/
  value : entry'.value = entry.value

theorem SameContent.setReads {entry entry' : CacheEntry} (h : SameContent entry entry') :
    setReads entry' = setReads entry := by
  unfold Guarded.setReads
  rw [h.key, h.tags, h.value]

/-- A request that a worker handles. -/
structure Handling where
  /-- The request. -/
  call : Call
  /-- What has been read for it after the header. -/
  reads : List (List UInt8)

namespace Handling

/-- More is read. -/
def append (x : Handling) (more : List (List UInt8)) : Handling :=
  { x with reads := x.reads ++ more }

@[simp] theorem append_nil (x : Handling) : x.append [] = x := by rw [append, List.append_nil]

@[simp] theorem append_append (x : Handling) (l l' : List (List UInt8)) :
    (x.append l).append l' = x.append (l ++ l') := by
  simp only [append, List.append_assoc]

/-- The request is a SET, and the entry is what its header announces and what has been read for
it. -/
structure Sets (x : Handling) (entry : CacheEntry) : Prop where
  /-- It is a SET. -/
  op : x.call.request.op = CMD_BYTE_SET
  /-- Not one that renews an expiry time. -/
  flags : x.call.request.sFlags &&& SET_FLAG_ONLY_TTL = 0
  /-- The length of the key. -/
  klen : entry.key.length = x.call.request.sKlen.toNat
  /-- The number of tags. -/
  ntags : entry.tags.length = x.call.request.sNtags.toNat
  /-- The length of the value. -/
  vlen : entry.value.length = (ntohl x.call.request.sVlen).toNat
  /-- What has been read. -/
  reads : x.reads = setReads entry

theorem Sets.same {x : Handling} {entry entry' : CacheEntry} (h : x.Sets entry)
    (hc : SameContent entry entry') :
    x.Sets entry' := by
  refine ⟨h.op, h.flags, ?_, ?_, ?_, ?_⟩
  · rw [hc.key, h.klen]
  · rw [hc.tags, h.ntags]
  · rw [hc.value, h.vlen]
  · rw [hc.setReads, h.reads]

end Handling

/-- A key list that can be: no key is in it twice, and none is longer than a request can make it. -/
structure ProperKeys (l : List KeyElem) : Prop where
  /-- No key is in it twice. -/
  nodup : (l.map KeyElem.key).Nodup
  /-- None is longer than a length byte says. -/
  short : ∀ elem ∈ l, elem.key.length ≤ 255

/-- What a worker knows. -/
structure Belief where
  /-- What is in the entries whose guards it has, where it has looked. -/
  entry : ℕ → Option CacheEntry
  /-- Those of them that are new: no slot has had them yet. -/
  fresh : Set ℕ
  /-- Whether it has a slot's guard. -/
  atSlot : Bool
  /-- The entry in that slot, if any. -/
  inSlot : Option (Option ℕ)
  /-- What it has seen in entries that were not new. -/
  seen : Set CacheEntry
  /-- The request that it handles, or has handled last. -/
  handling : Option Handling
  /-- The tags of nodes in the tree. -/
  tag : ℕ → Option CacheTag
  /-- Keys that it has met in the lists of nodes. -/
  listed : Set (ℕ × CacheKey)
  /-- Nodes that the search for a tag meets. -/
  path : Set (ℕ × CacheTag)
  /-- A new node, and its tag. -/
  node : Option (ℕ × CacheTag)

namespace Belief

/-- The search for the tag meets the node, as every search meets the root. -/
def Meets (b : Belief) (n : ℕ) (tag : CacheTag) : Prop := n = root ∨ (n, tag) ∈ b.path

/-- The search for the tag meets the node, and goes on at the side. -/
def GoesTo (b : Belief) (n : ℕ) (side : Side) (tag : CacheTag) : Prop :=
  b.Meets n tag ∧ ∃ tag', b.tag n = some tag' ∧ compareTags tag tag' = side.ordering

/-- The key belongs in the list of the node: it was there, or is that of an entry that has the
node's tag. -/
def Lists (b : Belief) (n : ℕ) (key : CacheKey) : Prop :=
  (n, key) ∈ b.listed ∨ ∃ entry ∈ b.seen, entry.key = key ∧ ∃ tag ∈ entry.tags, b.tag n = some tag

/-- A worker at start-up. -/
def init : Belief := ⟨fun _ => none, ∅, false, none, ∅, none, fun _ => none, ∅, ∅, none⟩

/-- A worker between two requests. -/
structure AtRest (b : Belief) : Prop where
  /-- It has no slot's guard. -/
  atSlot : b.atSlot = false
  /-- It has no new entries. -/
  fresh : b.fresh = ∅

theorem init_atRest : init.AtRest := ⟨rfl, rfl⟩

/-- A worker that begins to handle a request. -/
structure Begins (c : Call) (b : Belief) : Prop extends b.AtRest where
  /-- The request. -/
  handling : b.handling = some ⟨c, []⟩

/-- The worker has read more. -/
def hear (b : Belief) (more : List (List UInt8)) : Belief :=
  { b with handling := b.handling.map (·.append more) }

@[simp] theorem hear_nil (b : Belief) : b.hear [] = b := by simp [hear]

@[simp] theorem hear_hear (b : Belief) (l l' : List (List UInt8)) :
    (b.hear l).hear l' = b.hear (l ++ l') := by
  simp [hear, Function.comp_def]

/-- What an operation asks of what its worker knows, given what is to hold after it. -/
def spec : (o : Op) → (o.Answer → Belief → Prop) → Belief → Prop
  | .lock (.slot _), Q, b => ∀ e, Q () { b with atSlot := true, inSlot := some e }
  | .lock (.entry e), Q, b =>
    (b.atSlot = false ∧ Q () { b with fresh := insert e b.fresh }) ∨
      (b.inSlot = some (some e) ∧ Q () b)
  | .unlock (.slot _), Q, b => Q () { b with atSlot := false, inSlot := none }
  | .unlock (.entry e), Q, b =>
    Q () { b with entry := Function.update b.entry e none, fresh := b.fresh \ {e} }
  | .returnEntry _ e _, Q, b => Q (some e) b
  | .readSlot _, Q, b => ∀ m : Option MapSlot,
    (∀ e, b.inSlot = some e → m.map MapSlot.entry = e ∧ ∀ e' ∈ b.fresh, e ≠ some e') → Q m b
  | .writeSlot _ none, Q, b => Q () { b with inSlot := none }
  | .writeSlot p (some m), Q, b =>
    ∃ entry, b.entry m.entry = some entry ∧ m.hash = getKeyHash entry.key ∧
    p.1 = getMapForKey entry.key ∧ (∃ x, b.handling = some x ∧ x.Sets entry) ∧
      Q () { b with inSlot := none, fresh := b.fresh \ {m.entry} }
  | .readEntry e, Q, b =>
    ∀ entry, entry.key.length ≤ 255 → (∀ entry', b.entry e = some entry' → entry = entry') →
    Q entry { b with
      entry := Function.update b.entry e (some entry)
      seen := {x | x ∈ b.seen ∨ x = entry ∧ e ∉ b.fresh} }
  | .writeEntry e v, Q, b => v.key.length ≤ 255 ∧
    (e ∈ b.fresh ∨ ∃ entry, b.entry e = some entry ∧ SameContent entry v) ∧
      Q () { b with entry := Function.update b.entry e (some v) }
  | .readTag n, Q, b => ∀ tag, Q tag { b with tag := Function.update b.tag n (some tag) }
  | .readChild n side, Q, b => Q none b ∧
    ∀ c, Q (some c) { b with path := {x | x ∈ b.path ∨ x.1 = c ∧ b.GoesTo n side x.2} }
  | .initNode n tag, Q, b => Q () { b with node := some (n, tag) }
  | .exchangeChild n side c, Q, b => ∃ tag, b.node = some (c, tag) ∧ b.GoesTo n side tag ∧
    Q true { b with node := none, path := insert (c, tag) b.path } ∧ Q false { b with node := none }
  | .readKeys n, Q, b => ∀ l, ProperKeys l →
    Q l { b with listed := {x | x ∈ b.listed ∨ x.1 = n ∧ x.2 ∈ l.map KeyElem.key} }
  | .writeKeys n l, Q, b => ProperKeys l ∧ (∀ elem ∈ l, b.Lists n elem.key) ∧ Q () b
  | .release _, Q, b => Q () { b with inSlot := none }
  | .read n, Q, b => ∀ r : StatusCode × List UInt8, (r.1 = .ok → r.2.length = n) →
    Q r (if r.1 = .ok then b.hear [r.2] else b)
  | .crash, _, _ => True
  | _, Q, b => ∀ r, Q r b

theorem spec_mono {o : Op} {Q Q' : o.Answer → Belief → Prop} {b : Belief}
    (hQ : ∀ r b, Q r b → Q' r b) (hs : spec o Q b) : spec o Q' b := by
  cases o with
  | lock g => cases g <;> grind [spec]
  | unlock g => cases g <;> grind [spec]
  | writeSlot p v => cases v <;> grind [spec]
  | crash => trivial
  | _ => grind [spec]

end Belief

/-- The contract of what workers know. -/
def beliefs : Contract Op.Answer Belief where
  spec := Belief.spec
  mono := Belief.spec_mono

end Guarded

end Cik
