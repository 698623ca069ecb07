import Cik.Interleaving.Beliefs

/-!
# What the functions of the tag index need to know

The functions of `tag.c` keep the contract of `Cik.Interleaving.Beliefs`: a node is linked where
the search for its tag ends, and no key is put into a list twice, or into that of another
tag. What a worker knows of guards and new entries, and has seen of entries, is as before
(`SameHold`).
-/

namespace Cik

namespace Guarded

open Prog

variable {α β : Type} {b b' b'' : Belief} {key : CacheKey} {tag : CacheTag} {n : ℕ}
  {Q : α → Belief → Prop}

/-- The contract lets the program through, with `Q` at its end. -/
abbrev Lets (Q : α → Belief → Prop) (b : Belief) (p : Program α) : Prop := wp beliefs p Q b

/-- Guards of slots, new entries and what was seen of others are as before. -/
structure SameHold (b b' : Belief) : Prop where
  /-- The guard of a slot. -/
  atSlot : b'.atSlot = b.atSlot
  /-- The new entries. -/
  fresh : b'.fresh = b.fresh
  /-- What was seen. -/
  seen : b'.seen = b.seen

theorem SameHold.refl (b : Belief) : SameHold b b := ⟨rfl, rfl, rfl⟩

theorem SameHold.trans (h : SameHold b b') (h' : SameHold b' b'') : SameHold b b'' :=
  ⟨h'.atSlot.trans h.atSlot, h'.fresh.trans h.fresh, h'.seen.trans h.seen⟩

theorem SameHold.atRest (h : SameHold b b') (hr : b.AtRest) : b'.AtRest :=
  ⟨h.atSlot.trans hr.atSlot, h.fresh.trans hr.fresh⟩

/-! ### Operations -/

theorem lets_readSlot {p : SlotPos} {Q : Option MapSlot → Belief → Prop}
    (hQ : ∀ m : Option MapSlot,
      (∀ e, b.inSlot = some e → m.map MapSlot.entry = e ∧ ∀ e' ∈ b.fresh, e ≠ some e') → Q m b) :
    Lets Q b (readSlot p) := hQ

theorem lets_readEntry {e : ℕ} {Q : CacheEntry → Belief → Prop}
    (hQ : ∀ entry, entry.key.length ≤ 255 → (∀ entry', b.entry e = some entry' → entry = entry') →
      Q entry
        { b with
          entry := Function.update b.entry e (some entry)
          seen := {x | x ∈ b.seen ∨ x = entry ∧ e ∉ b.fresh} }) :
    Lets Q b (readEntry e) := hQ

theorem lets_readTag {Q : CacheTag → Belief → Prop}
    (hQ : ∀ tag, Q tag { b with tag := Function.update b.tag n (some tag) }) :
    Lets Q b (readTag n) := hQ

theorem lets_readKeys {Q : List KeyElem → Belief → Prop} (hQ : ∀ l, ProperKeys l → Q l { b with
    listed := {x | x ∈ b.listed ∨ x.1 = n ∧ x.2 ∈ l.map KeyElem.key} }) : Lets Q b
      (readKeys n) := hQ

theorem lets_read {nmemb : ℕ} {Q : StatusCode × List UInt8 → Belief → Prop}
    (hok : ∀ bs, bs.length = nmemb → Q (.ok, bs) (b.hear [bs]))
    (hfail : ∀ status bs, status ≠ .ok → Q (status, bs) b) : Lets Q b (read nmemb) := by
  rintro ⟨status, bs⟩ hr
  by_cases hs : status = .ok
  · subst hs
    exact hok bs (hr rfl)
  · change Q (status, bs) (if status = .ok then b.hear [bs] else b)
    rw [if_neg hs]
    exact hfail status bs hs

theorem lets_time {Q : Time → Belief → Prop} (hQ : ∀ now, Q now b) : Lets Q b time := hQ

/-! ### Operations that only look at the index -/

/-- The operations of the tag index that write nothing to it, and those of the memory. -/
def Op.OfIndex : Op → Prop
  | .lock (.keys _) => True
  | .unlock (.keys _) => True
  | .tryLock _ => True
  | .unlock (.list _) => True
  | .readTag _ => True
  | .readChild _ _ => True
  | .readKeys _ => True
  | .bucket _ => True
  | .release _ => True
  | .crash => True
  | _ => False

theorem spec_ofIndex {o : Op} (ho : o.OfIndex) (h : SameHold b b') :
    Belief.spec o (fun _ => SameHold b) b' := by
  cases o with
  | lock g =>
    cases g with
    | keys n => exact fun _ => h
    | _ => exact ho.elim
  | unlock g =>
    cases g with
    | keys n => exact fun _ => h
    | list p => exact fun _ => h
    | _ => exact ho.elim
  | tryLock g => exact fun _ => h
  | readTag n => exact fun _ => ⟨h.atSlot, h.fresh, h.seen⟩
  | readChild n side => exact ⟨h, fun _ => ⟨h.atSlot, h.fresh, h.seen⟩⟩
  | readKeys n => exact fun _ _ => ⟨h.atSlot, h.fresh, h.seen⟩
  | bucket p => exact fun _ => h
  | release c => exact ⟨h.atSlot, h.fresh, h.seen⟩
  | crash => trivial
  | _ => exact ho.elim

/-- A program of such operations. -/
theorem lets_ofIndex {p : Program α} (hp : All Op.OfIndex p) (hQ : ∀ a b', SameHold b b' → Q a b') :
    Lets Q b p :=
  wp_of_all (C := beliefs) (fun _ _ ho h => spec_ofIndex ho h) hp hQ (.refl b)

theorem index_op {o : Op} (ho : o.OfIndex) : All Op.OfIndex (.op o .pure : Program o.Answer) :=
  ⟨ho, fun _ => trivial⟩

theorem index_crash : All Op.OfIndex (crash : Program α) := ⟨trivial, fun r => r.elim⟩

theorem index_reserveMemory (size : UInt32) : All Op.OfIndex (reserveMemory size) := by
  unfold reserveMemory
  cases partitionSizes.find? (size.toNat ≤ ·) with
  | none => exact all_pure
  | some p =>
    refine .bind (index_op trivial) fun marked => ?_
    cases marked
    · exact index_op trivial
    · exact .bind (index_op trivial) fun _ => index_op trivial

theorem index_createKeyElem (key : CacheKey) : All Op.OfIndex (createKeyElem key) := by
  refine (index_reserveMemory _).bind fun elem => ?_
  cases elem <;> exact all_pure

theorem index_insertIfUnique (list : List KeyElem) (key : CacheKey) :
    All Op.OfIndex (insertIfUnique list key) := by
  unfold insertIfUnique
  split_ifs
  · exact all_pure
  · refine (index_createKeyElem key).bind fun elem => ?_
    cases elem <;> exact all_pure

theorem index_getTagIfExists (tag : CacheTag) : All Op.OfIndex (getTagIfExists tag) := by
  refine all_iterate (fun current => ?_) root
  refine .bind (index_op trivial) fun t => ?_
  cases compareTags tag t with
  | eq => exact all_pure
  | lt => exact .bind (index_op trivial) fun _ => all_pure
  | gt => exact .bind (index_op trivial) fun _ => all_pure

theorem index_copyKeyList (list : List KeyElem) : All Op.OfIndex (copyKeyList list) := by
  induction list with
  | nil => exact all_pure
  | cons elem next ih =>
    rw [copyKeyList]
    refine (index_createKeyElem _).bind fun copy => ?_
    cases copy with
    | none =>
      dsimp only
      split_ifs
      · exact all_pure
      · exact index_crash
    | some copy => exact ih.bind fun _ => all_pure

theorem index_getKeyListCopyByTag (tag : CacheTag) : All Op.OfIndex (getKeyListCopyByTag tag) := by
  refine (index_getTagIfExists tag).bind fun node => ?_
  cases node with
  | none => exact all_pure
  | some node =>
    refine .bind (index_op trivial) fun _ => .bind (index_op trivial) fun l => ?_
    exact (index_copyKeyList l).bind fun _ => .bind (index_op trivial) fun _ => all_pure

theorem index_releaseKeyList (list : List KeyElem) : All Op.OfIndex (releaseKeyList list) := by
  induction list with
  | nil => exact all_pure
  | cons elem next ih => exact .bind (index_op trivial) fun _ => ih

theorem index_mergeKeys (found keys : List KeyElem) : All Op.OfIndex (mergeKeys found keys) := by
  induction keys generalizing found with
  | nil => exact all_pure
  | cons elem next ih => exact (index_insertIfUnique found elem.key).bind fun r => ih r.1

theorem index_retainKeys (keys found : List KeyElem) : All Op.OfIndex (retainKeys keys found) := by
  induction found with
  | nil => exact all_pure
  | cons elem next ih =>
    rw [retainKeys]
    split_ifs
    · exact ih.bind fun _ => all_pure
    · exact .bind (index_op trivial) fun _ => ih

theorem index_combineTags {combine : List KeyElem → List KeyElem → Program (List KeyElem)}
    (hc : ∀ found keys, All Op.OfIndex (combine found keys)) (tags : List CacheTag)
    (found : List KeyElem) :
    All Op.OfIndex (combineTags combine tags found) := by
  induction tags generalizing found with
  | nil => exact all_pure
  | cons tag tags ih =>
    refine (index_getKeyListCopyByTag tag).bind fun keys => (hc found keys).bind fun found => ?_
    exact (index_releaseKeyList keys).bind fun _ => ih found

theorem index_getKeysMatchingAnyTag (tags : List CacheTag) :
    All Op.OfIndex (getKeysMatchingAnyTag tags) := by
  cases tags with
  | nil => exact all_pure
  | cons tag tags =>
    exact (index_getKeyListCopyByTag tag).bind fun _ => index_combineTags index_mergeKeys tags _

theorem index_getKeysMatchingAllTags (tags : List CacheTag) :
    All Op.OfIndex (getKeysMatchingAllTags tags) := by
  cases tags with
  | nil => exact all_pure
  | cons tag tags =>
    refine (index_getKeyListCopyByTag tag).bind fun _ =>
      index_combineTags (fun found keys => ?_) tags _
    exact index_retainKeys keys found

theorem index_pushLeft (current : Option ℕ) (stack : List TagElem) :
    All Op.OfIndex (pushLeft current stack) := by
  refine all_iterate ?_ _
  rintro ⟨current, stack⟩
  cases current with
  | none => exact all_pure
  | some node =>
    refine (index_reserveMemory _).bind fun tmp => ?_
    cases tmp with
    | none => exact index_crash
    | some tmp => exact .bind (index_op trivial) fun _ => all_pure

theorem index_walkAllTags {σ : Type} (callback : CacheTag → σ → σ) (data : σ) :
    All Op.OfIndex (walkAllTags callback data) := by
  refine all_iterate ?_ _
  rintro ⟨current, stack, data⟩
  dsimp only
  split_ifs
  · exact all_pure
  · refine (index_pushLeft current stack).bind fun stack => ?_
    cases stack with
    | nil => exact index_crash
    | cons tmp stack =>
      refine .bind (index_op trivial) fun _ => .bind (index_op trivial) fun _ =>
        .bind (index_op trivial) fun keys => ?_
      refine .bind (index_op trivial) fun _ => ?_
      split_ifs
      · refine .bind (index_op trivial) fun _ => .bind all_pure fun _ => ?_
        exact .bind (index_op trivial) fun _ => all_pure
      · exact .bind all_pure fun _ => .bind (index_op trivial) fun _ => all_pure

/-! ### Nodes -/

/-- A reservation changes nothing that the worker knows. -/
theorem lets_reserveMemory {size : UInt32} {Q : Option ℕ → Belief → Prop} (hQ : ∀ r, Q r b) :
    Lets Q b (reserveMemory size) := by
  unfold reserveMemory
  cases partitionSizes.find? (size.toNat ≤ ·) with
  | none => exact hQ none
  | some p =>
    refine .bind fun marked => ?_
    cases marked
    · exact hQ
    · exact fun _ => hQ

theorem lets_getOrCreateChild {side : Side} {Q : ℕ → Belief → Prop} (h : b.GoesTo n side tag)
    (hQ : ∀ c b', SameHold b b' → b'.Meets c tag → Q c b') :
    Lets Q b (getOrCreateChild tag n side) := by
  refine .bind ⟨.bind (.bind (lets_reserveMemory fun r => ?_)), fun c => ?_⟩
  · cases r with
    | none => trivial
    | some c =>
      refine .bind ⟨tag, rfl, h, hQ c _ ⟨rfl, rfl, rfl⟩ (Or.inr (Set.mem_insert _ _)),
        .bind (.bind ⟨trivial, fun c' => ?_⟩)⟩
      exact hQ c' _ ⟨rfl, rfl, rfl⟩ (Or.inr (Or.inr ⟨rfl, h⟩))
  · exact hQ c _ ⟨rfl, rfl, rfl⟩ (Or.inr (Or.inr ⟨rfl, h⟩))

/-- The node that is returned has the tag. -/
theorem lets_getOrCreateNode {Q : ℕ → Belief → Prop}
    (hQ : ∀ n b', SameHold b b' → b'.tag n = some tag → Q n b') :
    Lets Q b (getOrCreateNode tag) := by
  refine wp_iterate (fun n b' => SameHold b b' ∧ b'.Meets n tag) ⟨.refl b, Or.inl rfl⟩ ?_
  rintro n b₁ ⟨hb₁, hn⟩
  refine .bind (lets_readTag fun tag' => ?_)
  have hgoes (side : Side) (h : compareTags tag tag' = side.ordering) :
      ({ b₁ with tag := Function.update b₁.tag n (some tag') } : Belief).GoesTo n side tag :=
    ⟨hn, tag', Function.update_self .., h⟩
  have hb₂ : SameHold b { b₁ with tag := Function.update b₁.tag n (some tag') } :=
    ⟨hb₁.atSlot, hb₁.fresh, hb₁.seen⟩
  cases hc : compareTags tag tag' with
  | lt =>
    exact .bind (lets_getOrCreateChild (hgoes .left hc) fun c b' hb' hc' => ⟨hb₂.trans hb', hc'⟩)
  | gt =>
    exact .bind (lets_getOrCreateChild (hgoes .right hc) fun c b' hb' hc' => ⟨hb₂.trans hb', hc'⟩)
  | eq =>
    obtain rfl := Std.LawfulEqCmp.eq_of_compare hc
    exact hQ n _ hb₂ (Function.update_self ..)

/-! ### Key lists -/

theorem properKeys_nil : ProperKeys [] := ⟨List.nodup_nil, by simp⟩

/-- Taking an element out of a list leaves a list of others. -/
theorem sublist_of_unlinkElem {l : List KeyElem} {found : KeyElem} {rest : List KeyElem}
    (h : unlinkElem key l = some (found, rest)) : rest.Sublist l := by
  induction l generalizing rest with
  | nil => cases h
  | cons elem next ih =>
    rw [unlinkElem] at h
    split_ifs at h with he
    · cases h
      exact List.sublist_cons_self _ _
    · obtain ⟨⟨found', rest'⟩, hu, hx⟩ := Option.map_eq_some_iff.mp h
      cases hx
      exact (ih hu).cons_cons _

theorem ProperKeys.sublist {l l' : List KeyElem} (h : ProperKeys l) (hl : l'.Sublist l) :
    ProperKeys l' :=
  ⟨h.nodup.sublist (hl.map _), fun elem he => h.short elem (hl.subset he)⟩

/-- Nothing but the key is added to a list. -/
theorem lets_insertIfUnique {l : List KeyElem} (h : ProperKeys l) (hkey : key.length ≤ 255)
    {Q : List KeyElem × Bool → Belief → Prop}
    (hQ : ∀ r, ProperKeys r.1 → (∀ elem ∈ r.1, elem ∈ l ∨ elem.key = key) → Q r b) :
    Lets Q b (insertIfUnique l key) := by
  unfold insertIfUnique
  split_ifs with hmem
  · exact hQ _ h fun _ he => Or.inl he
  · refine .bind (.bind (lets_reserveMemory fun r => ?_))
    cases r with
    | none => exact hQ _ h fun _ he => Or.inl he
    | some base =>
      refine hQ _ ⟨?_, ?_⟩ ?_
      · rw [List.map_cons, List.nodup_cons]
        exact ⟨hmem, h.nodup⟩
      · rw [List.forall_mem_cons]
        exact ⟨hkey, h.short⟩
      · rw [List.forall_mem_cons]
        exact ⟨Or.inr rfl, fun _ he => Or.inl he⟩

theorem lets_addKeyToTag {entry : CacheEntry} (hkey : entry.key.length ≤ 255)
    (hentry : entry ∈ b.seen) (htag : tag ∈ entry.tags) {Q : Unit → Belief → Prop}
    (hQ : ∀ b', SameHold b b' → Q () b') : Lets Q b (addKeyToTag tag entry.key) := by
  refine .bind (lets_getOrCreateNode fun n b₁ hb₁ hn => .bind fun _ =>
    .bind (lets_readKeys fun l hl => .bind ?_))
  refine lets_insertIfUnique hl hkey fun r hr hmem => ?_
  have hb₂ :
      SameHold b { b₁ with listed := {x | x ∈ b₁.listed ∨ x.1 = n ∧ x.2 ∈ l.map KeyElem.key} } :=
    ⟨hb₁.atSlot, hb₁.fresh, hb₁.seen⟩
  obtain ⟨keys, isNew⟩ := r
  cases isNew
  · exact fun _ => hQ _ hb₂
  · refine .bind ⟨hr, fun elem he => ?_, fun _ => hQ _ hb₂⟩
    rcases hmem elem he with he | he
    · exact Or.inl (Or.inr ⟨rfl, List.mem_map_of_mem he⟩)
    · exact Or.inr ⟨entry, hb₂.seen ▸ hentry, he.symm, tag, htag, hn⟩

theorem lets_removeKeyFromTag {Q : Unit → Belief → Prop} (hQ : ∀ b', SameHold b b' → Q () b') :
    Lets Q b (removeKeyFromTag tag key) := by
  refine .bind (lets_ofIndex (index_getTagIfExists tag) fun node b₁ hb₁ => ?_)
  cases node with
  | none => exact hQ b₁ hb₁
  | some n =>
    refine .bind fun _ => .bind (lets_readKeys fun l hl => ?_)
    cases hu : unlinkElem key l with
    | none => exact fun _ => hQ _ ⟨hb₁.atSlot, hb₁.fresh, hb₁.seen⟩
    | some x =>
      obtain ⟨found, rest⟩ := x
      have hsub := sublist_of_unlinkElem hu
      refine .bind ⟨hl.sublist hsub, fun elem he => ?_,
        .bind fun _ => hQ _ ⟨hb₁.atSlot, hb₁.fresh, hb₁.seen⟩⟩
      exact Or.inl (Or.inr ⟨rfl, List.mem_map_of_mem (hsub.subset he)⟩)

theorem lets_addKeyToTags {entry : CacheEntry} {tags : List CacheTag}
    (hkey : entry.key.length ≤ 255) (hentry : entry ∈ b.seen)
    (htags : ∀ tag ∈ tags, tag ∈ entry.tags) {Q : Unit → Belief → Prop}
    (hQ : ∀ b', SameHold b b' → Q () b') :
    Lets Q b (addKeyToTags entry.key tags) := by
  induction tags generalizing b with
  | nil => exact hQ b (.refl b)
  | cons tag tags ih =>
    rw [List.forall_mem_cons] at htags
    refine .bind (lets_addKeyToTag hkey hentry htags.1 fun b₁ hb₁ => ?_)
    exact ih (by rwa [hb₁.seen]) htags.2 fun b' hb' => hQ b' (hb₁.trans hb')

theorem lets_removeKeyFromTags {tags : List CacheTag} {Q : Unit → Belief → Prop}
    (hQ : ∀ b', SameHold b b' → Q () b') :
    Lets Q b (removeKeyFromTags key tags) := by
  induction tags generalizing b with
  | nil => exact hQ b (.refl b)
  | cons tag tags ih =>
    exact .bind (lets_removeKeyFromTag fun b₁ hb₁ => ih fun b' hb' => hQ b' (hb₁.trans hb'))

end Guarded

end Cik
