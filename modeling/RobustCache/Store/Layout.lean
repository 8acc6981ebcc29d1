import RobustCache.Lib.Recency
import RobustCache.Store.Table

/-! # What a well-formed store represents

`Placement` relates a table to the positions of its entries, `TableLayout` adds
the links, `Layout` the counters, and `Represents` forgets the positions: the
store represents a recency list of items.
-/

namespace RobustCache

open Lib

/-- What the store keeps for one key. -/
structure Item where
  key : Bytes
  value : Bytes
  version : Version
deriving DecidableEq, Repr

def Item.size (it : Item) : Int := it.key.length + it.value.length

def totalSize (items : List Item) : Int := (items.map Item.size).sum

def Record.item (r : Record) : Item := ⟨r.key, r.value, r.version⟩

def Record.content (r : Record) : Record := { r with prev := -1, next := -1 }

/-! ## Reading a table after a write -/

@[simp] theorem size_setRecord (t : Array Record) (i : Int) (r : Record) :
    (setRecord t i r).size = t.size := by
  unfold setRecord
  split <;> simp

theorem recordAt_outside {t : Array Record} {i : Int} (h : i < 0 ∨ (t.size : Int) ≤ i) :
    recordAt t i = {} := by
  unfold recordAt
  split
  · rfl
  · have hsize : ¬ i.toNat < t.size := by omega
    simp [Array.getD, hsize]

theorem inside_of_ne_empty {t : Array Record} {i : Int} (h : (recordAt t i).state ≠ .empty) :
    0 ≤ i ∧ i < t.size := by
  by_contra hout
  rw [recordAt_outside (by omega)] at h
  exact h rfl

theorem inside_of_alive {t : Array Record} {i : Int} (h : (recordAt t i).state = .alive) :
    0 ≤ i ∧ i < t.size := inside_of_ne_empty (by rw [h]; simp)

theorem recordAt_setRecord {t : Array Record} {i : Int} (h0 : 0 ≤ i) (hi : i < t.size)
    (r : Record) (j : Int) :
    recordAt (setRecord t i r) j = if j = i then r else recordAt t j := by
  by_cases hj : j < 0
  · have hne : j ≠ i := by omega
    rw [if_neg hne, recordAt_outside (.inl hj), recordAt_outside (.inl hj)]
  · have hlt : ¬ i < 0 := by omega
    unfold recordAt setRecord
    rw [if_neg hj, if_neg hlt, if_neg hj]
    by_cases hij : j = i
    · have hn : i.toNat < t.size := by omega
      subst hij
      simp [Array.getD, hn]
    · have hn : i.toNat ≠ j.toNat := by omega
      rw [if_neg hij]
      by_cases hjs : j.toNat < t.size
      · simp [Array.getD, hjs, hn]
      · simp [Array.getD, hjs]

/-- Two tables that differ in links only. -/
structure SameContent (t t' : Array Record) : Prop where
  size : t'.size = t.size
  content : ∀ i, (recordAt t' i).content = (recordAt t i).content

namespace SameContent

variable {t t' t'' : Array Record}

theorem refl (t : Array Record) : SameContent t t := ⟨rfl, fun _ => rfl⟩

theorem trans (h : SameContent t t') (h' : SameContent t' t'') : SameContent t t'' :=
  ⟨h'.size.trans h.size, fun i => (h'.content i).trans (h.content i)⟩

theorem state (h : SameContent t t') (i : Int) :
    (recordAt t' i).state = (recordAt t i).state := by
  simpa [Record.content] using congrArg Record.state (h.content i)

theorem item (h : SameContent t t') (i : Int) :
    (recordAt t' i).item = (recordAt t i).item := by
  simpa [Record.content, Record.item] using congrArg Record.item (h.content i)

theorem key (h : SameContent t t') (i : Int) :
    (recordAt t' i).key = (recordAt t i).key := by
  simpa [Record.content] using congrArg Record.key (h.content i)

theorem of_set {i : Int} {r : Record} (hr : r.content = (recordAt t i).content) :
    SameContent t (setRecord t i r) := by
  refine ⟨by simp, fun j => ?_⟩
  by_cases hi : 0 ≤ i ∧ i < t.size
  · rw [recordAt_setRecord hi.1 hi.2]
    by_cases hj : j = i
    · rw [if_pos hj, hr, hj]
    · rw [if_neg hj]
  · have hsame : setRecord t i r = t := by
      unfold setRecord
      split
      · rfl
      · exact Array.setIfInBounds_eq_of_size_le (by omega)
    rw [hsame]

end SameContent

def itemsAt (t : Array Record) (l : List Int) : List Item := l.map fun i => (recordAt t i).item

@[simp] theorem itemsAt_cons (t : Array Record) (i : Int) (l : List Int) :
    itemsAt t (i :: l) = (recordAt t i).item :: itemsAt t l := rfl

theorem itemsAt_append (t : Array Record) (l₁ l₂ : List Int) :
    itemsAt t (l₁ ++ l₂) = itemsAt t l₁ ++ itemsAt t l₂ := List.map_append

/-- `t'` is `t` with record `r` written at `pos`, up to links. -/
structure Wrote (t : Array Record) (pos : Int) (r : Record) (t' : Array Record) : Prop where
  size : t'.size = t.size
  content : ∀ j, (recordAt t' j).content = if j = pos then r.content else (recordAt t j).content

namespace Wrote

variable {t t' t'' : Array Record} {pos : Int} {r : Record}

theorem of_set (h0 : 0 ≤ pos) (hpos : pos < t.size) (r : Record) :
    Wrote t pos r (setRecord t pos r) := by
  refine ⟨by simp, fun j => ?_⟩
  rw [recordAt_setRecord h0 hpos]
  split <;> rfl

theorem relinked (h : Wrote t pos r t') (h' : SameContent t' t'') : Wrote t pos r t'' :=
  ⟨h'.size.trans h.size, fun j => (h'.content j).trans (h.content j)⟩

theorem after (h : SameContent t t') (h' : Wrote t' pos r t'') : Wrote t pos r t'' := by
  refine ⟨h'.size.trans h.size, fun j => ?_⟩
  rw [h'.content, h.content]

theorem state (h : Wrote t pos r t') (j : Int) :
    (recordAt t' j).state = if j = pos then r.state else (recordAt t j).state := by
  have hj := congrArg Record.state (h.content j)
  split at hj <;> simpa [Record.content, *] using hj

theorem key (h : Wrote t pos r t') (j : Int) :
    (recordAt t' j).key = if j = pos then r.key else (recordAt t j).key := by
  have hj := congrArg Record.key (h.content j)
  split at hj <;> simpa [Record.content, *] using hj

theorem item (h : Wrote t pos r t') (j : Int) :
    (recordAt t' j).item = if j = pos then r.item else (recordAt t j).item := by
  have hj := congrArg Record.item (h.content j)
  split at hj <;> simpa [Record.content, Record.item, *] using hj

theorem key_of_ne (h : Wrote t pos r t') {j : Int} (hj : j ≠ pos) :
    (recordAt t' j).key = (recordAt t j).key := by
  rw [h.key, if_neg hj]

theorem itemsAt_of_not_mem (h : Wrote t pos r t') {l : List Int} (hl : pos ∉ l) :
    itemsAt t' l = itemsAt t l := by
  apply List.map_congr_left
  intro j hj
  have hne : j ≠ pos := fun he => hl (he ▸ hj)
  rw [h.item, if_neg hne]

end Wrote

/-! ## The layout of a table -/

/-- `l` lists the positions of the `ALIVE` slots; their keys are distinct and
each is met before the first empty slot of its probe path. -/
structure Placement (t : Array Record) (l : List Int) : Prop where
  nodup : l.Nodup
  alive : ∀ i, i ∈ l ↔ (recordAt t i).state = .alive
  keys : (l.map fun i => (recordAt t i).key).Nodup
  path : ∀ i ∈ l, Probe.Reaches t.size (fun j => (recordAt t j).state = .empty)
    (hash (recordAt t i).key % t.size) i.toNat

namespace Placement

variable {t t' : Array Record} {l l' l₁ l₂ : List Int} {pos : Int} {r : Record}

theorem inside (h : Placement t l) {i : Int} (hi : i ∈ l) : 0 ≤ i ∧ i < t.size :=
  inside_of_alive ((h.alive i).mp hi)

theorem key_inj (h : Placement t l) {i j : Int} (hi : i ∈ l) (hj : j ∈ l)
    (hk : (recordAt t i).key = (recordAt t j).key) : i = j :=
  List.inj_on_of_nodup_map h.keys hi hj hk

theorem nodup_toNat (h : Placement t l) : (l.map Int.toNat).Nodup := by
  refine List.Nodup.map_on (fun i hi j hj hij => ?_) h.nodup
  have h1 := h.inside hi
  have h2 := h.inside hj
  omega

theorem length_le (h : Placement t l) : l.length ≤ t.size := by
  have hsub : (l.map Int.toNat).toFinset ⊆ Finset.range t.size := by
    intro n hn
    rcases List.mem_map.mp (List.mem_toFinset.mp hn) with ⟨i, hi, rfl⟩
    have := h.inside hi
    exact Finset.mem_range.mpr (by omega)
  have hcard := Finset.card_le_card hsub
  rwa [List.toFinset_card_of_nodup h.nodup_toNat, List.length_map, Finset.card_range] at hcard

theorem relink (h : Placement t l) (hsame : SameContent t t') (hperm : l'.Perm l) :
    Placement t' l' := by
  refine ⟨hperm.nodup_iff.mpr h.nodup, fun i => ?_, ?_, fun i hi => ?_⟩
  · rw [hperm.mem_iff, h.alive, hsame.state]
  · simp only [hsame.key]
    exact (hperm.map _).nodup_iff.mpr h.keys
  · rw [hsame.size, hsame.key]
    exact (h.path i (hperm.mem_iff.mp hi)).mono fun j hj => by rwa [hsame.state] at hj

/-- Occupy the empty slot that the probe path of a new key ends at. -/
theorem occupy (h : Placement t l) (hw : Wrote t pos r t') (hr : r.state = .alive)
    (hempty : (recordAt t pos).state = .empty) (hfresh : ∀ i ∈ l, (recordAt t i).key ≠ r.key)
    (hreach : Probe.Reaches t.size (fun j => (recordAt t j).state = .empty)
      (hash r.key % t.size) pos.toNat) : Placement t' (pos :: l) := by
  have hnot : pos ∉ l := by
    intro hm
    have := (h.alive pos).mp hm
    rw [hempty] at this
    cases this
  have hsub : ∀ j, (recordAt t' j).state = .empty → (recordAt t j).state = .empty := by
    intro j hj
    rw [hw.state] at hj
    split at hj
    · rw [hr] at hj
      cases hj
    · exact hj
  refine ⟨List.nodup_cons.mpr ⟨hnot, h.nodup⟩, fun i => ?_, ?_, fun i hi => ?_⟩
  · rw [hw.state, List.mem_cons]
    by_cases hi : i = pos
    · simp [hi, hr]
    · rw [if_neg hi, ← h.alive i]
      simp [hi]
  · rw [List.map_cons, hw.key, if_pos rfl,
      List.map_congr_left fun i hi => hw.key_of_ne fun he => hnot (he ▸ hi)]
    refine List.nodup_cons.mpr ⟨fun hm => ?_, h.keys⟩
    rcases List.mem_map.mp hm with ⟨i, hi, he⟩
    exact hfresh i hi he
  · rw [hw.size, hw.key]
    by_cases hp : i = pos
    · rw [if_pos hp, hp]
      exact hreach.mono fun j hj => hsub j hj
    · rw [if_neg hp]
      exact (h.path i ((List.mem_cons.mp hi).resolve_left hp)).mono fun j hj => hsub j hj

/-- Turn a listed slot into a tombstone: the probe paths stay covered. -/
theorem bury (h : Placement t (l₁ ++ pos :: l₂)) (hw : Wrote t pos r t')
    (hr : r.state = .dead) : Placement t' (l₁ ++ l₂) := by
  have hmid := List.nodup_cons.mp (List.nodup_middle.mp h.nodup)
  have hmem : ∀ i ∈ l₁ ++ l₂, i ≠ pos ∧ i ∈ l₁ ++ pos :: l₂ := by
    intro i hi
    refine ⟨fun he => hmid.1 (he ▸ hi), ?_⟩
    simp only [List.mem_append, List.mem_cons] at hi ⊢
    tauto
  have hkey : ∀ i ∈ l₁ ++ l₂, (recordAt t' i).key = (recordAt t i).key := by
    intro i hi
    rw [hw.key, if_neg (hmem i hi).1]
  refine ⟨hmid.2, fun i => ?_, ?_, fun i hi => ?_⟩
  · rw [hw.state]
    by_cases hi : i = pos
    · simp [hi, hr, hmid.1]
    · rw [if_neg hi, ← h.alive i]
      simp [hi]
  · rw [List.map_congr_left hkey]
    exact h.keys.sublist ((List.Sublist.append_left (List.sublist_cons_self pos l₂) l₁).map _)
  · rw [hw.size, hkey i hi]
    refine (h.path i (hmem i hi).2).mono fun j hj => ?_
    rw [hw.state] at hj
    split at hj
    · rw [hr] at hj
      cases hj
    · exact hj

theorem rewrite (h : Placement t l) (hw : Wrote t pos r t') (hpos : pos ∈ l)
    (hr : r.state = .alive) (hk : r.key = (recordAt t pos).key) : Placement t' l := by
  have hstate : ∀ i, (recordAt t' i).state = (recordAt t i).state := by
    intro i
    rw [hw.state]
    split
    · next hi => rw [hr, hi, (h.alive pos).mp hpos]
    · rfl
  have hkey : ∀ i, (recordAt t' i).key = (recordAt t i).key := by
    intro i
    rw [hw.key]
    split
    · next hi => rw [hk, hi]
    · rfl
  refine ⟨h.nodup, fun i => by rw [hstate, h.alive], ?_, fun i hi => ?_⟩
  · simp only [hkey]
    exact h.keys
  · rw [hw.size, hkey]
    exact (h.path i hi).mono fun j hj => by rwa [hstate] at hj

end Placement

/-- A placement together with the links that thread it. -/
structure TableLayout (t : Array Record) (head tail : Int) (l : List Int) : Prop
    extends Placement t l where
  chain : Chain (-1) (fun i => (recordAt t i).next) (fun i => (recordAt t i).prev) head tail l

theorem Placement.distinct_items {t : Array Record} {l : List Int} (h : Placement t l) :
    Recency.Distinct Item.key (itemsAt t l) := by
  have := h.keys
  unfold Recency.Distinct itemsAt
  rwa [List.map_map]

/-! ## The list operations -/

namespace Store

variable {st : Store} {l : List Int}

def Linked (st : Store) (l : List Int) : Prop :=
  Chain (-1) (fun i => (st.slot i).next) (fun i => (st.slot i).prev) st.listHead st.listTail l

/-- Two stores that differ in links and list ends only. -/
structure Relinked (st st' : Store) : Prop where
  same : SameContent st.hashTable st'.hashTable
  statistics : st'.statistics = st.statistics
  total : st'.totalKeyValueSize = st.totalKeyValueSize
  entries : st'.numEntries = st.numEntries
  dead : st'.numDeadEntries = st.numDeadEntries

theorem Relinked.trans {st st' st'' : Store} (h : Relinked st st') (h' : Relinked st' st'') :
    Relinked st st'' :=
  ⟨h.same.trans h'.same, h'.statistics.trans h.statistics, h'.total.trans h.total,
    h'.entries.trans h.entries, h'.dead.trans h.dead⟩

theorem relinked_modify {i : Int} {f : Record → Record}
    (hf : (f (st.slot i)).content = (st.slot i).content) : Relinked st (st.modify i f) :=
  ⟨SameContent.of_set hf, rfl, rfl, rfl, rfl⟩

theorem slot_modify {i : Int} (h0 : 0 ≤ i) (hi : i < st.hashTable.size) (f : Record → Record)
    (j : Int) : (st.modify i f).slot j = if j = i then f (st.slot i) else st.slot j :=
  recordAt_setRecord h0 hi (f (st.slot i)) j

/-- A position that may be followed: none, or a slot of the table. -/
def Linkable (st : Store) (i : Int) : Prop := i = -1 ∨ (0 ≤ i ∧ i < st.hashTable.size)

theorem linkNext_relinked (st : Store) (p n : Int) : Relinked st (st.linkNext p n) := by
  unfold linkNext
  split
  · exact relinked_modify rfl
  · exact ⟨SameContent.refl _, rfl, rfl, rfl, rfl⟩

theorem linkPrev_relinked (st : Store) (n p : Int) : Relinked st (st.linkPrev n p) := by
  unfold linkPrev
  split
  · exact relinked_modify rfl
  · exact ⟨SameContent.refl _, rfl, rfl, rfl, rfl⟩

theorem linkNext_slot {p n : Int} (hp : st.Linkable p) (j : Int) :
    (st.linkNext p n).slot j =
      if j = p ∧ p ≠ -1 then { st.slot j with next := n } else st.slot j := by
  unfold linkNext
  rcases hp with rfl | ⟨h0, hs⟩
  · rw [if_neg (by simp), if_neg (by simp)]
    rfl
  · rw [if_pos (by omega), slot_modify h0 hs]
    by_cases hj : j = p
    · rw [if_pos hj, if_pos ⟨hj, by omega⟩, hj]
    · rw [if_neg hj, if_neg (fun h => hj h.1)]

theorem linkPrev_slot {n p : Int} (hn : st.Linkable n) (j : Int) :
    (st.linkPrev n p).slot j =
      if j = n ∧ n ≠ -1 then { st.slot j with prev := p } else st.slot j := by
  unfold linkPrev
  rcases hn with rfl | ⟨h0, hs⟩
  · rw [if_neg (by simp), if_neg (by simp)]
    rfl
  · rw [if_pos (by omega), slot_modify h0 hs]
    by_cases hj : j = n
    · rw [if_pos hj, if_pos ⟨hj, by omega⟩, hj]
    · rw [if_neg hj, if_neg (fun h => hj h.1)]

theorem linkNext_ends (st : Store) (p n : Int) :
    (st.linkNext p n).listHead = (if p = -1 then n else st.listHead) ∧
      (st.linkNext p n).listTail = st.listTail := by
  unfold linkNext
  by_cases hp : p = -1
  · simp [hp]
  · simp [hp, modify]

theorem linkPrev_ends (st : Store) (n p : Int) :
    (st.linkPrev n p).listHead = st.listHead ∧
      (st.linkPrev n p).listTail = (if n = -1 then p else st.listTail) := by
  unfold linkPrev
  by_cases hn : n = -1
  · simp [hn]
  · simp [hn, modify]

theorem removeFromList_spec {l₁ l₂ : List Int} {i : Int} (hl : st.Linked (l₁ ++ i :: l₂))
    (hnodup : (l₁ ++ i :: l₂).Nodup)
    (halive : ∀ j ∈ l₁ ++ i :: l₂, (st.slot j).state = .alive) :
    ∃ st', st.removeFromList i = .ok st' ∧ Relinked st st' ∧ st'.Linked (l₁ ++ l₂) := by
  have hi : (st.slot i).state = .alive := halive i (by simp)
  have hnot : i ∉ l₁ ++ l₂ := (List.nodup_cons.mp (List.nodup_middle.mp hnodup)).1
  have hin : ∀ j ∈ l₁ ++ l₂, 0 ≤ j ∧ j < st.hashTable.size := by
    intro j hj
    apply inside_of_alive
    apply halive j
    simp only [List.mem_append, List.mem_cons] at hj ⊢
    tauto
  rcases hl.neighbours with ⟨hprev, hnext⟩
  have hp : st.Linkable (st.slot i).prev :=
    hprev.imp_right fun h => hin _ (List.mem_append_left _ h)
  have hn : st.Linkable (st.slot i).next :=
    hnext.imp_right fun h => hin _ (List.mem_append_right _ h)
  have hpi : (st.slot i).prev ≠ i := by
    rcases hprev with h | h
    · have := (inside_of_alive hi).1
      omega
    · intro he
      exact hnot (List.mem_append_left _ (he ▸ h))
  -- the node itself keeps its record through the first assignment
  let st₁ := st.linkNext (st.slot i).prev (st.slot i).next
  have hi₁ : st₁.slot i = st.slot i := by
    rw [linkNext_slot hp, if_neg (fun h => hpi h.1.symm)]
  have hn₁ : st₁.Linkable (st.slot i).next := by
    unfold Linkable
    rw [(linkNext_relinked st _ _).same.size]
    exact hn
  refine ⟨st₁.linkPrev (st.slot i).next (st.slot i).prev, ?_, ?_, ?_⟩
  · simp only [removeFromList, check_of hi]
    show Except.ok (st₁.linkPrev (st₁.slot i).next (st₁.slot i).prev) = _
    rw [hi₁]
  · exact (linkNext_relinked st _ _).trans (linkPrev_relinked st₁ _ _)
  · have hslot : ∀ j, (st₁.linkPrev (st.slot i).next (st.slot i).prev).slot j =
        if j = (st.slot i).next ∧ (st.slot i).next ≠ -1 then
          { st₁.slot j with prev := (st.slot i).prev } else st₁.slot j := linkPrev_slot hn₁
    have hnextOf : ∀ j, ((st₁.linkPrev (st.slot i).next (st.slot i).prev).slot j).next =
        if j = (st.slot i).prev ∧ (st.slot i).prev ≠ -1 then (st.slot i).next
        else (st.slot j).next := by
      intro j
      rw [hslot, linkNext_slot hp]
      split <;> split <;> rfl
    have hprevOf : ∀ j, ((st₁.linkPrev (st.slot i).next (st.slot i).prev).slot j).prev =
        if j = (st.slot i).next ∧ (st.slot i).next ≠ -1 then (st.slot i).prev
        else (st.slot j).prev := by
      intro j
      rw [hslot, linkNext_slot hp]
      split
      · rfl
      · split <;> rfl
    unfold Linked
    refine hl.unlink hnodup ?_ ?_ ?_ ?_ ?_ ?_
    · intro h
      rw [hnextOf, if_pos ⟨rfl, h⟩]
    · intro h
      rw [hprevOf, if_pos ⟨rfl, h⟩]
    · intro j _ hj
      rw [hnextOf, if_neg (fun h => hj h.1)]
    · intro j _ hj
      rw [hprevOf, if_neg (fun h => hj h.1)]
    · rw [(linkPrev_ends st₁ _ _).1, (linkNext_ends st _ _).1]
    · rw [(linkPrev_ends st₁ _ _).2, (linkNext_ends st _ _).2]

theorem addToFront_spec {i : Int} (hl : st.Linked l) (hnodup : l.Nodup) (hnot : i ∉ l)
    (hi : (st.slot i).state = .alive) (halive : ∀ j ∈ l, (st.slot j).state = .alive) :
    ∃ st', st.addToFront i = .ok st' ∧ Relinked st st' ∧ st'.Linked (i :: l) := by
  have hin := inside_of_alive hi
  have hhead : st.listHead = -1 ∨ st.listHead ∈ l := by
    rcases hl.2.first_mem with h | h
    · exact .inl h.2.symm
    · exact .inr h
  let st₁ := st.modify i fun r => { r with prev := -1, next := st.listHead }
  let st₂ := if st₁.listHead ≠ -1 then st₁.modify st₁.listHead fun r => { r with prev := i }
    else st₁
  have hrel₁ : Relinked st st₁ := relinked_modify rfl
  have hrel₂ : Relinked st₁ st₂ := by
    simp only [st₂]
    split
    · exact relinked_modify rfl
    · exact ⟨SameContent.refl _, rfl, rfl, rfl, rfl⟩
  have hslot₁ : ∀ j, st₁.slot j =
      if j = i then { st.slot i with prev := -1, next := st.listHead } else st.slot j :=
    fun j => slot_modify hin.1 hin.2 _ j
  have hslot₂ : ∀ j, st₂.slot j =
      if j = st.listHead ∧ st.listHead ≠ -1 then { st₁.slot j with prev := i }
      else st₁.slot j := by
    intro j
    by_cases hh : st.listHead = -1
    · have : st₂ = st₁ := if_neg (by simp [st₁, modify, hh])
      rw [this, if_neg (fun h => h.2 hh)]
    · have hb := inside_of_alive (halive _ (hhead.resolve_left hh))
      have : st₂ = st₁.modify st.listHead fun r => { r with prev := i } :=
        if_pos (by simpa [st₁, modify] using hh)
      rw [this, slot_modify hb.1 (by rw [hrel₁.same.size]; exact hb.2)]
      by_cases hj : j = st.listHead
      · rw [if_pos hj, if_pos ⟨hj, hh⟩, hj]
      · rw [if_neg hj, if_neg (fun h => hj h.1)]
  have hhead₂ : st₂.listTail = st.listTail := by
    simp only [st₂]
    split <;> rfl
  let st₃ : Store := { st₂ with listHead := i }
  refine ⟨if st₃.listTail = -1 then { st₃ with listTail := i } else st₃, ?_, ?_, ?_⟩
  · simp only [addToFront, check_of hi]
    rfl
  · have h := hrel₁.trans hrel₂
    split <;> exact ⟨h.same, h.statistics, h.total, h.entries, h.dead⟩
  · have htable : (if st₃.listTail = -1 then { st₃ with listTail := i } else st₃).hashTable =
        st₂.hashTable := by
      split <;> rfl
    have hends : (if st₃.listTail = -1 then { st₃ with listTail := i } else st₃).listHead = i ∧
        (if st₃.listTail = -1 then { st₃ with listTail := i } else st₃).listTail =
          if st.listTail = -1 then i else st.listTail := by
      have : st₃.listTail = st.listTail := hhead₂
      rw [this]
      split
      · exact ⟨rfl, rfl⟩
      · exact ⟨rfl, this⟩
    have hhi : st.listHead ≠ i := by
      intro he
      rcases hhead with h | h
      · omega
      · exact hnot (he ▸ h)
    unfold Linked slot
    rw [hends.1, hends.2, htable]
    refine hl.pushFront (by omega) hnodup ?_ ?_ ?_ ?_ ?_ rfl
    · show (st₂.slot i).next = _
      rw [hslot₂, if_neg (fun h => hhi h.1.symm), hslot₁, if_pos rfl]
    · show (st₂.slot i).prev = _
      rw [hslot₂, if_neg (fun h => hhi h.1.symm), hslot₁, if_pos rfl]
    · intro h
      show (st₂.slot st.listHead).prev = _
      rw [hslot₂, if_pos ⟨rfl, h⟩]
    · intro j hj
      have hji : j ≠ i := fun he => hnot (he ▸ hj)
      show (st₂.slot j).next = _
      rw [hslot₂, hslot₁, if_neg hji]
      split <;> rfl
    · intro j hj hjh
      have hji : j ≠ i := fun he => hnot (he ▸ hj)
      show (st₂.slot j).prev = _
      rw [hslot₂, if_neg (fun h => hjh h.1), hslot₁, if_neg hji]

theorem accessEntry_spec {l₁ l₂ : List Int} {i : Int} (hl : st.Linked (l₁ ++ i :: l₂))
    (hnodup : (l₁ ++ i :: l₂).Nodup)
    (halive : ∀ j ∈ l₁ ++ i :: l₂, (st.slot j).state = .alive) :
    ∃ st', st.accessEntry i = .ok st' ∧ Relinked st st' ∧ st'.Linked (i :: (l₁ ++ l₂)) := by
  have hi : (st.slot i).state = .alive := halive i (by simp)
  have hmid := List.nodup_cons.mp (List.nodup_middle.mp hnodup)
  rcases removeFromList_spec hl hnodup halive with ⟨st₁, h₁, hrel₁, hl₁⟩
  have halive₁ : ∀ j, (st.slot j).state = .alive → (st₁.slot j).state = .alive := by
    intro j hj
    have := hrel₁.same.state j
    unfold slot at hj ⊢
    rw [this, hj]
  rcases addToFront_spec hl₁ hmid.2 hmid.1 (halive₁ i hi)
      (fun j hj => halive₁ j (halive j (by simp at hj ⊢; tauto))) with ⟨st₂, h₂, hrel₂, hl₂⟩
  refine ⟨st₂, ?_, hrel₁.trans hrel₂, hl₂⟩
  simp only [accessEntry, check_of hi, h₁]
  exact h₂

end Store

/-! ## Counters -/

/-- A store whose counters agree with its table, and that has an empty slot. -/
structure Arranged (st : Store) (l : List Int) : Prop where
  table : TableLayout st.hashTable st.listHead st.listTail l
  entries : st.numEntries = l.length
  dead : st.numDeadEntries = (st.slotsIn .dead).card
  empty : ∃ i : Nat, i < st.hashTable.size ∧ (st.slot i).state = .empty

/-- A store whose counters agree with its table, below the load at which the
next insertion would have to rehash twice. -/
structure Layout (st : Store) (l : List Int) : Prop where
  table : TableLayout st.hashTable st.listHead st.listTail l
  entries : st.numEntries = l.length
  dead : st.numDeadEntries = (st.slotsIn .dead).card
  total : st.totalKeyValueSize = toInt32 (totalSize (itemsAt st.hashTable l))
  size : 10 ≤ st.hashTable.size
  aliveLoad : 4 * st.numEntries ≤ st.hashTable.size + 4
  usedLoad : 2 * (st.numEntries + st.numDeadEntries) ≤ st.hashTable.size + 2

/-- The load that `normalizeTable` leaves. -/
def Store.Normal (st : Store) : Prop :=
  4 * st.numEntries ≤ st.hashTable.size ∧
    2 * (st.numEntries + st.numDeadEntries) ≤ st.hashTable.size

/-- The store holds exactly these items, the most recently used one first. -/
def Represents (st : Store) (items : List Item) : Prop :=
  ∃ l, Layout st l ∧ itemsAt st.hashTable l = items

theorem toInt32_add (m n : Int) : toInt32 (toInt32 m + n) = toInt32 (m + n) := by
  unfold toInt32
  omega

theorem toInt32_sub (m n : Int) : toInt32 (toInt32 m - n) = toInt32 (m - n) := by
  unfold toInt32
  omega

theorem mem_slotsIn {st : Store} {s : State} {n : Nat} :
    n ∈ st.slotsIn s ↔ n < st.hashTable.size ∧ (st.slot n).state = s := by
  simp [Store.slotsIn]

theorem slotsIn_congr {st st' : Store} (hsize : st'.hashTable.size = st.hashTable.size)
    {s : State} (h : ∀ i, (st'.slot i).state = s ↔ (st.slot i).state = s) :
    st'.slotsIn s = st.slotsIn s := by
  unfold Store.slotsIn
  rw [hsize]
  exact Finset.filter_congr fun i _ => h i

theorem Wrote.slotsIn_dead {st st' : Store} {pos : Int} {r : Record}
    (h : Wrote st.hashTable pos r st'.hashTable) (hr : r.state ≠ .dead)
    (hpos : (st.slot pos).state ≠ .dead) : st'.slotsIn .dead = st.slotsIn .dead := by
  refine slotsIn_congr h.size fun i => ?_
  show (recordAt st'.hashTable i).state = _ ↔ _
  rw [h.state]
  by_cases hi : i = pos
  · simp [hi, hr, hpos]
  · rw [if_neg hi]
    rfl

theorem Wrote.slotsIn_insert {st st' : Store} {pos : Int} {r : Record} {s : State}
    (h : Wrote st.hashTable pos r st'.hashTable) (h0 : 0 ≤ pos) (hpos : pos < st.hashTable.size)
    (hr : r.state = s) : st'.slotsIn s = insert pos.toNat (st.slotsIn s) := by
  ext n
  rw [Finset.mem_insert, mem_slotsIn, mem_slotsIn, h.size]
  unfold Store.slot
  rw [h.state]
  by_cases hn : (n : Int) = pos
  · have hn' : n = pos.toNat := by omega
    have hlt : n < st.hashTable.size := by omega
    rw [if_pos hn]
    exact ⟨fun _ => .inl hn', fun _ => ⟨hlt, hr⟩⟩
  · have hn' : n ≠ pos.toNat := by omega
    simp [hn, hn']

namespace TableLayout

variable {st : Store} {l : List Int}

theorem slotsIn_alive (h : TableLayout st.hashTable st.listHead st.listTail l) :
    st.slotsIn .alive = (l.map Int.toNat).toFinset := by
  ext n
  rw [mem_slotsIn, List.mem_toFinset, List.mem_map]
  constructor
  · intro hn
    exact ⟨n, (h.alive n).mpr hn.2, by simp⟩
  · intro hn
    rcases hn with ⟨i, hi, rfl⟩
    have hin := h.inside hi
    refine ⟨by omega, ?_⟩
    rw [Int.toNat_of_nonneg hin.1]
    exact (h.alive i).mp hi

theorem order_eq (h : TableLayout st.hashTable st.listHead st.listTail l) : st.order = l :=
  h.chain.walk_eq h.length_le

theorem card_alive (h : TableLayout st.hashTable st.listHead st.listTail l) :
    (st.slotsIn .alive).card = l.length := by
  rw [h.slotsIn_alive, List.toFinset_card_of_nodup h.nodup_toNat, List.length_map]

end TableLayout

namespace Layout

variable {st : Store} {l : List Int}

theorem alive (h : Layout st l) {i : Int} (hi : i ∈ l) : (st.slot i).state = .alive :=
  (h.table.alive i).mp hi

/-- The load bounds leave an empty slot besides any given one. -/
theorem exists_empty_ne (h : Layout st l) (pos : Nat) :
    ∃ i : Nat, i < st.hashTable.size ∧ i ≠ pos ∧ (st.slot i).state = .empty := by
  by_contra hnone
  have hcover : Finset.range st.hashTable.size ⊆
      insert pos (st.slotsIn .alive ∪ st.slotsIn .dead) := by
    intro i hi
    have hlt := Finset.mem_range.mp hi
    rw [Finset.mem_insert, Finset.mem_union, mem_slotsIn, mem_slotsIn]
    by_cases hpos : i = pos
    · exact .inl hpos
    have hne : (st.slot i).state ≠ .empty := fun he => hnone ⟨i, hlt, hpos, he⟩
    cases hs : (st.slot i).state with
    | empty => exact absurd hs hne
    | alive => exact .inr (.inl ⟨hlt, rfl⟩)
    | dead => exact .inr (.inr ⟨hlt, rfl⟩)
  have hcard := (Finset.card_le_card hcover).trans (Finset.card_insert_le _ _)
  have hunion := Finset.card_union_le (st.slotsIn .alive) (st.slotsIn .dead)
  rw [h.table.card_alive] at hunion
  rw [Finset.card_range] at hcard
  have h1 := h.entries
  have h2 := h.dead
  have h3 := h.usedLoad
  have h4 := h.size
  omega

theorem exists_empty (h : Layout st l) :
    ∃ i : Nat, i < st.hashTable.size ∧ (st.slot i).state = .empty := by
  obtain ⟨i, hi, -, hempty⟩ := h.exists_empty_ne st.hashTable.size
  exact ⟨i, hi, hempty⟩

theorem arranged (h : Layout st l) : Arranged st l := ⟨h.table, h.entries, h.dead, h.exists_empty⟩

theorem relink {st' : Store} {l' : List Int} (h : Layout st l) (hrel : Store.Relinked st st')
    (hperm : l'.Perm l) (hl : st'.Linked l') : Layout st' l' := by
  have hitems : (itemsAt st'.hashTable l').Perm (itemsAt st.hashTable l) := by
    unfold itemsAt
    simp only [hrel.same.item]
    exact hperm.map _
  refine ⟨⟨h.table.toPlacement.relink hrel.same hperm, hl⟩, ?_, ?_, ?_, ?_, ?_, ?_⟩
  · rw [hrel.entries, h.entries, hperm.length_eq]
  · rw [hrel.dead, h.dead, slotsIn_congr hrel.same.size fun i => by
      unfold Store.slot; rw [hrel.same.state]]
  · rw [hrel.total, h.total]
    unfold totalSize
    rw [(hitems.map Item.size).sum_eq]
  · rw [hrel.same.size]; exact h.size
  · rw [hrel.entries, hrel.same.size]; exact h.aliveLoad
  · rw [hrel.entries, hrel.dead, hrel.same.size]; exact h.usedLoad

/-- An empty slot into which `key` can be inserted. -/
structure Vacant (st : Store) (key : Bytes) (pos : Int) : Prop where
  nonneg : 0 ≤ pos
  lt : pos < st.hashTable.size
  empty : (st.slot pos).state = .empty
  reaches : Probe.Reaches st.hashTable.size (fun j => (st.slot j).state = .empty)
    (hash key % st.hashTable.size) pos.toNat

end Layout

/-! ## Probing -/

namespace Arranged

variable {st : Store} {l : List Int}

theorem home_lt (h : Arranged st l) (key : Bytes) :
    hash key % st.hashTable.size < st.hashTable.size := by
  obtain ⟨i, hi, -⟩ := h.empty
  exact Nat.mod_lt _ (by omega)

/-- `getPosition` returns within one turn of the table. -/
theorem getPosition_ok (h : Arranged st l) (key : Bytes) :
    ∃ pos, Probe.scan st.hashTable.size (Store.stopsAt st.hashTable key) st.hashTable.size
      (hash key % st.hashTable.size) = some pos ∧ st.getPosition key = .ok pos := by
  rcases h.empty with ⟨i, hi, he⟩
  have hstop : Store.stopsAt st.hashTable key i = true := by
    unfold Store.slot at he
    simp [Store.stopsAt, he]
  rcases Probe.scan_isSome (h.home_lt key) hi hstop with ⟨pos, hpos⟩
  exact ⟨pos, hpos, by simp [Store.getPosition, hpos]⟩

theorem getPosition_found (h : Arranged st l) {i : Int} (hi : i ∈ l) :
    st.getPosition (st.slot i).key = .ok i := by
  rcases h.getPosition_ok (st.slot i).key with ⟨pos, hscan, hpos⟩
  have hin := h.table.inside hi
  have hcast : ((i.toNat : Nat) : Int) = i := Int.toNat_of_nonneg hin.1
  have hstop : Store.stopsAt st.hashTable (st.slot i).key i.toNat = true := by
    have halive := (h.table.alive i).mp hi
    unfold Store.slot
    simp [Store.stopsAt, hcast, halive]
  have hend := Probe.scan_stop (h.home_lt _) hscan
  rcases Probe.scan_upto (h.home_lt _) hscan (h.table.path i hi) hstop with heq | hne
  · rw [hpos, heq, hcast]
  · -- the scan stopped at a slot that holds the key, and keys are distinct
    simp only [Store.stopsAt, Bool.or_eq_true, Bool.and_eq_true, decide_eq_true_eq, hne,
      false_or] at hend
    have hmem : (pos : Int) ∈ l := (h.table.alive pos).mpr hend.1
    rw [hpos, h.table.key_inj hmem hi hend.2]

theorem getPosition_absent (h : Arranged st l) {key : Bytes}
    (hk : ∀ i ∈ l, (st.slot i).key ≠ key) :
    ∃ pos, st.getPosition key = .ok pos ∧ Layout.Vacant st key pos := by
  rcases h.getPosition_ok key with ⟨pos, hscan, hpos⟩
  have hend := Probe.scan_stop (h.home_lt _) hscan
  simp only [Store.stopsAt, Bool.or_eq_true, Bool.and_eq_true, decide_eq_true_eq] at hend
  have hempty : (recordAt st.hashTable pos).state = .empty := by
    rcases hend with hend | hend
    · exact hend
    · exact absurd hend.2 (hk pos ((h.table.alive pos).mpr hend.1))
  refine ⟨pos, hpos, by omega, ?_, hempty, ?_⟩
  · have := Probe.scan_lt (h.home_lt _) hscan
    omega
  · exact Probe.scan_reaches (h.home_lt _) (fun j hj => by
      unfold Store.slot at hj
      simp [Store.stopsAt, hj]) hscan

/-- The slot a key is found at, or an empty slot for it. -/
theorem position (h : Arranged st l) (key : Bytes) :
    ∃ pos, st.getPosition key = .ok pos ∧
      (((st.slot pos).state = .alive ∧
          Recency.lookup Item.key key (itemsAt st.hashTable l) = some (st.slot pos).item ∧
          (st.slot pos).key = key) ∨
        ((st.slot pos).state = .empty ∧
          Recency.lookup Item.key key (itemsAt st.hashTable l) = none ∧
          Layout.Vacant st key pos)) := by
  cases hk : Recency.lookup Item.key key (itemsAt st.hashTable l) with
  | some it =>
      rcases (Recency.lookup_some h.table.distinct_items).mp hk with ⟨hmem, rfl⟩
      rcases List.mem_map.mp hmem with ⟨i, hi, rfl⟩
      exact ⟨i, h.getPosition_found hi, .inl ⟨(h.table.alive i).mp hi, rfl, rfl⟩⟩
  | none =>
      rw [Recency.lookup_none] at hk
      rcases h.getPosition_absent fun i hi => hk _ (List.mem_map.mpr ⟨i, hi, rfl⟩) with
        ⟨pos, hpos, hvacant⟩
      exact ⟨pos, hpos, .inr ⟨hvacant.empty, rfl, hvacant⟩⟩

end Arranged

end RobustCache
