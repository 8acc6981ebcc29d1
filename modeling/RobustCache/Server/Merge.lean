import RobustCache.Server.Entries

/-! # Merging one entry

What `propagate` should do to the version and the value of a key, and when it
does. The argument needs nothing of a store but its representation invariant:
the content of the table after `propagate` is what the abstract merge computes,
and the merge of concurrent versions of one value is where the vector is lost.
-/

namespace RobustCache

open Lib

/-! ## Joins of version vectors -/

/-- `u` is the least upper bound of `v` and `w`: its pairs are those that no
pair of the other vector exceeds. -/
structure IsJoin (v w u : Version) : Prop where
  left : atMost v u = true
  right : atMost w u = true
  least : ∀ t, atMost v t = true → atMost w t = true → atMost u t = true
  pairs : ∀ s c, (s, c) ∈ u ↔ ((s, c) ∈ v ∧ ∀ d, (s, d) ∈ w → d ≤ c) ∨
    ((s, c) ∈ w ∧ ∀ d, (s, d) ∈ v → d ≤ c)

theorem IsJoin.symm {v w u : Version} (h : IsJoin v w u) : IsJoin w v u := by
  refine ⟨h.right, h.left, fun t hw hv => h.least t hv hw, fun s c => ?_⟩
  rw [h.pairs, or_comm]

theorem isJoin_of_atMost {v w : Version} (h : atMost v w = true) (hw : w.Distinct) :
    IsJoin v w w := by
  refine ⟨h, atMost_refl hw, fun t _ ht => ht, fun s c => ?_⟩
  obtain ⟨hle, hmem⟩ := atMost_iff.mp h
  constructor
  · intro hc
    exact .inr ⟨hc, fun d hd => hle (s, d) hd (s, c) hc rfl⟩
  · intro hc
    cases hc with
    | inr hc => exact hc.1
    | inl hc =>
        -- the pair of `w` for this server lies between `c` and `c`
        obtain ⟨⟨s', d⟩, hd, hs⟩ := hmem (s, c) hc.1
        have hs' : s = s' := hs
        subst hs'
        have hcd : c = d := le_antisymm (hle (s, c) hc.1 (s, d) hd rfl) (hc.2 d hd)
        rw [hcd]
        exact hd

theorem not_isJoin_nil {v w : Version} (h : ¬ atMost v w = true) : ¬ IsJoin v w [] := by
  intro hjoin
  apply h
  cases v with
  | nil => rfl
  | cons p rest =>
      obtain ⟨b, hb, -⟩ := (atMost_iff.mp hjoin.left).2 p List.mem_cons_self
      cases hb

/-! ## The content of a table -/

def Store.HoldsItem (st : Store) (it : Item) : Prop :=
  ∃ i, (st.slot i).state = .alive ∧ (st.slot i).item = it

namespace Wrote

variable {t t' t'' : Array Record} {pos : Int} {r r' : Record}

theorem overwrite (h : Wrote t pos r t') (h' : Wrote t' pos r' t'') : Wrote t pos r' t'' := by
  refine ⟨h'.size.trans h.size, fun j => ?_⟩
  rw [h'.content]
  by_cases hj : j = pos
  · rw [if_pos hj, if_pos hj]
  · rw [if_neg hj, if_neg hj, h.content, if_neg hj]

end Wrote

namespace Arranged

variable {st : Store} {l : List Int}

theorem holds_iff (h : Arranged st l) {it : Item} :
    st.HoldsItem it ↔ it ∈ itemsAt st.hashTable l := by
  unfold itemsAt
  rw [List.mem_map]
  constructor
  · intro hi
    obtain ⟨i, halive, hit⟩ := hi
    exact ⟨i, (h.table.alive i).mpr halive, hit⟩
  · intro hi
    obtain ⟨i, hmem, hit⟩ := hi
    exact ⟨i, (h.table.alive i).mp hmem, hit⟩

/-- After a write to the slot of a key, or to a free slot for it, the record
stands for that key. -/
theorem holds_of_wrote {st' : Store} {pos : Int} {r : Record} {key : Bytes} (h : Arranged st l)
    (hw : Wrote st.hashTable pos r st'.hashTable)
    (hpos : (st.slot pos).state = .alive → (st.slot pos).key = key)
    (hrest : ∀ i, i ≠ pos → (st.slot i).state = .alive → (st.slot i).key ≠ key) {it : Item} :
    st'.HoldsItem it ↔ (r.state = .alive ∧ it = r.item) ∨
      (it ∈ itemsAt st.hashTable l ∧ it.key ≠ key) := by
  rw [← h.holds_iff]
  constructor
  · intro hi
    obtain ⟨i, halive, rfl⟩ := hi
    unfold Store.slot at halive ⊢
    rw [hw.state] at halive
    rw [hw.item]
    by_cases hip : i = pos
    · rw [if_pos hip] at halive ⊢
      exact .inl ⟨halive, rfl⟩
    · rw [if_neg hip] at halive ⊢
      exact .inr ⟨⟨i, halive, rfl⟩, hrest i hip halive⟩
  · intro hi
    cases hi with
    | inl hi =>
        obtain ⟨halive, rfl⟩ := hi
        refine ⟨pos, ?_, ?_⟩
        · unfold Store.slot
          rw [hw.state, if_pos rfl]
          exact halive
        · unfold Store.slot
          rw [hw.item, if_pos rfl]
    | inr hi =>
        obtain ⟨⟨i, halive, rfl⟩, hne⟩ := hi
        have hip : i ≠ pos := by
          intro he
          rw [he] at halive hne
          exact hne (hpos halive)
        refine ⟨i, ?_, ?_⟩
        · unfold Store.slot
          rw [hw.state, if_neg hip]
          exact halive
        · unfold Store.slot
          rw [hw.item, if_neg hip]

theorem holds_of_rewritten {st' : Store} {pos : Int} {r : Record} {key : Bytes}
    (h : Arranged st l) (halive : (st.slot pos).state = .alive) (hkey : (st.slot pos).key = key)
    (hw : Wrote st.hashTable pos r st'.hashTable) {it : Item} :
    st'.HoldsItem it ↔ (r.state = .alive ∧ it = r.item) ∨
      (it ∈ itemsAt st.hashTable l ∧ it.key ≠ key) := by
  refine h.holds_of_wrote hw (fun _ => hkey) fun i hne hi he => hne ?_
  exact h.table.key_inj ((h.table.alive i).mpr hi) ((h.table.alive pos).mpr halive)
    (he.trans hkey.symm)

theorem holds_of_added {st' : Store} {pos : Int} {r : Record} {key : Bytes} (h : Arranged st l)
    (hfree : ¬ (st.slot pos).state = .alive)
    (hnone : ∀ it ∈ itemsAt st.hashTable l, it.key ≠ key) (halive : r.state = .alive)
    (hw : Wrote st.hashTable pos r st'.hashTable) {it : Item} :
    st'.HoldsItem it ↔ it = r.item ∨ it ∈ itemsAt st.hashTable l := by
  rw [h.holds_of_wrote hw (fun hi => absurd hi hfree) fun i _ hi =>
    hnone _ (List.mem_map.mpr ⟨i, (h.table.alive i).mpr hi, rfl⟩)]
  refine or_congr (and_iff_right halive) ⟨fun hi => hi.1, fun hi => ⟨hi, hnone it hi⟩⟩

theorem linked_at {pos : Int} (h : Arranged st l) (halive : (st.slot pos).state = .alive) :
    ∃ l₁ l₂, st.Linked (l₁ ++ pos :: l₂) ∧ (l₁ ++ pos :: l₂).Nodup ∧
      ∀ j ∈ l₁ ++ pos :: l₂, (st.slot j).state = .alive := by
  obtain ⟨l₁, l₂, hsplit⟩ := List.append_of_mem ((h.table.alive pos).mpr halive)
  refine ⟨l₁, l₂, hsplit ▸ h.table.chain, hsplit ▸ h.table.nodup, fun j hj => ?_⟩
  rw [← hsplit] at hj
  exact (h.table.alive j).mp hj

theorem length_lt (h : Arranged st l) : l.length < st.hashTable.size := by
  obtain ⟨i, hi, hempty⟩ := h.empty
  rw [← h.table.card_alive]
  have hsub : st.slotsIn .alive ⊂ Finset.range st.hashTable.size := by
    refine Finset.filter_ssubset.mpr ⟨i, Finset.mem_range.mpr hi, ?_⟩
    rw [hempty]
    simp
  have hcard := Finset.card_lt_card hsub
  rwa [Finset.card_range] at hcard

/-- Within the limit `normalizeTable` evicts nothing and may only rehash. -/
theorem normalize_within (h : Arranged st l) (hmem : st.getUsedMemory ≤ memoryLimit) :
    ∃ st' l', st.normalizeTable = .ok st' ∧ Arranged st' l' ∧
      itemsAt st'.hashTable l' = itemsAt st.hashTable l := by
  have hevict : Store.evictLoop (st.hashTable.size + 1) st = .ok st := by
    rw [Store.evictLoop, if_neg (not_lt.mpr hmem)]
  have hgrow : ∃ st₁ l₁, st.growIfLoaded = .ok st₁ ∧ Arranged st₁ l₁ ∧
      itemsAt st₁.hashTable l₁ = itemsAt st.hashTable l := by
    unfold Store.growIfLoaded
    by_cases hbig : 4 * st.numEntries > st.hashTable.size
    · have hroom : st.numEntries < (2 * st.hashTable.size : Nat) := by
        have h1 := h.entries
        have h2 := h.length_lt
        omega
      obtain ⟨st₁, l₁, hrun, h₁, hitems, -⟩ := h.rehash hroom
      exact ⟨st₁, l₁, by rw [if_pos hbig, hrun], h₁, hitems⟩
    · exact ⟨st, l, if_neg hbig, h, rfl⟩
  obtain ⟨st₁, l₁, h₁run, h₁, hitems₁⟩ := hgrow
  have hfull : ∃ st₂ l₂, st₁.rehashIfFull = .ok st₂ ∧ Arranged st₂ l₂ ∧
      itemsAt st₂.hashTable l₂ = itemsAt st₁.hashTable l₁ := by
    unfold Store.rehashIfFull
    by_cases hbig : 2 * (st₁.numEntries + st₁.numDeadEntries) > st₁.hashTable.size
    · have hroom : st₁.numEntries < st₁.hashTable.size := by
        have hent := h₁.entries
        have hlen := h₁.length_lt
        omega
      obtain ⟨st₂, l₂, hrun, h₂, hitems, -⟩ := h₁.rehash hroom
      exact ⟨st₂, l₂, by rw [if_pos hbig, hrun], h₂, hitems⟩
    · exact ⟨st₁, l₁, if_neg hbig, h₁, rfl⟩
  obtain ⟨st₂, l₂, h₂run, h₂, hitems₂⟩ := hfull
  refine ⟨st₂, l₂, ?_, h₂, hitems₂.trans hitems₁⟩
  unfold Store.normalizeTable
  rw [hevict]
  show (do let st ← st.growIfLoaded; st.rehashIfFull) = _
  rw [h₁run]
  exact h₂run

end Arranged

namespace Store

variable {st : Store} {l₁ l₂ : List Int} {pos : Int}

theorem setVersion_wrote (hpos : (st.slot pos).state = .alive) (version : Version) :
    Wrote st.hashTable pos { st.slot pos with version } (st.setVersion pos version).hashTable :=
  Wrote.of_set (inside_of_alive hpos).1 (inside_of_alive hpos).2 _

/-- The three statements of the replacing branch write one record. -/
theorem replace_wrote (hl : st.Linked (l₁ ++ pos :: l₂)) (hnodup : (l₁ ++ pos :: l₂).Nodup)
    (halive : ∀ j ∈ l₁ ++ pos :: l₂, (st.slot j).state = .alive) (value : Bytes)
    (version : Version) :
    ∃ st', (st.setValue pos value).accessEntry pos = .ok st' ∧
      Wrote st.hashTable pos { st.slot pos with value, version }
        (st'.setVersion pos version).hashTable := by
  have hpos := halive pos (by simp)
  have hin := inside_of_alive hpos
  have hslot : ∀ j, (st.setValue pos value).slot j =
      if j = pos then { st.slot pos with value } else st.slot j :=
    recordAt_setRecord hin.1 hin.2 _
  have hlinks : ∀ j, ((st.setValue pos value).slot j).next = (st.slot j).next ∧
      ((st.setValue pos value).slot j).prev = (st.slot j).prev ∧
      ((st.setValue pos value).slot j).state = (st.slot j).state := by
    intro j
    rw [hslot]
    split
    · next hj => rw [hj]; exact ⟨rfl, rfl, rfl⟩
    · exact ⟨rfl, rfl, rfl⟩
  have hl₁ : (st.setValue pos value).Linked (l₁ ++ pos :: l₂) :=
    hl.frame (fun j _ => (hlinks j).1) (fun j _ => (hlinks j).2.1)
  obtain ⟨st₂, hrun, hrel, -⟩ := accessEntry_spec hl₁ hnodup fun j hj => by
    rw [(hlinks j).2.2]
    exact halive j hj
  have hw₁ : Wrote st.hashTable pos { st.slot pos with value } st₂.hashTable :=
    (Wrote.of_set hin.1 hin.2 _).relinked hrel.same
  have hcontent : (st₂.slot pos).content = ({ st.slot pos with value } : Record).content := by
    have := hw₁.content pos
    rwa [if_pos rfl] at this
  have hpos₂ : (st₂.slot pos).state = .alive := by
    have := congrArg Record.state hcontent
    exact this.trans hpos
  have hw₂ := hw₁.overwrite (setVersion_wrote hpos₂ version)
  refine ⟨st₂, hrun, hw₂.size, fun j => ?_⟩
  rw [hw₂.content]
  have hsame : ({ st₂.slot pos with version } : Record).content =
      ({ st.slot pos with value, version } : Record).content :=
    congrArg (fun r : Record => ({ r with version } : Record)) hcontent
  rw [hsame]

end Store

/-! ## The content after a merge -/

/-- Within the limit `propagate` leaves the content that the abstract merge
computes. -/
theorem Arranged.propagate {st : Store} {l : List Int} (h : Arranged st l)
    (hmem : st.getUsedMemory ≤ memoryLimit) (e : Entry) (invalidated : List Bytes) :
    ∃ st', st.propagate e invalidated =
        .ok (st', invalidated ++ (Lru.merge e (itemsAt st.hashTable l)).2) ∧
      ∀ it, st'.HoldsItem it ↔ it ∈ (Lru.merge e (itemsAt st.hashTable l)).1 := by
  obtain ⟨st₁, l₁, h₁run, h₁, hitems⟩ := h.normalize_within hmem
  rw [← hitems]
  have hdis := h₁.table.distinct_items
  obtain ⟨pos, hpos, ⟨halive, hlook, hkey⟩ | ⟨hempty, hlook, hvac⟩⟩ := h₁.position e.key
  · have hlook' : Lru.lookup e.key (itemsAt st₁.hashTable l₁) = some (st₁.slot pos).item := hlook
    have hmem : (st₁.slot pos).item ∈ itemsAt st₁.hashTable l₁ :=
      ((Recency.lookup_some hdis).mp hlook).1
    obtain ⟨l₂, l₃, hlinked, hnodup, hall⟩ := h₁.linked_at halive
    have hversion : (st₁.slot pos).item.version = (st₁.slot pos).version := rfl
    have hvalue : (st₁.slot pos).item.value = (st₁.slot pos).value := rfl
    simp only [Store.propagate, Lru.merge, h₁run, hpos, hlook', if_pos halive, bind, Except.bind,
      pure, Except.pure, hversion, hvalue]
    by_cases hskip : atMost (ofEntries e.version) (st₁.slot pos).version = true
    · simp only [if_pos hskip, List.append_nil]
      exact ⟨st₁, rfl, fun it => h₁.holds_iff⟩
    by_cases hnewer : atMost (st₁.slot pos).version (ofEntries e.version) = true
    · simp only [if_neg hskip, if_pos hnewer, List.append_nil]
      obtain ⟨st₂, h₂run, hw⟩ := Store.replace_wrote hlinked hnodup hall e.value
        (ofEntries e.version)
      refine ⟨st₂.setVersion pos (ofEntries e.version), by rw [h₂run], fun it => ?_⟩
      rw [h₁.holds_of_rewritten halive hkey hw, Recency.mem_promote]
      simp only [Record.item, halive, hkey, true_and]
    by_cases hsame : e.value = (st₁.slot pos).value
    · simp only [if_neg hskip, if_neg hnewer, if_pos hsame, List.append_nil]
      refine ⟨_, rfl, fun it => ?_⟩
      rw [h₁.holds_of_rewritten halive hkey (Store.setVersion_wrote halive _),
        Recency.mem_rewrite, or_comm]
      refine or_congr Iff.rfl ⟨fun hi => ?_, fun hi => ?_⟩
      · exact ⟨_, hmem, hkey, hi.2.symm⟩
      · obtain ⟨-, -, -, rfl⟩ := hi
        exact ⟨halive, rfl⟩
    · simp only [if_neg hskip, if_neg hnewer, if_neg hsame]
      obtain ⟨st₂, h₂run, hw, -⟩ := Store.removeEntry_spec hlinked hnodup hall
      refine ⟨st₂, by rw [h₂run, hkey], fun it => ?_⟩
      rw [h₁.holds_of_rewritten halive hkey hw, Recency.mem_remove]
      simp
  · have hlook' : Lru.lookup e.key (itemsAt st₁.hashTable l₁) = none := hlook
    have hdead : ¬ (st₁.slot pos).state = .alive := by
      rw [hempty]
      simp
    obtain ⟨st₂, h₂run, hw, -⟩ := Store.addEntry_spec h₁.table.chain h₁.table.nodup
      (fun i hi => (h₁.table.alive i).mp hi) hvac.nonneg hvac.lt hempty e.key e.value
      (ofEntries e.version)
    simp only [Store.propagate, Lru.merge, h₁run, hpos, hlook', if_neg hdead, bind, Except.bind,
      pure, Except.pure, List.append_nil]
    refine ⟨st₂, by rw [h₂run], fun it => ?_⟩
    rw [h₁.holds_of_added hdead (Recency.lookup_none.mp hlook) rfl hw, List.mem_cons]
    rfl

/-! ## Soundness -/

/-- Merging `e` into `st` leaves `st'` and appends to the invalidated keys, as
it should: the version of a held key becomes the join, with the value of the
newer side, or the key goes because two values were written concurrently. -/
structure MergesSoundly (st : Store) (e : Entry) (invalidated : List Bytes) (st' : Store)
    (invalidated' : List Bytes) : Prop where
  held : ∀ x w, st.HoldsItem ⟨e.key, x, w⟩ →
    (∃ z u, (∀ it, it.key = e.key → (st'.HoldsItem it ↔ it = ⟨e.key, z, u⟩)) ∧
      IsJoin (ofEntries e.version) w u ∧
      (atMost (ofEntries e.version) w = true → z = x) ∧
      (atMost w (ofEntries e.version) = true → ¬ atMost (ofEntries e.version) w = true →
        z = e.value) ∧
      (¬ atMost (ofEntries e.version) w = true → ¬ atMost w (ofEntries e.version) = true →
        z = x ∧ z = e.value) ∧ invalidated' = invalidated) ∨
    (¬ atMost (ofEntries e.version) w = true ∧ ¬ atMost w (ofEntries e.version) = true ∧
      x ≠ e.value ∧ (∀ it, it.key = e.key → ¬ st'.HoldsItem it) ∧
      invalidated' = invalidated ++ [e.key])
  absent : (∀ it, st.HoldsItem it → it.key ≠ e.key) →
    (∀ it, it.key = e.key → (st'.HoldsItem it ↔ it = e.item)) ∧ invalidated' = invalidated
  others : ∀ it, it.key ≠ e.key → (st'.HoldsItem it ↔ st.HoldsItem it)

section Sound

variable {st st' : Store} {items : List Item} {e : Entry} {invalidated : List Bytes}
  (hst : ∀ it, st.HoldsItem it ↔ it ∈ items)
  (hst' : ∀ it, st'.HoldsItem it ↔ it ∈ (Lru.merge e items).1)

include hst hst'

theorem mergesSoundly_of_absent (hlook : Lru.lookup e.key items = none) :
    MergesSoundly st e invalidated st' (invalidated ++ (Lru.merge e items).2) := by
  have hnone : ∀ it ∈ items, it.key ≠ e.key := Recency.lookup_none.mp hlook
  rw [Lru.merge_absent hlook] at hst' ⊢
  refine ⟨fun x w hheld => ?_, fun _ => ⟨fun it hkey => ?_, List.append_nil _⟩, fun it hkey => ?_⟩
  · exact absurd rfl (hnone _ ((hst _).mp hheld))
  · rw [hst', List.mem_cons]
    exact ⟨fun h => h.resolve_right fun hm => hnone it hm hkey, .inl⟩
  · rw [hst', hst, List.mem_cons]
    refine ⟨fun h => h.resolve_left fun he => hkey ?_, .inr⟩
    rw [he]
    rfl

variable (hdis : Recency.Distinct Item.key items) {old : Item}
  (hlook : Lru.lookup e.key items = some old)

include hdis hlook

theorem mergesSoundly_of_settled {left : Item} (hleft : Lru.settle e old = some left)
    (hkey : left.key = e.key) (hjoin : IsJoin (ofEntries e.version) old.version left.version)
    (hskip : atMost (ofEntries e.version) old.version = true → left.value = old.value)
    (hnewer : ¬ atMost (ofEntries e.version) old.version = true →
      atMost old.version (ofEntries e.version) = true ∧ left.value = e.value) :
    MergesSoundly st e invalidated st' (invalidated ++ (Lru.merge e items).2) := by
  have hold := (Recency.lookup_some hdis).mp hlook
  have hnone : (Lru.merge e items).2 = [] := by rw [Lru.merge_snd hlook, hleft]; rfl
  have hmem : ∀ it, st'.HoldsItem it ↔ it = left ∨ (it ∈ items ∧ it.key ≠ e.key) := by
    intro it
    rw [hst', Lru.mem_merge_iff hdis hlook, hleft, Option.some_inj, eq_comm]
  rw [hnone, List.append_nil]
  refine ⟨fun x w hheld => .inl ?_, fun habsent => ?_, fun it hne => ?_⟩
  · have hsame : (⟨e.key, x, w⟩ : Item) = old :=
      hdis.eq_of_key ((hst _).mp hheld) hold.1 hold.2.symm
    subst hsame
    refine ⟨left.value, left.version, fun it hit => ?_, hjoin, hskip, fun _ h => (hnewer h).2,
      fun h h' => absurd (hnewer h).1 h', rfl⟩
    have hshape : left = ⟨e.key, left.value, left.version⟩ := by rw [← hkey]
    rw [hmem, ← hshape]
    exact ⟨fun h => h.resolve_right fun hm => hm.2 hit, .inl⟩
  · exact absurd hold.2 (habsent old ((hst old).mpr hold.1))
  · rw [hmem, hst]
    refine ⟨fun h => (h.resolve_left fun he => hne (he ▸ hkey)).1, fun h => .inr ⟨h, hne⟩⟩

/-- A merge into a store with the key is sound unless it meets a concurrent
version of the same value. -/
theorem mergesSoundly_iff_of_held (hver : old.version.Distinct)
    (hev : (ofEntries e.version).Distinct) :
    MergesSoundly st e invalidated st' (invalidated ++ (Lru.merge e items).2) ↔
      Lru.comparable e old = true ∨ old.value ≠ e.value := by
  have hold := (Recency.lookup_some hdis).mp hlook
  have hheld : st.HoldsItem ⟨e.key, old.value, old.version⟩ := by
    rw [← hold.2]
    exact (hst old).mpr hold.1
  by_cases hskip : atMost (ofEntries e.version) old.version = true
  · have hleft : Lru.settle e old = some old := if_pos hskip
    refine iff_of_true ?_ (.inl (by simp [Lru.comparable, hskip]))
    exact mergesSoundly_of_settled hst hst' hdis hlook hleft hold.2 (isJoin_of_atMost hskip hver)
      (fun _ => rfl) fun h => absurd hskip h
  by_cases hnewer : atMost old.version (ofEntries e.version) = true
  · have hleft : Lru.settle e old = some e.item := by
      rw [Lru.settle, if_neg hskip, if_pos hnewer]
    refine iff_of_true ?_ (.inl (by simp [Lru.comparable, hnewer]))
    exact mergesSoundly_of_settled hst hst' hdis hlook hleft rfl
      (isJoin_of_atMost hnewer hev).symm (fun h => absurd h hskip) fun _ => ⟨hnewer, rfl⟩
  have hcomp : ¬ Lru.comparable e old = true := by simp [Lru.comparable, hskip, hnewer]
  by_cases hsame : e.value = old.value
  · -- the merged vector is empty, which bounds neither side
    have hleft : Lru.settle e old = some { old with version := [] } := by
      rw [Lru.settle, if_neg hskip, if_neg hnewer, if_pos hsame]
    refine iff_of_false (fun hsound => ?_) (fun h => h.elim hcomp fun h => h hsame.symm)
    have hblank : st'.HoldsItem { old with version := [] } := by
      rw [hst', Lru.mem_merge_iff hdis hlook]
      exact .inl hleft
    rcases hsound.held _ _ hheld with ⟨z, u, hleft', hjoin, -⟩ | ⟨-, -, hne, -⟩
    · have hnil : u = [] := by
        have hitem := (hleft' { old with version := [] } hold.2).mp hblank
        exact (congrArg Item.version hitem).symm
      rw [hnil] at hjoin
      exact not_isJoin_nil hskip hjoin
    · exact hne hsame.symm
  · have hleft : Lru.settle e old = none := by
      rw [Lru.settle, if_neg hskip, if_neg hnewer, if_neg hsame]
    have hmem : ∀ it, st'.HoldsItem it ↔ it ∈ items ∧ it.key ≠ e.key := by
      intro it
      rw [hst', Lru.mem_merge_iff hdis hlook, hleft]
      simp
    refine iff_of_true ⟨fun x w hx => .inr ?_, fun habsent => ?_, fun it hne => ?_⟩
      (.inr fun h => hsame h.symm)
    · have heq : (⟨e.key, x, w⟩ : Item) = old :=
        hdis.eq_of_key ((hst _).mp hx) hold.1 hold.2.symm
      subst heq
      refine ⟨hskip, hnewer, fun h => hsame h.symm, fun it hit h => ((hmem it).mp h).2 hit, ?_⟩
      rw [Lru.merge_snd hlook, hleft]
      rfl
    · exact absurd hold.2 (habsent old ((hst old).mpr hold.1))
    · rw [hmem, hst]
      exact ⟨fun h => h.1, fun h => ⟨h, hne⟩⟩

end Sound

/-- `propagate` returns, and merges soundly unless the key is held with the
value of the entry and a concurrent version. -/
theorem propagate_sound_iff {st : Store} (hinv : RepInv st)
    (hmem : st.getUsedMemory ≤ memoryLimit) (hver : ∀ it, st.HoldsItem it → it.version.Distinct)
    {e : Entry} (hev : (ofEntries e.version).Distinct) (invalidated : List Bytes) :
    ∃ st' invalidated', st.propagate e invalidated = .ok (st', invalidated') ∧
      (MergesSoundly st e invalidated st' invalidated' ↔
        ∀ it, st.HoldsItem it → it.key = e.key →
          Lru.comparable e it = true ∨ it.value ≠ e.value) := by
  have harr := hinv.arranged
  have hdis := harr.table.distinct_items
  obtain ⟨st', hrun, hst'⟩ := harr.propagate hmem e invalidated
  refine ⟨st', _, hrun, ?_⟩
  cases hlook : Lru.lookup e.key (itemsAt st.hashTable st.order) with
  | none =>
      refine iff_of_true (mergesSoundly_of_absent (fun _ => harr.holds_iff) hst' hlook) ?_
      intro it hit hkey
      exact absurd hkey (Recency.lookup_none.mp hlook it (harr.holds_iff.mp hit))
  | some old =>
      have hold := (Recency.lookup_some hdis).mp hlook
      have hholds := harr.holds_iff.mpr hold.1
      rw [mergesSoundly_iff_of_held (fun _ => harr.holds_iff) hst' hdis hlook (hver old hholds) hev]
      constructor
      · intro h it hit hkey
        rw [hdis.eq_of_key (harr.holds_iff.mp hit) hold.1 (hkey.trans hold.2.symm)]
        exact h
      · intro h
        exact h old hholds hold.2

def onePut (s : Server) : Store :=
  match (Handler.initial s).putEntry [1] [7] with
  | .ok h => h.toStore
  | .error _ => {}

theorem onePut_represents (s : Server) : Represents (onePut s) [⟨[1], [7], [(s, 1)]⟩] := by
  obtain ⟨st, hrun, hrep⟩ :=
    Handler.putEntry_spec (h := Handler.initial s) Represents.initial [1] [7]
  have heq : onePut s = st := by simp only [onePut, hrun]
  rw [heq]
  exact hrep

theorem onePut_ready (s : Server) :
    RepInv (onePut s) ∧ (onePut s).getUsedMemory ≤ memoryLimit ∧
      ∀ it, (onePut s).HoldsItem it ↔ it = ⟨[1], [7], [(s, 1)]⟩ := by
  have hrep := onePut_represents s
  have hfits : FitsCounter [⟨[1], [7], [(s, 1)]⟩] := (by decide : FitsCounter [⟨[1], [7], []⟩])
  refine ⟨?_, not_lt.mp (hrep.fits_iff.mpr hfits), fun it => ?_⟩
  · obtain ⟨l, hl, -⟩ := hrep
    exact hl.arranged.repInv
  · exact hrep.mem_iff.symm.trans List.mem_singleton

/-- A newer version, with another value, meets the entry of the put. -/
theorem propagate_sound_iff_onePut :
    ∃ st' invalidated',
      (onePut ⟨[1], 1⟩).propagate ⟨[1], [9], [⟨⟨[1], 1⟩, 1⟩, ⟨⟨[2], 2⟩, 1⟩]⟩ [] =
        .ok (st', invalidated') ∧
      MergesSoundly (onePut ⟨[1], 1⟩) ⟨[1], [9], [⟨⟨[1], 1⟩, 1⟩, ⟨⟨[2], 2⟩, 1⟩]⟩ [] st'
        invalidated' := by
  obtain ⟨hinv, hmem, hheld⟩ := onePut_ready ⟨[1], 1⟩
  have hver : ∀ it, (onePut ⟨[1], 1⟩).HoldsItem it → it.version.Distinct := by
    intro it hit
    rw [(hheld it).mp hit]
    decide
  obtain ⟨st', invalidated', hrun, hiff⟩ := propagate_sound_iff hinv hmem hver
    (e := ⟨[1], [9], [⟨⟨[1], 1⟩, 1⟩, ⟨⟨[2], 2⟩, 1⟩]⟩) (by decide) []
  refine ⟨st', invalidated', hrun, hiff.mpr fun it hit _ => ?_⟩
  rw [(hheld it).mp hit]
  decide

/-- The same value written concurrently at another server leaves the key with
an empty vector, which is no bound of either version. -/
theorem propagate_loses_versions :
    RepInv (onePut ⟨[1], 1⟩) ∧ (onePut ⟨[1], 1⟩).getUsedMemory ≤ memoryLimit ∧
      (∀ it, (onePut ⟨[1], 1⟩).HoldsItem it ↔ it = ⟨[1], [7], [(⟨[1], 1⟩, 1)]⟩) ∧
      ∃ st', (onePut ⟨[1], 1⟩).propagate ⟨[1], [7], [⟨⟨[2], 2⟩, 1⟩]⟩ [] = .ok (st', []) ∧
        (∀ it, st'.HoldsItem it ↔ it = ⟨[1], [7], []⟩) ∧
        ¬ MergesSoundly (onePut ⟨[1], 1⟩) ⟨[1], [7], [⟨⟨[2], 2⟩, 1⟩]⟩ [] st' [] := by
  obtain ⟨hinv, hmem, hheld⟩ := onePut_ready ⟨[1], 1⟩
  obtain ⟨l, hl, hitems⟩ := onePut_represents ⟨[1], 1⟩
  obtain ⟨st', hrun, hst'⟩ := hl.arranged.propagate hmem ⟨[1], [7], [⟨⟨[2], 2⟩, 1⟩]⟩ []
  rw [hitems] at hrun hst'
  have hblank : ∀ it, st'.HoldsItem it ↔ it = ⟨[1], [7], []⟩ :=
    fun it => (hst' it).trans List.mem_singleton
  refine ⟨hinv, hmem, hheld, st', hrun, hblank, fun hsound => ?_⟩
  have hold := (hheld ⟨[1], [7], [(⟨[1], 1⟩, 1)]⟩).mpr rfl
  rcases hsound.held _ _ hold with ⟨z, u, hleft, hjoin, -⟩ | ⟨-, -, hne, -⟩
  · have hitem := (hleft ⟨[1], [7], []⟩ rfl).mp ((hblank _).mpr rfl)
    have hnil : u = [] := (congrArg Item.version hitem).symm
    rw [hnil] at hjoin
    exact not_isJoin_nil (by decide) hjoin
  · exact hne rfl

end RobustCache
