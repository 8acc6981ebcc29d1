import RobustCache.Store.Layout

/-! # Insertion, update and removal

The operations on one record of a well-formed store, specified on the recency
list that the store represents.
-/

namespace RobustCache

open Lib

namespace Represents

variable {st : Store} {items : List Item}

theorem distinct (h : Represents st items) : Recency.Distinct Item.key items := by
  rcases h with ⟨l, hl, rfl⟩
  exact hl.table.distinct_items

/-- An `ALIVE` slot splits the positions, and with them the items, in two. -/
theorem split (h : Represents st items) {pos : Int} (hpos : (st.slot pos).state = .alive) :
    ∃ l₁ l₂, Layout st (l₁ ++ pos :: l₂) ∧
      items = itemsAt st.hashTable l₁ ++
        (st.slot pos).item :: itemsAt st.hashTable l₂ := by
  rcases h with ⟨l, hl, rfl⟩
  have hmem : pos ∈ l := (hl.table.alive pos).mpr hpos
  rcases List.append_of_mem hmem with ⟨l₁, l₂, rfl⟩
  exact ⟨l₁, l₂, hl, by simp [itemsAt, Store.slot]⟩

theorem mem_iff (h : Represents st items) {it : Item} :
    it ∈ items ↔ ∃ pos, (st.slot pos).state = .alive ∧ (st.slot pos).item = it := by
  rcases h with ⟨l, hl, rfl⟩
  unfold itemsAt
  rw [List.mem_map]
  constructor
  · intro hm
    rcases hm with ⟨i, hi, he⟩
    exact ⟨i, hl.alive hi, he⟩
  · intro hm
    rcases hm with ⟨i, hi, he⟩
    exact ⟨i, (hl.table.alive i).mpr hi, he⟩

/-! ## Moving to the front -/

theorem access (h : Represents st items) {pos : Int} (hpos : (st.slot pos).state = .alive) :
    ∃ st', st.accessEntry pos = .ok st' ∧
      Represents st' (Recency.promote Item.key (st.slot pos).item items) ∧
      st'.statistics = st.statistics ∧ (st'.slot pos).content = (st.slot pos).content := by
  have hdis := h.distinct
  rcases h.split hpos with ⟨l₁, l₂, hl, rfl⟩
  rcases Store.accessEntry_spec hl.table.chain hl.table.nodup (fun j hj => hl.alive hj) with
    ⟨st', hst', hrel, hchain⟩
  refine ⟨st', hst', ⟨pos :: (l₁ ++ l₂), hl.relink hrel ?_ hchain, ?_⟩, hrel.statistics,
    hrel.same.content pos⟩
  · exact List.perm_middle.symm
  · rw [Recency.promote, Recency.remove_split hdis]
    simp only [itemsAt, List.map_cons, List.map_append, hrel.same.item, Store.slot]

/-! ## Updating a record -/

end Represents

theorem Layout.rewrite_record {st : Store} {l₁ l₂ : List Int} {pos : Int}
    (hl : Layout st (l₁ ++ pos :: l₂)) {f : Record → Record} {total : Int}
    (hstate : (f (st.slot pos)).state = .alive) (hkey : (f (st.slot pos)).key = (st.slot pos).key)
    (hnext : (f (st.slot pos)).next = (st.slot pos).next)
    (hprev : (f (st.slot pos)).prev = (st.slot pos).prev)
    (htotal : total = toInt32 (st.totalKeyValueSize +
      ((f (st.slot pos)).item.size - (st.slot pos).item.size))) :
    Layout { st.modify pos f with totalKeyValueSize := total } (l₁ ++ pos :: l₂) ∧
      itemsAt (st.modify pos f).hashTable (l₁ ++ pos :: l₂) =
        itemsAt st.hashTable l₁ ++ (f (st.slot pos)).item :: itemsAt st.hashTable l₂ := by
  have hpos : (st.slot pos).state = .alive := hl.alive (by simp)
  have hin := inside_of_alive hpos
  have hw : Wrote st.hashTable pos (f (st.slot pos)) (st.modify pos f).hashTable :=
    Wrote.of_set hin.1 hin.2 _
  have hlinks : ∀ j, ((st.modify pos f).slot j).next = (st.slot j).next ∧
      ((st.modify pos f).slot j).prev = (st.slot j).prev := by
    intro j
    rw [Store.slot_modify hin.1 hin.2]
    split
    · next hj => rw [hj]; exact ⟨hnext, hprev⟩
    · exact ⟨rfl, rfl⟩
  have hmid := List.nodup_cons.mp (List.nodup_middle.mp hl.table.nodup)
  have hitems : itemsAt (st.modify pos f).hashTable (l₁ ++ pos :: l₂) =
      itemsAt st.hashTable l₁ ++ (f (st.slot pos)).item :: itemsAt st.hashTable l₂ := by
    rw [itemsAt_append, itemsAt_cons, hw.item, if_pos rfl,
      hw.itemsAt_of_not_mem fun hm => hmid.1 (List.mem_append_left _ hm),
      hw.itemsAt_of_not_mem fun hm => hmid.1 (List.mem_append_right _ hm)]
  refine ⟨⟨⟨hl.table.rewrite hw (by simp) hstate hkey, ?_⟩, hl.entries, ?_, ?_, ?_, ?_, ?_⟩,
    hitems⟩
  · exact hl.table.chain.frame (fun j _ => (hlinks j).1) (fun j _ => (hlinks j).2)
  · show st.numDeadEntries = ((st.modify pos f).slotsIn .dead).card
    rw [hl.dead, hw.slotsIn_dead (by simp [hstate]) (by simp [hpos])]
  · show total = toInt32 (totalSize (itemsAt (st.modify pos f).hashTable _))
    rw [htotal, hl.total, toInt32_add, hitems]
    congr 1
    simp only [totalSize, itemsAt_append, itemsAt_cons, List.map_append, List.map_cons,
      List.sum_append, List.sum_cons, Store.slot]
    ring
  · exact hw.size ▸ hl.size
  · exact hw.size ▸ hl.aliveLoad
  · exact hw.size ▸ hl.usedLoad

theorem Layout.setVersion {st : Store} {l₁ l₂ : List Int} {pos : Int}
    (hl : Layout st (l₁ ++ pos :: l₂)) (version : Version) :
    Layout (st.setVersion pos version) (l₁ ++ pos :: l₂) ∧
      itemsAt (st.setVersion pos version).hashTable (l₁ ++ pos :: l₂) =
        itemsAt st.hashTable l₁ ++
          ⟨(st.slot pos).key, (st.slot pos).value, version⟩ :: itemsAt st.hashTable l₂ := by
  have htotal : st.totalKeyValueSize = toInt32 (st.totalKeyValueSize) := by
    rw [hl.total]
    unfold toInt32
    omega
  refine hl.rewrite_record (f := fun r => { r with version }) (hl.alive (by simp)) rfl rfl rfl ?_
  show st.totalKeyValueSize = _
  simpa [Record.item, Item.size] using htotal

namespace Represents

variable {st : Store} {items : List Item}

theorem setValue (h : Represents st items) {pos : Int} (hpos : (st.slot pos).state = .alive)
    (value : Bytes) :
    Represents (st.setValue pos value)
      (Recency.rewrite Item.key (st.slot pos).key
        (fun _ => ⟨(st.slot pos).key, value, (st.slot pos).version⟩) items) := by
  have hdis := h.distinct
  rcases h.split hpos with ⟨l₁, l₂, hl, rfl⟩
  have htotal :
      toInt32 (toInt32 (st.totalKeyValueSize - (st.slot pos).value.length) + value.length) =
        toInt32 (st.totalKeyValueSize +
          (({ st.slot pos with value } : Record).item.size - (st.slot pos).item.size)) := by
    rw [toInt32_add]
    congr 1
    simp only [Record.item, Item.size]
    ring
  rw [Recency.rewrite_split hdis (by rfl)]
  exact ⟨_, hl.rewrite_record (f := fun r => { r with value }) hpos rfl rfl rfl htotal⟩

theorem setVersion (h : Represents st items) {pos : Int} (hpos : (st.slot pos).state = .alive)
    (version : Version) :
    Represents (st.setVersion pos version)
      (Recency.rewrite Item.key (st.slot pos).key
        (fun _ => ⟨(st.slot pos).key, (st.slot pos).value, version⟩) items) := by
  have hdis := h.distinct
  rcases h.split hpos with ⟨l₁, l₂, hl, rfl⟩
  rw [Recency.rewrite_split hdis (by rfl)]
  exact ⟨_, hl.setVersion version⟩

/-! ## Insertion -/

end Represents

theorem Store.addEntry_spec {st : Store} {l : List Int} {pos : Int} (hl : st.Linked l)
    (hnodup : l.Nodup) (halive : ∀ i ∈ l, (st.slot i).state = .alive) (h0 : 0 ≤ pos)
    (hpos : pos < st.hashTable.size) (hempty : (st.slot pos).state = .empty) (key value : Bytes)
    (version : Version) :
    ∃ st', st.addEntry pos key value version = .ok st' ∧
      Wrote st.hashTable pos { state := .alive, key, value, version } st'.hashTable ∧
      st'.Linked (pos :: l) ∧ st'.statistics = st.statistics ∧
      st'.totalKeyValueSize = toInt32 (st.totalKeyValueSize + (key.length + value.length)) ∧
      st'.numEntries = st.numEntries + 1 ∧ st'.numDeadEntries = st.numDeadEntries := by
  let f : Record → Record := fun r => { r with state := .alive, key, value, version }
  let st₁ : Store := { st.modify pos f with
    totalKeyValueSize := toInt32 (st.totalKeyValueSize + (key.length + value.length)) }
  have hslot : ∀ j, st₁.slot j = if j = pos then f (st.slot pos) else st.slot j :=
    Store.slot_modify h0 hpos f
  have hnot : pos ∉ l := by
    intro hm
    have := halive pos hm
    rw [hempty] at this
    cases this
  have hslotl : ∀ i ∈ l, st₁.slot i = st.slot i := by
    intro i hi
    have hne : i ≠ pos := fun he => hnot (he ▸ hi)
    rw [hslot, if_neg hne]
  have hchain₁ : st₁.Linked l :=
    hl.frame (fun i hi => congrArg Record.next (hslotl i hi))
      (fun i hi => congrArg Record.prev (hslotl i hi))
  have hpos₁ : (st₁.slot pos).state = .alive := by rw [hslot, if_pos rfl]
  have halive₁ : ∀ i ∈ l, (st₁.slot i).state = .alive := by
    intro i hi
    rw [hslotl i hi]
    exact halive i hi
  rcases Store.addToFront_spec hchain₁ hnodup hnot hpos₁ halive₁ with ⟨st₂, h₂, hrel, hchain⟩
  have hw₁ : Wrote st.hashTable pos (f (st.slot pos)) st₁.hashTable := Wrote.of_set h0 hpos _
  have hw := hw₁.relinked hrel.same
  refine ⟨{ st₂ with numEntries := st₂.numEntries + 1 }, ?_, ⟨hw.size, hw.content⟩, hchain,
    hrel.statistics, hrel.total, congrArg (· + 1) hrel.entries, hrel.dead⟩
  simp only [Store.addEntry, check_of hempty]
  show (do let st ← st₁.addToFront pos; pure { st with numEntries := st.numEntries + 1 }) = _
  rw [h₂]
  rfl

/-- Inserting a key at the slot that was found for it, while another empty slot
remains. -/
theorem Arranged.add {st : Store} {l : List Int} (h : Arranged st l) {pos : Int} {key : Bytes}
    (hvacant : Layout.Vacant st key pos) (hfresh : ∀ i ∈ l, (st.slot i).key ≠ key)
    (hempty : ∃ i : Nat, i < st.hashTable.size ∧ i ≠ pos.toNat ∧ (st.slot i).state = .empty)
    (value : Bytes) (version : Version) :
    ∃ st', st.addEntry pos key value version = .ok st' ∧ Arranged st' (pos :: l) ∧
      Wrote st.hashTable pos { state := .alive, key, value, version } st'.hashTable ∧
      itemsAt st'.hashTable (pos :: l) = ⟨key, value, version⟩ :: itemsAt st.hashTable l ∧
      st'.statistics = st.statistics ∧
      st'.totalKeyValueSize = toInt32 (st.totalKeyValueSize + (key.length + value.length)) ∧
      st'.numEntries = st.numEntries + 1 ∧ st'.numDeadEntries = st.numDeadEntries := by
  rcases Store.addEntry_spec h.table.chain h.table.nodup (fun i hi => (h.table.alive i).mp hi)
      hvacant.nonneg hvacant.lt hvacant.empty key value version with
    ⟨st', hrun, hw, hchain, hstat, htotal, hentries, hdead⟩
  have hplaced : Placement st'.hashTable (pos :: l) :=
    h.table.occupy hw rfl hvacant.empty hfresh hvacant.reaches
  have hitems : itemsAt st'.hashTable (pos :: l) =
      ⟨key, value, version⟩ :: itemsAt st.hashTable l := by
    rw [itemsAt_cons, hw.item, if_pos rfl,
      hw.itemsAt_of_not_mem (List.nodup_cons.mp hplaced.nodup).1]
    rfl
  refine ⟨st', hrun, ⟨⟨hplaced, hchain⟩, ?_, ?_, ?_⟩, hw, hitems, hstat, htotal, hentries, hdead⟩
  · rw [hentries, h.entries, List.length_cons]
    simp
  · rw [hdead, h.dead, hw.slotsIn_dead (by simp) (by simp [hvacant.empty])]
  · obtain ⟨i, hi, hne, he⟩ := hempty
    have hip : (i : Int) ≠ pos := by omega
    refine ⟨i, hw.size ▸ hi, ?_⟩
    unfold Store.slot
    rw [hw.state, if_neg hip]
    exact he

theorem Represents.add {st : Store} {items : List Item} (h : Represents st items)
    (hnormal : st.Normal) {pos : Int} {key : Bytes}
    (hvacant : Layout.Vacant st key pos) (hkey : Recency.lookup Item.key key items = none)
    (value : Bytes) (version : Version) :
    ∃ st', st.addEntry pos key value version = .ok st' ∧
      Represents st' (⟨key, value, version⟩ :: items) ∧ st'.statistics = st.statistics := by
  rcases h with ⟨l, hl, rfl⟩
  have hfresh : ∀ i ∈ l, (st.slot i).key ≠ key := by
    intro i hi
    rw [Recency.lookup_none] at hkey
    exact hkey (st.slot i).item (List.mem_map.mpr ⟨i, hi, rfl⟩)
  rcases hl.arranged.add hvacant hfresh (hl.exists_empty_ne _) value version with
    ⟨st', hrun, harr, hw, hitems, hstat, htotal, hentries, hdead⟩
  have hsize := hw.size
  refine ⟨st', hrun, ⟨pos :: l, ⟨harr.table, harr.entries, harr.dead, ?_, ?_, ?_, ?_⟩, hitems⟩,
    hstat⟩
  · rw [htotal, hitems, hl.total, toInt32_add]
    simp only [totalSize, List.map_cons, List.sum_cons, Item.size]
    congr 1
    ring
  · have := hl.size
    omega
  · have := hnormal.1
    omega
  · have := hnormal.2
    omega

/-! ## Removal -/

theorem Store.removeEntry_spec {st : Store} {l₁ l₂ : List Int} {pos : Int}
    (hl : st.Linked (l₁ ++ pos :: l₂)) (hnodup : (l₁ ++ pos :: l₂).Nodup)
    (halive : ∀ j ∈ l₁ ++ pos :: l₂, (st.slot j).state = .alive) :
    ∃ st', st.removeEntry pos = .ok st' ∧
      Wrote st.hashTable pos { state := .dead } st'.hashTable ∧ st'.Linked (l₁ ++ l₂) ∧
      st'.slot pos = { state := .dead } ∧ st'.statistics = st.statistics ∧
      st'.totalKeyValueSize = toInt32 (st.totalKeyValueSize - (st.slot pos).item.size) ∧
      st'.numEntries = st.numEntries - 1 ∧ st'.numDeadEntries = st.numDeadEntries + 1 := by
  have hin := inside_of_alive (halive pos (by simp))
  have hmid := List.nodup_cons.mp (List.nodup_middle.mp hnodup)
  rcases Store.removeFromList_spec hl hnodup halive with ⟨st₁, h₁, hrel, hchain⟩
  have hin₁ : pos < st₁.hashTable.size := by rw [hrel.same.size]; exact hin.2
  let size : Int := (st₁.slot pos).key.length + (st₁.slot pos).value.length
  have hsize : size = (st.slot pos).item.size := congrArg Item.size (hrel.same.item pos)
  let st₂ : Store := { st₁ with totalKeyValueSize := toInt32 (st₁.totalKeyValueSize - size) }
  let st₃ := st₂.modify pos fun _ => { state := .dead }
  have hslot : ∀ j, st₃.slot j = if j = pos then { state := .dead } else st₁.slot j :=
    recordAt_setRecord hin.1 hin₁ _
  have hw : Wrote st.hashTable pos { state := .dead } st₃.hashTable :=
    Wrote.after hrel.same (Wrote.of_set hin.1 hin₁ _)
  have hchain₃ : Store.Linked st₃ (l₁ ++ l₂) := by
    have hne : ∀ j ∈ l₁ ++ l₂, st₃.slot j = st₁.slot j := by
      intro j hj
      have hjp : j ≠ pos := fun he => hmid.1 (he ▸ hj)
      rw [hslot, if_neg hjp]
    exact hchain.frame (fun j hj => congrArg Record.next (hne j hj))
      (fun j hj => congrArg Record.prev (hne j hj))
  refine ⟨{ st₃ with numEntries := st₁.numEntries - 1, numDeadEntries := st₁.numDeadEntries + 1 },
    ?_, ⟨hw.size, hw.content⟩, hchain₃, ?_, hrel.statistics, ?_, ?_, ?_⟩
  · simp only [Store.removeEntry, h₁]
    rfl
  · show st₃.slot pos = _
    rw [hslot, if_pos rfl]
  · show toInt32 (st₁.totalKeyValueSize - size) = _
    rw [hsize, hrel.total]
  · show st₁.numEntries - 1 = _
    rw [hrel.entries]
  · show st₁.numDeadEntries + 1 = _
    rw [hrel.dead]

/-- A removed record becomes a tombstone, which keeps every probe path covered. -/
theorem Represents.remove {st : Store} {items : List Item} (h : Represents st items) {pos : Int}
    (hpos : (st.slot pos).state = .alive) :
    ∃ st', st.removeEntry pos = .ok st' ∧
      Represents st' (Recency.remove Item.key (st.slot pos).key items) ∧
      st'.statistics = st.statistics ∧ st'.slot pos = { state := .dead } := by
  have hdis := h.distinct
  rcases h.split hpos with ⟨l₁, l₂, hl, rfl⟩
  have hin := inside_of_alive hpos
  have hmid := List.nodup_cons.mp (List.nodup_middle.mp hl.table.nodup)
  rcases Store.removeEntry_spec hl.table.chain hl.table.nodup (fun j hj => hl.alive hj) with
    ⟨st', hrun, hw, hchain, hslot, hstat, htotal, hentries, hdead⟩
  have hitems : itemsAt st'.hashTable (l₁ ++ l₂) =
      itemsAt st.hashTable l₁ ++ itemsAt st.hashTable l₂ := by
    rw [hw.itemsAt_of_not_mem hmid.1, itemsAt_append]
  have hsize := hw.size
  refine ⟨st', hrun, ⟨l₁ ++ l₂, ⟨⟨hl.table.bury hw rfl, hchain⟩, ?_, ?_, ?_, ?_, ?_, ?_⟩, ?_⟩,
    hstat, hslot⟩
  · rw [hentries, hl.entries]
    simp only [List.length_append, List.length_cons]
    omega
  · have hnew : pos.toNat ∉ st.slotsIn .dead := by
      simp only [Store.slotsIn, Finset.mem_filter, Int.toNat_of_nonneg hin.1, hpos]
      simp
    rw [hw.slotsIn_insert hin.1 hin.2 rfl, Finset.card_insert_of_notMem hnew, hdead, hl.dead]
    simp
  · rw [htotal, hitems, hl.total, toInt32_sub]
    congr 1
    simp only [totalSize, itemsAt_append, itemsAt_cons, List.map_append, List.map_cons,
      List.sum_append, List.sum_cons, Store.slot]
    ring
  · have := hl.size
    omega
  · have := hl.aliveLoad
    omega
  · have := hl.usedLoad
    omega
  · rw [show (st.slot pos).key = (st.slot pos).item.key from rfl, Recency.remove_split hdis]
    exact hitems

end RobustCache
