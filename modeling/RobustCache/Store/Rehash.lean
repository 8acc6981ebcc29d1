import RobustCache.Store.Operations

/-! # Eviction and rehashing

`normalizeTable` runs before every insertion. On the recency list it only drops
what does not fit; the new table it may build is not visible there.
-/

namespace RobustCache

open Lib

/-! ## Eviction -/

/-- What the eviction loop tests, on the sizes of the items. -/
def FitsCounter (items : List Item) : Prop := toInt32 (totalSize items) ≤ memoryLimit

instance : DecidablePred FitsCounter := fun items =>
  inferInstanceAs (Decidable (toInt32 (totalSize items) ≤ memoryLimit))

theorem fitsCounter_nil : FitsCounter [] := by decide

def GetStatisticsReply.evicted (s : GetStatisticsReply) (n : Nat) : GetStatisticsReply :=
  { s with numEvictions := s.numEvictions + n }

namespace Represents

variable {st : Store} {items : List Item}

theorem fits_iff (h : Represents st items) :
    ¬ st.getUsedMemory > memoryLimit ↔ FitsCounter items := by
  rcases h with ⟨l, hl, rfl⟩
  unfold Store.getUsedMemory FitsCounter
  rw [hl.total]
  omega

theorem record (h : Represents st items) (s : GetStatisticsReply) :
    Represents { st with statistics := s } items := by
  rcases h with ⟨l, hl, hitems⟩
  exact ⟨l, ⟨hl.table, hl.entries, hl.dead, hl.total, hl.size, hl.aliveLoad, hl.usedLoad⟩, hitems⟩

theorem evict {it : Item} (h : Represents st (items ++ [it])) :
    ∃ st', st.evictEntry = .ok st' ∧ Represents st' items ∧
      st'.statistics = st.statistics.evicted 1 := by
  have hdis := h.distinct
  have hrep := h
  rcases h with ⟨l, hl, hitems⟩
  have hne : l ≠ [] := by
    intro he
    rw [he] at hitems
    simp [itemsAt] at hitems
  have hlast := hl.table.chain.tail_getLast hne
  have htail : st.listTail ∈ l := by
    rw [hlast]
    simp
  have halive := hl.alive htail
  have hit : (st.slot st.listTail).item = it := by
    rw [hlast, itemsAt_append] at hitems
    exact (List.append_inj_right' hitems rfl) |> List.singleton_inj.mp
  have hnil : st.listTail ≠ -1 := by
    have := (inside_of_alive halive).1
    omega
  rcases hrep.remove halive with ⟨st', h', hrep', hstat, -⟩
  rw [show (st.slot st.listTail).key = it.key by rw [← hit]; rfl,
    Recency.remove_split hdis, List.append_nil] at hrep'
  refine ⟨{ st' with statistics := st'.statistics.evicted 1 }, ?_, hrep'.record _, ?_⟩
  · simp only [Store.evictEntry, check_of hnil, h']
    rfl
  · show st'.statistics.evicted 1 = _
    rw [hstat]

/-- The eviction loop keeps the longest prefix that fits. -/
theorem evictLoop {fuel : Nat} (h : Represents st items) (hfuel : items.length < fuel) :
    ∃ st', Store.evictLoop fuel st = .ok st' ∧
      Represents st' (Recency.shrink FitsCounter items) ∧
      st'.statistics = st.statistics.evicted
        (items.length - (Recency.shrink FitsCounter items).length) := by
  induction fuel generalizing st items with
  | zero => omega
  | succ fuel ih =>
      rw [Store.evictLoop]
      by_cases hfits : FitsCounter items
      · rw [if_neg (h.fits_iff.mpr hfits), Recency.shrink_of_fits hfits]
        refine ⟨st, rfl, h, ?_⟩
        simp [GetStatisticsReply.evicted]
      · have hover : st.getUsedMemory > memoryLimit := by
          by_contra hn
          exact hfits (h.fits_iff.mp hn)
        rw [if_pos hover]
        rcases List.eq_nil_or_concat items with rfl | ⟨rest, it, rfl⟩
        · exact absurd fitsCounter_nil hfits
        rw [List.concat_eq_append] at h hfits hfuel ⊢
        rw [List.length_append, List.length_singleton] at hfuel
        rcases h.evict with ⟨st₁, h₁, hrep₁, hstat₁⟩
        rcases ih hrep₁ (by omega) with ⟨st₂, h₂, hrep₂, hstat₂⟩
        have hlen : (Recency.shrink FitsCounter rest).length ≤ rest.length :=
          (Recency.shrink_prefix rest).length_le
        rw [Recency.shrink_concat hfits]
        refine ⟨st₂, ?_, hrep₂, ?_⟩
        · rw [h₁]
          exact h₂
        · rw [hstat₂, hstat₁, List.length_append, List.length_singleton]
          simp only [GetStatisticsReply.evicted]
          congr 1
          omega

end Represents

/-! ## Moving one record -/

/-- A table under construction: a layout without tombstones. -/
structure Building (new : Array Record) (head tail : Int) (l : List Int) : Prop where
  table : TableLayout new head tail l
  noDead : ∀ j, (recordAt new j).state ≠ .dead

namespace Building

variable {new : Array Record} {head tail : Int} {l : List Int}

theorem exists_empty (h : Building new head tail l) (hlen : l.length < new.size) :
    ∃ i : Nat, i < new.size ∧ (recordAt new i).state = .empty := by
  by_contra hnone
  have hcover : Finset.range new.size ⊆ (l.map Int.toNat).toFinset := by
    intro i hi
    have hlt := Finset.mem_range.mp hi
    have hne : (recordAt new i).state ≠ .empty := fun he => hnone ⟨i, hlt, he⟩
    have hmem : (i : Int) ∈ l := by
      rw [h.table.alive]
      cases hs : (recordAt new i).state with
      | empty => exact absurd hs hne
      | alive => rfl
      | dead => exact absurd hs (h.noDead i)
    exact List.mem_toFinset.mpr (List.mem_map.mpr ⟨i, hmem, by simp⟩)
  have hcard := Finset.card_le_card hcover
  rw [Finset.card_range, List.toFinset_card_of_nodup h.table.nodup_toNat,
    List.length_map] at hcard
  omega

theorem recordAt_place {pos : Int} {moved : Record} (h0 : 0 ≤ pos) (hpos : pos < new.size)
    (ht : tail = -1 ∨ (0 ≤ tail ∧ tail < new.size ∧ tail ≠ pos)) (j : Int) :
    recordAt (Store.place new tail pos moved) j =
      if j = pos then ⟨.alive, moved.key, moved.value, tail, -1, moved.version⟩
      else if j = tail ∧ tail ≠ -1 then { recordAt new j with next := pos }
      else recordAt new j := by
  unfold Store.place
  rcases ht with rfl | ⟨ht0, hts, htp⟩
  · simp only [ne_eq, not_true_eq_false, if_false, and_false]
    rw [recordAt_setRecord h0 (by simpa using hpos), recordAt_setRecord h0 hpos,
      recordAt_setRecord h0 hpos]
    by_cases hj : j = pos <;> simp [hj]
  · have hne : tail ≠ -1 := by omega
    simp only [ne_eq, hne, not_false_eq_true, if_true, and_true]
    rw [recordAt_setRecord h0 (by simpa using hpos), recordAt_setRecord ht0 (by simpa using hts),
      recordAt_setRecord ht0 (by simpa using hts), recordAt_setRecord h0 hpos,
      recordAt_setRecord h0 hpos, recordAt_setRecord h0 hpos]
    by_cases hj : j = pos
    · simp [hj, htp.symm]
    · by_cases hjt : j = tail <;> simp [hj, hjt, htp]

theorem size_place (pos : Int) (moved : Record) :
    (Store.place new tail pos moved).size = new.size := by
  unfold Store.place
  split <;> simp

/-- One round appends the moved record to the new list. -/
theorem place (h : Building new head tail l) (hlen : l.length < new.size) (moved : Record)
    (hfresh : ∀ i ∈ l, (recordAt new i).key ≠ moved.key) :
    ∃ pos : Nat,
      Probe.scan new.size (fun p => decide ((recordAt new p).state = .empty)) new.size
        (hash moved.key % new.size) = some pos ∧
      Building (Store.place new tail pos moved) (if head = -1 then pos else head) pos
        (l ++ [(pos : Int)]) ∧
      itemsAt (Store.place new tail pos moved) (l ++ [(pos : Int)]) =
        itemsAt new l ++ [moved.item] := by
  have hhome : hash moved.key % new.size < new.size := Nat.mod_lt _ (by omega)
  rcases h.exists_empty hlen with ⟨i, hi, he⟩
  let stop : Nat → Bool := fun p => decide ((recordAt new p).state = .empty)
  have hstop : stop i = true := by simp [stop, he]
  rcases Probe.scan_isSome hhome hi hstop with ⟨pos, hscan⟩
  have hlt := Probe.scan_lt hhome hscan
  have hempty : (recordAt new pos).state = .empty := by
    simpa [stop] using Probe.scan_stop hhome hscan
  have hnot : (pos : Int) ∉ l := by
    intro hm
    rw [h.table.alive, hempty] at hm
    cases hm
  have htail : tail = -1 ∨ (0 ≤ tail ∧ tail < new.size ∧ tail ≠ pos) := by
    rcases h.table.chain.2.last_mem with ht | ht
    · exact .inl ht.2
    · have hin := h.table.inside ht
      exact .inr ⟨hin.1, hin.2, fun he => hnot (he ▸ ht)⟩
  have hrec : ∀ j, recordAt (Store.place new tail pos moved) j =
      if j = (pos : Int) then ⟨.alive, moved.key, moved.value, tail, -1, moved.version⟩
      else if j = tail ∧ tail ≠ -1 then { recordAt new j with next := (pos : Int) }
      else recordAt new j :=
    recordAt_place (by omega) (by omega) htail
  have hw : Wrote new pos ⟨.alive, moved.key, moved.value, tail, -1, moved.version⟩
      (Store.place new tail pos moved) := by
    refine ⟨size_place _ _, fun j => ?_⟩
    rw [hrec]
    by_cases hj : j = (pos : Int)
    · rw [if_pos hj, if_pos hj]
    · rw [if_neg hj, if_neg hj]
      split <;> rfl
  have hplaced := h.table.occupy hw rfl hempty hfresh
    (Probe.scan_reaches hhome (fun j hj => by simpa [stop] using hj) hscan)
  have hold : ∀ j ∈ l, j ≠ (pos : Int) := fun j hj he => hnot (he ▸ hj)
  refine ⟨pos, hscan, ⟨⟨hplaced.relink (.refl _) (List.perm_append_singleton _ _), ?_⟩, ?_⟩, ?_⟩
  · refine h.table.chain.pushBack (by omega) h.table.nodup ?_ ?_ ?_ ?_ ?_ rfl
    · rw [hrec, if_pos rfl]
    · rw [hrec, if_pos rfl]
    · intro hne
      have htp : tail ≠ (pos : Int) := (htail.resolve_left hne).2.2
      rw [hrec, if_neg htp, if_pos ⟨rfl, hne⟩]
    · intro j hj hjt
      rw [hrec, if_neg (hold j hj), if_neg fun hc => hjt hc.1]
    · intro j hj
      rw [hrec, if_neg (hold j hj)]
      split <;> rfl
  · intro j
    rw [hw.state]
    split
    · simp
    · exact h.noDead j
  · rw [itemsAt_append, itemsAt_cons, hw.itemsAt_of_not_mem hnot, hw.item, if_pos rfl]
    rfl

end Building

/-! ## The whole list -/

/-- The loop of `rehash` from any round on: the records still in the old list
are appended, in order, to those already moved. -/
theorem rehashLoop_spec {rest : List Int} {fuel : Nat} {old new : Array Record}
    {head tail i p q : Int} {l : List Int} (hfuel : rest.length < fuel)
    (hseg : Seg (fun j => (recordAt old j).next) (fun j => (recordAt old j).prev) p i rest q (-1))
    (hrest : ∀ j ∈ rest, 0 ≤ j ∧ j < old.size) (hnodup : rest.Nodup)
    (hnew : Building new head tail l)
    (hkeys : Recency.Distinct Item.key (itemsAt new l ++ itemsAt old rest))
    (hlen : l.length + rest.length ≤ new.size) :
    ∃ new' head' tail' l', Store.rehashLoop fuel old new head tail i = .ok (new', head', tail') ∧
      Building new' head' tail' l' ∧ itemsAt new' l' = itemsAt new l ++ itemsAt old rest ∧
      new'.size = new.size := by
  induction rest generalizing fuel old new head tail i p l with
  | nil =>
      rcases fuel with _ | fuel
      · omega
      rcases hseg with ⟨-, rfl⟩
      exact ⟨new, head, tail, l, by simp [Store.rehashLoop], hnew, by simp [itemsAt], rfl⟩
  | cons j rest ih =>
      rcases fuel with _ | fuel
      · omega
      rcases hseg with ⟨rfl, hprev, hseg⟩
      rcases List.nodup_cons.mp hnodup with ⟨hj, hnodup⟩
      have hin := hrest i (by simp)
      have hne : i ≠ -1 := by omega
      simp only [List.length_cons] at hlen hfuel
      rw [itemsAt_cons] at hkeys
      have hfresh : ∀ k ∈ l, (recordAt new k).key ≠ (recordAt old i).key := by
        intro k hk
        exact (Recency.ne_of_split hkeys).1 (recordAt new k).item (List.mem_map.mpr ⟨k, hk, rfl⟩)
      rcases hnew.place (by omega) (recordAt old i) hfresh with ⟨pos, hscan, hnew', hitems⟩
      let left : Record := { recordAt old i with
        key := (recordAt new pos).key
        value := (recordAt new pos).value
        version := (recordAt new pos).version }
      have hold : ∀ k, recordAt (setRecord old i left) k = if k = i then left else recordAt old k :=
        recordAt_setRecord hin.1 hin.2 left
      have hold' : ∀ k ∈ rest, recordAt (setRecord old i left) k = recordAt old k := by
        intro k hk
        have hki : k ≠ i := fun he => hj (he ▸ hk)
        rw [hold, if_neg hki]
      have hitems' : itemsAt (setRecord old i left) rest = itemsAt old rest :=
        List.map_congr_left fun k hk => by rw [hold' k hk]
      have hseg' : Seg (fun k => (recordAt (setRecord old i left) k).next)
          (fun k => (recordAt (setRecord old i left) k).prev) i (recordAt old i).next rest q (-1) :=
        hseg.frame (fun k hk => by rw [hold' k hk]) (fun k hk => by rw [hold' k hk])
      have hnext : (recordAt (setRecord old i left) i).next = (recordAt old i).next := by
        rw [hold, if_pos rfl]
      have hfuel' : rest.length < fuel := by omega
      rcases ih hfuel' hseg' (fun k hk => by simpa using hrest k (by simp [hk])) hnodup hnew'
          (by rw [hitems, hitems', List.append_assoc]; exact hkeys)
          (by simp only [List.length_append, List.length_singleton, Building.size_place]; omega)
        with ⟨new', head', tail', l', hloop, hbuilt, hall, hsize⟩
      refine ⟨new', head', tail', l', ?_, hbuilt, ?_, hsize.trans (Building.size_place _ _)⟩
      · rw [Store.rehashLoop, if_neg hne]
        simp only [hscan]
        show Store.rehashLoop fuel (setRecord old i left) _ _ _
          (recordAt (setRecord old i left) i).next = _
        rw [hnext]
        exact hloop
      · rw [hall, hitems, hitems', List.append_assoc]
        rfl

theorem building_replicate (n : Nat) : Building (Array.replicate n {}) (-1) (-1) [] := by
  have hempty : ∀ j, recordAt (Array.replicate n {}) j = {} := by
    intro j
    unfold recordAt
    split
    · rfl
    · by_cases hj : j.toNat < n <;> simp [Array.getD, hj]
  refine ⟨⟨⟨List.nodup_nil, fun i => ?_, List.nodup_nil, by simp⟩, by simp, rfl, rfl⟩, fun j => ?_⟩
  · rw [hempty]
    simp
  · rw [hempty]
    simp

/-- Rehashing into a table with room for the entries and one more slot keeps
the items and their order, and drops the tombstones. -/
theorem Arranged.rehash {st : Store} {l : List Int} (h : Arranged st l) {newSize : Nat}
    (hsize : st.numEntries < newSize) :
    ∃ st' l', st.rehash newSize = .ok st' ∧ Arranged st' l' ∧
      itemsAt st'.hashTable l' = itemsAt st.hashTable l ∧ st'.hashTable.size = newSize ∧
      st'.statistics = st.statistics ∧ st'.totalKeyValueSize = st.totalKeyValueSize ∧
      st'.numEntries = st.numEntries ∧ st'.numDeadEntries = 0 := by
  have hent := h.entries
  rcases rehashLoop_spec (Nat.lt_succ_of_le h.table.length_le) h.table.chain.2
      (fun j hj => h.table.inside hj) h.table.nodup (building_replicate newSize)
      (by simpa [itemsAt] using h.table.distinct_items)
      (by simp only [List.length_nil, Array.size_replicate]; omega)
    with ⟨new', head', tail', l', hloop, hnew, hitems, hsize'⟩
  rw [Array.size_replicate] at hsize'
  have hitems' : itemsAt new' l' = itemsAt st.hashTable l := by simpa [itemsAt] using hitems
  have hlen : l'.length = l.length := by
    simpa [itemsAt] using congrArg List.length hitems'
  let st' : Store :=
    { st with hashTable := new', listHead := head', listTail := tail', numDeadEntries := 0 }
  have hdead : st'.slotsIn .dead = ∅ := by
    rw [Finset.eq_empty_iff_forall_notMem]
    intro n hn
    exact hnew.noDead n (mem_slotsIn.mp hn).2
  refine ⟨st', l', ?_, ⟨hnew.table, ?_, ?_, hnew.exists_empty (by omega)⟩, hitems', hsize', rfl,
    rfl, rfl, rfl⟩
  · simp only [Store.rehash, hloop]
    rfl
  · show st.numEntries = _
    rw [hent, hlen]
  · rw [hdead]
    rfl

namespace Represents

variable {st : Store} {items : List Item}

theorem rehash (h : Represents st items) (newSize : Nat) (hsize : 10 ≤ newSize)
    (hload : 4 * st.numEntries ≤ newSize + 4) :
    ∃ st', st.rehash newSize = .ok st' ∧ Represents st' items ∧
      st'.statistics = st.statistics ∧ st'.hashTable.size = newSize ∧
      st'.numEntries = st.numEntries ∧ st'.numDeadEntries = 0 := by
  rcases h with ⟨l, hl, rfl⟩
  rcases hl.arranged.rehash (by omega : st.numEntries < newSize) with
    ⟨st', l', hrun, harr, hitems, hsize', hstat, htotal, hentries, hdead⟩
  refine ⟨st', hrun, ⟨l', ⟨harr.table, harr.entries, harr.dead, ?_, ?_, ?_, ?_⟩, hitems⟩, hstat,
    hsize', hentries, hdead⟩
  · rw [htotal, hl.total, hitems]
  · omega
  · omega
  · omega

theorem bounds (h : Represents st items) :
    10 ≤ st.hashTable.size ∧ 4 * st.numEntries ≤ st.hashTable.size + 4 ∧
      0 ≤ st.numEntries ∧ 0 ≤ st.numDeadEntries := by
  rcases h with ⟨l, hl, -⟩
  have h1 := hl.entries
  have h2 := hl.dead
  exact ⟨hl.size, hl.aliveLoad, by omega, by omega⟩

theorem length_le (h : Represents st items) : items.length ≤ st.hashTable.size := by
  rcases h with ⟨l, hl, rfl⟩
  rw [itemsAt, List.length_map]
  exact hl.table.length_le

theorem growIfLoaded (h : Represents st items) :
    ∃ st', st.growIfLoaded = .ok st' ∧ Represents st' items ∧
      st'.statistics = st.statistics ∧ 4 * st'.numEntries ≤ st'.hashTable.size := by
  have hb := h.bounds
  unfold Store.growIfLoaded
  by_cases hbig : 4 * st.numEntries > st.hashTable.size
  · rcases h.rehash (2 * st.hashTable.size) (by omega) (by omega) with
      ⟨st', h', hrep, hstat, hsize, hent, -⟩
    refine ⟨st', by rw [if_pos hbig, h'], hrep, hstat, ?_⟩
    rw [hsize, hent]
    omega
  · exact ⟨st, if_neg hbig, h, rfl, by omega⟩

theorem rehashIfFull (h : Represents st items) (hload : 4 * st.numEntries ≤ st.hashTable.size) :
    ∃ st', st.rehashIfFull = .ok st' ∧ Represents st' items ∧ st'.Normal ∧
      st'.statistics = st.statistics := by
  have hb := h.bounds
  unfold Store.rehashIfFull
  by_cases hfull : 2 * (st.numEntries + st.numDeadEntries) > st.hashTable.size
  · rcases h.rehash st.hashTable.size hb.1 (by omega) with
      ⟨st', h', hrep, hstat, hsize, hent, hdead⟩
    refine ⟨st', by rw [if_pos hfull, h'], hrep, ?_, hstat⟩
    unfold Store.Normal
    rw [hsize, hent, hdead]
    omega
  · exact ⟨st, if_neg hfull, h, ⟨hload, by omega⟩, rfl⟩

/-- `normalizeTable` keeps the longest prefix that fits and leaves room for one
more entry. -/
theorem normalize (h : Represents st items) :
    ∃ st', st.normalizeTable = .ok st' ∧
      Represents st' (Recency.shrink FitsCounter items) ∧ st'.Normal ∧
      st'.statistics = st.statistics.evicted
        (items.length - (Recency.shrink FitsCounter items).length) := by
  rcases h.evictLoop (Nat.lt_succ_of_le h.length_le) with ⟨st₁, h₁, hrep₁, hstat₁⟩
  rcases hrep₁.growIfLoaded with ⟨st₂, h₂, hrep₂, hstat₂, hload₂⟩
  rcases hrep₂.rehashIfFull hload₂ with ⟨st₃, h₃, hrep₃, hnormal, hstat₃⟩
  refine ⟨st₃, ?_, hrep₃, hnormal, by rw [hstat₃, hstat₂, hstat₁]⟩
  unfold Store.normalizeTable
  rw [h₁]
  show (do let st ← st₁.growIfLoaded; st.rehashIfFull) = _
  rw [h₂]
  exact h₃

theorem initial : Represents {} [] := by
  refine ⟨[], ⟨(building_replicate 10).table, rfl, by decide, by decide, by decide, by decide,
    by decide⟩, rfl⟩

end Represents

end RobustCache
