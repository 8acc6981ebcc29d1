import RobustCache.Server.Runs

/-! # Finding a key

The loop of `getPosition` has no bound and the tombstones are never used again,
so that it ends only because every run leaves empty slots. What it finds is
stated on the slots, for the states between two operations and for the state that
`normalizeTable` leaves within one.
-/

namespace RobustCache

open Lib

namespace Store

/-- What `getPosition` does with a key in a state. -/
structure Probes (st : Store) (key : Bytes) (pos : Int) : Prop where
  returns : st.getPosition key = .ok pos
  /-- The loop ends at the first slot of the probe path that passes its test,
  after at most as many tests as there are slots. -/
  ends : ∃ d < st.hashTable.size,
    pos = ((hash key % st.hashTable.size + d) % st.hashTable.size : Nat) ∧
    stopsAt st.hashTable key ((hash key % st.hashTable.size + d) % st.hashTable.size) = true ∧
    ∀ e < d,
      stopsAt st.hashTable key ((hash key % st.hashTable.size + e) % st.hashTable.size) = false
  /-- An `ALIVE` slot with the key is the one returned, so there is only one. -/
  found : ∀ i, (st.slot i).state = .alive → (st.slot i).key = key → i = pos
  /-- Without such a slot the one returned is empty, and `addEntry` can use it:
  every key that was found before is found where it was, and the new one here. -/
  vacant : (∀ i, (st.slot i).state = .alive → (st.slot i).key ≠ key) →
    (st.slot pos).state = .empty ∧ ∀ value version,
      ∃ st', st.addEntry pos key value version = .ok st' ∧ RepInv st' ∧
        st'.getPosition key = .ok pos ∧
        ∀ i, (st.slot i).state = .alive → st'.getPosition (st.slot i).key = .ok i

end Store

theorem Arranged.probe_ends {st : Store} {l : List Int} (h : Arranged st l) {key : Bytes}
    {pos : Int} (hpos : st.getPosition key = .ok pos) :
    ∃ d < st.hashTable.size,
      pos = ((hash key % st.hashTable.size + d) % st.hashTable.size : Nat) ∧
      Store.stopsAt st.hashTable key
        ((hash key % st.hashTable.size + d) % st.hashTable.size) = true ∧
      ∀ e < d, Store.stopsAt st.hashTable key
        ((hash key % st.hashTable.size + e) % st.hashTable.size) = false := by
  obtain ⟨p, hscan, hp⟩ := h.getPosition_ok key
  have heq : pos = p := Except.ok.inj (hpos.symm.trans hp)
  obtain ⟨d, hd, rfl, hstop, hbefore⟩ := Probe.scan_some (h.home_lt key) hscan
  exact ⟨d, hd, heq, hstop, hbefore⟩

theorem Represents.probes {st : Store} {items : List Item} (h : Represents st items)
    (key : Bytes) : ∃ pos, st.Probes key pos := by
  obtain ⟨l, hl, rfl⟩ := h
  have harr := hl.arranged
  by_cases hheld : ∃ i ∈ l, (st.slot i).key = key
  · obtain ⟨i, hi, rfl⟩ := hheld
    have hpos := harr.getPosition_found hi
    refine ⟨i, hpos, harr.probe_ends hpos, fun j hj hk => ?_, fun hnone => ?_⟩
    · exact hl.table.key_inj ((hl.table.alive j).mpr hj) hi hk
    · exact absurd rfl (hnone i (hl.alive hi))
  · have hfresh : ∀ i ∈ l, (st.slot i).key ≠ key := fun i hi hk => hheld ⟨i, hi, hk⟩
    obtain ⟨pos, hpos, hvacant⟩ := harr.getPosition_absent hfresh
    refine ⟨pos, hpos, harr.probe_ends hpos, fun j hj hk => ?_, fun _ => ⟨hvacant.empty, ?_⟩⟩
    · exact absurd hk (hfresh j ((hl.table.alive j).mpr hj))
    · intro value version
      obtain ⟨st', hrun, harr', hw, -⟩ :=
        harr.add hvacant hfresh (hl.exists_empty_ne _) value version
      have hnew : (st'.slot pos).key = key := by
        show (recordAt st'.hashTable pos).key = key
        rw [hw.key, if_pos rfl]
      have hold : ∀ i ∈ l, (st'.slot i).key = (st.slot i).key := by
        intro i hi
        have hne : i ≠ pos := by
          rintro rfl
          have halive := hl.alive hi
          rw [hvacant.empty] at halive
          cases halive
        exact hw.key_of_ne hne
      refine ⟨st', hrun, harr'.repInv, ?_, fun i hi => ?_⟩
      · have := harr'.getPosition_found List.mem_cons_self
        rwa [hnew] at this
      · have hmem := (hl.table.alive i).mpr hi
        have := harr'.getPosition_found (List.mem_cons_of_mem pos hmem)
        rwa [hold i hmem] at this

/-- In every run the state reached, and the state that `normalizeTable` makes of
it, is one in which probing ends and finds the key or a slot for it; put and
propagate return, so that their insertions pass the assertion of `addEntry`. -/
theorem Handler.leaveAll_probes (server : Server) (steps : List Step) :
    ∃ h, (initial server).leaveAll steps = .ok h ∧
      (∀ key, ∃ pos, h.toStore.Probes key pos) ∧
      (∃ st, h.normalizeTable = .ok st ∧ ∀ key, ∃ pos, st.Probes key pos) ∧
      (∀ key value, ∃ h', h.putEntry key value = .ok h') ∧
      ∀ entry invalidated, ∃ merged, h.propagate entry invalidated = .ok merged := by
  obtain ⟨h, items, hrun, hr, -⟩ :=
    leaveAll_spec (h := initial server) Represents.initial rfl steps
  obtain ⟨st, hnormal, hrep, -⟩ := hr.normalize
  refine ⟨h, hrun, hr.probes, ⟨st, hnormal, hrep.probes⟩, fun key value => ?_,
    fun entry invalidated => ?_⟩
  · obtain ⟨st', hput, -⟩ := putEntry_spec hr key value
    exact ⟨_, hput⟩
  · obtain ⟨st', hmerge, -⟩ := hr.propagate entry invalidated
    exact ⟨_, hmerge⟩

/-! ## Rehashing -/

/-- The entry that `getPosition` finds for a key. -/
def Store.lookup (st : Store) (key : Bytes) : Except Fault (Option Item) := do
  let pos ← st.getPosition key
  return if (st.slot pos).state = .alive then some (st.slot pos).item else none

theorem Arranged.lookup_eq {st : Store} {l : List Int} (h : Arranged st l) (key : Bytes) :
    st.lookup key = .ok (Recency.lookup Item.key key (itemsAt st.hashTable l)) := by
  obtain ⟨pos, hpos, ⟨halive, hlook, -⟩ | ⟨hempty, hlook, -⟩⟩ := h.position key
  · rw [hlook]
    simp only [Store.lookup, hpos, bind, Except.bind, pure, Except.pure, if_pos halive]
  · have hfree : ¬ (st.slot pos).state = .alive := by
      rw [hempty]
      simp
    rw [hlook]
    simp only [Store.lookup, hpos, bind, Except.bind, pure, Except.pure, if_neg hfree]

/-- From every state with the representation invariant and into every table with
room for its entries and one more slot, `rehash` returns, keeps the invariant, the
list and what is found for every key, and drops the tombstones. -/
theorem rehash_preserves {st : Store} (h : RepInv st) (newSize : Nat)
    (hsize : st.numEntries < newSize) :
    ∃ st', st.rehash newSize = .ok st' ∧ st'.hashTable.size = newSize ∧ RepInv st' ∧
      (∀ i, (st'.slot i).state ≠ .dead) ∧ st'.items = st.items ∧
      st'.numEntries = st.numEntries ∧ st'.numDeadEntries = 0 ∧
      ∀ key, ∃ found, st.lookup key = .ok found ∧ st'.lookup key = .ok found := by
  have harr := h.arranged
  obtain ⟨st', l', hrun, harr', hitems, hsize', -, -, hentries, hdead⟩ := harr.rehash hsize
  have hnoDead : ∀ i, (st'.slot i).state ≠ .dead := by
    intro i hi
    have hused : (st'.slot i).state ≠ .empty := by
      rw [hi]
      simp
    have hin := inside_of_ne_empty hused
    have hmem : i.toNat ∈ st'.slotsIn .dead := by
      rw [mem_slotsIn, Int.toNat_of_nonneg hin.1]
      exact ⟨by omega, hi⟩
    have hcard := Finset.card_pos.mpr ⟨_, hmem⟩
    have := harr'.dead
    omega
  refine ⟨st', hrun, hsize', harr'.repInv, hnoDead, ?_, hentries, hdead, fun key => ?_⟩
  · unfold Store.items
    rw [harr'.table.order_eq, hitems]
  · refine ⟨_, harr.lookup_eq key, ?_⟩
    rw [harr'.lookup_eq, hitems]

def buriedPut (s : Server) : List Step :=
  let view : GetServersReply := { view := View.single [s], viewNum := 1 }
  [⟨view, .serve (.put ⟨[1], [7], 1⟩)⟩, ⟨view, .serve (.put ⟨[2], [8], 1⟩)⟩,
    ⟨view, .serve (.reply s { status := .ok, invalidatedEntries := [[1]] })⟩]

theorem rehash_preserves_buriedPut :
    ∃ st : Store, RepInv st ∧ st.numEntries = 1 ∧ st.numDeadEntries = 1 ∧
      ∃ st', st.rehash 3 = .ok st' ∧ st'.hashTable.size = 3 ∧ RepInv st' ∧
        st'.items = st.items ∧ st'.numDeadEntries = 0 := by
  obtain ⟨h, items, hrun, ⟨l, hl, -⟩, -⟩ :=
    Handler.leaveAll_spec (h := Handler.initial ⟨[1], 1⟩) Represents.initial rfl
      (buriedPut ⟨[1], 1⟩)
  have hcounts : (((Handler.initial ⟨[1], 1⟩).leaveAll (buriedPut ⟨[1], 1⟩)).toOption.map
      fun h => (h.numEntries, h.numDeadEntries)) = some (1, 1) := by
    decide +kernel
  rw [hrun] at hcounts
  obtain ⟨hentries, hdead⟩ := Prod.mk.inj (Option.some.inj hcounts)
  have hinv := hl.arranged.repInv
  obtain ⟨st', hrehash, hsize, hinv', -, hitems, -, hdead', -⟩ :=
    rehash_preserves hinv 3 (by rw [hentries]; decide)
  exact ⟨h.toStore, hinv, hentries, hdead, st', hrehash, hsize, hinv', hitems, hdead'⟩

end RobustCache
