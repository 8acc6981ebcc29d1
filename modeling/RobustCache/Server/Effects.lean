import RobustCache.Server.Handler
import RobustCache.Server.Lru

/-! # What the handler's sections do to the abstract store

One specification for each section: from a store that represents a list it
returns, and the store it leaves represents the list that the abstract operation
computes.
-/

namespace RobustCache

open Lib

namespace Store

variable {st : Store} {pos : Int}

theorem slot_setValue (hpos : (st.slot pos).state = .alive) (value : Bytes) :
    (st.setValue pos value).slot pos = { st.slot pos with value } := by
  have hin := inside_of_alive hpos
  show recordAt (setRecord st.hashTable pos _) pos = _
  rw [recordAt_setRecord hin.1 hin.2, if_pos rfl]
  rfl

theorem slot_setVersion (hpos : (st.slot pos).state = .alive) (version : Version) :
    (st.setVersion pos version).slot pos = { st.slot pos with version } := by
  have hin := inside_of_alive hpos
  show recordAt (setRecord st.hashTable pos _) pos = _
  rw [recordAt_setRecord hin.1 hin.2, if_pos rfl]

end Store

namespace Represents

variable {st : Store} {items : List Item}

theorem tally (h : Represents st items) (f : GetStatisticsReply → GetStatisticsReply) :
    Represents (st.tally f) items := h.record _

theorem position (h : Represents st items) (key : Bytes) :
    ∃ pos, st.getPosition key = .ok pos ∧
      (((st.slot pos).state = .alive ∧ Lru.lookup key items = some (st.slot pos).item ∧
          (st.slot pos).key = key) ∨
        ((st.slot pos).state = .empty ∧ Lru.lookup key items = none ∧
          Layout.Vacant st key pos)) := by
  rcases h with ⟨l, hl, rfl⟩
  exact hl.arranged.position key

/-- Writing a new value and moving the record to the front, the version being
written before or after. -/
theorem replace (h : Represents st items) {pos : Int} (hpos : (st.slot pos).state = .alive)
    (value : Bytes) (version : Version) (f : GetStatisticsReply → GetStatisticsReply) :
    (∃ st', (((st.setValue pos value).setVersion pos version).tally f).accessEntry pos = .ok st' ∧
      Represents st' (Recency.promote Item.key ⟨(st.slot pos).key, value, version⟩ items) ∧
      st'.statistics = f st.statistics) ∧
    ∃ st', (st.setValue pos value).accessEntry pos = .ok st' ∧
      Represents (st'.setVersion pos version)
        (Recency.promote Item.key ⟨(st.slot pos).key, value, version⟩ items) ∧
      st'.statistics = st.statistics := by
  have h₁ := h.setValue hpos value
  have hslot₁ := Store.slot_setValue hpos value
  have hpos₁ : ((st.setValue pos value).slot pos).state = .alive := by rw [hslot₁]; exact hpos
  constructor
  · have h₂ := (h₁.setVersion hpos₁ version).tally f
    have hslot₂ : (((st.setValue pos value).setVersion pos version).tally f).slot pos =
        { st.slot pos with value, version } := by
      show ((st.setValue pos value).setVersion pos version).slot pos = _
      rw [Store.slot_setVersion hpos₁, hslot₁]
    rcases h₂.access (by rw [hslot₂]; exact hpos) with ⟨st', h', hrep, hstat, -⟩
    refine ⟨st', h', ?_, hstat⟩
    rw [hslot₂, hslot₁] at hrep
    change Represents st' (Recency.promote Item.key ⟨(st.slot pos).key, value, version⟩
      (Recency.rewrite Item.key (st.slot pos).key _
        (Recency.rewrite Item.key (st.slot pos).key _ items))) at hrep
    rwa [Recency.promote_rewrite (by rfl) (by intros; rfl),
      Recency.promote_rewrite (by rfl) (by intros; rfl)] at hrep
  · rcases h₁.access hpos₁ with ⟨st', h', hrep, hstat, hcontent⟩
    have hpos' : (st'.slot pos).state = .alive := by
      have := congrArg Record.state hcontent
      exact this.trans hpos₁
    have hitem : (st'.slot pos).item = ⟨(st.slot pos).key, value, (st.slot pos).version⟩ := by
      have := congrArg Record.item hcontent
      rw [hslot₁] at this
      exact this
    have hkey : (st'.slot pos).key = (st.slot pos).key := congrArg Item.key hitem
    refine ⟨st', h', ?_, hstat⟩
    have hfinal := hrep.setVersion hpos' version
    have hvalue : (st'.slot pos).value = value := congrArg Item.value hitem
    rw [hkey, hvalue, hslot₁] at hfinal
    change Represents _ (Recency.rewrite Item.key (st.slot pos).key _
      (Recency.promote Item.key ⟨(st.slot pos).key, value, (st.slot pos).version⟩
        (Recency.rewrite Item.key (st.slot pos).key _ items))) at hfinal
    rwa [Recency.promote_rewrite (by rfl) (by intros; rfl),
      Recency.rewrite_promote (by rfl) (by rfl)] at hfinal

theorem propagate (h : Represents st items) (entry : Entry) (invalidated : List Bytes) :
    ∃ st', st.propagate entry invalidated =
        .ok (st', invalidated ++ (Lru.propagate FitsCounter entry items).2) ∧
      Represents st' (Lru.propagate FitsCounter entry items).1 := by
  rcases h.normalize with ⟨st₁, h₁, hrep, hnormal, -⟩
  rcases hrep.position entry.key with ⟨pos, hpos, ⟨halive, hlook, hkey⟩ | ⟨hempty, hlook, hvac⟩⟩
  · simp only [Store.propagate, Lru.propagate, Lru.merge, h₁, hpos, hlook, if_pos halive, bind,
      Except.bind, pure, Except.pure]
    have hversion : (st₁.slot pos).item.version = (st₁.slot pos).version := rfl
    have hvalue : (st₁.slot pos).item.value = (st₁.slot pos).value := rfl
    rw [hversion, hvalue]
    by_cases hskip : atMost (ofEntries entry.version) (st₁.slot pos).version = true
    · simp only [if_pos hskip, List.append_nil]
      exact ⟨st₁, rfl, hrep⟩
    by_cases hnewer : atMost (st₁.slot pos).version (ofEntries entry.version) = true
    · simp only [if_neg hskip, if_pos hnewer, List.append_nil]
      rcases (hrep.replace halive entry.value (ofEntries entry.version) id).2 with
        ⟨st₂, h₂, hrep₂, -⟩
      rw [hkey] at hrep₂
      exact ⟨_, by rw [h₂], hrep₂⟩
    by_cases hsame : entry.value = (st₁.slot pos).value
    · simp only [if_neg hskip, if_neg hnewer, if_pos hsame, List.append_nil]
      refine ⟨_, rfl, ?_⟩
      rw [← hkey]
      exact hrep.setVersion halive _
    · simp only [if_neg hskip, if_neg hnewer, if_neg hsame]
      rcases hrep.remove halive with ⟨st₂, h₂, hrep₂, -, -⟩
      rw [hkey] at hrep₂ ⊢
      exact ⟨st₂, by rw [h₂], hrep₂⟩
  · have hdead : ¬ (st₁.slot pos).state = .alive := by
      rw [hempty]
      simp
    simp only [Store.propagate, Lru.propagate, Lru.merge, h₁, hpos, hlook, if_neg hdead, bind,
      Except.bind, pure, Except.pure, List.append_nil]
    rcases hrep.add hnormal hvac hlook entry.value (ofEntries entry.version) with
      ⟨st₂, h₂, hrep₂, -⟩
    exact ⟨st₂, by rw [h₂], hrep₂⟩

theorem propagateAll (h : Represents st items) (entries : List Entry) (invalidated : List Bytes) :
    ∃ st', st.propagateAll entries invalidated =
        .ok (st', invalidated ++ (Lru.propagateAll FitsCounter entries items).2) ∧
      Represents st' (Lru.propagateAll FitsCounter entries items).1 := by
  induction entries generalizing st items invalidated with
  | nil => exact ⟨st, by simp [Store.propagateAll, Lru.propagateAll], h⟩
  | cons entry rest ih =>
      rcases h.propagate entry invalidated with ⟨st₁, h₁, hrep₁⟩
      rcases ih hrep₁ (invalidated ++ (Lru.propagate FitsCounter entry items).2) with
        ⟨st₂, h₂, hrep₂⟩
      refine ⟨st₂, ?_, hrep₂⟩
      simp only [Store.propagateAll, h₁, bind, Except.bind, h₂, Lru.propagateAll,
        List.append_assoc]

theorem invalidate (h : Represents st items) (key : Bytes) :
    ∃ st', st.invalidate key = .ok st' ∧ Represents st' (Lru.invalidate key items) := by
  rcases h.position key with ⟨pos, hpos, ⟨halive, -, hkey⟩ | ⟨hempty, hlook, -⟩⟩
  · rcases h.remove halive with ⟨st', h', hrep, -, -⟩
    rw [hkey] at hrep
    refine ⟨st', ?_, hrep⟩
    simp only [Store.invalidate, hpos, bind, Except.bind, if_pos halive, h']
  · have hdead : ¬ (st.slot pos).state = .alive := by
      rw [hempty]
      simp
    refine ⟨st, ?_, ?_⟩
    · simp only [Store.invalidate, hpos, bind, Except.bind, if_neg hdead]
      rfl
    · rw [Lru.invalidate, Recency.remove_of_not_mem (Recency.lookup_none.mp hlook)]
      exact h

theorem invalidateAll (h : Represents st items) (keys : List Bytes) :
    ∃ st', st.invalidateAll keys = .ok st' ∧ Represents st' (Lru.invalidateAll keys items) := by
  induction keys generalizing st items with
  | nil => exact ⟨st, rfl, h⟩
  | cons key rest ih =>
      rcases h.invalidate key with ⟨st₁, h₁, hrep₁⟩
      rcases ih hrep₁ with ⟨st₂, h₂, hrep₂⟩
      refine ⟨st₂, ?_, hrep₂⟩
      simp only [Store.invalidateAll, h₁, bind, Except.bind, h₂]

theorem buildEntries (h : Represents st items) (keys : List Bytes) :
    st.buildEntries keys = .ok (Lru.entriesFor keys items) := by
  induction keys with
  | nil => rfl
  | cons key rest ih =>
      rcases h.position key with ⟨pos, hpos, ⟨halive, hlook, -⟩ | ⟨hempty, hlook, -⟩⟩
      · simp only [Store.buildEntries, hpos, ih, bind, Except.bind, if_pos halive,
          Lru.entriesFor, List.filterMap_cons, hlook]
        rfl
      · have hdead : ¬ (st.slot pos).state = .alive := by
          rw [hempty]
          simp
        simp only [Store.buildEntries, hpos, ih, bind, Except.bind, if_neg hdead,
          Lru.entriesFor, List.filterMap_cons, hlook]
        rfl

end Represents

namespace Handler

variable {h : Handler} {items : List Item}

/-! ## Requests -/

theorem putEntry_spec (hr : Represents h.toStore items) (key value : Bytes) :
    ∃ st, h.putEntry key value = .ok { h with toStore := st } ∧
      Represents st (Lru.put FitsCounter h.server key value items) := by
  rcases hr.normalize with ⟨st₁, h₁, hrep, hnormal, -⟩
  rcases hrep.position key with ⟨pos, hpos, ⟨halive, hlook, hkey⟩ | ⟨hempty, hlook, hvac⟩⟩
  · have hversion : ((st₁.setValue pos value).slot pos).version = (st₁.slot pos).version := by
      rw [Store.slot_setValue halive]
    rcases (hrep.replace halive value (incrementVersion h.server (st₁.slot pos).version)
      fun s => { s with numUpdates := s.numUpdates + 1 }).1 with ⟨st₂, h₂, hrep₂, -⟩
    refine ⟨st₂, ?_, ?_⟩
    · simp only [putEntry, h₁, hpos, bind, Except.bind, if_pos halive, hversion, h₂]
      rfl
    · rw [hkey] at hrep₂
      simp only [Lru.put, Lru.versionOf, hlook]
      exact hrep₂
  · have hdead : ¬ (st₁.slot pos).state = .alive := by
      rw [hempty]
      simp
    let st₂ := st₁.tally fun s => { s with numInsertions := s.numInsertions + 1 }
    have hrep₂ : Represents st₂ _ := hrep.tally _
    have hnormal₂ : st₂.Normal := hnormal
    have hvac₂ : Layout.Vacant st₂ key pos := ⟨hvac.nonneg, hvac.lt, hvac.empty, hvac.reaches⟩
    rcases hrep₂.add hnormal₂ hvac₂ hlook value [(h.server, 1)] with ⟨st₃, h₃, hrep₃, -⟩
    refine ⟨st₃, ?_, ?_⟩
    · simp only [putEntry, h₁, hpos, bind, Except.bind, if_neg hdead]
      show (do
        let st ← st₂.addEntry pos key value [(h.server, 1)]
        pure { h with toStore := st }) = _
      rw [h₃]
      rfl
    · simp only [Lru.put, Lru.versionOf, hlook]
      rw [Recency.promote_of_lookup_none (by exact hlook)]
      exact hrep₃

theorem putLocked_spec (hr : Represents h.toStore items) (args : PutArgs)
    (hring : h.currentView.view.NonEmpty) :
    ∃ st, h.putLocked args =
        .ok ({ h with toStore := st }.noteDiffs args.key (group args.key h.currentView.view),
          { status := .ok }) ∧
      Represents st (Lru.put FitsCounter h.server args.key args.value items) := by
  rcases putEntry_spec hr args.key args.value with ⟨st, hput, hrep⟩
  refine ⟨st, ?_, hrep⟩
  simp only [putLocked, hput, bind, Except.bind, getServer_eq_group hring]
  rfl

theorem getLocked_spec (hr : Represents h.toStore items) (args : GetArgs) :
    ∃ st, h.getLocked args = .ok ({ h with toStore := st }, (Lru.get args.key items).2) ∧
      Represents st (Lru.get args.key items).1 := by
  rcases hr.position args.key with ⟨pos, hpos, ⟨halive, hlook, -⟩ | ⟨hempty, hlook, -⟩⟩
  · let st₁ := h.toStore.tally fun s => { s with numGoodGets := s.numGoodGets + 1 }
    have hrep₁ : Represents st₁ items := hr.tally _
    have halive₁ : (st₁.slot pos).state = .alive := halive
    rcases hrep₁.access halive₁ with ⟨st₂, h₂, hrep₂, -, -⟩
    simp only [Lru.get, hlook]
    refine ⟨st₂, ?_, hrep₂⟩
    simp only [getLocked, hpos, bind, Except.bind, if_pos halive]
    show (do
      let st ← st₁.accessEntry pos
      pure ({ h with toStore := st },
        ({ status := .ok, value := (h.slot pos).value } : GetReply))) = _
    rw [h₂]
    rfl
  · have hdead : ¬ (h.slot pos).state = .alive := by
      rw [hempty]
      simp
    simp only [Lru.get, hlook]
    refine ⟨h.toStore.tally fun s => { s with numFailedGets := s.numFailedGets + 1 }, ?_,
      hr.tally _⟩
    simp only [getLocked, hpos, bind, Except.bind, if_neg hdead]
    rfl

theorem antiEntropyLocked_spec (hr : Represents h.toStore items) (query : AntiEntropyArgs) :
    ∃ st, h.antiEntropyLocked query = .ok ({ h with toStore := st },
        { status := .ok
          invalidatedEntries := (Lru.propagateAll FitsCounter query.entries items).2 }) ∧
      Represents st (Lru.propagateAll FitsCounter query.entries items).1 := by
  rcases hr.propagateAll query.entries [] with ⟨st, h', hrep⟩
  refine ⟨st, ?_, hrep⟩
  simp only [antiEntropyLocked, h', bind, Except.bind, List.nil_append]
  rfl

/-! ## Anti-entropy -/

/-- The peer chosen for the next exchange, with the keys noted for it. -/
def nextPeer (h : Handler) : Option (Server × OrderedSet Bytes) :=
  h.diffs.entries.find? fun e => !e.2.isEmpty

theorem snapshot_spec (hr : Represents h.toStore items) :
    h.snapshot = .ok (h.nextPeer.map fun e =>
      (e.1, { entries := Lru.entriesFor e.2.keys items, viewNum := h.currentView.viewNum })) := by
  unfold snapshot nextPeer
  cases hf : h.diffs.entries.find? fun e => !e.2.isEmpty with
  | none => rfl
  | some e =>
      simp only [hr.buildEntries, bind, Except.bind]
      rfl

theorem replyLocked_spec (hr : Represents h.toStore items) (peer : Server)
    {reply : AntiEntropyReply} (hok : reply.status = .ok) :
    ∃ st, h.replyLocked peer reply =
        .ok { h with toStore := st, diffs := h.diffs.erase peer } ∧
      Represents st (Lru.invalidateAll reply.invalidatedEntries items) := by
  rcases hr.invalidateAll reply.invalidatedEntries with ⟨st, h', hrep⟩
  refine ⟨st, ?_, hrep⟩
  rw [replyLocked, if_pos hok]
  show (do
    let st ← h.toStore.invalidateAll reply.invalidatedEntries
    pure { { h with diffs := h.diffs.erase peer } with toStore := st }) = _
  rw [h']
  rfl

end Handler

end RobustCache
