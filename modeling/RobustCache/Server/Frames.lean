import RobustCache.Server.Accounting
import RobustCache.Server.Session

/-! # The size of an exchange

A message of the anti-entropy thread carries every entry that is noted for the
peer. Nothing in the loop that builds it looks at its size, so that it grows with
the store up to the memory limit, while the peer closes the connection on a frame
above a quarter of that.
-/

namespace RobustCache

open Lib

/-- The key and value bytes of a message; its encoding is at least as long. -/
def AntiEntropyArgs.size (args : AntiEntropyArgs) : Int :=
  (args.entries.map fun e => (e.key.length + e.value.length : Int)).sum

/-- The bytes alone do not exceed a frame. -/
def AntiEntropyArgs.Deliverable (args : AntiEntropyArgs) : Prop := args.size ≤ maxFrameSize

/-- The key and value bytes of the `ALIVE` slots that are noted for a peer. -/
def Handler.notedSize (h : Handler) (peer : Server) : Int :=
  ∑ i ∈ (h.slotsIn .alive).filter fun i : Nat => (h.slot i).key ∈ noted h.diffs peer,
    ((h.slot i).key.length + (h.slot i).value.length : Int)

/-! ## What a message carries -/

theorem totalSize_filter (p : Item → Bool) (items : List Item) :
    totalSize (items.filter p) = (items.map fun it => if p it then it.size else 0).sum := by
  induction items with
  | nil => rfl
  | cons it rest ih =>
      rw [List.filter_cons, List.map_cons, List.sum_cons, ← ih]
      split
      · exact totalSize_cons it _
      · omega

/-- The entries sent for a set of keys are the items under these keys, in the
order of the set. -/
theorem Lru.entriesFor_perm {items : List Item} (hdis : Recency.Distinct Item.key items)
    {keys : List Bytes} (hkeys : keys.Nodup) :
    ((entriesFor keys items).map Entry.item).Perm (items.filter fun it => it.key ∈ keys) := by
  have hnodup : ((entriesFor keys items).map Entry.item).Nodup := by
    apply List.Nodup.of_map Item.key
    rw [List.map_map]
    exact nodup_entriesFor hdis hkeys
  have hnodup' : (items.filter fun it => it.key ∈ keys).Nodup :=
    (List.Nodup.of_map Item.key hdis).filter _
  refine (List.perm_ext_iff_of_nodup hnodup hnodup').mpr fun it => ?_
  rw [List.mem_map, List.mem_filter]
  constructor
  · rintro ⟨e, he, rfl⟩
    obtain ⟨found, hfound, hkey, rfl⟩ := (mem_entriesFor hdis).mp he
    rw [Item.item_entry]
    exact ⟨hfound, decide_eq_true hkey⟩
  · rintro ⟨hit, hkey⟩
    exact ⟨it.entry, (mem_entriesFor hdis).mpr ⟨it, hit, of_decide_eq_true hkey, rfl⟩,
      it.item_entry⟩

theorem Lru.put_new {fits : List Item → Prop} [DecidablePred fits] {items : List Item}
    (hfits : fits items) (server : Server) {key : Bytes} (hnew : lookup key items = none)
    (value : Bytes) : put fits server key value items = ⟨key, value, [(server, 1)]⟩ :: items := by
  simp only [put, Recency.shrink_of_fits hfits, versionOf, hnew]
  exact Recency.promote_of_lookup_none hnew

namespace Handler

variable {h : Handler} {items : List Item} {peer : Server} {args : AntiEntropyArgs}

theorem notedSize_eq (hr : Represents h.toStore items) (peer : Server) :
    h.notedSize peer = totalSize (items.filter fun it => it.key ∈ noted h.diffs peer) := by
  unfold notedSize
  rw [totalSize_filter, ← hr.sum_alive, Finset.sum_filter]
  apply Finset.sum_congr rfl
  intro i _
  simp only [decide_eq_true_eq]
  rfl

/-- A message has the bytes of the slots that are noted for its peer. -/
theorem size_snapshot (hr : Represents h.toStore items)
    (hsnap : h.snapshot = .ok (some (peer, args))) : args.size = h.notedSize peer := by
  rw [snapshot_spec hr] at hsnap
  obtain ⟨⟨p, keys⟩, hnext, hsent⟩ := Option.map_eq_some_iff.mp (Except.ok.inj hsnap)
  cases hsent
  have hperm := Lru.entriesFor_perm hr.distinct (nodup_noted h.diffs p)
  rw [notedSize_eq hr, ← noted_nextPeer hnext]
  unfold totalSize AntiEntropyArgs.size
  rw [← (hperm.map Item.size).sum_eq, List.map_map]
  rfl

theorem notedSize_le (hr : Represents h.toStore items) (peer : Server) :
    h.notedSize peer ≤ totalSize items := by
  rw [notedSize_eq hr]
  exact totalSize_sublist List.filter_sublist

/-! ## Two puts of one value -/

theorem leave_put {s : Server} (hr : Represents h.toStore items) (hserver : h.server = s)
    (hne : peer ≠ s) (key value : Bytes) (viewNum : Int) :
    ∃ h', h.leave ⟨{ view := View.single [s, peer], viewNum },
        .serve (.put ⟨key, value, viewNum⟩)⟩ = .ok h' ∧
      Represents h'.toStore (Lru.put FitsCounter s key value items) ∧ h'.server = s ∧
      h'.currentView.view = View.single [s, peer] ∧ h'.diffs = insertDiff h.diffs peer key := by
  let h₀ : Handler := { h with currentView := { view := View.single [s, peer], viewNum } }
  have hr₀ : Represents h₀.toStore items := hr
  have hring : (View.single [s, peer]).NonEmpty := rfl
  have hget : getServer (irHash key) (View.single [s, peer]) = .ok [s, peer] := by
    rw [getServer_eq_group hring, group_single]
  obtain ⟨st, hput, hrep⟩ := putEntry_spec hr₀ key value
  refine ⟨noteDiffs { h₀ with toStore := st } key [s, peer], ?_, ?_, hserver, rfl, ?_⟩
  · simp only [h₀] at hput
    simp only [leave, hput, bind, Except.bind, hget]
    rfl
  · rw [← hserver]
    exact hrep
  · simp [noteDiffs, h₀, hserver, hne]

theorem exists_length (n : Nat) : ∃ value : Bytes, value.length = n :=
  ⟨List.replicate n 0, List.length_replicate⟩

def valuePuts (s peer : Server) (value : Bytes) : List Step :=
  let view : GetServersReply := { view := View.single [s, peer], viewNum := 1 }
  [⟨view, .serve (.put ⟨[1], value, 1⟩)⟩, ⟨view, .serve (.put ⟨[2], value, 1⟩)⟩]

theorem valuePuts_within (s peer : Server) (value : Bytes) (h : value.length < 268435456) :
    ∀ step ∈ valuePuts s peer value, step.Within maxFrameSize := by
  simp only [valuePuts, List.mem_cons, List.not_mem_nil, or_false, forall_eq_or_imp, forall_eq,
    Step.Within, Request.Within, List.length_singleton, maxFrameSize]
  omega

theorem leaveAll_valuePuts {s : Server} (hne : peer ≠ s) (value : Bytes)
    (hfits : FitsCounter [⟨[1], value, [(s, 1)]⟩]) :
    ∃ h, (initial s).leaveAll (valuePuts s peer value) = .ok h ∧
      Represents h.toStore [⟨[2], value, [(s, 1)]⟩, ⟨[1], value, [(s, 1)]⟩] ∧
      h.currentView.view = View.single [s, peer] ∧
      h.diffs = insertDiff (insertDiff OrderedMap.empty peer [1]) peer [2] := by
  have hserver : (initial s).server = s := rfl
  obtain ⟨h₁, hrun₁, hr₁, hserver₁, -, hdiffs₁⟩ :=
    leave_put Represents.initial hserver hne [1] value 1
  rw [Lru.put_new fitsCounter_nil s rfl] at hr₁
  obtain ⟨h₂, hrun₂, hr₂, -, hview, hdiffs₂⟩ := leave_put hr₁ hserver₁ hne [2] value 1
  rw [Lru.put_new hfits s rfl] at hr₂
  refine ⟨h₂, ?_, hr₂, hview, ?_⟩
  · exact (leaveAll_cons hrun₁ _).trans (leaveAll_cons hrun₂ _)
  · rw [hdiffs₂, hdiffs₁]
    rfl

theorem snapshot_valuePuts (value : Bytes) (hfits : value.length < 1073741824) :
    ∃ h args, (initial ⟨[1], 1⟩).leaveAll (valuePuts ⟨[1], 1⟩ ⟨[2], 2⟩ value) = .ok h ∧
      h.snapshot = .ok (some (⟨[2], 2⟩, args)) ∧ args.size = 2 * (1 + value.length) ∧
      h.currentView.view = View.single [⟨[1], 1⟩, ⟨[2], 2⟩] := by
  have hne : (⟨[2], 2⟩ : Server) ≠ ⟨[1], 1⟩ := by decide
  have htotal : totalSize [⟨[1], value, [(⟨[1], 1⟩, 1)]⟩] = 1 + value.length := by
    simp [totalSize, Item.size]
  have hfirst : FitsCounter [⟨[1], value, [(⟨[1], 1⟩, 1)]⟩] := by
    unfold FitsCounter memoryLimit
    rw [htotal, toInt32_of_range (by omega) (by omega)]
    omega
  obtain ⟨h, hrun, hr, hview, hdiffs⟩ := leaveAll_valuePuts hne value hfirst
  have hnext : h.nextPeer.map (fun e => (e.1, e.2.keys)) = some (⟨[2], 2⟩, [[1], [2]]) := by
    unfold nextPeer
    rw [hdiffs]
    decide
  obtain ⟨⟨peer, keys⟩, hpeer, hkeys⟩ := Option.map_eq_some_iff.mp hnext
  obtain ⟨rfl, hkeys⟩ := Prod.mk.inj hkeys
  have hsnap := snapshot_spec hr
  rw [hpeer, Option.map_some] at hsnap
  have hnoted : noted h.diffs ⟨[2], 2⟩ = [[1], [2]] := (noted_nextPeer hpeer).trans hkeys
  refine ⟨h, _, hrun, hsnap, ?_, hview⟩
  rw [size_snapshot hr hsnap, notedSize_eq hr, hnoted, totalSize_filter]
  simp [Item.size]
  omega

/-! ## Delivery -/

/-- In every run with entries that fit a frame, the message that is built next has
the bytes of the slots noted for its peer. It is deliverable exactly when these
fit a frame, which is so while the used memory does. -/
theorem snapshot_deliverable_iff (server : Server) (steps : List Step)
    (hsize : ∀ s ∈ steps, s.Within maxFrameSize) :
    ∃ h sent, (initial server).leaveAll steps = .ok h ∧ h.snapshot = .ok sent ∧
      h.getUsedMemory ≤ memoryLimit + maxFrameSize ∧
      ∀ peer args, sent = some (peer, args) → args.size = h.notedSize peer ∧
        args.size ≤ h.getUsedMemory ∧ (args.Deliverable ↔ h.notedSize peer ≤ maxFrameSize) ∧
        (h.getUsedMemory ≤ maxFrameSize → args.Deliverable) := by
  have hB : memoryLimit + maxFrameSize < 2147483648 := by decide
  have hb : Lru.Within maxFrameSize [] := by
    unfold Lru.Within
    decide
  obtain ⟨h, items, hrun, hr, hb'⟩ :=
    leaveAll_within (h := initial server) hB Represents.initial hb hsize
  have hused : h.getUsedMemory = totalSize items := hr.counter_eq hB hb'
  refine ⟨h, _, hrun, snapshot_spec hr, hused.trans_le hb', fun peer args hsent => ?_⟩
  have hsnap : h.snapshot = .ok (some (peer, args)) := (snapshot_spec hr).trans (by rw [hsent])
  have heq := size_snapshot hr hsnap
  have hle : args.size ≤ h.getUsedMemory := by
    rw [heq, hused]
    exact notedSize_le hr peer
  refine ⟨heq, hle, ?_, fun hfit => hle.trans hfit⟩
  rw [AntiEntropyArgs.Deliverable, heq]

theorem snapshot_deliverable_iff_valuePuts :
    (∀ s ∈ valuePuts ⟨[1], 1⟩ ⟨[2], 2⟩ [7], s.Within maxFrameSize) ∧
      ∃ h peer args, (initial ⟨[1], 1⟩).leaveAll (valuePuts ⟨[1], 1⟩ ⟨[2], 2⟩ [7]) = .ok h ∧
        h.snapshot = .ok (some (peer, args)) ∧ args.size = h.notedSize peer ∧
        args.Deliverable := by
  have hsize := valuePuts_within ⟨[1], 1⟩ ⟨[2], 2⟩ [7] (by decide)
  refine ⟨hsize, ?_⟩
  obtain ⟨h, args, hrun, hsnap, hbytes, -⟩ := snapshot_valuePuts [7] (by decide)
  obtain ⟨h', sent, hrun', hsent, -, hall⟩ := snapshot_deliverable_iff ⟨[1], 1⟩ _ hsize
  obtain rfl := Except.ok.inj (hrun.symm.trans hrun')
  obtain ⟨heq, -, hiff, -⟩ := hall _ args (Except.ok.inj (hsent.symm.trans hsnap))
  refine ⟨h, _, args, hrun, hsnap, heq, hiff.mpr ?_⟩
  rw [← heq, hbytes]
  decide

/-- Two values of 160 MiB, each put in a frame of its own: the message for the
peer does not fit a frame, and the failed call leaves it as it is. -/
theorem snapshot_exceeds_frame :
    ∃ steps h peer args, (∀ s ∈ steps, s.Within maxFrameSize) ∧
      (initial ⟨[1], 1⟩).leaveAll steps = .ok h ∧ h.snapshot = .ok (some (peer, args)) ∧
      (∀ key, peer ∈ group key h.currentView.view) ∧ maxFrameSize < args.size ∧
      h.replyLocked peer { status := .wrongServer } = .ok h := by
  -- The value stays a variable, so that nothing evaluates it.
  obtain ⟨value, hvalue⟩ := exists_length 167772160
  have hsize := valuePuts_within ⟨[1], 1⟩ ⟨[2], 2⟩ value (by omega)
  obtain ⟨h, args, hrun, hsnap, hbytes, hview⟩ := snapshot_valuePuts value (by omega)
  refine ⟨_, h, _, args, hsize, hrun, hsnap, fun key => ?_, ?_, rfl⟩
  · rw [hview, group_single]
    decide
  · unfold maxFrameSize
    omega

end Handler

end RobustCache
