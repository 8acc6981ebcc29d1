import RobustCache.Cluster.FixedView
import RobustCache.Lib.Trace

/-! # What a put in the middle of an exchange comes to

The anti-entropy thread holds no mutex while it waits for its peer, so clients may
put and other servers may send their entries in the meantime. When the reply comes,
the thread forgets every key noted for the peer and removes the keys that the peer
has invalidated, whatever has become of them.
-/

namespace RobustCache

open Lib

namespace Cluster

/-- The keys of the query, if the step is the locked section of `antiEntropy` at `s`. -/
def mergedAt (s : Server) (c : Cluster) : Action → Option (List Bytes)
  | .merge t =>
      if t = s then
        match c.tasks s with
        | some (.merging _ query) => some (query.entries.map Entry.key)
        | _ => none
      else none
  | _ => none

/-- The view is `v`, and `s` does not get to its reply. -/
def inWindow (v : GetServersReply) (s : Server) (a : Action) : Bool :=
  a.inView v && match a with
    | .on t .finish => decide (t ≠ s)
    | _ => true

/-- A run under one view in which `s` has taken a snapshot and not yet processed the
reply; `merged` has the keys of each query that `s` has merged in between. -/
def Window (v : GetServersReply) (s : Server) (c : Cluster) (merged : List (List Bytes)) : Prop :=
  ∃ c₀ c₁, Reach step (fun _ a => a.inView v = true) (start v) c₀ ∧
    c₀.step (.on s .snapshot) = some c₁ ∧
    Trace step (fun _ a => inWindow v s a = true) (mergedAt s) c₁ c merged

/-! ## What is sent and what comes back -/

/-- An exchange offers keys of its peer, and the peer invalidates keys it was offered. -/
structure Offers (v : GetServersReply) (c : Cluster) : Prop where
  inView : InView v c
  offered : ∀ s e, c.exchanges s = some e → ∀ q ∈ e.args.entries, e.peer ∈ group q.key v.view
  invalidated : ∀ s e reply, c.exchanges s = some e → e.phase = .replied reply →
    ∀ key ∈ reply.invalidatedEntries, ∃ q ∈ e.args.entries, q.key = key

theorem Moves.offered {v : GetServersReply} {c c' : Cluster} {a : Action} (h : Moves c a c')
    (ho : Offers v c) {s : Server} {e : Exchange} (hex : c'.exchanges s = some e) {q : Entry}
    (hq : q ∈ e.args.entries) : e.peer ∈ group q.key v.view := by
  rcases (h.turns hex).offer with ⟨old, hold, hpeer, hargs, -, -⟩ | ⟨ha, hsnap⟩
  · rw [hpeer]
    rw [hargs] at hq
    exact ho.offered s old hold q hq
  · obtain ⟨it, -, hnoted, rfl⟩ := (mem_snapshot ho.inView.sound hsnap).mp hq
    exact ho.inView.noted s e.peer it.key hnoted

theorem Moves.invalidated {v : GetServersReply} {c c' : Cluster} {a : Action} (h : Moves c a c')
    (ho : Offers v c) {s : Server} {e : Exchange} {reply : AntiEntropyReply}
    (hex : c'.exchanges s = some e) (hphase : e.phase = .replied reply) {key : Bytes}
    (hkey : key ∈ reply.invalidatedEntries) : ∃ q ∈ e.args.entries, q.key = key := by
  cases h.turns hex with
  | same hold hno => exact ho.invalidated s _ reply hold hphase key hkey
  | noted hold hput =>
      have hmem := ho.invalidated s _ reply hold hphase key hkey
      exact hmem
  | begun ha hsnap => cases hphase
  | taken hold ha htask => cases hphase
  | refused hold ha =>
      cases hphase
      cases hkey
  | answered hold hwait ha htask hmerge hhandler =>
      cases hphase
      rw [(merge_items (ho.inView.sound.represents _) hmerge).2.2.2] at hkey
      rw [ho.inView.queries s _ _ hold hwait htask] at hkey
      exact Lru.mem_propagateAll_snd hkey

theorem Moves.offers {v : GetServersReply} {c c' : Cluster} {a : Action} (h : Moves c a c')
    (ho : Offers v c) (ha : a.inView v = true) : Offers v c' := by
  constructor
  · exact h.inView ho.inView ha
  · intro s e hex q hq
    exact h.offered ho hex hq
  · intro s e reply hex hphase key hkey
    exact h.invalidated ho hex hphase hkey

theorem start_offers (v : GetServersReply) : (start v).Offers v := by
  constructor
  · exact start_inView v
  · intro s e hex
    cases hex
  · intro s e reply hex
    cases hex

theorem reach_offers {v : GetServersReply} {c : Cluster}
    (h : Reach step (fun _ a => a.inView v = true) (start v) c) : Offers v c := by
  apply h.invariant (start_offers v)
  intro c a c' hc ha hstep
  exact (step_moves hstep).offers hc ha

/-! ## What becomes of a sent entry -/

/-- What `s` holds under a key that it has sent is what was sent, unless the key has
been put or merged here since. -/
def Unchanged (s : Server) (c : Cluster) (merged : List (List Bytes)) : Prop :=
  ∀ e, c.exchanges s = some e → ∀ q ∈ e.args.entries, ∀ it ∈ c.items s, it.key = q.key →
    it.key ∈ e.since ∨ it.key ∈ merged.flatten ∨ q = it.entry

theorem mergedAt_merge {c : Cluster} {s : Server} {sender : Option Server}
    {query : AntiEntropyArgs} (htask : c.tasks s = some (.merging sender query)) :
    mergedAt s c (.merge s) = some (query.entries.map Entry.key) := by
  simp [mergedAt, htask]

theorem Moves.unchanged {v : GetServersReply} {c c' : Cluster} {a : Action} (h : Moves c a c')
    (ho : Offers v c) {s : Server} {merged : List (List Bytes)} (hu : Unchanged s c merged) :
    Unchanged s c' (merged ++ (mergedAt s c a).toList) := by
  intro e hex q hq it hit hkey
  have hsource := h.source ho.inView.sound hit
  rw [List.flatten_append, List.mem_append]
  rcases (h.turns hex).offer with ⟨old, hold, -, hargs, hsince, hputs⟩ | ⟨rfl, hsnap⟩
  · rw [hargs] at hq
    cases hsource with
    | old hbefore hkept =>
        rcases hu old hold q hq it hbefore hkey with hmem | hmem | heq
        · exact .inl (hsince _ hmem)
        · exact .inr (.inl (.inl hmem))
        · exact .inr (.inr heq)
    | put hput hnew =>
        left
        rw [hnew]
        exact hputs _ hput
    | merged ha htask he hnew =>
        subst ha
        subst hnew
        rw [mergedAt_merge htask]
        exact .inr (.inl (.inr (by simpa using ⟨_, he, rfl⟩)))
    | blanked ha htask hvisit hmem hsame hvalue hnle hnge hnew =>
        subst ha
        subst hnew
        rw [mergedAt_merge htask]
        exact .inr (.inl (.inr (by simpa using ⟨_, Store.mem_of_visits hvisit, hsame.symm⟩)))
    | trimmed ha hbefore hown hnew => exact absurd ha (h.not_cleans ho.inView)
  · -- the snapshot has just been taken
    obtain ⟨sent, hsent, -, rfl⟩ := (mem_snapshot ho.inView.sound hsnap).mp hq
    right
    right
    have hbefore : it ∈ c.items s := by
      cases hsource with
      | old hbefore hkept => exact hbefore
      | put hput hnew =>
          obtain ⟨b, hb, hserve, -⟩ := hput
          cases hb
          cases hserve
      | merged ha htask he hnew => cases ha
      | blanked ha htask hvisit hmem hsame hvalue hnle hnge hnew => cases ha
      | trimmed ha hbefore hown hnew => simp at ha
    rw [(ho.inView.sound.represents s).distinct.eq_of_key hbefore hsent hkey]

theorem Window.unchanged {v : GetServersReply} {c : Cluster} {s : Server}
    {merged : List (List Bytes)} (h : Window v s c merged) :
    Offers v c ∧ Unchanged s c merged := by
  obtain ⟨c₀, c₁, hreach, hsnap, htrace⟩ := h
  have hoffers := reach_offers hreach
  have hidle : c₀.exchanges s = none := by
    obtain ⟨n, hn, -⟩ := Option.map_eq_some_iff.mp hsnap
    simp only [Node.step, Node.snapshot] at hn
    split at hn
    · cases hn
    · next hbusy => simpa [exchanges] using hbusy
  have hmoves := step_moves hsnap
  apply htrace.invariant (P := fun c merged => Offers v c ∧ Unchanged s c merged)
  · refine ⟨hmoves.offers hoffers rfl, ?_⟩
    have hu : Unchanged s c₀ [] := fun e hex => by
      rw [hidle] at hex
      cases hex
    exact hmoves.unchanged hoffers hu
  · intro c a c' merged hc ha hstep
    have hview := (Bool.and_eq_true_iff.mp ha).1
    exact ⟨(step_moves hstep).offers hc.1 hview, (step_moves hstep).unchanged hc.1 hc.2⟩

/-- Every exchange under way has a window. -/
theorem exists_window {v : GetServersReply} {c : Cluster}
    (h : Reach step (fun _ a => a.inView v = true) (start v) c) {s : Server} {e : Exchange}
    (hex : c.exchanges s = some e) : ∃ merged, Window v s c merged := by
  induction h generalizing e with
  | refl => cases hex
  | @tail c c' a hreach ha hstep ih =>
      rcases ((step_moves hstep).turns hex).offer with ⟨old, hold, -⟩ | ⟨rfl, -⟩
      · obtain ⟨merged, c₀, c₁, h₀, hsnap, htrace⟩ := ih hold
        refine ⟨_, c₀, c₁, h₀, hsnap, .tail htrace ?_ hstep⟩
        simp only [inWindow, ha, Bool.true_and]
        split
        · next t =>
          -- the exchange would be over
          rw [decide_eq_true_eq]
          rintro rfl
          obtain ⟨n, hn, rfl⟩ := Option.map_eq_some_iff.mp hstep
          rw [exchanges_set, Function.update_self] at hex
          cases Node.step_does hn with
          | finished => cases hex
        · rfl
      · exact ⟨[], c, c', hreach, hstep, .refl⟩

/-! ## Processing the reply -/

/-- Every key of the peer that was put during the exchange is still noted for it. -/
def KeepsPuts (v : GetServersReply) (c' : Cluster) (s : Server) (e : Exchange) : Prop :=
  ∀ key ∈ e.since, e.peer ∈ group key v.view → key ∈ Handler.noted (c'.handlers s).diffs e.peer

/-- Every item that is gone was sent with the version it had at the end. -/
def RemovesSent (c c' : Cluster) (s : Server) (e : Exchange) : Prop :=
  ∀ it ∈ c.items s, it ∉ c'.items s →
    ∃ q ∈ e.args.entries, q.key = it.key ∧ ofEntries q.version = it.version

instance (v : GetServersReply) (c' : Cluster) (s : Server) (e : Exchange) :
    Decidable (KeepsPuts v c' s e) :=
  inferInstanceAs (Decidable (∀ key ∈ e.since, e.peer ∈ group key v.view → _))

instance (c c' : Cluster) (s : Server) (e : Exchange) : Decidable (RemovesSent c c' s e) :=
  inferInstanceAs (Decidable (∀ it ∈ c.items s, it ∉ c'.items s → _))

/-- What the server holds under the key does not have the version that it has sent. -/
def Replaced (c : Cluster) (s : Server) (e : Exchange) (key : Bytes) : Prop :=
  ∃ it ∈ c.items s, it.key = key ∧
    ∀ q ∈ e.args.entries, q.key = key → ofEntries q.version ≠ it.version

instance (c : Cluster) (s : Server) (e : Exchange) (key : Bytes) :
    Decidable (Replaced c s e key) :=
  inferInstanceAs (Decidable (∃ it ∈ c.items s, it.key = key ∧ ∀ q ∈ e.args.entries, _))

theorem finish_ok {c c' : Cluster} (hs : Sound c) {s : Server} {e : Exchange}
    {reply : AntiEntropyReply} (hex : c.exchanges s = some e) (hphase : e.phase = .replied reply)
    (hok : reply.status = .ok) (hstep : c.step (.on s .finish) = some c') :
    (c'.handlers s).diffs = (c.handlers s).diffs.erase e.peer ∧
      c'.items s = Lru.invalidateAll reply.invalidatedEntries (c.items s) := by
  obtain ⟨n, hn, rfl⟩ := Option.map_eq_some_iff.mp hstep
  have hdone := (Node.step_does hn).finished_ok (hs.represents s) hex hphase hok
  unfold items
  rw [handlers_set, Function.update_self]
  exact hdone

/-- Under one view, processing an `OK` reply keeps the puts of the window and removes
only what was sent if and only if no key of the peer was put in the window and no
entry that the peer invalidates was replaced by a merge in the window. -/
theorem finish_keeps_window_iff {v : GetServersReply} {c c' : Cluster} {s : Server}
    {merged : List (List Bytes)} (h : Window v s c merged) {e : Exchange}
    {reply : AntiEntropyReply} (hex : c.exchanges s = some e) (hphase : e.phase = .replied reply)
    (hok : reply.status = .ok) (hstep : c.step (.on s .finish) = some c') :
    (KeepsPuts v c' s e ∧ RemovesSent c c' s e) ↔
      (∀ key ∈ e.since, e.peer ∉ group key v.view) ∧
        ∀ key ∈ merged.flatten, key ∈ reply.invalidatedEntries → ¬ Replaced c s e key := by
  obtain ⟨ho, hu⟩ := h.unchanged
  obtain ⟨hdiffs, hitems⟩ := finish_ok ho.inView.sound hex hphase hok hstep
  constructor
  · intro hboth
    constructor
    · intro key hkey hpeer
      have hnoted := hboth.1 key hkey hpeer
      rw [hdiffs, Handler.mem_noted_erase] at hnoted
      exact hnoted.1 rfl
    · rintro key - hinvalid ⟨it, hit, rfl, hother⟩
      have hgone : it ∉ c'.items s := by
        rw [hitems, Lru.mem_invalidateAll]
        exact fun hmem => hmem.2 hinvalid
      obtain ⟨q, hq, hkey, hversion⟩ := hboth.2 it hit hgone
      exact hother q hq hkey hversion
  · rintro ⟨hnone, hmerged⟩
    constructor
    · intro key hkey hpeer
      exact absurd hpeer (hnone key hkey)
    · intro it hit hgone
      rw [hitems, Lru.mem_invalidateAll, not_and, not_not] at hgone
      have hinvalid := hgone hit
      obtain ⟨q, hq, hkey⟩ := ho.invalidated s e reply hex hphase _ hinvalid
      have hpeer := ho.offered s e hex q hq
      rw [hkey] at hpeer
      rcases hu e hex q hq it hit hkey.symm with hput | hmerge | hsent
      · exact absurd hpeer (hnone _ hput)
      · have hkept := hmerged _ hmerge hinvalid
        by_contra hnot
        refine hkept ⟨it, hit, rfl, fun q' hq' hkey' hversion => ?_⟩
        exact hnot ⟨q', hq', hkey', hversion⟩
      · subst hsent
        exact ⟨it.entry, hq, rfl, congrArg Item.version it.item_entry⟩

/-- Three servers for most keys; the second one is not in charge of the key `[1]`. -/
def besideView (s t u : Server) : GetServersReply :=
  { view :=
      { hashToServer := (View.single [s, t, u]).hashToServer.insert (irHash [1]) [s, u] }
    viewNum := 2 }

/-- The first and the second server have put the same key; the third one has sent it to
the first, but does not know. -/
def beforeSnapshot (s t u : Server) : List Action :=
  putAt u ⟨[2], [5], 2⟩ ++ .on u .snapshot :: deliver u s ++ [.fail u, .on u .finish] ++
    putAt t ⟨[2], [9], 2⟩ ++ putAt s ⟨[2], [7], 2⟩

/-- The first server puts another key and merges what the third one sends again; the
second one invalidates what it is sent. -/
def busyWindow (s t u : Server) : List Action :=
  putAt s ⟨[1], [6], 2⟩ ++ .on u .snapshot :: deliver u s ++ deliver s t

theorem finish_keeps_window_iff_busyWindow :
    ∃ (v : GetServersReply) (s : Server) (c c' : Cluster) (merged : List (List Bytes))
      (e : Exchange) (reply : AntiEntropyReply),
      Window v s c merged ∧ c.exchanges s = some e ∧ e.phase = .replied reply ∧
      reply.status = .ok ∧ c.step (.on s .finish) = some c' ∧
      e.since = [[1]] ∧ merged = [[[2]]] ∧ reply.invalidatedEntries = [[2]] ∧
      ((KeepsPuts v c' s e ∧ RemovesSent c c' s e) ↔
        (∀ key ∈ e.since, e.peer ∉ group key v.view) ∧
          ∀ key ∈ merged.flatten, key ∈ reply.invalidatedEntries → ¬ Replaced c s e key) ∧
      KeepsPuts v c' s e ∧ RemovesSent c c' s e := by
  let v := besideView ⟨[1], 1⟩ ⟨[2], 2⟩ ⟨[3], 3⟩
  have hrun : ((perform step (fun _ a => a.inView v = true) (start v)
      (beforeSnapshot ⟨[1], 1⟩ ⟨[2], 2⟩ ⟨[3], 3⟩)).bind fun c₀ =>
        (c₀.step (.on ⟨[1], 1⟩ .snapshot)).bind fun c₁ =>
          (record step (fun _ a => inWindow v ⟨[1], 1⟩ a = true) (mergedAt ⟨[1], 1⟩) c₁
            (busyWindow ⟨[1], 1⟩ ⟨[2], 2⟩ ⟨[3], 3⟩)).bind fun r =>
              (r.1.step (.on ⟨[1], 1⟩ .finish)).bind fun _ =>
                (r.1.exchanges ⟨[1], 1⟩).map fun e =>
                  (e.since, r.2, e.phase, decide (e.peer ∈ group [1] v.view),
                    decide (Replaced r.1 ⟨[1], 1⟩ e [2]))) =
      some ([[1]], [[[2]]], .replied { status := .ok, invalidatedEntries := [[2]] },
        false, false) := by
    decide +kernel
  obtain ⟨c₀, hc₀, hrest⟩ := Option.bind_eq_some_iff.mp hrun
  obtain ⟨c₁, hsnap, hrest⟩ := Option.bind_eq_some_iff.mp hrest
  obtain ⟨⟨c, merged⟩, hc, hrest⟩ := Option.bind_eq_some_iff.mp hrest
  obtain ⟨c', hstep, hrest⟩ := Option.bind_eq_some_iff.mp hrest
  obtain ⟨e, hex, hend⟩ := Option.map_eq_some_iff.mp hrest
  obtain ⟨hsince, hend⟩ := Prod.mk.inj hend
  obtain ⟨hmerged, hend⟩ := Prod.mk.inj hend
  obtain ⟨hphase, hend⟩ := Prod.mk.inj hend
  obtain ⟨hpeer, hkept⟩ := Prod.mk.inj hend
  have hwindow : Window v ⟨[1], 1⟩ c merged :=
    ⟨c₀, c₁, reach_of_perform hc₀, hsnap, trace_of_record hc⟩
  have hiff := finish_keeps_window_iff hwindow hex hphase rfl hstep
  refine ⟨v, _, c, c', merged, e, _, hwindow, hex, hphase, rfl, hstep, hsince, hmerged, rfl,
    hiff, hiff.mpr ⟨?_, ?_⟩⟩
  · intro key hkey
    rw [hsince, List.mem_singleton] at hkey
    rw [hkey]
    exact of_decide_eq_false hpeer
  · rintro key - hkey
    rw [List.mem_singleton.mp hkey]
    exact of_decide_eq_false hkept

/-- The first server puts a key again while the second one, which has put the same
key, is merging what was sent. -/
def putInWindow (s t : Server) : List Action :=
  putAt t ⟨[1], [9], 2⟩ ++ putAt s ⟨[1], [7], 2⟩ ++ .on s .snapshot :: putAt s ⟨[1], [8], 2⟩ ++
    deliver s t

theorem finish_forgets_put :
    ∃ (c c' : Cluster) (e : Exchange) (reply : AntiEntropyReply),
      Reach step (fun _ a => a.inView (pairView ⟨[1], 1⟩ ⟨[2], 2⟩) = true)
        (start (pairView ⟨[1], 1⟩ ⟨[2], 2⟩)) c ∧
      c.exchanges ⟨[1], 1⟩ = some e ∧ e.phase = .replied reply ∧ reply.status = .ok ∧
      c.step (.on ⟨[1], 1⟩ .finish) = some c' ∧
      ¬ KeepsPuts (pairView ⟨[1], 1⟩ ⟨[2], 2⟩) c' ⟨[1], 1⟩ e ∧ ¬ RemovesSent c c' ⟨[1], 1⟩ e := by
  have hrun : ((perform step (fun _ a => a.inView (pairView ⟨[1], 1⟩ ⟨[2], 2⟩) = true)
      (start (pairView ⟨[1], 1⟩ ⟨[2], 2⟩)) (putInWindow ⟨[1], 1⟩ ⟨[2], 2⟩)).bind fun c =>
        (c.step (.on ⟨[1], 1⟩ .finish)).bind fun c' =>
          (c.exchanges ⟨[1], 1⟩).map fun e =>
            (e.phase, decide (KeepsPuts (pairView ⟨[1], 1⟩ ⟨[2], 2⟩) c' ⟨[1], 1⟩ e),
              decide (RemovesSent c c' ⟨[1], 1⟩ e))) =
        some (.replied { status := .ok, invalidatedEntries := [[1]] }, false, false) := by
    decide +kernel
  obtain ⟨c, hc, hrest⟩ := Option.bind_eq_some_iff.mp hrun
  obtain ⟨c', hstep, hrest⟩ := Option.bind_eq_some_iff.mp hrest
  obtain ⟨e, hex, hend⟩ := Option.map_eq_some_iff.mp hrest
  obtain ⟨hphase, hend⟩ := Prod.mk.inj hend
  obtain ⟨hkeeps, hremoves⟩ := Prod.mk.inj hend
  exact ⟨c, c', e, _, reach_of_perform hc, hex, hphase, rfl, hstep,
    of_decide_eq_false hkeeps, of_decide_eq_false hremoves⟩

end Cluster

end RobustCache
