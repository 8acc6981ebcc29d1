import RobustCache.Cluster.Exchanges
import RobustCache.Cluster.System
import RobustCache.Server.Entries

/-! # Which keys a server installs

A key is checked against one view and added under another when the view changes
in between, and a sender may offer keys that the receiver is not in charge of.
Apart from these two cases every key that is added is owned at that moment.
-/

namespace RobustCache

open Lib

def Store.adds (st : Store) (key : Bytes) : Bool := decide (key ∉ st.kept.map Item.key)

/-- The keys that the handler thread will add without another look at the view. -/
def Task.committed (server : Server) : Task → List Bytes
  | .serving (.put args) => [args.key]
  | .cleaning (.put args) view =>
      if args.viewNum = view.viewNum ∧ server ∈ group args.key view.view then [args.key] else []
  | .merging _ query => query.entries.map Entry.key
  | _ => []

namespace System

def added (s : System) : Event → List (Server × Bytes)
  | .act (.on server .serve) =>
      match s.cluster.tasks server with
      | some (.serving (.put args)) =>
          if (s.cluster.handlers server).adds args.key then [(server, args.key)] else []
      | _ => []
  | .act (.merge server) =>
      match s.cluster.tasks server with
      | some (.merging _ query) =>
          ((s.cluster.handlers server).visits query.entries).filterMap fun visit =>
            if visit.1.adds visit.2.key then some (server, visit.2.key) else none
      | _ => []
  | _ => []

/-- The ping thread assigns no view that takes a key away to which the handler
thread is committed, and a snapshot offers its peer only keys of the peer. -/
def steady (s : System) : Event → Bool
  | .act (.on server .pingAssign) =>
      match s.cluster.pings server, s.cluster.tasks server with
      | some (.assigning view), some task =>
          (task.committed server).all fun key => decide (server ∈ group key view.view)
      | _, _ => true
  | .act (.on server .snapshot) =>
      match (s.cluster.handlers server).nextPeer with
      | some (peer, keys) =>
          (Lru.entriesFor keys.keys (s.cluster.items server)).all fun e =>
            decide (peer ∈ group e.key (s.cluster.handlers server).currentView.view)
      | none => true
  | _ => true

/-- The handler threads are committed to owned keys only, and every message on its
way offers keys that its receiver owns in the view it names. -/
structure Owned (s : System) : Prop where
  committed : ∀ server task, s.cluster.tasks server = some task →
    ∀ key ∈ task.committed server,
      server ∈ group key (s.cluster.handlers server).currentView.view
  messages : ∀ peer args, s.cluster.Message peer args →
    ∃ v, s.vs.Published v ∧ v.viewNum = args.viewNum ∧
      ∀ e ∈ args.entries, peer ∈ group e.key v.view

theorem mem_committed_serving {server : Server} {call : ClientCall} {key : Bytes}
    (h : key ∈ (Task.serving call).committed server) :
    ∃ args, call = .put args ∧ key = args.key := by
  cases call with
  | put args => exact ⟨args, rfl, List.mem_singleton.mp h⟩
  | get args => cases h

/-- The steps of one server keep it committed to owned keys. -/
theorem does_committed {n n' : Node} {a : Local} (h : n.Does a n')
    (hr : Represents n.handler.toStore n.handler.items)
    (hinv : ∀ task, n.task = some task → ∀ key ∈ task.committed n.handler.server,
      n.handler.server ∈ group key n.handler.currentView.view)
    (hping : ∀ view task, a = .pingAssign → n.ping = some (.assigning view) →
      n.task = some task → ∀ key ∈ task.committed n.handler.server,
        n.handler.server ∈ group key view.view)
    {task : Task} (ht : n'.task = some task) {key : Bytes}
    (hkey : key ∈ task.committed n.handler.server) :
    n.handler.server ∈ group key n'.handler.currentView.view := by
  cases h.begins hr ht with
  | inl hold =>
      -- the task goes on, so only the ping thread can have changed the view
      rcases (h.effect_items hr).1.currentView with hsame | ⟨-, call, htask⟩ | ⟨ha, hview⟩
      · rw [hsame]
        exact hinv task hold key hkey
      · rw [htask] at hold
        cases hold
        cases hkey
      · exact hping _ task ha hview hold key hkey
  | inr hnew =>
      cases hnew with
      | refreshing ha hidle hnum => cases hkey
      | assigning ha htask => cases hkey
      | @cleaning call view htask hview hnum =>
          cases call with
          | get args => cases hkey
          | put args =>
              simp only [Task.committed] at hkey
              split at hkey
              · next hown =>
                rw [List.mem_singleton.mp hkey, hview]
                exact hown.2
              · cases hkey
      | decided hview hnum hown =>
          obtain ⟨args, rfl, rfl⟩ := mem_committed_serving hkey
          rw [hview]
          exact hown
      | assigned htask hview hnum hown =>
          obtain ⟨args, rfl, rfl⟩ := mem_committed_serving hkey
          rw [hview]
          exact hown
      | @cleaned call view htask hview hnum hown =>
          obtain ⟨args, rfl, rfl⟩ := mem_committed_serving hkey
          rw [hview]
          apply hinv _ htask
          simp only [Task.committed]
          rw [if_pos ⟨hnum, hown⟩]
          exact List.mem_singleton.mpr rfl

theorem act_committed {s : System} {a : Action} {cluster : Cluster} (hinv : Inv s) (ho : Owned s)
    (hsteady : s.steady (.act a) = true) (h : s.cluster.step a = some cluster) {server : Server}
    {task : Task} (ht : cluster.tasks server = some task) {key : Bytes}
    (hkey : key ∈ task.committed server) :
    server ∈ group key (cluster.handlers server).currentView.view := by
  have hmoves := Cluster.step_moves h
  have hserver := hinv.sound.server server
  cases hmoves.on_or_frame hinv.sound with
  | inl hon =>
      obtain ⟨t, b, n, rfl, rfl, hdoes⟩ := hon
      rw [Cluster.tasks_set] at ht
      rw [Cluster.handlers_set]
      by_cases hst : server = t
      · subst hst
        rw [Function.update_self] at ht ⊢
        rw [← hserver] at hkey ⊢
        apply does_committed hdoes (hinv.sound.represents server) _ _ ht hkey
        · intro task htask key hkey
          rw [show (s.cluster.nodes server).handler.server = server from hserver] at hkey ⊢
          exact ho.committed server task htask key hkey
        · intro view task hb hview htask key hkey
          rw [show (s.cluster.nodes server).handler.server = server from hserver] at hkey ⊢
          subst hb
          have hping : s.cluster.pings server = some (.assigning view) := hview
          have htask' : s.cluster.tasks server = some task := htask
          simp only [steady, hping, htask', List.all_eq_true, decide_eq_true_eq] at hsteady
          exact hsteady key hkey
      · rw [Function.update_of_ne hst] at ht ⊢
        exact ho.committed server task ht key hkey
  | inr hframe =>
      rw [hframe.currentView server]
      rcases hframe.tasks server task ht with hold | ⟨sender, query, rfl⟩
      · exact ho.committed server task hold key hkey
      · rcases hmoves.merging hinv.sound ht with hold | ⟨hmessage, hnum, -⟩
        · exact ho.committed server _ hold key hkey
        · -- the message names the current view, so both sides mean the same view
          obtain ⟨v, hv, hvnum, hkeys⟩ := ho.messages server query hmessage
          have hcurrent := hinv.published _ (.inr ⟨server, .current rfl⟩)
          have heq : (s.cluster.handlers server).currentView = v :=
            hcurrent.eq hv (hnum.trans hvnum.symm)
          obtain ⟨e, he, rfl⟩ := List.mem_map.mp hkey
          rw [heq]
          exact hkeys e he

theorem act_messages {s : System} {a : Action} {cluster : Cluster} (hinv : Inv s) (ho : Owned s)
    (hsteady : s.steady (.act a) = true) (h : s.cluster.step a = some cluster) {peer : Server}
    {args : AntiEntropyArgs} (hm : cluster.Message peer args) :
    ∃ v, s.vs.Published v ∧ v.viewNum = args.viewNum ∧
      ∀ e ∈ args.entries, peer ∈ group e.key v.view := by
  rcases (Cluster.step_moves h).message hm with hold | ⟨t, rfl, hsnap⟩
  · exact ho.messages peer args hold
  · rw [Handler.snapshot_spec (hinv.sound.represents t)] at hsnap
    obtain ⟨⟨p, keys⟩, hnext, hsent⟩ := Option.map_eq_some_iff.mp (Except.ok.inj hsnap)
    cases hsent
    refine ⟨(s.cluster.handlers t).currentView, ?_, rfl, ?_⟩
    · exact hinv.published _ (.inr ⟨t, .current rfl⟩)
    · simp only [steady, hnext, List.all_eq_true, decide_eq_true_eq] at hsteady
      exact hsteady

theorem step_owned {s s' : System} {e : Event} (hinv : Inv s) (ho : Owned s)
    (hsteady : s.steady e = true) (h : s.step e = some s') : Owned s' := by
  rcases step_cases h with ⟨sec, vs, hvs, rfl⟩ | ⟨polling, rfl⟩ | ⟨client, rfl⟩ |
    ⟨a, cluster, rfl, hview, hcluster, rfl⟩
  · refine ⟨ho.committed, fun peer args hm => ?_⟩
    obtain ⟨v, hv, hrest⟩ := ho.messages peer args hm
    exact ⟨v, hv.extends (ViewService.step_extends hvs), hrest⟩
  · exact ⟨ho.committed, ho.messages⟩
  · exact ⟨ho.committed, ho.messages⟩
  · constructor
    · intro server task ht key hkey
      exact act_committed hinv ho hsteady hcluster ht hkey
    · intro peer args hm
      exact act_messages hinv ho hsteady hcluster hm

theorem initial_owned : Owned {} := by
  constructor
  · intro server task ht
    cases ht
  · intro peer args hm
    rcases hm with ⟨t, e, hex, -⟩ | hm
    · cases hex
    · cases hm

theorem committed_of_added {s : System} {e : Event} {server : Server} {key : Bytes}
    (h : (server, key) ∈ s.added e) :
    ∃ task, s.cluster.tasks server = some task ∧ key ∈ task.committed server := by
  unfold added at h
  split at h
  · split at h
    · next args htask =>
      split at h
      · cases List.mem_singleton.mp h
        exact ⟨_, htask, List.mem_singleton.mpr rfl⟩
      · cases h
    · cases h
  · split at h
    · next sender query htask =>
      obtain ⟨visit, hvisit, hadd⟩ := List.mem_filterMap.mp h
      split at hadd
      · cases hadd
        exact ⟨_, htask, List.mem_map_of_mem (Store.mem_of_visits hvisit)⟩
      · cases hadd
    · cases h
  · cases h

/-- In every run of steady steps, whatever put or propagate adds belongs to a key
that the server owns in its current view at that moment. -/
theorem added_owned_of_steady {s : System} (h : Reach step (fun s e => s.steady e = true) {} s)
    {e : Event} {server : Server} {key : Bytes} (hadd : (server, key) ∈ s.added e) :
    server ∈ group key (s.cluster.handlers server).currentView.view := by
  have hboth : Inv s ∧ Owned s := by
    apply h.invariant (P := fun s => Inv s ∧ Owned s)
    · exact ⟨initial_inv, initial_owned⟩
    · intro s e s' hs hsteady hstep
      exact ⟨step_inv hs.1 hstep, step_owned hs.1 hs.2 hsteady hstep⟩
  obtain ⟨task, htask, hkey⟩ := committed_of_added hadd
  exact hboth.2.committed server task htask key hkey

theorem added_owned_of_steady_joined :
    ∃ s : System, Reach step (fun s e => s.steady e = true) {} s ∧
      (⟨[1], 1⟩, [1]) ∈ s.added (.act (.on ⟨[1], 1⟩ .serve)) ∧
      ⟨[1], 1⟩ ∈ group [1] (s.cluster.handlers ⟨[1], 1⟩).currentView.view := by
  have hrun : ((perform step (fun s e => s.steady e = true) {} (joinEvents ⟨[1], 1⟩ ++
      [.act (.on ⟨[1], 1⟩ (.request (.put ⟨[1], [7], 1⟩)))])).map fun s =>
        decide ((⟨[1], 1⟩, [1]) ∈ s.added (.act (.on ⟨[1], 1⟩ .serve)))) = some true := by
    decide +kernel
  obtain ⟨s, hs, hadd⟩ := Option.map_eq_some_iff.mp hrun
  have hmem := of_decide_eq_true hadd
  exact ⟨s, reach_of_perform hs, hmem, added_owned_of_steady (reach_of_perform hs) hmem⟩

/-- The first server accepts a put; a second server joins at the ring point of the
key; the ping thread of the first one assigns the new view; then the put adds the
key, which now belongs to the second server alone. -/
def overtakenEvents (s t : Server) : List Event :=
  let view : GetServersReply :=
    { view := { hashToServer := (View.single [s]).hashToServer.insert (irHash [1]) [t] }
      viewNum := 2 }
  joinEvents s ++ [.act (.on s (.request (.put ⟨[1], [7], 1⟩))), .service (.addPing t 0),
    .service (.addView (irHash [1])), .act (.on s (.ping view)), .act (.on s .pingAssign)]

theorem added_unowned :
    ∃ s s' : System, Reach step anyAction {} s ∧
      s.step (.act (.on ⟨[1], 1⟩ .serve)) = some s' ∧
      (⟨[1], 1⟩, [1]) ∈ s.added (.act (.on ⟨[1], 1⟩ .serve)) ∧
      ⟨[1], 1⟩ ∉ group [1] (s.cluster.handlers ⟨[1], 1⟩).currentView.view := by
  have hrun : ((perform step anyAction {} (overtakenEvents ⟨[1], 1⟩ ⟨[2], 2⟩)).bind fun s =>
      (s.step (.act (.on ⟨[1], 1⟩ .serve))).map fun _ =>
        (decide ((⟨[1], 1⟩, [1]) ∈ s.added (.act (.on ⟨[1], 1⟩ .serve))),
          decide (⟨[1], 1⟩ ∈ group [1] (s.cluster.handlers ⟨[1], 1⟩).currentView.view))) =
        some (true, false) := by
    decide +kernel
  obtain ⟨s, hs, hlast⟩ := Option.bind_eq_some_iff.mp hrun
  obtain ⟨s', hs', hend⟩ := Option.map_eq_some_iff.mp hlast
  have hadd := of_decide_eq_true (congrArg Prod.fst hend)
  have hnot := of_decide_eq_false (congrArg Prod.snd hend)
  exact ⟨s, s', reach_of_perform hs, hs', hadd, hnot⟩

end System

end RobustCache
