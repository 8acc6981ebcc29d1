import RobustCache.Cluster.Cluster
import RobustCache.View.Service

/-! # The whole system

The view service, any number of servers and any number of clients. The view
service serves one call at a time, so a call of `getStatistics` keeps it from
answering anything else until it has polled every server of its view.
-/

namespace RobustCache

open Lib

/-! ## The system -/

/-- The section runs in the handler thread of the view service. -/
def ViewService.Section.inHandler : ViewService.Section → Bool
  | .findExpired _ => false
  | .removeExpired => false
  | _ => true

structure System where
  vs : ViewService := {}
  /-- The servers that a call of `getStatistics` has still to poll. -/
  polling : Option (List Server) := none
  /-- The view that each client holds. -/
  clients : Nat → GetServersReply := fun _ => {}
  cluster : Cluster := Cluster.initial

inductive Event where
  | service (sec : ViewService.Section)
  | getStatistics
  | poll
  | fetch (client : Nat)
  | act (a : Action)

namespace System

/-- The handler thread of the view service can take a call. -/
def Free (s : System) : Prop := s.polling = none ∧ s.vs.adding = none

instance (s : System) : Decidable s.Free := inferInstanceAs (Decidable (_ ∧ _))

/-- Go on to the next server when the one polled first has answered, which its
handler thread does when it is not in another call. -/
def poll (s : System) : Option System :=
  match s.polling with
  | none => none
  | some [] => some { s with polling := none }
  | some (server :: rest) =>
      if (s.cluster.tasks server).isSome then none else some { s with polling := some rest }

def step (s : System) : Event → Option System
  | .service sec =>
      if sec.inHandler ∧ s.polling ≠ none then none
      else (s.vs.step sec).map fun vs => { s with vs }
  | .getStatistics => if s.Free then some { s with polling := some s.vs.servers } else none
  | .poll => s.poll
  | .fetch client =>
      if s.Free then some { s with clients := Function.update s.clients client s.vs.getView }
      else none
  | .act a =>
      if a.view?.all fun view => decide (s.Free ∧ view = s.vs.getView) then
        (s.cluster.step a).map fun cluster => { s with cluster }
      else none

/-! ## Views agree by number -/

def Holds (s : System) (v : GetServersReply) : Prop :=
  (∃ client, s.clients client = v) ∨ ∃ server, (s.cluster.nodes server).HoldsView v

/-- What every run keeps: the history is complete, every view in use was
published, and every call that has passed the check names a published view. -/
structure Inv (s : System) : Prop where
  wellFormed : s.vs.WellFormed
  extends_initial : ViewService.Extends {} s.vs
  sound : s.cluster.Sound
  published : ∀ v, s.Holds v → s.vs.Published v
  serving : ∀ t call, s.cluster.tasks t = some (.serving call) →
    ∃ v, s.vs.Published v ∧ call.viewNum = v.viewNum ∧ t ∈ group call.key v.view

/-- The events that can happen, and what each of them leaves. -/
inductive Moves (s : System) : Event → System → Prop
  | service {sec : ViewService.Section} {vs : ViewService} (hvs : s.vs.step sec = some vs) :
      Moves s (.service sec) { s with vs }
  | getStatistics (hfree : s.Free) :
      Moves s .getStatistics { s with polling := some s.vs.servers }
  | pollEnds (hpoll : s.polling = some []) : Moves s .poll { s with polling := none }
  | polled {server : Server} {rest : List Server} (hpoll : s.polling = some (server :: rest))
      (hidle : s.cluster.tasks server = none) : Moves s .poll { s with polling := some rest }
  | fetch {client : Nat} (hfree : s.Free) :
      Moves s (.fetch client)
        { s with clients := Function.update s.clients client s.vs.getView }
  | act {a : Action} {cluster : Cluster}
      (hview : ∀ v, a.view? = some v → s.Free ∧ v = s.vs.getView)
      (hcluster : s.cluster.step a = some cluster) : Moves s (.act a) { s with cluster }

theorem step_moves {s s' : System} {e : Event} (h : s.step e = some s') : Moves s e s' := by
  cases e with
  | service sec =>
      simp only [step] at h
      split at h
      · cases h
      · obtain ⟨vs, hvs, rfl⟩ := Option.map_eq_some_iff.mp h
        exact .service hvs
  | getStatistics =>
      simp only [step] at h
      split at h
      · next hfree =>
          cases h
          exact .getStatistics hfree
      · cases h
  | poll =>
      simp only [step, poll] at h
      split at h
      · cases h
      · next hpoll =>
          cases h
          exact .pollEnds hpoll
      · next server rest hpoll =>
        split at h
        · cases h
        · next hidle =>
            cases h
            exact .polled hpoll (by simpa using hidle)
  | fetch client =>
      simp only [step] at h
      split at h
      · next hfree =>
          cases h
          exact .fetch hfree
      · cases h
  | act a =>
      simp only [step] at h
      split at h
      · next hview =>
        obtain ⟨cluster, hcluster, rfl⟩ := Option.map_eq_some_iff.mp h
        refine .act (fun v hv => ?_) hcluster
        rw [hv] at hview
        simpa using hview
      · cases h

theorem step_cases {s s' : System} {e : Event} (h : s.step e = some s') :
    (∃ sec vs, s.vs.step sec = some vs ∧ s' = { s with vs }) ∨
      (∃ polling, s' = { s with polling }) ∨
      (∃ client, s' = { s with clients := Function.update s.clients client s.vs.getView }) ∨
      ∃ a cluster, e = .act a ∧ (∀ v, a.view? = some v → s.Free ∧ v = s.vs.getView) ∧
        s.cluster.step a = some cluster ∧ s' = { s with cluster } := by
  cases step_moves h with
  | service hvs => exact .inl ⟨_, _, hvs, rfl⟩
  | getStatistics hfree => exact .inr (.inl ⟨_, rfl⟩)
  | pollEnds hpoll => exact .inr (.inl ⟨_, rfl⟩)
  | polled hpoll hidle => exact .inr (.inl ⟨_, rfl⟩)
  | fetch hfree => exact .inr (.inr (.inl ⟨_, rfl⟩))
  | act hview hcluster => exact .inr (.inr (.inr ⟨_, _, rfl, hview, hcluster, rfl⟩))

theorem step_extends {s s' : System} {e : Event} (h : s.step e = some s') :
    ViewService.Extends s.vs s'.vs := by
  rcases step_cases h with ⟨sec, vs, hvs, rfl⟩ | ⟨polling, rfl⟩ | ⟨client, rfl⟩ |
    ⟨a, cluster, -, -, -, rfl⟩
  · exact ViewService.step_extends hvs
  · exact ViewService.Extends.refl _
  · exact ViewService.Extends.refl _
  · exact ViewService.Extends.refl _

theorem initial_inv : Inv {} := by
  constructor
  · exact ⟨rfl, rfl⟩
  · exact ViewService.Extends.refl _
  · exact Cluster.initial_sound
  · intro v hv
    have hv0 : v = {} := by
      rcases hv with ⟨client, rfl⟩ | ⟨server, hserver⟩
      · rfl
      · cases hserver with
        | current h => exact h.symm
        | assigning h => cases h
        | cleaning h => cases h
        | pinged h => cases h
    rw [hv0]
    exact ViewService.published_default (ViewService.Extends.refl _)
  · intro t call ht
    cases ht

theorem step_inv {s s' : System} {e : Event} (hinv : Inv s) (h : s.step e = some s') : Inv s' := by
  have hext := step_extends h
  have hkeep : ∀ {v}, s.vs.Published v → s'.vs.Published v := fun hv => hv.extends hext
  rcases step_cases h with ⟨sec, vs, hvs, rfl⟩ | ⟨polling, rfl⟩ | ⟨client, rfl⟩ |
    ⟨a, cluster, -, hview, hcluster, rfl⟩
  · constructor
    · exact ViewService.step_wellFormed hinv.wellFormed hvs
    · exact hinv.extends_initial.trans hext
    · exact hinv.sound
    · intro v hv
      exact hkeep (hinv.published v hv)
    · intro t call ht
      obtain ⟨v, hv, hrest⟩ := hinv.serving t call ht
      exact ⟨v, hkeep hv, hrest⟩
  · exact ⟨hinv.wellFormed, hinv.extends_initial, hinv.sound, hinv.published, hinv.serving⟩
  · refine ⟨hinv.wellFormed, hinv.extends_initial, hinv.sound, ?_, hinv.serving⟩
    intro v hv
    rcases hv with ⟨i, hi⟩ | hserver
    · simp only [Function.update_apply] at hi
      split at hi
      · rw [← hi]
        exact ViewService.published_getView hinv.wellFormed
      · exact hinv.published v (.inl ⟨i, hi⟩)
    · exact hinv.published v (.inr hserver)
  · have hmoves := Cluster.step_moves hcluster
    refine ⟨hinv.wellFormed, hinv.extends_initial, hmoves.sound hinv.sound, ?_, ?_⟩
    · intro v hv
      rcases hv with hclient | ⟨t, ht⟩
      · exact hinv.published v (.inl hclient)
      · rcases hmoves.holdsView hinv.sound ht with hold | hnew
        · exact hinv.published v (.inr ⟨t, hold⟩)
        · rw [(hview v hnew).2]
          exact ViewService.published_getView hinv.wellFormed
    · intro t call ht
      rcases hmoves.serving hinv.sound ht with hold | ⟨v, hv, hnum, hown⟩
      · exact hinv.serving t call hold
      · exact ⟨v, hinv.published v (.inr ⟨t, hv⟩), hnum, hown⟩

theorem reach_inv {s : System} (h : Reach step anyAction {} s) : Inv s :=
  h.invariant initial_inv fun _ _ _ hinv _ hstep => step_inv hinv hstep

theorem reach_extends {s s' : System} (h : Reach step anyAction s s') :
    ViewService.Extends s.vs s'.vs :=
  h.relates (R := fun s s' => ViewService.Extends s.vs s'.vs) (.refl _)
    (fun _ _ _ => ViewService.Extends.trans) fun _ _ _ _ hstep => step_extends hstep

/-- The histories of the view service are complete and append-only, so views that
are in use anywhere under one number are one view. A request for a key whose
group in the named view has this server is then accepted exactly when the view
decided with has that number; `pinged` is what the view service answers at any
later time. No request is accepted, at once or after interleaved steps, at a
server that is not in the key's group in the named view. -/
theorem views_agree {s : System} (hs : Reach step anyAction {} s) :
    s.vs.views.length = s.vs.viewNum + 1 ∧ s.vs.hashToServer.length = s.vs.viewNum + 1 ∧
    (∀ s', Reach step anyAction s s' →
      s.vs.views <+: s'.vs.views ∧ s.vs.hashToServer <+: s'.vs.hashToServer) ∧
    (∀ v w, s.Holds v → s.Holds w → v.viewNum = w.viewNum → v = w) ∧
    (∀ s' server key v, Reach step anyAction s s' → s'.vs.Published v →
      let h := s.cluster.handlers server
      let accepted := ∃ h', h.checkServer v.viewNum key s'.vs.getView = .ok (h', true)
      (server ∈ group key v.view →
        (accepted ↔ (h.decided v.viewNum s'.vs.getView).viewNum = v.viewNum)) ∧
      (accepted → server ∈ group key v.view)) ∧
    (∀ server call v, s.cluster.tasks server = some (.serving call) → s.vs.Published v →
      v.viewNum = call.viewNum → server ∈ group call.key v.view) := by
  have hinv := reach_inv hs
  refine ⟨hinv.wellFormed.1, hinv.wellFormed.2, ?_, ?_, ?_, ?_⟩
  · intro s' hs'
    have hext := reach_extends hs'
    exact ⟨hext.views, hext.hashToServer⟩
  · intro v w hv hw hnum
    exact (hinv.published v hv).eq (hinv.published w hw) hnum
  · intro s' server key v hs' hv h accepted
    have hinv' := reach_inv (hs.trans hs')
    have hserver : h.server = server := hinv.sound.server server
    have haccepted : accepted ↔ h.Accepts v.viewNum key s'.vs.getView :=
      Handler.checkServer_accepts (hinv.sound.represents server)
    have hcurrent : s'.vs.Published h.currentView :=
      (hinv.published _ (.inr ⟨server, .current rfl⟩)).extends (reach_extends hs')
    have hdecided : s'.vs.Published (h.decided v.viewNum s'.vs.getView) := by
      unfold Handler.decided
      split
      · exact ViewService.published_getView hinv'.wellFormed
      · exact hcurrent
    rw [haccepted]
    unfold Handler.Accepts
    constructor
    · intro hown
      constructor
      · intro hacc
        exact hacc.1.symm
      · intro hnum
        rw [hdecided.eq hv hnum, hserver]
        exact ⟨rfl, hown⟩
    · intro hacc
      rw [hdecided.eq hv hacc.1.symm, hserver] at hacc
      exact hacc.2
  · intro server call v htask hv hnum
    obtain ⟨w, hw, hcall, hown⟩ := hinv.serving server call htask
    rw [hv.eq hw (hnum.trans hcall)]
    exact hown

/-- A server joins, a client fetches the view, and the server adopts it. -/
def joinEvents (server : Server) : List Event :=
  let view : GetServersReply := { view := View.single [server], viewNum := 1 }
  [.service (.addPing server 0), .service (.addView 0), .fetch 0, .act (.on server (.ping view)),
    .act (.on server .pingAssign), .act (.on server .pingClean)]

theorem views_agree_joined :
    ∃ s : System, Reach step anyAction {} s ∧ s.vs.Published s.vs.getView ∧
      ⟨[1], 1⟩ ∈ group [1] s.vs.getView.view ∧
      ∃ h', (s.cluster.handlers ⟨[1], 1⟩).checkServer s.vs.getView.viewNum [1] s.vs.getView =
        .ok (h', true) := by
  have hrun : ((perform step anyAction {} (joinEvents ⟨[1], 1⟩)).map fun s =>
      (decide (⟨[1], 1⟩ ∈ group [1] s.vs.getView.view),
        decide (((s.cluster.handlers ⟨[1], 1⟩).decided s.vs.getView.viewNum
          s.vs.getView).viewNum = s.vs.getView.viewNum))) = some (true, true) := by
    decide +kernel
  obtain ⟨s, hs, hend⟩ := Option.map_eq_some_iff.mp hrun
  have hreach := reach_of_perform hs
  have hpub := ViewService.published_getView (reach_inv hreach).wellFormed
  have hown := of_decide_eq_true (congrArg Prod.fst hend)
  have hnum := of_decide_eq_true (congrArg Prod.snd hend)
  have hagree := (views_agree hreach).2.2.2.2.1 s ⟨[1], 1⟩ [1] s.vs.getView .refl hpub
  exact ⟨s, hreach, hpub, hown, (hagree.1 hown).mpr hnum⟩

end System

end RobustCache
