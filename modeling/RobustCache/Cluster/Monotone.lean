import RobustCache.Cluster.System

/-! # The view of a server over time

The handler thread and the ping thread fetch views and assign them later, each
on its own. What a thread fetches is never older than the current view; what it
assigns can be, when the other thread has fetched and assigned in between.
-/

namespace RobustCache

open Lib

namespace Node

/-- No view that is still to be assigned is older than the current one. -/
def Ahead (n : Node) : Prop :=
  ∀ v, n.Received v → n.handler.currentView.viewNum ≤ v.viewNum

/-- When both threads hold a view, the older one is assigned first. -/
def inOrder (n : Node) : Local → Bool
  | .assign =>
      match n.task, n.ping with
      | some (.assigning _ v), some (.assigning w) => decide (v.viewNum ≤ w.viewNum)
      | _, _ => true
  | .pingAssign =>
      match n.task, n.ping with
      | some (.assigning _ v), some (.assigning w) => decide (w.viewNum ≤ v.viewNum)
      | _, _ => true
  | _ => true

theorem le_of_inOrder_assign {n : Node} {call : ClientCall} {v w : GetServersReply}
    (horder : n.inOrder .assign = true) (htask : n.task = some (.assigning call v))
    (hw : n.Received w) : v.viewNum ≤ w.viewNum := by
  cases hw with
  | assigning htask' =>
      rw [htask] at htask'
      cases htask'
      exact le_refl _
  | pinged hping => simpa [inOrder, htask, hping] using horder

theorem le_of_inOrder_pingAssign {n : Node} {v w : GetServersReply}
    (horder : n.inOrder .pingAssign = true) (hping : n.ping = some (.assigning v))
    (hw : n.Received w) : v.viewNum ≤ w.viewNum := by
  cases hw with
  | assigning htask => simpa [inOrder, htask, hping] using horder
  | pinged hping' =>
      rw [hping] at hping'
      cases hping'
      exact le_refl _

/-- One step in order: the current view does not get older, nor does it overtake
a view that is still to be assigned. -/
theorem Does.staysAhead {n n' : Node} {a : Local} (h : Does n a n')
    (hr : Represents n.handler.toStore n.handler.items) (hahead : n.Ahead)
    (horder : n.inOrder a = true)
    (hnew : ∀ v, a = .refresh v ∨ a = .ping v → n.handler.currentView.viewNum ≤ v.viewNum) :
    n'.Ahead ∧ n.handler.currentView.viewNum ≤ n'.handler.currentView.viewNum := by
  have hfetched : ∀ v, n'.Received v → n.Received v ∨ a = .refresh v ∨ a = .ping v :=
    fun v hv => h.receives hr hv
  rcases (h.effect_items hr).1.currentView with hsame | ⟨rfl, call, htask⟩ | ⟨rfl, hping⟩
  · refine ⟨fun v hv => ?_, le_of_eq (by rw [hsame])⟩
    rw [hsame]
    exact (hfetched v hv).elim (hahead v) (hnew v)
  · refine ⟨fun w hw => ?_, hahead _ (.assigning htask)⟩
    rcases hfetched w hw with hold | ha | ha
    · exact le_of_inOrder_assign horder htask hold
    · cases ha
    · cases ha
  · refine ⟨fun w hw => ?_, hahead _ (.pinged hping)⟩
    rcases hfetched w hw with hold | ha | ha
    · exact le_of_inOrder_pingAssign horder hping hold
    · cases ha
    · cases ha

end Node

theorem ViewService.Published.le {vs : ViewService} {v : GetServersReply} (hwf : vs.WellFormed)
    (hv : vs.Published v) : v.viewNum ≤ vs.viewNum := by
  obtain ⟨n, hn, hget⟩ := hv
  have hlt := (List.getElem?_eq_some_iff.mp hget).1
  rw [hwf.2] at hlt
  omega

namespace System

def adopted (s : System) (server : Server) : Int :=
  (s.cluster.handlers server).currentView.viewNum

def inOrder (s : System) : Event → Bool
  | .act (.on server a) => (s.cluster.nodes server).inOrder a
  | _ => true

/-- The view under which the event runs `cleanHash`, with the server. -/
def cleansUnder (s : System) : Event → Option (Server × GetServersReply)
  | .act (.on server .clean) =>
      match s.cluster.tasks server with
      | some (.cleaning _ _) => some (server, (s.cluster.handlers server).currentView)
      | _ => none
  | .act (.on server .pingClean) =>
      match s.cluster.pings server with
      | some .cleaning => some (server, (s.cluster.handlers server).currentView)
      | _ => none
  | _ => none

theorem cleansUnder_eq {s : System} {e : Event} {server : Server} {v : GetServersReply}
    (h : s.cleansUnder e = some (server, v)) : v = (s.cluster.handlers server).currentView := by
  unfold cleansUnder at h
  split at h
  · split at h
    · cases h
      rfl
    · cases h
  · split at h
    · cases h
      rfl
    · cases h
  · cases h

def Ahead (s : System) : Prop := ∀ server, (s.cluster.nodes server).Ahead

theorem step_ahead {s s' : System} {e : Event} (hinv : Inv s) (hahead : s.Ahead)
    (horder : s.inOrder e = true) (h : s.step e = some s') :
    s'.Ahead ∧ ∀ server, s.adopted server ≤ s'.adopted server := by
  rcases step_cases h with ⟨sec, vs, -, rfl⟩ | ⟨polling, rfl⟩ | ⟨client, rfl⟩ |
    ⟨a, cluster, rfl, hview, hcluster, rfl⟩
  · exact ⟨hahead, fun _ => le_refl _⟩
  · exact ⟨hahead, fun _ => le_refl _⟩
  · exact ⟨hahead, fun _ => le_refl _⟩
  · rcases (Cluster.step_moves hcluster).on_or_frame hinv.sound with
      ⟨t, b, n, rfl, rfl, hdoes⟩ | hframe
    · have hfetched : ∀ v, b = .refresh v ∨ b = .ping v → s.adopted t ≤ v.viewNum := by
        intro v hb
        have hv : (Action.on t b).view? = some v := by
          rcases hb with rfl | rfl
          · rfl
          · rfl
        rw [(hview v hv).2]
        exact (hinv.published _ (.inr ⟨t, .current rfl⟩)).le hinv.wellFormed
      obtain ⟨hnode, hmono⟩ := hdoes.staysAhead (hinv.sound.represents t) (hahead t) horder hfetched
      have hself : (s.cluster.set t n).nodes t = n := Function.update_self _ _ _
      have hother : ∀ {server}, server ≠ t →
          (s.cluster.set t n).nodes server = s.cluster.nodes server :=
        fun hne => Function.update_of_ne hne _ _
      refine ⟨fun server => ?_, fun server => ?_⟩
      · show ((s.cluster.set t n).nodes server).Ahead
        by_cases hs : server = t
        · rw [hs, hself]
          exact hnode
        · rw [hother hs]
          exact hahead server
      · show _ ≤ ((s.cluster.set t n).nodes server).handler.currentView.viewNum
        by_cases hs : server = t
        · rw [hs, hself]
          exact hmono
        · rw [hother hs]
          exact le_refl _
    · refine ⟨fun server v hv => ?_, fun server => le_of_eq ?_⟩
      · show (cluster.handlers server).currentView.viewNum ≤ _
        rw [hframe.currentView server]
        apply hahead server v
        cases hv with
        | assigning htask =>
            rcases hframe.tasks server _ htask with hold | ⟨sender, query, he⟩
            · exact .assigning hold
            · cases he
        | pinged hping => exact .pinged ((congrFun hframe.pings server).symm.trans hping)
      · show _ = (cluster.handlers server).currentView.viewNum
        rw [hframe.currentView server]
        rfl

theorem initial_ahead : Ahead {} := by
  intro server v hv
  cases hv with
  | assigning htask => cases htask
  | pinged hping => cases hping

/-- In every run in which each server assigns an older view first, the view that
a server has adopted never gets older, and `cleanHash` never runs under a view
older than one already adopted. -/
theorem adopted_mono_of_inOrder {s s' : System}
    (hs : Reach step (fun s e => s.inOrder e = true) {} s)
    (h : Reach step (fun s e => s.inOrder e = true) s s') (server : Server) :
    s.adopted server ≤ s'.adopted server ∧
      ∀ e v, s'.cleansUnder e = some (server, v) → s.adopted server ≤ v.viewNum := by
  have hstart : Inv s ∧ Ahead s := by
    apply hs.invariant (P := fun s => Inv s ∧ Ahead s)
    · exact ⟨initial_inv, initial_ahead⟩
    · intro s e s' hboth horder hstep
      exact ⟨step_inv hboth.1 hstep, (step_ahead hboth.1 hboth.2 horder hstep).1⟩
  have hend : (Inv s' ∧ Ahead s') ∧ s.adopted server ≤ s'.adopted server := by
    apply h.invariant (P := fun t => (Inv t ∧ Ahead t) ∧ s.adopted server ≤ t.adopted server)
    · exact ⟨hstart, le_refl _⟩
    · intro t e t' ht horder hstep
      obtain ⟨hahead, hmono⟩ := step_ahead ht.1.1 ht.1.2 horder hstep
      exact ⟨⟨step_inv ht.1.1 hstep, hahead⟩, ht.2.trans (hmono server)⟩
  refine ⟨hend.2, fun e v hv => ?_⟩
  rw [cleansUnder_eq hv]
  exact hend.2

/-- A client's request names the view of a server that has joined meanwhile, so
that both threads of the first server fetch the new view. -/
def refreshEvents (s t : Server) : List Event :=
  let view : GetServersReply :=
    { view := { hashToServer := (View.single [s]).hashToServer.insert 5 [t] }, viewNum := 2 }
  [.service (.addPing t 0), .service (.addView 5),
    .act (.on s (.request (.put ⟨[1], [7], 2⟩))), .act (.on s (.refresh view)),
    .act (.on s .assign)]

theorem adopted_mono_of_inOrder_joined :
    ∃ s s' : System, Reach step (fun s e => s.inOrder e = true) {} s ∧
      Reach step (fun s e => s.inOrder e = true) s s' ∧
      s.adopted ⟨[1], 1⟩ ≤ s'.adopted ⟨[1], 1⟩ ∧ s'.adopted ⟨[1], 1⟩ = 2 ∧
      ∃ v, s'.cleansUnder (.act (.on ⟨[1], 1⟩ .clean)) = some (⟨[1], 1⟩, v) ∧
        s.adopted ⟨[1], 1⟩ ≤ v.viewNum := by
  have hrun : ((perform step (fun s e => s.inOrder e = true) {} (joinEvents ⟨[1], 1⟩)).bind
      fun s => (perform step (fun s e => s.inOrder e = true) s
        (refreshEvents ⟨[1], 1⟩ ⟨[2], 2⟩)).map fun s' =>
          (s'.adopted ⟨[1], 1⟩, (s'.cleansUnder (.act (.on ⟨[1], 1⟩ .clean))).map Prod.fst)) =
      some (2, some ⟨[1], 1⟩) := by
    decide +kernel
  obtain ⟨s, hs, hlast⟩ := Option.bind_eq_some_iff.mp hrun
  obtain ⟨s', hs', hend⟩ := Option.map_eq_some_iff.mp hlast
  simp only [Prod.mk.injEq] at hend
  obtain ⟨⟨server, v⟩, hclean, rfl⟩ := Option.map_eq_some_iff.mp hend.2
  have hmono := adopted_mono_of_inOrder (reach_of_perform hs) (reach_of_perform hs') ⟨[1], 1⟩
  exact ⟨s, s', reach_of_perform hs, reach_of_perform hs', hmono.1, hend.1, v, hclean,
    hmono.2 _ v hclean⟩

/-- The ping thread has fetched view 1 and not assigned it. A server joins, the
handler thread fetches and assigns view 2, and then the ping thread assigns
view 1. -/
def staleEvents (s t : Server) : List Event :=
  let view : GetServersReply := { view := View.single [s], viewNum := 1 }
  joinEvents s ++ [.act (.on s (.ping view))] ++ refreshEvents s t ++
    [.act (.on s .clean), .act (.on s .serve)]

theorem adopted_decreases :
    ∃ s s' : System, Reach step anyAction {} s ∧
      s.step (.act (.on ⟨[1], 1⟩ .pingAssign)) = some s' ∧
      s'.adopted ⟨[1], 1⟩ < s.adopted ⟨[1], 1⟩ ∧
      ∃ v, s'.cleansUnder (.act (.on ⟨[1], 1⟩ .pingClean)) = some (⟨[1], 1⟩, v) ∧
        v.viewNum < s.adopted ⟨[1], 1⟩ := by
  have hrun : ((perform step anyAction {} (staleEvents ⟨[1], 1⟩ ⟨[2], 2⟩)).bind fun s =>
      (s.step (.act (.on ⟨[1], 1⟩ .pingAssign))).map fun s' =>
        (s.adopted ⟨[1], 1⟩, s'.adopted ⟨[1], 1⟩,
          (s'.cleansUnder (.act (.on ⟨[1], 1⟩ .pingClean))).map
            fun p => (p.1, p.2.viewNum))) = some (2, 1, some (⟨[1], 1⟩, 1)) := by
    decide +kernel
  obtain ⟨s, hs, hlast⟩ := Option.bind_eq_some_iff.mp hrun
  obtain ⟨s', hs', hend⟩ := Option.map_eq_some_iff.mp hlast
  simp only [Prod.mk.injEq] at hend
  obtain ⟨hbefore, hafter, hclean⟩ := hend
  obtain ⟨⟨server, v⟩, hv, hnum⟩ := Option.map_eq_some_iff.mp hclean
  simp only [Prod.mk.injEq] at hnum
  rw [hnum.1] at hv
  refine ⟨s, s', reach_of_perform hs, hs', by omega, v, hv, by omega⟩

end System

end RobustCache
