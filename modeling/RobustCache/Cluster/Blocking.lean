import RobustCache.Cluster.System

/-! # Waiting on each other

The view service waits for a server that it polls, and a server waits for the
view service when a request is ahead of its view. Each process serves one call
at a time, so neither wait ends while the other one lasts.
-/

namespace RobustCache

open Lib

namespace System

def waiting (s : System) (server : Server) : Bool :=
  match s.cluster.tasks server with
  | some (.refreshing _) => true
  | _ => false

/-- The view service is blocked calling `getStatistics` on a server whose handler
thread is blocked calling `receivePing` on the view service. -/
def WaitCycle (s : System) : Prop :=
  ∃ server rest, s.polling = some (server :: rest) ∧ s.waiting server = true

/-- No poll begins while a server of the view waits, and no server that is still
to be polled gets a request that is ahead of its view. -/
def patient (s : System) : Event → Bool
  | .getStatistics => s.vs.servers.all fun server => !s.waiting server
  | .act (.on server (.request call)) =>
      decide (call.viewNum ≤ (s.cluster.handlers server).currentView.viewNum) ||
        decide (server ∉ s.polling.getD [])
  | _ => true

theorem waiting_iff {s : System} {server : Server} :
    s.waiting server = true ↔ ∃ call, s.cluster.tasks server = some (.refreshing call) := by
  unfold waiting
  split
  · next call htask => simp [htask]
  · next hno =>
    constructor
    · intro h
      cases h
    · intro h
      obtain ⟨call, htask⟩ := h
      exact absurd htask (hno call)

/-! ## A cycle never ends -/

theorem step_waitCycle {s s' : System} {e : Event} (hcycle : s.WaitCycle)
    (h : s.step e = some s') : s'.WaitCycle := by
  obtain ⟨server, rest, hpoll, hwait⟩ := hcycle
  obtain ⟨call, htask⟩ := waiting_iff.mp hwait
  have hbusy : ¬ s.Free := by
    intro hfree
    rw [Free, hpoll] at hfree
    cases hfree.1
  cases step_moves h with
  | service hvs => exact ⟨server, rest, hpoll, hwait⟩
  | getStatistics hfree => exact absurd hfree hbusy
  | pollEnds hpoll' =>
      rw [hpoll] at hpoll'
      cases hpoll'
  | polled hpoll' hidle =>
      rw [hpoll] at hpoll'
      cases hpoll'
      rw [htask] at hidle
      cases hidle
  | fetch hfree => exact absurd hfree hbusy
  | @act a cluster hview hcluster =>
      -- only an answer of the view service would end the wait
      have hwaits : ¬ Cluster.Advances server (.refreshing call) a := by
        intro hadv
        rcases hadv.own_step with ⟨b, rfl, hb⟩ | ⟨-, sender, query, he⟩
        · cases b with
          | refresh view => exact hbusy (hview view rfl).1
          | _ => exact hb.elim
        · cases he
      have hkept := (Cluster.step_moves hcluster).task_kept htask hwaits
      exact ⟨server, rest, hpoll, waiting_iff.mpr ⟨call, hkept⟩⟩

/-- Once the view service and a server wait on each other they do so for good. -/
theorem waitCycle_forever {s s' : System} (hcycle : s.WaitCycle) (h : Reach step anyAction s s') :
    s'.WaitCycle :=
  h.invariant hcycle fun _ _ _ hs _ hstep => step_waitCycle hs hstep

/-! ## Runs without a cycle -/

/-- A server begins to wait with a request that is ahead of its view. -/
theorem begins_waiting {c c' : Cluster} {a : Action} (h : c.step a = some c') (hs : c.Sound)
    {server : Server} {call : ClientCall} (ht : c'.tasks server = some (.refreshing call)) :
    c.tasks server = some (.refreshing call) ∨
      (a = .on server (.request call) ∧
        call.viewNum > (c.handlers server).currentView.viewNum) := by
  cases (Cluster.step_moves h).on_or_frame hs with
  | inl hon =>
      obtain ⟨t, b, n, rfl, rfl, hdoes⟩ := hon
      by_cases hst : server = t
      · subst hst
        rw [Cluster.tasks_set, Function.update_self] at ht
        cases hdoes.begins (hs.represents server) ht with
        | inl hold => exact .inl hold
        | inr hnew =>
            cases hnew with
            | refreshing ha hidle hnum => exact .inr ⟨by rw [ha], hnum⟩
      · rw [Cluster.tasks_set, Function.update_of_ne hst] at ht
        exact .inl ht
  | inr hframe =>
      cases hframe.tasks server _ ht with
      | inl hold => exact .inl hold
      | inr hnew =>
          obtain ⟨sender, query, he⟩ := hnew
          cases he

def NoneWaits (s : System) : Prop := ∀ server ∈ s.polling.getD [], ¬ s.waiting server = true

theorem step_noneWaits {s s' : System} {e : Event} (hinv : Inv s) (hnone : s.NoneWaits)
    (hpatient : s.patient e = true) (h : s.step e = some s') : s'.NoneWaits := by
  intro server hserver hwait
  cases step_moves h with
  | service hvs => exact hnone server hserver hwait
  | getStatistics hfree =>
      have hall : ∀ t ∈ s.vs.servers, s.waiting t = false := by simpa [patient] using hpatient
      have hfalse : s.waiting server = false := hall server hserver
      exact absurd (hfalse.symm.trans hwait) Bool.false_ne_true
  | pollEnds hpoll => cases hserver
  | @polled first rest hpoll hidle =>
      have hmem : server ∈ s.polling.getD [] := by
        rw [hpoll]
        exact List.mem_cons_of_mem first hserver
      exact hnone server hmem hwait
  | fetch hfree => exact hnone server hserver hwait
  | act hview hcluster =>
      obtain ⟨call, htask⟩ := waiting_iff.mp hwait
      cases begins_waiting hcluster hinv.sound htask with
      | inl hold => exact hnone server hserver (waiting_iff.mpr ⟨call, hold⟩)
      | inr hnew =>
          obtain ⟨rfl, hnum⟩ := hnew
          simp only [patient, Bool.or_eq_true, decide_eq_true_eq] at hpatient
          cases hpatient with
          | inl hle => omega
          | inr hnot => exact hnot hserver

/-- In every run of patient steps, the view service and a server never wait on
each other. -/
theorem no_waitCycle_of_patient {s : System}
    (h : Reach step (fun s e => s.patient e = true) {} s) : ¬ s.WaitCycle := by
  have hboth : Inv s ∧ s.NoneWaits := by
    apply h.invariant (P := fun s => Inv s ∧ s.NoneWaits)
    · constructor
      · exact initial_inv
      · intro server hserver
        cases hserver
    · intro s e s' hs hpatient hstep
      exact ⟨step_inv hs.1 hstep, step_noneWaits hs.1 hs.2 hpatient hstep⟩
  intro hcycle
  obtain ⟨server, rest, hpoll, hwait⟩ := hcycle
  have hmem : server ∈ s.polling.getD [] := by
    rw [hpoll]
    exact List.mem_cons_self
  exact hboth.2 server hmem hwait

theorem no_waitCycle_of_patient_joined :
    ∃ s, Reach step (fun s e => s.patient e = true) {} s ∧ s.polling = some [⟨[1], 1⟩] ∧
      ¬ s.WaitCycle := by
  have hrun : ((perform step (fun s e => s.patient e = true) {}
      (joinEvents ⟨[1], 1⟩ ++ [.getStatistics])).map fun s => s.polling) =
        some (some [⟨[1], 1⟩]) := by
    decide +kernel
  obtain ⟨s, hs, hpoll⟩ := Option.map_eq_some_iff.mp hrun
  exact ⟨s, reach_of_perform hs, hpoll, no_waitCycle_of_patient (reach_of_perform hs)⟩

/-- A server joins; a client that has fetched the view sends it a put before its
first ping; the view service gets a call of `getStatistics` before the call of
`receivePing` that the server makes. -/
theorem waitCycle_reached :
    ∃ s, Reach step anyAction {} s ∧ s.WaitCycle ∧
      ∀ s', Reach step anyAction s s' → s'.WaitCycle := by
  have hrun : ((perform step anyAction {}
      [.service (.addPing ⟨[1], 1⟩ 0), .service (.addView 0), .fetch 0,
        .act (.on ⟨[1], 1⟩ (.request (.put ⟨[1], [7], 1⟩))), .getStatistics]).map fun s =>
          (s.polling, s.waiting ⟨[1], 1⟩)) = some (some [⟨[1], 1⟩], true) := by
    decide +kernel
  obtain ⟨s, hs, hend⟩ := Option.map_eq_some_iff.mp hrun
  have hcycle : s.WaitCycle := ⟨_, _, congrArg Prod.fst hend, congrArg Prod.snd hend⟩
  exact ⟨s, reach_of_perform hs, hcycle, fun s' hs' => waitCycle_forever hcycle hs'⟩

end System

end RobustCache
