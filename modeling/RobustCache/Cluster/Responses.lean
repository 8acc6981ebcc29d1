import RobustCache.Cluster.Provenance

/-! # How a call ends

The answer that a section of the handler thread gives to the client whose call it is in.
A section that gives none leaves the thread in the call. With `WRONG_SERVER` the thread
answers only when it has decided with a view whose number is not that of the call, or
in which the server is not in the group of the key.
-/

namespace RobustCache

open Lib

/-- How the call of a client ends. -/
inductive Response where
  | replied
  | wrongServer
  /-- The handler has thrown, and the client gets an exception as well. -/
  | thrown
deriving DecidableEq

def Task.view? : Task → Option GetServersReply
  | .assigning _ view => some view
  | .cleaning _ view => some view
  | _ => none

namespace Node

/-- The answer after a section of the process; `f` goes on from its return. -/
def respondAfter {α : Type} (n : Node) (x : Locked α) (f : Node → α → Option Response) :
    Option Response :=
  match x n.toProcess with
  | .returns a p => f { n with toProcess := p } a
  | .throws _ => some .thrown
  | .stuck => none

/-- The last line of `checkServer`; there is no answer yet if the check passes. -/
def ownerResponse (n : Node) (call : ClientCall) (view : GetServersReply) : Option Response :=
  match n.handler.owns view.view call.key with
  | .ok true => none
  | .ok false => some .wrongServer
  | .error _ => some .thrown

/-- `checkServer` after the view has been refreshed. -/
def concludeResponse (n : Node) (call : ClientCall) (view : GetServersReply) : Option Response :=
  if call.viewNum ≠ view.viewNum then some .wrongServer else n.ownerResponse call view

/-- The answer with which a section ends the call of a client, if it ends it. -/
def response (n : Node) : Local → Option Response
  | .request call =>
      n.respondAfter Locked.readView fun n view =>
        if call.viewNum < view.viewNum then some .wrongServer
        else if call.viewNum > view.viewNum then none
        else n.ownerResponse call view
  | .assign =>
      match n.task with
      | some (.assigning call view) =>
          n.respondAfter (Locked.assignView view) fun n needToClean =>
            if needToClean then none else n.concludeResponse call view
      | _ => none
  | .clean =>
      match n.task with
      | some (.cleaning call view) =>
          n.respondAfter Locked.cleanHash fun n _ => n.concludeResponse call view
      | _ => none
  | .serve =>
      match n.task with
      | some (.serving (.put args)) =>
          n.respondAfter (Locked.putSection args) fun _ _ => some .replied
      | some (.serving (.get args)) =>
          n.respondAfter (Locked.getSection args) fun _ _ => some .replied
      | _ => none
  | _ => none

/-! ## What a section answers -/

/-- The view with which a section decides about a call. -/
inductive Decides (n : Node) (b : Local) (call : ClientCall) : GetServersReply → Prop
  | current (hb : b = .request call) (hnum : call.viewNum ≤ n.handler.currentView.viewNum) :
      Decides n b call n.handler.currentView
  | received {t : Task} {view : GetServersReply} (hb : b = .assign ∨ b = .clean)
      (htask : n.task = some t) (hview : t.view? = some view) : Decides n b call view

/-- What becomes of the call of a client in a step of its server. -/
inductive Responds (n : Node) (b : Local) (call : ClientCall) (n' : Node) : Prop
  | goesOn {t : Task} (hnone : n.response b = none) (htask : n'.task = some t)
      (hcall : t.call? = some call)
  | refused {view : GetServersReply} (hsome : n.response b = some .wrongServer)
      (hview : n.Decides b call view)
      (hnot : call.viewNum = view.viewNum → n'.handler.server ∉ group call.key view.view)
  | ended {r : Response} (hsome : n.response b = some r) (hother : r ≠ .wrongServer)

/-- The answer and the task of the thread after `checkServer` has decided. -/
def Settles (call : ClientCall) (view : GetServersReply) (r : Option Response) (n' : Node) : Prop :=
  (r = none ∧ n'.task = some (.serving call)) ∨
    (r = some .wrongServer ∧
      (call.viewNum = view.viewNum → n'.handler.server ∉ group call.key view.view)) ∨
    r = some .thrown

theorem ownerResponse_settles (n : Node) (call : ClientCall) (view : GetServersReply) :
    Settles call view (n.ownerResponse call view) (n.decideOwner call view) := by
  unfold ownerResponse decideOwner
  by_cases hring : view.view.NonEmpty
  · rw [Handler.owns_eq n.handler hring]
    by_cases hown : n.handler.server ∈ group call.key view.view
    · rw [decide_eq_true hown]
      exact .inl ⟨rfl, rfl⟩
    · rw [decide_eq_false hown]
      exact .inr (.inl ⟨rfl, fun _ => hown⟩)
  · rw [Handler.owns_of_empty n.handler hring]
    exact .inr (.inr rfl)

theorem concludeResponse_settles (n : Node) (call : ClientCall) (view : GetServersReply) :
    Settles call view (n.concludeResponse call view) (n.conclude call view) := by
  unfold concludeResponse conclude
  by_cases hnum : call.viewNum = view.viewNum
  · rw [if_neg (not_not.mpr hnum), if_neg (not_not.mpr hnum)]
    exact ownerResponse_settles n call view
  · rw [if_pos hnum, if_pos hnum]
    exact .inr (.inl ⟨rfl, fun he => absurd he hnum⟩)

theorem run_responds {α : Type} {n n' : Node} {x : Locked α} {f : Node → α → Node}
    {g : Node → Node} {r : Node → α → Option Response} {P : Option Response → Node → Prop}
    (h : n.run x f g = some n')
    (hreturns : ∀ a p, x n.toProcess = .returns a p →
      P (r { n with toProcess := p } a) (f { n with toProcess := p } a))
    (hthrows : ∀ p, x n.toProcess = .throws p → P (some .thrown) (g { n with toProcess := p })) :
    P (n.respondAfter x r) n' := by
  unfold run at h
  unfold respondAfter
  cases hx : x n.toProcess with
  | returns a p =>
      rw [hx] at h
      cases h
      exact hreturns a p hx
  | throws p =>
      rw [hx] at h
      cases h
      exact hthrows p hx
  | stuck =>
      rw [hx] at h
      cases h

theorem Settles.responds {n n' : Node} {b : Local} {call : ClientCall} {view : GetServersReply}
    (h : Settles call view (n.response b) n') (hview : n.Decides b call view) :
    n.Responds b call n' := by
  rcases h with ⟨hnone, htask⟩ | ⟨hsome, hnot⟩ | hsome
  · exact .goesOn hnone htask rfl
  · exact .refused hsome hview hnot
  · exact .ended hsome fun he => by cases he

theorem request_responds {n n' : Node} {call : ClientCall} (h : n.request call = some n') :
    n.Responds (.request call) call n' := by
  have hread : ∀ view p, Locked.readView n.toProcess = .returns view p →
      view = n.handler.currentView := by
    intro view p hx
    have hends := Locked.readView_ends n.toProcess (fun _ => False)
    rw [hx] at hends
    exact hends.1
  have hnever : ∀ p, Locked.readView n.toProcess ≠ .throws p := by
    intro p hx
    have hends := Locked.readView_ends n.toProcess (fun _ => False)
    rw [hx] at hends
    exact hends
  unfold request at h
  split at h
  · cases h
  · by_cases hnew : call.viewNum > n.handler.currentView.viewNum
    · have hafter : n.response (.request call) = none ∧ n'.task = some (.refreshing call) := by
        simp only [response]
        apply run_responds (P := fun r n' => r = none ∧ n'.task = some (.refreshing call)) h
        · intro view p hx
          rw [hread view p hx, if_neg (by omega), if_pos hnew, if_neg (by omega), if_pos hnew]
          exact ⟨rfl, rfl⟩
        · intro p hx
          exact absurd hx (hnever p)
      exact .goesOn hafter.1 hafter.2 rfl
    · have hsettles : Settles call n.handler.currentView (n.response (.request call)) n' := by
        simp only [response]
        apply run_responds (P := Settles call n.handler.currentView) h
        · intro view p hx
          rw [hread view p hx, if_neg hnew, if_neg hnew]
          by_cases hold : call.viewNum < n.handler.currentView.viewNum
          · rw [if_pos hold, if_pos hold]
            exact .inr (.inl ⟨rfl, fun he => by omega⟩)
          · rw [if_neg hold, if_neg hold]
            exact ownerResponse_settles _ _ _
        · intro p hx
          exact absurd hx (hnever p)
      exact hsettles.responds (.current rfl (by omega))

theorem assign_responds {n n' : Node} {call : ClientCall} {view : GetServersReply}
    (htask : n.task = some (.assigning call view)) (h : n.assign = some n') :
    n.Responds .assign call n' := by
  have hresponse : n.response .assign =
      n.respondAfter (Locked.assignView view) fun n needToClean =>
        if needToClean then none else n.concludeResponse call view := by
    simp only [response, htask]
  simp only [assign, htask] at h
  have hafter : (n.response .assign = none ∧ n'.task = some (.cleaning call view)) ∨
      Settles call view (n.response .assign) n' := by
    rw [hresponse]
    apply run_responds (P := fun r n' =>
      (r = none ∧ n'.task = some (.cleaning call view)) ∨ Settles call view r n') h
    · intro needToClean p hx
      cases needToClean with
      | true => exact .inl ⟨rfl, rfl⟩
      | false => exact .inr (concludeResponse_settles _ call view)
    · intro p hx
      exact .inr (.inr (.inr rfl))
  cases hafter with
  | inl hclean => exact .goesOn hclean.1 hclean.2 rfl
  | inr hsettles => exact hsettles.responds (.received (.inl rfl) htask rfl)

theorem clean_responds {n n' : Node} {call : ClientCall} {view : GetServersReply}
    (htask : n.task = some (.cleaning call view)) (h : n.clean = some n') :
    n.Responds .clean call n' := by
  have hresponse : n.response .clean =
      n.respondAfter Locked.cleanHash fun n _ => n.concludeResponse call view := by
    simp only [response, htask]
  simp only [clean, htask] at h
  have hsettles : Settles call view (n.response .clean) n' := by
    rw [hresponse]
    apply run_responds (P := Settles call view) h
    · intro _ p hx
      exact concludeResponse_settles _ call view
    · intro p hx
      exact .inr (.inr rfl)
  exact hsettles.responds (.received (.inr rfl) htask rfl)

theorem serve_responds {n n' : Node} {call : ClientCall} (htask : n.task = some (.serving call))
    (h : n.serve = some n') : n.Responds .serve call n' := by
  have hafter : ∃ r, n.response .serve = some r ∧ r ≠ .wrongServer := by
    cases call with
    | put args =>
        simp only [serve, htask] at h
        simp only [response, htask]
        apply run_responds (P := fun r _ => ∃ e, r = some e ∧ e ≠ Response.wrongServer) h
        · intro _ p hx
          exact ⟨_, rfl, fun he => by cases he⟩
        · intro p hx
          exact ⟨_, rfl, fun he => by cases he⟩
    | get args =>
        simp only [serve, htask] at h
        simp only [response, htask]
        apply run_responds (P := fun r _ => ∃ e, r = some e ∧ e ≠ Response.wrongServer) h
        · intro _ p hx
          exact ⟨_, rfl, fun he => by cases he⟩
        · intro p hx
          exact ⟨_, rfl, fun he => by cases he⟩
  obtain ⟨r, hsome, hother⟩ := hafter
  exact .ended hsome hother

def Handles (n : Node) (b : Local) (call : ClientCall) : Prop :=
  b = .request call ∨ ∃ t, n.task = some t ∧ t.call? = some call

theorem step_responds {n n' : Node} {b : Local} {call : ClientCall} (hcall : n.Handles b call)
    (h : n.step b = some n') : n.Responds b call n' := by
  rcases hcall with rfl | ⟨t, htask, hcall⟩
  · exact request_responds h
  · have hsame : ∀ {t'}, n.task = some t' → t'.call? = some call := by
      intro t' ht'
      rw [htask] at ht'
      cases ht'
      exact hcall
    cases step_does h with
    | decided hp hidle => cases htask.symm.trans hidle
    | ahead hp hidle hnum => cases htask.symm.trans hidle
    | refreshed htask' =>
        cases hsame htask'
        exact .goesOn rfl rfl rfl
    | assigned htask' hp =>
        cases hsame htask'
        exact assign_responds htask' h
    | cleaned htask' hp =>
        cases hsame htask'
        exact clean_responds htask' h
    | cleanThrew htask' hp =>
        cases hsame htask'
        exact clean_responds htask' h
    | put htask' hput hget hp =>
        cases hsame htask'
        exact serve_responds htask' h
    | putThrew htask' hp =>
        cases hsame htask'
        exact serve_responds htask' h
    | get htask' hp =>
        cases hsame htask'
        exact serve_responds htask' h
    | received hidle => exact .goesOn rfl htask hcall
    | pingAssigned hping hp => exact .goesOn rfl htask hcall
    | pingCleaned hping hp => exact .goesOn rfl htask hcall
    | quiet hp => exact .goesOn rfl htask hcall
    | sent hidle hsnap hp => exact .goesOn rfl htask hcall
    | finished hex hphase hp => exact .goesOn rfl htask hcall

end Node

end RobustCache
