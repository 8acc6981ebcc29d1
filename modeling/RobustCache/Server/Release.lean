import RobustCache.Server.Locks

/-! # Which calls release the mutexes

A call that begins with both mutexes released releases them again exactly when
no ring lookup meets an empty ring while a mutex is held.
-/

namespace RobustCache

open Lib

/-! ## Calls -/

/-- The calls that take the mutexes: the requests, the ping thread and the end
of an exchange. -/
inductive Call where
  | put (query : PutArgs) (pinged : GetServersReply) (change : Option GetServersReply)
  | get (query : GetArgs) (pinged : GetServersReply)
  | antiEntropy (query : AntiEntropyArgs)
  | checkServer (viewNum : Int) (key : Bytes) (pinged : GetServersReply)
  | cleanHash
  | assignView (view : GetServersReply)
  | processReply (peer : Server) (reply : AntiEntropyReply)

namespace Call

def run : Call → Locked Unit
  | .put query pinged change => do let _ ← Locked.put query pinged change; return ()
  | .get query pinged => do let _ ← Locked.get query pinged; return ()
  | .antiEntropy query => do let _ ← Locked.antiEntropy query; return ()
  | .checkServer viewNum key pinged => do let _ ← Locked.checkServer viewNum key pinged; return ()
  | .cleanHash => Locked.cleanHash
  | .assignView view => do let _ ← Locked.assignView view; return ()
  | .processReply peer reply => Locked.processReply peer reply

def step (p : Process) (c : Call) : Option Process :=
  match c.run p with
  | .returns _ p' => some p'
  | .throws p' => some p'
  | .stuck => none

open Locked

theorem run_keeps_sound (c : Call) : Keeps Process.Sound c.run := by
  cases c with
  | put query pinged change =>
      refine Keeps.bind ?_ fun _ => keeps_pure _
      refine (checkServer_keeps_sound _ _ _).bind fun ok => Keeps.bind ?_ fun _ =>
        Keeps.ite (putSection_keeps_sound query) (keeps_pure _)
      cases change with
      | none => exact keeps_pure _
      | some view => exact assignView_keeps_sound view
  | get query pinged =>
      refine Keeps.bind ?_ fun _ => keeps_pure _
      refine (checkServer_keeps_sound _ _ _).bind fun ok =>
        Keeps.ite (hashSection_keeps_sound ?_) (keeps_pure _)
      intro h items hr h' a hrun
      rcases Handler.getLocked_spec hr query with ⟨st, hget, hrep⟩
      rw [hget] at hrun
      cases hrun
      exact ⟨_, hrep⟩
  | antiEntropy query =>
      refine Keeps.bind ?_ fun _ => keeps_pure _
      refine readView_keeps_sound.bind fun _ =>
        Keeps.ite (hashSection_keeps_sound ?_) (keeps_pure _)
      intro h items hr h' a hrun
      rcases Handler.antiEntropyLocked_spec hr query with ⟨st, hmerge, hrep⟩
      rw [hmerge] at hrun
      cases hrun
      exact ⟨_, hrep⟩
  | checkServer viewNum key pinged =>
      exact (checkServer_keeps_sound _ _ _).bind fun _ => keeps_pure _
  | cleanHash => exact cleanHash_keeps_sound
  | assignView view => exact (assignView_keeps_sound view).bind fun _ => keeps_pure _
  | processReply peer reply =>
      refine lockHash_keeps_sound.bind fun _ => (keeps_within ?_).bind fun _ _ hp => hp
      intro h items hr h' a hrun
      by_cases hok : reply.status = .ok
      · rcases Handler.replyLocked_spec hr peer hok with ⟨st, hreply, hrep⟩
        rw [hreply] at hrun
        cases hrun
        exact ⟨_, hrep⟩
      · rw [Handler.replyLocked, if_neg hok] at hrun
        cases hrun
        exact ⟨items, hr⟩

/-- No call releases a mutex that was held when it began. -/
theorem run_not_released {p : Process} (hp : ¬ p.Free) (c : Call) : ¬ (c.run p).Released := by
  have hend : ∀ {I : Process → Prop}, (∀ p, I p → ¬ p.Free) → I p → Keeps I c.run →
      ¬ (c.run p).Released := by
    intro I hI hIp hkeep hrel
    have hall := hkeep p hIp
    cases hrun : c.run p with
    | returns a p' =>
        rw [hrun] at hall hrel
        exact hI p' hall hrel
    | throws p' =>
        rw [hrun] at hall hrel
        exact hI p' hall hrel
    | stuck =>
        rw [hrun] at hrel
        exact hrel
  by_cases hview : p.currentViewMutex = true
  · refine hend (I := ViewHeld) (fun p hv hf => by rw [ViewHeld, hf.2] at hv; cases hv) hview ?_
    cases c with
    | put query pinged change => exact (((checkServer_blocks _ _ _).bind _).bind _).keeps
    | get query pinged => exact (((checkServer_blocks _ _ _).bind _).bind _).keeps
    | antiEntropy query => exact ((readView_blocks.bind _).bind _).keeps
    | checkServer viewNum key pinged => exact ((checkServer_blocks _ _ _).bind _).keeps
    | cleanHash => exact cleanHash_keeps_view
    | assignView view => exact ((lockView_blocks.bind _).bind _).keeps
    | processReply peer reply =>
        exact lockHash_keeps_view.bind fun _ => (within_keeps_held _).2.bind fun _ _ hp => hp
  · have hhash : p.hashMutex = true := by
      by_contra hh
      exact hp ⟨by simpa using hh, by simpa using hview⟩
    refine hend (I := HashHeld) (fun p hv hf => by rw [HashHeld, hf.1] at hv; cases hv) hhash ?_
    cases c with
    | put query pinged change =>
        refine Keeps.bind ?_ fun _ => keeps_pure _
        refine (checkServer_keeps_hash _ _ _).bind fun ok => Keeps.bind ?_ fun _ =>
          Keeps.ite (lockHash_blocks.bind _).keeps (keeps_pure _)
        cases change with
        | none => exact keeps_pure _
        | some view => exact assignView_keeps_hash view
    | get query pinged =>
        refine Keeps.bind ?_ fun _ => keeps_pure _
        exact (checkServer_keeps_hash _ _ _).bind fun ok =>
          Keeps.ite (lockHash_blocks.bind _).keeps (keeps_pure _)
    | antiEntropy query =>
        refine Keeps.bind ?_ fun _ => keeps_pure _
        exact readView_keeps_hash.bind fun _ =>
          Keeps.ite (lockHash_blocks.bind _).keeps (keeps_pure _)
    | checkServer viewNum key pinged =>
        exact (checkServer_keeps_hash _ _ _).bind fun _ => keeps_pure _
    | cleanHash => exact cleanHash_blocks.keeps
    | assignView view => exact (assignView_keeps_hash view).bind fun _ => keeps_pure _
    | processReply peer reply => exact (lockHash_blocks.bind _).keeps

end Call

/-! ## Calls that begin with both mutexes released -/

def Process.idle (h : Handler) : Process := { handler := h }

theorem Process.eq_idle {p : Process} (hp : p.Free) : p = .idle p.handler := by
  rcases p with ⟨h, hash, view⟩
  rcases hp with ⟨rfl, rfl⟩
  rfl

namespace Locked

variable {h : Handler} {items : List Item}

theorem cleanHash_idle (hr : Represents h.toStore items) (hsafe : h.CleanSafe) :
    ∃ h' items', cleanHash (.idle h) = .returns () (.idle h') ∧ Represents h'.toStore items' ∧
      h'.server = h.server ∧ h'.currentView = h.currentView := by
  rcases Handler.cleanHash_ok hr hsafe with ⟨h', items', hrun, hrep, hserver, hview⟩
  refine ⟨h', items', ?_, hrep, hserver, hview⟩
  have hbody : within (fun h => h.cleanHash.map fun h => (h, ())) ⟨h, true, false⟩ =
      .returns () ⟨h', true, false⟩ := within_ok (by simp only [hrun]; rfl)
  exact (bind_returns rfl).trans (bind_returns hbody)

theorem cleanHash_idle_throws (hr : Represents h.toStore items) (hleak : ¬ h.CleanSafe) :
    cleanHash (.idle h) = .throws ⟨h, true, false⟩ := by
  have hbody : within (fun h => h.cleanHash.map fun h => (h, ())) ⟨h, true, false⟩ =
      .throws ⟨h, true, false⟩ :=
    within_throws (by simp only [Handler.cleanHash_throws hr hleak]; rfl)
  exact (bind_returns rfl).trans (bind_throws hbody)

theorem owns_idle {v : View} (key : Bytes) :
    within (fun h => (h.owns v key).map fun owned => (h, owned)) (.idle h) =
      if v.NonEmpty then .returns (decide (h.server ∈ group key v)) (.idle h)
      else .throws (.idle h) := by
  by_cases hv : v.NonEmpty
  · rw [if_pos hv]
    exact within_ok (by simp only [Process.idle, Handler.owns_eq h hv]; rfl)
  · rw [if_neg hv]
    exact within_throws (by simp only [Process.idle, Handler.owns_of_empty h hv]; rfl)

/-- `checkServer` cleans the table, if it does, without an exception. -/
def CheckSafe (h : Handler) (viewNum : Int) (pinged : GetServersReply) : Prop :=
  viewNum > h.currentView.viewNum → pinged.viewNum ≠ h.currentView.viewNum →
    pinged.view.NonEmpty ∨ h.listHead = -1

/-- The assignment of the view in `checkServer`, with the cleaning after it. -/
theorem refresh_idle (hr : Represents h.toStore items) {viewNum : Int}
    {pinged : GetServersReply} (hsafe : CheckSafe h viewNum pinged)
    (hnew : viewNum > h.currentView.viewNum) :
    ∃ h' items', refresh pinged (.idle h) = .returns () (.idle h') ∧
      Represents h'.toStore items' ∧ h'.server = h.server ∧ h'.currentView = pinged := by
  have hr' : Represents ({ h with currentView := pinged } : Handler).toStore items := hr
  by_cases hnum : h.currentView.viewNum = pinged.viewNum
  · refine ⟨{ h with currentView := pinged }, items, ?_, hr', rfl, rfl⟩
    have hassign : assignView pinged (.idle h) =
        .returns false (.idle { h with currentView := pinged }) := by
      show Outcome.returns (decide (h.currentView.viewNum ≠ pinged.viewNum)) _ = _
      simp [hnum, Process.idle]
    exact bind_returns hassign
  · have hassign : assignView pinged (.idle h) =
        .returns true (.idle { h with currentView := pinged }) := by
      show Outcome.returns (decide (h.currentView.viewNum ≠ pinged.viewNum)) _ = _
      simp [hnum, Process.idle]
    rcases cleanHash_idle hr' (hsafe hnew fun he => hnum he.symm) with
      ⟨h', items', hclean, hrep, hserver, hview⟩
    exact ⟨h', items', (bind_returns hassign).trans hclean, hrep, hserver, hview⟩

/-- The tests of `checkServer`, after the view has been read. -/
theorem checkServer_idle_eq (viewNum : Int) (key : Bytes) (pinged : GetServersReply) :
    checkServer viewNum key pinged (.idle h) =
      (if viewNum < h.currentView.viewNum then pure false
      else if viewNum > h.currentView.viewNum then do
        refresh pinged
        if viewNum ≠ pinged.viewNum then return false
        else within fun h => (h.owns pinged.view key).map fun owned => (h, owned)
      else within fun h' =>
        (h'.owns h.currentView.view key).map fun owned => (h', owned) : Locked Bool)
          (.idle h) := rfl

theorem owns_idle_accepts {h h' : Handler} {viewNum : Int} {key : Bytes}
    {pinged view : GetServersReply} (hserver : h'.server = h.server)
    (hdec : h.decided viewNum pinged = view) (hnum : viewNum = view.viewNum) :
    (within fun h => (h.owns view.view key).map fun owned => (h, owned)) (.idle h') =
        .returns (decide (h.Accepts viewNum key pinged)) (.idle h') ∨
      (¬ h.Accepts viewNum key pinged ∧
        (within fun h => (h.owns view.view key).map fun owned => (h, owned)) (.idle h') =
          .throws (.idle h')) := by
  rw [owns_idle]
  by_cases hv : view.view.NonEmpty
  · left
    rw [if_pos hv]
    congr 1
    apply decide_eq_decide.mpr
    unfold Handler.Accepts
    rw [hdec, hserver]
    exact ⟨fun hin => ⟨hnum, hin⟩, fun hacc => hacc.2⟩
  · right
    refine ⟨fun hacc => hv ?_, if_neg hv⟩
    have hin := hacc.2
    rw [hdec] at hin
    exact nonEmpty_of_mem_group hin

/-- A check that cleans safely releases the mutexes and decides as it should. -/
theorem checkServer_idle (hr : Represents h.toStore items) {viewNum : Int} (key : Bytes)
    {pinged : GetServersReply} (hsafe : CheckSafe h viewNum pinged) :
    ∃ h' items', Represents h'.toStore items' ∧ h'.server = h.server ∧
      h'.currentView = h.decided viewNum pinged ∧
      (checkServer viewNum key pinged (.idle h) =
          .returns (decide (h.Accepts viewNum key pinged)) (.idle h') ∨
        (¬ h.Accepts viewNum key pinged ∧
          checkServer viewNum key pinged (.idle h) = .throws (.idle h'))) := by
  rw [checkServer_idle_eq]
  by_cases hold : viewNum < h.currentView.viewNum
  · have hdec : h.decided viewNum pinged = h.currentView := if_neg (by omega)
    have hno : ¬ h.Accepts viewNum key pinged := by
      unfold Handler.Accepts
      rw [hdec]
      omega
    refine ⟨h, items, hr, rfl, hdec.symm, .inl ?_⟩
    rw [if_pos hold, decide_eq_false hno]
    rfl
  rw [if_neg hold]
  by_cases hnew : viewNum > h.currentView.viewNum
  · have hdec : h.decided viewNum pinged = pinged := if_pos hnew
    rcases refresh_idle hr hsafe hnew with ⟨h', items', hrefresh, hrep, hserver, hview⟩
    refine ⟨h', items', hrep, hserver, hview.trans hdec.symm, ?_⟩
    rw [if_pos hnew, bind_returns hrefresh]
    by_cases hnum : viewNum = pinged.viewNum
    · rw [if_neg (not_not.mpr hnum)]
      exact owns_idle_accepts hserver hdec hnum
    · have hno : ¬ h.Accepts viewNum key pinged := by
        unfold Handler.Accepts
        rw [hdec]
        exact fun hacc => hnum hacc.1
      refine .inl ?_
      rw [if_pos hnum, decide_eq_false hno]
      rfl
  · have hdec : h.decided viewNum pinged = h.currentView := if_neg hnew
    have hnum : viewNum = h.currentView.viewNum := by omega
    refine ⟨h, items, hr, rfl, hdec.symm, ?_⟩
    rw [if_neg hnew]
    exact owns_idle_accepts rfl hdec hnum

/-- A check that cleans under an empty ring throws with `hashMutex` held. -/
theorem checkServer_idle_throws (hr : Represents h.toStore items) {viewNum : Int} {key : Bytes}
    {pinged : GetServersReply} (hleak : ¬ CheckSafe h viewNum pinged) :
    checkServer viewNum key pinged (.idle h) =
      .throws ⟨{ h with currentView := pinged }, true, false⟩ := by
  unfold CheckSafe at hleak
  push Not at hleak
  rcases hleak with ⟨hnew, hnum, hring, hlist⟩
  have hr' : Represents ({ h with currentView := pinged } : Handler).toStore items := hr
  have hclean := cleanHash_idle_throws hr' (fun hc => hc.elim hring hlist)
  have hassign : assignView pinged (.idle h) =
      .returns true (.idle { h with currentView := pinged }) := by
    show Outcome.returns (decide (h.currentView.viewNum ≠ pinged.viewNum)) _ = _
    simp [Ne.symm hnum, Process.idle]
  rw [checkServer_idle_eq, if_neg (by omega), if_pos hnew]
  exact bind_throws ((bind_returns hassign).trans hclean)

theorem hashSection_idle {α β : Type} {f : Handler → Except Fault (Handler × α)} {g : α → β}
    {h' : Handler} {a : α} (hf : f h = .ok (h', a)) :
    (do lockHash; let a ← within f; unlockHash; return g a : Locked β) (.idle h) =
      .returns (g a) (.idle h') := by
  have hbody : within f ⟨h, true, false⟩ = .returns a ⟨h', true, false⟩ := within_ok hf
  exact (bind_returns rfl).trans (bind_returns hbody)

/-- The locked section of `put` throws with both mutexes held if the ring is empty. -/
theorem putSection_idle (hr : Represents h.toStore items) (query : PutArgs) :
    ∃ h', putSection query (.idle h) =
      if h.currentView.view.NonEmpty then .returns { status := .ok } (.idle h')
      else .throws ⟨h', true, true⟩ := by
  rcases Handler.putEntry_spec hr query.key query.value with ⟨st, hput, -⟩
  let h₁ : Handler := { h with toStore := st }
  have hentry : within (fun h => (h.putEntry query.key query.value).map fun h => (h, ()))
      ⟨h, true, false⟩ = .returns () ⟨h₁, true, false⟩ := within_ok (by simp only [hput]; rfl)
  by_cases hring : h.currentView.view.NonEmpty
  · refine ⟨h₁.noteDiffs query.key (group query.key h.currentView.view), ?_⟩
    have hget : within (fun h => (getServer (irHash query.key) h.currentView.view).map
        fun servers => (h, servers)) ⟨h₁, true, true⟩ =
          .returns (group query.key h.currentView.view) ⟨h₁, true, true⟩ :=
      within_ok (by simp only [h₁, getServer_eq_group hring]; rfl)
    rw [if_pos hring]
    exact (bind_returns rfl).trans ((bind_returns hentry).trans
      ((bind_returns rfl).trans (bind_returns hget)))
  · refine ⟨h₁, ?_⟩
    have hget : within (fun h => (getServer (irHash query.key) h.currentView.view).map
        fun servers => (h, servers)) ⟨h₁, true, true⟩ = .throws ⟨h₁, true, true⟩ :=
      within_throws (by simp only [h₁, getServer_of_empty hring]; rfl)
    rw [if_neg hring]
    exact (bind_returns rfl).trans ((bind_returns hentry).trans
      ((bind_returns rfl).trans (bind_throws hget)))

end Locked

namespace Call

open Locked

/-- The condition on the state before a call, and on the views it will meet,
under which no ring lookup throws while a mutex is held. -/
def Safe (h : Handler) : Call → Prop
  | .put query pinged change =>
      CheckSafe h query.viewNum pinged ∧
        (h.Accepts query.viewNum query.key pinged →
          (change.getD (h.decided query.viewNum pinged)).view.NonEmpty)
  | .get query pinged => CheckSafe h query.viewNum pinged
  | .checkServer viewNum _ pinged => CheckSafe h viewNum pinged
  | .cleanHash => h.CleanSafe
  | .antiEntropy _ => True
  | .assignView _ => True
  | .processReply _ _ => True

variable {h : Handler} {items : List Item}

theorem idle_free (h : Handler) : (Process.idle h).Free := ⟨rfl, rfl⟩

theorem forget_released {α : Type} (x : Locked α) (p : Process) :
    ((x >>= fun _ => pure ()) p).Released ↔ (x p).Released := by
  cases hrun : x p with
  | returns a p' =>
      rw [bind_returns hrun]
      rfl
  | throws p' =>
      rw [bind_throws hrun]
      rfl
  | stuck =>
      rw [bind_stuck hrun]
      rfl

theorem checkServer_released_iff (hr : Represents h.toStore items) {viewNum : Int} {key : Bytes}
    {pinged : GetServersReply} :
    (Locked.checkServer viewNum key pinged (.idle h)).Released ↔ CheckSafe h viewNum pinged := by
  by_cases hsafe : CheckSafe h viewNum pinged
  · rcases checkServer_idle hr key hsafe with ⟨h', items', -, -, -, hret | ⟨-, hthrow⟩⟩
    · rw [hret]
      exact ⟨fun _ => hsafe, fun _ => idle_free h'⟩
    · rw [hthrow]
      exact ⟨fun _ => hsafe, fun _ => idle_free h'⟩
  · rw [checkServer_idle_throws hr hsafe]
    exact ⟨fun hf => Bool.noConfusion hf.1, fun hc => absurd hc hsafe⟩

theorem cleanHash_released_iff (hr : Represents h.toStore items) :
    (Locked.cleanHash (.idle h)).Released ↔ h.CleanSafe := by
  by_cases hsafe : h.CleanSafe
  · rcases cleanHash_idle hr hsafe with ⟨h', -, hrun, -⟩
    rw [hrun]
    exact ⟨fun _ => hsafe, fun _ => idle_free h'⟩
  · rw [cleanHash_idle_throws hr hsafe]
    exact ⟨fun hf => Bool.noConfusion hf.1, fun hc => absurd hc hsafe⟩

/-- `put` after a check that has decided: the locked section runs under the view
that is in force by then. -/
theorem put_idle (hr : Represents h.toStore items) {query : PutArgs} {pinged : GetServersReply}
    (change : Option GetServersReply) (hsafe : CheckSafe h query.viewNum pinged) :
    (Locked.put query pinged change (.idle h)).Released ↔
      (h.Accepts query.viewNum query.key pinged →
        (change.getD (h.decided query.viewNum pinged)).view.NonEmpty) := by
  rcases checkServer_idle hr query.key hsafe with
    ⟨h', items', hrep, -, hview, hret | ⟨hno, hthrow⟩⟩
  · let view := change.getD (h.decided query.viewNum pinged)
    have harrive : ∃ b, arrive change (.idle h') =
        .returns b (.idle { h' with currentView := view }) := by
      cases change with
      | none =>
          refine ⟨false, ?_⟩
          simp only [view, Option.getD_none, ← hview]
          rfl
      | some v => exact ⟨_, rfl⟩
    rcases harrive with ⟨b, harrive⟩
    have hrun : Locked.put query pinged change (.idle h) =
        (if decide (h.Accepts query.viewNum query.key pinged) = true then putSection query
          else pure { status := .wrongServer } : Locked PutReply)
          (.idle { h' with currentView := view }) :=
      (bind_returns hret).trans (bind_returns harrive)
    rw [hrun]
    by_cases hacc : h.Accepts query.viewNum query.key pinged
    · have hrep' : Represents ({ h' with currentView := view } : Handler).toStore items' := hrep
      rcases putSection_idle hrep' query with ⟨h₂, hput⟩
      rw [if_pos (decide_eq_true hacc), hput]
      by_cases hring : view.view.NonEmpty
      · rw [if_pos hring]
        exact ⟨fun _ _ => hring, fun _ => idle_free h₂⟩
      · rw [if_neg hring]
        exact ⟨fun hf => Bool.noConfusion hf.1, fun hc => absurd (hc hacc) hring⟩
    · rw [if_neg (by simpa using hacc)]
      exact ⟨fun _ hc => absurd hc hacc, fun _ => idle_free _⟩
  · have hrun : Locked.put query pinged change (.idle h) = .throws (.idle h') :=
      bind_throws hthrow
    rw [hrun]
    exact ⟨fun _ hc => absurd hc hno, fun _ => idle_free h'⟩

theorem get_idle (hr : Represents h.toStore items) {query : GetArgs} {pinged : GetServersReply}
    (hsafe : CheckSafe h query.viewNum pinged) :
    (Locked.get query pinged (.idle h)).Released := by
  rcases checkServer_idle hr query.key hsafe with ⟨h', items', hrep, -, -, hret | ⟨-, hthrow⟩⟩
  · have hrun : Locked.get query pinged (.idle h) = _ := bind_returns hret
    rw [hrun]
    by_cases hacc : h.Accepts query.viewNum query.key pinged
    · rcases Handler.getLocked_spec hrep query with ⟨st, hget, -⟩
      rw [if_pos (decide_eq_true hacc)]
      have hsection : getSection query (.idle h') = _ :=
        hashSection_idle (f := fun h => h.getLocked query) (g := id) hget
      rw [hsection]
      exact idle_free _
    · rw [if_neg (by simpa using hacc)]
      exact idle_free _
  · have hrun : Locked.get query pinged (.idle h) = .throws (.idle h') := bind_throws hthrow
    rw [hrun]
    exact idle_free h'

theorem antiEntropy_idle (hr : Represents h.toStore items) (query : AntiEntropyArgs) :
    (Locked.antiEntropy query (.idle h)).Released := by
  have hrun : Locked.antiEntropy query (.idle h) =
      (if h.currentView.viewNum = query.viewNum then mergeSection query
        else pure { status := .wrongServer } : Locked AntiEntropyReply) (.idle h) := rfl
  rw [hrun]
  by_cases hok : h.currentView.viewNum = query.viewNum
  · rcases Handler.antiEntropyLocked_spec hr query with ⟨st, hmerge, -⟩
    rw [if_pos hok]
    have hsection : mergeSection query (.idle h) = _ :=
      hashSection_idle (f := fun h => h.antiEntropyLocked query) (g := id) hmerge
    rw [hsection]
    exact idle_free _
  · rw [if_neg hok]
    exact idle_free _

theorem processReply_idle (hr : Represents h.toStore items) (peer : Server)
    (reply : AntiEntropyReply) : (Locked.processReply peer reply (.idle h)).Released := by
  have hbody : ∃ h', (h.replyLocked peer reply).map (fun h => (h, ())) = .ok (h', ()) := by
    by_cases hok : reply.status = .ok
    · rcases Handler.replyLocked_spec hr peer hok with ⟨st, hreply, -⟩
      exact ⟨_, by rw [hreply]; rfl⟩
    · exact ⟨h, by rw [Handler.replyLocked, if_neg hok]; rfl⟩
  rcases hbody with ⟨h', hbody⟩
  have hrun : within (fun h => (h.replyLocked peer reply).map fun h => (h, ()))
      ⟨h, true, false⟩ = .returns () ⟨h', true, false⟩ := within_ok hbody
  have hall : Locked.processReply peer reply (.idle h) = .returns () (.idle h') :=
    (bind_returns rfl).trans (bind_returns hrun)
  rw [hall]
  exact idle_free h'

theorem not_released_of_leak {α : Type} (hr : Represents h.toStore items) {viewNum : Int}
    {key : Bytes} {pinged : GetServersReply} (hleak : ¬ CheckSafe h viewNum pinged)
    (f : Bool → Locked α) :
    ¬ ((Locked.checkServer viewNum key pinged >>= f) (.idle h)).Released := by
  rw [bind_throws (checkServer_idle_throws hr hleak)]
  exact fun hf => Bool.noConfusion hf.1

/-- From released mutexes, a call releases them exactly when it is safe. -/
theorem run_idle_released_iff (hr : Represents h.toStore items) (c : Call) :
    (c.run (.idle h)).Released ↔ c.Safe h := by
  cases c with
  | put query pinged change =>
      refine (forget_released _ _).trans ?_
      by_cases hsafe : CheckSafe h query.viewNum pinged
      · rw [put_idle hr change hsafe]
        exact ⟨fun hacc => ⟨hsafe, hacc⟩, fun hc => hc.2⟩
      · exact ⟨fun hf => absurd hf (not_released_of_leak hr hsafe _), fun hc => absurd hc.1 hsafe⟩
  | get query pinged =>
      refine (forget_released _ _).trans ?_
      by_cases hsafe : CheckSafe h query.viewNum pinged
      · exact ⟨fun _ => hsafe, fun _ => get_idle hr hsafe⟩
      · exact ⟨fun hf => absurd hf (not_released_of_leak hr hsafe _), fun hc => absurd hc hsafe⟩
  | antiEntropy query =>
      refine (forget_released _ _).trans ?_
      exact ⟨fun _ => trivial, fun _ => antiEntropy_idle hr query⟩
  | checkServer viewNum key pinged =>
      exact (forget_released _ _).trans (checkServer_released_iff hr)
  | cleanHash => exact cleanHash_released_iff hr
  | assignView view => exact ⟨fun _ => trivial, fun _ => idle_free _⟩
  | processReply peer reply =>
      exact ⟨fun _ => trivial, fun _ => processReply_idle hr peer reply⟩

/-- In every reachable state every call ends with both mutexes released if and
only if they were released when it began and the call is safe. -/
theorem run_released_iff {server : Server} {p : Process}
    (hp : Reach step anyAction (.idle (Handler.initial server)) p) (c : Call) :
    (c.run p).Released ↔ p.Free ∧ c.Safe p.handler := by
  have hsound : p.Sound := by
    refine hp.invariant ⟨[], Represents.initial⟩ fun p c p' hs _ hstep => ?_
    have hall := run_keeps_sound c p hs
    unfold step at hstep
    cases hrun : c.run p with
    | returns a p₁ =>
        rw [hrun] at hall hstep
        cases hstep
        exact hall
    | throws p₁ =>
        rw [hrun] at hall hstep
        cases hstep
        exact hall
    | stuck =>
        rw [hrun] at hstep
        cases hstep
  by_cases hfree : p.Free
  · rcases hsound with ⟨items, hr⟩
    rw [Process.eq_idle hfree]
    refine (run_idle_released_iff hr c).trans ?_
    exact ⟨fun hc => ⟨idle_free _, hc⟩, fun hc => hc.2⟩
  · exact ⟨fun hrel => absurd hrel (run_not_released hfree c), fun hc => absurd hc.1 hfree⟩

/-- The server adopts a view, stores one key, and then adopts `view`. -/
def storeThenAdopt (s : Server) (view : GetServersReply) : List Call :=
  let own : GetServersReply := { view := View.single [s], viewNum := 1 }
  [.assignView own, .put ⟨[1], [7], 1⟩ own none, .assignView view]

theorem run_released_iff_stored :
    ∃ p, Reach step anyAction (.idle (Handler.initial ⟨[1], 1⟩)) p ∧
      ((Call.cleanHash.run p).Released ↔ p.Free ∧ Call.cleanHash.Safe p.handler) := by
  let view : GetServersReply := { view := View.single [⟨[2], 2⟩], viewNum := 2 }
  have hsome : (perform step anyAction (.idle (Handler.initial ⟨[1], 1⟩))
      (storeThenAdopt ⟨[1], 1⟩ view)).isSome = true := by decide +kernel
  rcases Option.isSome_iff_exists.mp hsome with ⟨p, hp⟩
  exact ⟨p, reach_of_perform hp, run_released_iff (reach_of_perform hp) .cleanHash⟩

/-- All servers have expired: `cleanHash` throws under the empty ring of the new
view and keeps `hashMutex`. -/
theorem cleanHash_leaks_hashMutex :
    ∃ p, Reach step anyAction (.idle (Handler.initial ⟨[1], 1⟩)) p ∧ p.Free ∧
      ¬ (Call.cleanHash.run p).Released := by
  have hrun : ((perform step anyAction (.idle (Handler.initial ⟨[1], 1⟩))
      (storeThenAdopt ⟨[1], 1⟩ { viewNum := 2 })).map fun p =>
        (decide p.Free, decide (Call.cleanHash.run p).Released)) = some (true, false) := by
    decide +kernel
  rcases Option.map_eq_some_iff.mp hrun with ⟨p, hp, hend⟩
  refine ⟨p, reach_of_perform hp, ?_, ?_⟩
  · exact of_decide_eq_true (congrArg Prod.fst hend)
  · exact of_decide_eq_false (congrArg Prod.snd hend)

end Call

end RobustCache
