import RobustCache.Server.Release
import RobustCache.Cluster.Cluster

/-! # No section waits for ever

As long as the view service hands out rings with a point, every section that takes
a mutex gives it back. A thread that has come to a section can then always go
through it, whatever the other threads have done before.
-/

namespace RobustCache

open Lib

def Action.ringed (a : Action) : Bool := a.view?.all fun v => decide v.view.NonEmpty

theorem Action.nonEmpty_of_ringed {a : Action} {v : GetServersReply} (h : a.ringed = true)
    (hv : a.view? = some v) : v.view.NonEmpty := by
  simpa [Action.ringed, hv] using h

namespace Locked

variable {h : Handler} {items : List Item}

theorem putSection_released (hr : Represents h.toStore items) (query : PutArgs)
    (hring : h.currentView.view.NonEmpty) : (putSection query (.idle h)).Released := by
  obtain ⟨h', hrun⟩ := putSection_idle hr query
  rw [hrun, if_pos hring]
  exact Call.idle_free h'

theorem getSection_idle (hr : Represents h.toStore items) (query : GetArgs) :
    ∃ h' reply, getSection query (.idle h) = .returns reply (.idle h') ∧
      h.getLocked query = .ok (h', reply) := by
  obtain ⟨st, hget, -⟩ := Handler.getLocked_spec hr query
  exact ⟨_, _, hashSection_idle (f := fun h => h.getLocked query) (g := id) hget, hget⟩

theorem mergeSection_idle (hr : Represents h.toStore items) (query : AntiEntropyArgs) :
    ∃ h' reply, mergeSection query (.idle h) = .returns reply (.idle h') ∧
      h.antiEntropyLocked query = .ok (h', reply) := by
  obtain ⟨st, hmerge, -⟩ := Handler.antiEntropyLocked_spec hr query
  exact ⟨_, _, hashSection_idle (f := fun h => h.antiEntropyLocked query) (g := id) hmerge, hmerge⟩

theorem beginExchange_idle (hr : Represents h.toStore items) :
    ∃ sent, beginExchange (.idle h) = .returns sent (.idle h) ∧ h.snapshot = .ok sent := by
  have hsnap := Handler.snapshot_spec hr
  refine ⟨_, ?_, hsnap⟩
  have hread : readViewIf h.nextPeer.isSome ⟨h, true, false⟩ = .returns () ⟨h, true, false⟩ := by
    cases h.nextPeer.isSome <;> rfl
  have hbody : within (fun h => h.snapshot.map fun sent => (h, sent)) ⟨h, true, false⟩ =
      .returns _ ⟨h, true, false⟩ := within_ok (by simp only [hsnap]; rfl)
  exact (bind_returns rfl).trans ((bind_returns rfl).trans
    ((bind_returns hread).trans (bind_returns hbody)))

end Locked

namespace Node

def Due (n : Node) : Local → Prop
  | .request _ => n.task = none
  | .refresh _ => ∃ call, n.task = some (.refreshing call)
  | .assign => ∃ call view, n.task = some (.assigning call view)
  | .clean => ∃ call view, n.task = some (.cleaning call view)
  | .serve => ∃ call, n.task = some (.serving call)
  | .ping _ => n.ping = none
  | .pingAssign => ∃ view, n.ping = some (.assigning view)
  | .pingClean => n.ping = some .cleaning
  | .snapshot => n.exchange = none
  | .finish => ∃ e reply, n.exchange = some e ∧ e.phase = .replied reply

/-- A section that looks keys up in the ring of the current view is next. -/
inductive Looks (n : Node) : Prop
  | cleaning {call : ClientCall} {view : GetServersReply}
      (h : n.task = some (.cleaning call view))
  | serving {call : ClientCall} (h : n.task = some (.serving call))
  | pingCleaning (h : n.ping = some .cleaning)

/-- A thread comes to look keys up in a ring that it has assigned, that passed the
check or that was looked up before. -/
theorem Does.looks {n n' : Node} {a : Local} (h : Does n a n')
    (hr : Represents n.handler.toStore n.handler.items)
    (hreceived : ∀ v, n.Received v → v.view.NonEmpty)
    (hlooks : n.Looks → n.handler.currentView.view.NonEmpty) (hl : n'.Looks) :
    n'.handler.currentView.view.NonEmpty := by
  rcases (h.effect_items hr).1.currentView with hsame | ⟨-, call, htask⟩ | ⟨-, hping⟩
  · rw [hsame]
    cases hl with
    | cleaning htask =>
        cases h.begins hr htask with
        | inl hold => exact hlooks (.cleaning hold)
        | inr hnew =>
            cases hnew with
            | cleaning hassign hview hnum =>
                rw [← hsame, hview]
                exact hreceived _ (.assigning hassign)
    | serving htask =>
        cases h.begins hr htask with
        | inl hold => exact hlooks (.serving hold)
        | inr hnew =>
            cases hnew with
            | decided hview hnum hown => exact nonEmpty_of_mem_group hown
            | assigned hassign hview hnum hown =>
                rw [← hsame, hview]
                exact hreceived _ (.assigning hassign)
            | cleaned hclean hview hnum hown => exact hlooks (.cleaning hclean)
    | pingCleaning hping =>
        rcases h.ping hping with hold | ⟨w, -, hw⟩ | ⟨w, hassign, hnum, -⟩
        · exact hlooks (.pingCleaning hold)
        · cases hw
        · cases h with
          | received hidle => cases hping
          | pingAssigned hassign' hp =>
              rw [← hsame, hp]
              exact hreceived _ (.pinged hassign')
          | pingCleaned hclean hp => cases hping
          | _ => exact hlooks (.pingCleaning hping)
  · exact hreceived _ (.assigning htask)
  · exact hreceived _ (.pinged hping)

theorem run_released {α : Type} {n : Node} (hfree : n.toProcess.Free) {x : Locked α}
    (hx : (x (.idle n.handler)).Released) {f : Node → α → Node} {g : Node → Node}
    (hf : ∀ n a, (f n a).toProcess = n.toProcess) (hg : ∀ n, (g n).toProcess = n.toProcess) :
    ∃ n', n.run x f g = some n' ∧ n'.toProcess.Free := by
  unfold run
  rw [Process.eq_idle hfree]
  cases hrun : x (.idle n.handler) with
  | returns a p =>
      rw [hrun] at hx
      refine ⟨_, rfl, ?_⟩
      rw [hf]
      exact hx
  | throws p =>
      rw [hrun] at hx
      refine ⟨_, rfl, ?_⟩
      rw [hg]
      exact hx
  | stuck =>
      rw [hrun] at hx
      exact hx.elim

theorem decideOwner_process (n : Node) (call : ClientCall) (view : GetServersReply) :
    (n.decideOwner call view).toProcess = n.toProcess := by
  rw [decideOwner_eq]

theorem conclude_process (n : Node) (call : ClientCall) (view : GetServersReply) :
    (n.conclude call view).toProcess = n.toProcess := by
  rw [conclude_eq]

/-- A section whose thread has come to it can be run, and gives its mutexes back. -/
theorem step_of_due {n : Node} {a : Local}
    (hr : Represents n.handler.toStore n.handler.items) (hfree : n.toProcess.Free)
    (hlooks : n.Looks → n.handler.currentView.view.NonEmpty) (hdue : n.Due a) :
    ∃ n', n.step a = some n' ∧ n'.toProcess.Free := by
  have hclean : n.Looks → (Locked.cleanHash (.idle n.handler)).Released := fun hl =>
    (Call.cleanHash_released_iff hr).mpr (.inl (hlooks hl))
  cases a with
  | request call =>
      have hidle : n.task = none := hdue
      simp only [step, request, hidle, Option.isSome_none, Bool.false_eq_true, if_false]
      refine run_released hfree ?_ ?_ fun n => rfl
      · exact Call.idle_free n.handler
      · intro n view
        split
        · rfl
        · split
          · rfl
          · exact decideOwner_process n call view
  | refresh view =>
      obtain ⟨call, htask⟩ := hdue
      simp only [step, refresh, htask]
      exact ⟨_, rfl, hfree⟩
  | assign =>
      obtain ⟨call, view, htask⟩ := hdue
      simp only [step, assign, htask]
      refine run_released hfree ?_ ?_ fun n => rfl
      · exact Call.idle_free { n.handler with currentView := view }
      · intro n needToClean
        split
        · rfl
        · exact conclude_process n call view
  | clean =>
      obtain ⟨call, view, htask⟩ := hdue
      simp only [step, clean, htask]
      exact run_released hfree (hclean (.cleaning htask)) (fun n _ => conclude_process n call view)
        fun n => rfl
  | serve =>
      obtain ⟨call, htask⟩ := hdue
      have hring := hlooks (.serving htask)
      cases call with
      | put args =>
          simp only [step, serve, htask]
          exact run_released hfree (Locked.putSection_released hr args hring) (fun n _ => rfl)
            fun n => rfl
      | get args =>
          obtain ⟨h', reply, hget, -⟩ := Locked.getSection_idle hr args
          simp only [step, serve, htask]
          refine run_released hfree ?_ (fun n _ => rfl) fun n => rfl
          rw [hget]
          exact Call.idle_free h'
  | ping view =>
      have hidle : n.ping = none := hdue
      simp only [step, receive, hidle, Option.isSome_none, Bool.false_eq_true, if_false]
      exact ⟨_, rfl, hfree⟩
  | pingAssign =>
      obtain ⟨view, hping⟩ := hdue
      simp only [step, pingAssign, hping]
      refine run_released hfree ?_ (fun n _ => rfl) fun n => rfl
      exact Call.idle_free { n.handler with currentView := view }
  | pingClean =>
      have hping : n.ping = some .cleaning := hdue
      simp only [step, pingClean, hping]
      exact run_released hfree (hclean (.pingCleaning hping)) (fun n _ => rfl) fun n => rfl
  | snapshot =>
      have hidle : n.exchange = none := hdue
      obtain ⟨sent, hbegin, -⟩ := Locked.beginExchange_idle hr
      simp only [step, snapshot, hidle, Option.isSome_none, Bool.false_eq_true, if_false]
      refine run_released hfree ?_ (fun n _ => rfl) fun n => rfl
      rw [hbegin]
      exact Call.idle_free n.handler
  | finish =>
      obtain ⟨⟨peer, args, phase, since⟩, reply, hex, hphase⟩ := hdue
      simp only at hphase
      subst hphase
      simp only [step, finish, hex]
      exact run_released hfree (Call.processReply_idle hr peer reply) (fun n _ => rfl) fun n => rfl

theorem due_of_step {n n' : Node} {a : Local} (h : n.step a = some n') : n.Due a := by
  cases step_does h with
  | decided hp hidle => exact hidle
  | ahead hp hidle hnum => exact hidle
  | refreshed htask => exact ⟨_, htask⟩
  | assigned htask hp => exact ⟨_, _, htask⟩
  | cleaned htask hp => exact ⟨_, _, htask⟩
  | cleanThrew htask hp => exact ⟨_, _, htask⟩
  | put htask hput hget hp => exact ⟨_, htask⟩
  | putThrew htask hp => exact ⟨_, htask⟩
  | get htask hp => exact ⟨_, htask⟩
  | received hidle => exact hidle
  | pingAssigned hping hp => exact ⟨_, hping⟩
  | pingCleaned hping hp => exact hping
  | quiet hp =>
      simp only [step, snapshot] at h
      split at h
      · cases h
      · next hbusy => simpa [Due] using hbusy
  | sent hidle hsnap hp => exact hidle
  | finished hex hphase hp => exact ⟨_, _, hex, hphase⟩

end Node

namespace Cluster

/-- No mutex is held between two sections. -/
structure Unlocked (c : Cluster) : Prop where
  sound : Sound c
  free : ∀ s, (c.nodes s).toProcess.Free
  received : ∀ s v, (c.nodes s).Received v → v.view.NonEmpty
  looks : ∀ s, (c.nodes s).Looks → (c.handlers s).currentView.view.NonEmpty

theorem initial_unlocked : initial.Unlocked := by
  constructor
  · exact initial_sound
  · intro s
    exact Call.idle_free (Handler.initial s)
  · intro s v hv
    cases hv with
    | assigning h => cases h
    | pinged h => cases h
  · intro s hl
    cases hl with
    | cleaning h => cases h
    | serving h => cases h
    | pingCleaning h => cases h

theorem set_free {c : Cluster} (hfree : ∀ s, (c.nodes s).toProcess.Free) {s : Server} {n : Node}
    (hn : n.toProcess.Free) (t : Server) : ((c.set s n).nodes t).toProcess.Free := by
  by_cases hts : t = s
  · subst hts
    rw [show (c.set t n).nodes t = n from Function.update_self _ _ _]
    exact hn
  · rw [show (c.set s n).nodes t = c.nodes t from Function.update_of_ne hts _ _]
    exact hfree t

theorem modify_free {c : Cluster} (hfree : ∀ s, (c.nodes s).toProcess.Free) {f : Node → Node}
    (hf : ∀ n, (f n).toProcess = n.toProcess) (s t : Server) :
    ((c.modify s f).nodes t).toProcess.Free := by
  apply set_free hfree
  rw [hf]
  exact hfree s

theorem arrive_free {n : Node} (hfree : n.toProcess.Free) (hidle : n.task = none)
    (sender : Option Server) (query : AntiEntropyArgs) :
    ∃ n', n.arrive sender query = some n' ∧ n'.toProcess.Free := by
  simp only [Node.arrive, hidle, Option.isSome_none, Bool.false_eq_true, if_false]
  refine Node.run_released hfree ?_ ?_ fun n => rfl
  · exact Call.idle_free n.handler
  · intro n view
    split
    · rfl
    · rfl

theorem handBack_free {c : Cluster} (hfree : ∀ s, (c.nodes s).toProcess.Free)
    (sender : Option Server) (s : Server) (reply : AntiEntropyReply) (t : Server) :
    (((c.handBack sender s reply).nodes t).toProcess).Free := by
  cases sender with
  | none => exact hfree t
  | some u => exact modify_free hfree (f := fun n => n.answer s reply) (fun n => rfl) u t

theorem merge_free {c : Cluster} (hs : Sound c) (hfree : ∀ s, (c.nodes s).toProcess.Free)
    {s : Server} {sender : Option Server} {query : AntiEntropyArgs}
    (htask : c.tasks s = some (.merging sender query)) :
    ∃ h reply, (c.handlers s).antiEntropyLocked query = .ok (h, reply) ∧
      c.merge s = some ((c.set s { c.nodes s with toProcess := .idle h, task := none }).handBack
        sender s reply) := by
  have htask' : (c.nodes s).task = some (.merging sender query) := htask
  obtain ⟨h, reply, hrun, hmerge⟩ := Locked.mergeSection_idle (hs.represents s) query
  refine ⟨h, reply, hmerge, ?_⟩
  have hidle : (c.nodes s).toProcess = .idle (c.handlers s) := Process.eq_idle (hfree s)
  simp only [merge, htask', hidle, hrun]

theorem step_free {c c' : Cluster} {a : Action} (h : c.step a = some c') (hu : Unlocked c)
    (s : Server) : (c'.nodes s).toProcess.Free := by
  cases a with
  | on t b =>
      obtain ⟨n, hn, rfl⟩ := Option.map_eq_some_iff.mp h
      obtain ⟨n', hn', hfree⟩ := Node.step_of_due (hu.sound.represents t) (hu.free t) (hu.looks t)
        (Node.due_of_step hn)
      rw [hn] at hn'
      cases hn'
      exact set_free hu.free hfree s
  | take t =>
      simp only [step, take] at h
      split at h
      · next peer args since hex =>
        obtain ⟨n, harrive, rfl⟩ := Option.map_eq_some_iff.mp h
        obtain ⟨n', harrive', hfree⟩ := arrive_free (hu.free peer) (arrive_cases harrive).1
          (some t) args
        rw [harrive] at harrive'
        cases harrive'
        refine modify_free (set_free hu.free hfree) ?_ t s
        intro n'
        rfl
      · cases h
  | takeStray peer args =>
      simp only [step, takeStray] at h
      split at h
      · obtain ⟨n, harrive, rfl⟩ := Option.map_eq_some_iff.mp h
        obtain ⟨n', harrive', hfree⟩ := arrive_free (hu.free peer) (arrive_cases harrive).1
          none args
        rw [harrive] at harrive'
        cases harrive'
        exact set_free hu.free hfree s
      · cases h
  | merge t =>
      cases htask : c.tasks t with
      | none =>
          have htask' : (c.nodes t).task = none := htask
          simp only [step, merge, htask'] at h
          cases h
      | some k =>
          have htask' : (c.nodes t).task = some k := htask
          cases k with
          | merging sender query =>
              obtain ⟨h', reply, -, hmerge⟩ := merge_free hu.sound hu.free htask
              rw [step, hmerge] at h
              cases h
              exact handBack_free (set_free hu.free (Call.idle_free h')) sender t reply s
          | _ =>
              simp only [step, merge, htask'] at h
              cases h
  | fail t =>
      simp only [step, fail] at h
      split at h
      · cases h
        exact modify_free hu.free (f := fun n => n.advance _) (fun n => rfl) t s
      · cases h

theorem step_unlocked {c c' : Cluster} {a : Action} (h : c.step a = some c') (hu : Unlocked c)
    (ha : a.ringed = true) : Unlocked c' := by
  have hmoves := step_moves h
  have hsound := hmoves.sound hu.sound
  constructor
  · exact hsound
  · exact step_free h hu
  · intro t v hv
    cases hmoves.on_or_frame hu.sound with
    | inl hon =>
        obtain ⟨s, b, n, rfl, rfl, hdoes⟩ := hon
        by_cases hts : t = s
        · subst hts
          rw [show (c.set t n).nodes t = n from Function.update_self _ _ _] at hv
          rcases hdoes.receives (hu.sound.represents t) hv with hold | rfl | rfl
          · exact hu.received t v hold
          · exact Action.nonEmpty_of_ringed ha rfl
          · exact Action.nonEmpty_of_ringed ha rfl
        · rw [show (c.set s n).nodes t = c.nodes t from Function.update_of_ne hts _ _] at hv
          exact hu.received t v hv
    | inr hframe =>
        apply hu.received t v
        cases hv with
        | assigning htask =>
            rcases hframe.tasks t _ htask with hold | ⟨sender, query, he⟩
            · exact .assigning hold
            · cases he
        | pinged hping => exact .pinged ((congrFun hframe.pings t).symm.trans hping)
  · intro t hl
    cases hmoves.on_or_frame hu.sound with
    | inl hon =>
        obtain ⟨s, b, n, rfl, rfl, hdoes⟩ := hon
        unfold handlers
        by_cases hts : t = s
        · subst hts
          rw [show (c.set t n).nodes t = n from Function.update_self _ _ _] at hl ⊢
          exact hdoes.looks (hu.sound.represents t) (hu.received t) (hu.looks t) hl
        · rw [show (c.set s n).nodes t = c.nodes t from Function.update_of_ne hts _ _] at hl ⊢
          exact hu.looks t hl
    | inr hframe =>
        rw [hframe.currentView]
        apply hu.looks t
        cases hl with
        | cleaning htask =>
            rcases hframe.tasks t _ htask with hold | ⟨sender, query, he⟩
            · exact .cleaning hold
            · cases he
        | serving htask =>
            rcases hframe.tasks t _ htask with hold | ⟨sender, query, he⟩
            · exact .serving hold
            · cases he
        | pingCleaning hping => exact .pingCleaning ((congrFun hframe.pings t).symm.trans hping)

theorem unlocked_of_reach {c : Cluster} (h : Reach step (fun _ a => a.ringed = true) initial c) :
    Unlocked c :=
  h.invariant initial_unlocked fun _ _ _ hu ha hstep => step_unlocked hstep hu ha

/-- Whoever takes the step has come to it: a thread to its section, a message to a
server that is not in the middle of a call. -/
def Due (c : Cluster) : Action → Prop
  | .on s a => (c.nodes s).Due a
  | .take s => ∃ e, c.exchanges s = some e ∧ e.phase = .sent ∧ c.tasks e.peer = none
  | .takeStray peer args => (peer, args) ∈ c.stray ∧ c.tasks peer = none
  | .merge s => ∃ sender query, c.tasks s = some (.merging sender query)
  | .fail s => ∃ e, c.exchanges s = some e

theorem due_of_moves {c c' : Cluster} {a : Action} (h : c.step a = some c') : c.Due a := by
  cases a with
  | on s b =>
      obtain ⟨n, hn, -⟩ := Option.map_eq_some_iff.mp h
      exact Node.due_of_step hn
  | take s =>
      simp only [step, take] at h
      split at h
      · next peer args since hex =>
        obtain ⟨n, harrive, -⟩ := Option.map_eq_some_iff.mp h
        exact ⟨_, hex, rfl, (arrive_cases harrive).1⟩
      · cases h
  | takeStray peer args =>
      simp only [step, takeStray] at h
      split at h
      · next hmem =>
        obtain ⟨n, harrive, -⟩ := Option.map_eq_some_iff.mp h
        exact ⟨hmem, (arrive_cases harrive).1⟩
      · cases h
  | merge s =>
      cases step_moves h with
      | merged htask => exact ⟨_, _, htask⟩
      | mergeThrew htask => exact ⟨_, _, htask⟩
  | fail s =>
      cases step_moves h with
      | failed hex => exact ⟨_, hex⟩

theorem Unlocked.enabled {c : Cluster} (hu : Unlocked c) {a : Action} (hdue : c.Due a) :
    ∃ c', c.step a = some c' := by
  cases a with
  | on s b =>
      obtain ⟨n, hn, -⟩ := Node.step_of_due (hu.sound.represents s) (hu.free s) (hu.looks s) hdue
      exact ⟨_, Option.map_eq_some_iff.mpr ⟨n, hn, rfl⟩⟩
  | take s =>
      obtain ⟨⟨peer, args, phase, since⟩, hex, hphase, hidle⟩ := hdue
      simp only at hphase
      subst hphase
      obtain ⟨n, harrive, -⟩ := arrive_free (hu.free peer) hidle (some s) args
      have hex' : (c.nodes s).exchange = some ⟨peer, args, .sent, since⟩ := hex
      simp only [step, take, hex', harrive, Option.map_some]
      exact ⟨_, rfl⟩
  | takeStray peer args =>
      obtain ⟨hmem, hidle⟩ := hdue
      obtain ⟨n, harrive, -⟩ := arrive_free (hu.free peer) hidle none args
      simp only [step, takeStray, if_pos hmem, harrive, Option.map_some]
      exact ⟨_, rfl⟩
  | merge s =>
      obtain ⟨sender, query, htask⟩ := hdue
      obtain ⟨h, reply, -, hmerge⟩ := merge_free hu.sound hu.free htask
      exact ⟨_, hmerge⟩
  | fail s =>
      obtain ⟨e, hex⟩ := hdue
      have hex' : (c.nodes s).exchange = some e := hex
      simp only [step, fail, hex']
      exact ⟨_, rfl⟩

/-- In every run in which the view service hands out rings with a point, a step can
be taken as soon as its thread or its message has come to it: nobody ever waits for
a mutex that is not given back. -/
theorem enabled_iff_due {c : Cluster} (h : Reach step (fun _ a => a.ringed = true) initial c)
    (a : Action) : (c.step a).isSome = true ↔ c.Due a := by
  rw [Option.isSome_iff_exists]
  constructor
  · intro hstep
    obtain ⟨c', hstep⟩ := hstep
    exact due_of_moves hstep
  · exact (unlocked_of_reach h).enabled

/-- A server that has adopted the view of a pair cleans its table for the second
view and is then about to serve a put. -/
def putAfterClean (s t : Server) : List Action :=
  let first : GetServersReply := { view := View.single [s], viewNum := 1 }
  let second : GetServersReply := { view := View.single [s, t], viewNum := 2 }
  [.on s (.ping first), .on s .pingAssign, .on s .pingClean,
    .on s (.request (.put ⟨[1], [7], 1⟩)), .on s .serve,
    .on s (.ping second), .on s .pingAssign, .on s .pingClean,
    .on s (.request (.put ⟨[1], [8], 2⟩))]

theorem enabled_iff_due_putAfterClean :
    ∃ c, Reach step (fun _ a => a.ringed = true) initial c ∧
      (c.step (.on ⟨[1], 1⟩ .serve)).isSome = true ∧ c.Due (.on ⟨[1], 1⟩ .serve) := by
  have hrun : ((perform step (fun _ a => a.ringed = true) initial
      (putAfterClean ⟨[1], 1⟩ ⟨[2], 2⟩)).map fun c =>
        (c.step (.on ⟨[1], 1⟩ .serve)).isSome) = some true := by decide +kernel
  obtain ⟨c, hc, hsome⟩ := Option.map_eq_some_iff.mp hrun
  exact ⟨c, reach_of_perform hc, hsome, (enabled_iff_due (reach_of_perform hc) _).mp hsome⟩

end Cluster

end RobustCache
