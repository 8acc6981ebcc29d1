import RobustCache.Server.Locks

/-! # The threads of one server

A server at mutex granularity. The handler thread serves one call at a time and
may wait for the view service in the middle of it; the ping thread adopts views;
the anti-entropy thread has at most one exchange under way. Between two sections
any other thread may run.
-/

namespace RobustCache

open Lib

inductive ClientCall where
  | put (args : PutArgs)
  | get (args : GetArgs)

namespace ClientCall

def key : ClientCall → Bytes
  | .put args => args.key
  | .get args => args.key

def viewNum : ClientCall → Int
  | .put args => args.viewNum
  | .get args => args.viewNum

end ClientCall

/-- Where the handler thread is in its call. -/
inductive Task where
  /-- `checkServer` is blocked in `receivePing`. -/
  | refreshing (call : ClientCall)
  /-- The view service has answered. -/
  | assigning (call : ClientCall) (view : GetServersReply)
  /-- The answer is the current view, and the table is to be cleaned. -/
  | cleaning (call : ClientCall) (view : GetServersReply)
  /-- The check has passed, and the locked section is next. -/
  | serving (call : ClientCall)
  /-- The number of an exchange has passed, and the locked section is next. A
  sender that has given up waiting is not recorded. -/
  | merging (sender : Option Server) (query : AntiEntropyArgs)

/-- Where the ping thread is after it has received a view. -/
inductive Ping where
  | assigning (view : GetServersReply)
  | cleaning

inductive Phase where
  | sent
  | taken
  | replied (reply : AntiEntropyReply)
deriving DecidableEq

/-- An exchange of the anti-entropy thread, from its snapshot on. -/
structure Exchange where
  peer : Server
  args : AntiEntropyArgs
  phase : Phase := .sent
  /-- The keys put here since the snapshot. The code does not keep them; they are
  recorded to speak about the window. -/
  since : List Bytes := []

structure Node extends Process where
  task : Option Task := none
  ping : Option Ping := none
  exchange : Option Exchange := none

/-- The sections of one server. -/
inductive Local where
  | request (call : ClientCall)
  | refresh (view : GetServersReply)
  | assign
  | clean
  | serve
  | ping (view : GetServersReply)
  | pingAssign
  | pingClean
  | snapshot
  | finish

/-- The section is the one that the handler thread has come to. -/
def Task.AdvancedBy : Task → Local → Prop
  | .refreshing _, .refresh _ => True
  | .assigning _ _, .assign => True
  | .cleaning _ _, .clean => True
  | .serving _, .serve => True
  | _, _ => False

namespace Node

def initial (server : Server) : Node := { handler := Handler.initial server }

/-- Run a section of the process; `f` goes on from its return, `g` from its
exception. -/
def run {α : Type} (n : Node) (x : Locked α) (f : Node → α → Node) (g : Node → Node) :
    Option Node :=
  match x n.toProcess with
  | .returns a p => some (f { n with toProcess := p } a)
  | .throws p => some (g { n with toProcess := p })
  | .stuck => none

/-! ## The handler thread -/

/-- The reply has been sent, or the exception has closed the connection. -/
def endCall (n : Node) : Node := { n with task := none }

/-- The last line of `checkServer`. -/
def decideOwner (n : Node) (call : ClientCall) (view : GetServersReply) : Node :=
  match n.handler.owns view.view call.key with
  | .ok true => { n with task := some (.serving call) }
  | _ => n.endCall

/-- `checkServer` up to the call of `receivePing`, if it comes to that. -/
def request (n : Node) (call : ClientCall) : Option Node :=
  if n.task.isSome then none
  else n.run Locked.readView
    (fun n view =>
      if call.viewNum < view.viewNum then n.endCall
      else if call.viewNum > view.viewNum then { n with task := some (.refreshing call) }
      else n.decideOwner call view)
    endCall

/-- `checkServer` after the view has been refreshed. -/
def conclude (n : Node) (call : ClientCall) (view : GetServersReply) : Node :=
  if call.viewNum ≠ view.viewNum then n.endCall else n.decideOwner call view

def refresh (n : Node) (view : GetServersReply) : Option Node :=
  match n.task with
  | some (.refreshing call) => some { n with task := some (.assigning call view) }
  | _ => none

def assign (n : Node) : Option Node :=
  match n.task with
  | some (.assigning call view) =>
      n.run (Locked.assignView view)
        (fun n needToClean =>
          if needToClean then { n with task := some (.cleaning call view) }
          else n.conclude call view)
        endCall
  | _ => none

def clean (n : Node) : Option Node :=
  match n.task with
  | some (.cleaning call view) =>
      n.run Locked.cleanHash (fun n _ => n.conclude call view) endCall
  | _ => none

def notePut (n : Node) (key : Bytes) : Node :=
  { n with exchange := n.exchange.map fun e => { e with since := e.since ++ [key] } }

def serve (n : Node) : Option Node :=
  match n.task with
  | some (.serving (.put args)) =>
      n.run (Locked.putSection args) (fun n _ => (n.notePut args.key).endCall)
        fun n => (n.notePut args.key).endCall
  | some (.serving (.get args)) => n.run (Locked.getSection args) (fun n _ => n.endCall) endCall
  | _ => none

/-! ## The ping thread -/

def endPing (n : Node) : Node := { n with ping := none }

def receive (n : Node) (view : GetServersReply) : Option Node :=
  if n.ping.isSome then none else some { n with ping := some (.assigning view) }

def pingAssign (n : Node) : Option Node :=
  match n.ping with
  | some (.assigning view) =>
      n.run (Locked.assignView view)
        (fun n needToClean => { n with ping := if needToClean then some .cleaning else none })
        endPing
  | _ => none

def pingClean (n : Node) : Option Node :=
  match n.ping with
  | some .cleaning => n.run Locked.cleanHash (fun n _ => n.endPing) endPing
  | _ => none

/-! ## The anti-entropy thread -/

def endExchange (n : Node) : Node := { n with exchange := none }

def snapshot (n : Node) : Option Node :=
  if n.exchange.isSome then none
  else n.run Locked.beginExchange
    (fun n sent =>
      { n with exchange := sent.map fun e => { peer := e.1, args := e.2 } })
    id

def finish (n : Node) : Option Node :=
  match n.exchange with
  | some ⟨peer, _, .replied reply, _⟩ =>
      n.run (Locked.processReply peer reply) (fun n _ => n.endExchange) endExchange
  | _ => none

def step (n : Node) : Local → Option Node
  | .request call => n.request call
  | .refresh view => n.refresh view
  | .assign => n.assign
  | .clean => n.clean
  | .serve => n.serve
  | .ping view => n.receive view
  | .pingAssign => n.pingAssign
  | .pingClean => n.pingClean
  | .snapshot => n.snapshot
  | .finish => n.finish

/-! ## What a step can do -/

theorem run_cases {α : Type} {n n' : Node} {x : Locked α} {f : Node → α → Node}
    {g : Node → Node} {R : α → Process → Prop} {T : Process → Prop}
    (hx : Locked.Ends R T (x n.toProcess)) (h : n.run x f g = some n') :
    (∃ a p, R a p ∧ n' = f { n with toProcess := p } a) ∨
      ∃ p, T p ∧ n' = g { n with toProcess := p } := by
  unfold run at h
  cases hrun : x n.toProcess with
  | returns a p =>
      rw [hrun] at h hx
      exact .inl ⟨a, p, hx, (Option.some.inj h).symm⟩
  | throws p =>
      rw [hrun] at h hx
      exact .inr ⟨p, hx, (Option.some.inj h).symm⟩
  | stuck =>
      rw [hrun] at h
      cases h

/-- What the handler thread does next when `checkServer` decides with a view. -/
def verdict (server : Server) (call : ClientCall) (view : GetServersReply) : Option Task :=
  if call.viewNum = view.viewNum ∧ server ∈ group call.key view.view then some (.serving call)
  else none

theorem decideOwner_eq (n : Node) (call : ClientCall) (view : GetServersReply) :
    n.decideOwner call view = { n with
      task := if n.handler.server ∈ group call.key view.view then some (.serving call)
        else none } := by
  unfold decideOwner
  by_cases hring : view.view.NonEmpty
  · rw [Handler.owns_eq n.handler hring]
    by_cases hown : n.handler.server ∈ group call.key view.view
    · simp only [decide_eq_true hown, if_pos hown]
    · simp only [decide_eq_false hown, if_neg hown, endCall]
  · have hnot : n.handler.server ∉ group call.key view.view := fun hin =>
      hring (nonEmpty_of_mem_group hin)
    simp only [Handler.owns_of_empty n.handler hring, if_neg hnot, endCall]

theorem conclude_eq (n : Node) (call : ClientCall) (view : GetServersReply) :
    n.conclude call view = { n with task := verdict n.handler.server call view } := by
  unfold conclude verdict
  by_cases hnum : call.viewNum = view.viewNum
  · simp only [hnum, ne_eq, not_true_eq_false, if_false, true_and, decideOwner_eq]
  · simp only [hnum, ne_eq, not_false_eq_true, if_true, false_and, if_false, endCall]

/-- The steps of a server, with what each one changes. -/
inductive Does (n : Node) : Local → Node → Prop
  /-- `checkServer` decides with the current view. -/
  | decided {call : ClientCall} {p : Process} (hp : p.handler = n.handler)
      (hidle : n.task = none) :
      Does n (.request call)
        { n with
          toProcess := p
          task := verdict n.handler.server call n.handler.currentView }
  | ahead {call : ClientCall} {p : Process} (hp : p.handler = n.handler) (hidle : n.task = none)
      (hnum : call.viewNum > n.handler.currentView.viewNum) :
      Does n (.request call) { n with toProcess := p, task := some (.refreshing call) }
  | refreshed {call : ClientCall} {view : GetServersReply}
      (htask : n.task = some (.refreshing call)) :
      Does n (.refresh view) { n with task := some (.assigning call view) }
  | assigned {call : ClientCall} {view : GetServersReply} {p : Process}
      (htask : n.task = some (.assigning call view))
      (hp : p.handler = { n.handler with currentView := view }) :
      Does n .assign
        { n with
          toProcess := p
          task := if n.handler.currentView.viewNum ≠ view.viewNum then some (.cleaning call view)
            else verdict n.handler.server call view }
  | cleaned {call : ClientCall} {view : GetServersReply} {p : Process}
      (htask : n.task = some (.cleaning call view)) (hp : n.handler.cleanHash = .ok p.handler) :
      Does n .clean { n with toProcess := p, task := verdict p.handler.server call view }
  | cleanThrew {call : ClientCall} {view : GetServersReply} {p : Process}
      (htask : n.task = some (.cleaning call view)) (hp : p.handler = n.handler) :
      Does n .clean { n with toProcess := p, task := none }
  | put {args : PutArgs} {p : Process} {h : Handler} {servers : List Server}
      (htask : n.task = some (.serving (.put args)))
      (hput : n.handler.putEntry args.key args.value = .ok h)
      (hget : getServer (irHash args.key) h.currentView.view = .ok servers)
      (hp : p.handler = h.noteDiffs args.key servers) :
      Does n .serve ({ n with toProcess := p, task := none }.notePut args.key)
  /-- The ring lookup of `put` throws when the entry has been written. -/
  | putThrew {args : PutArgs} {p : Process} (htask : n.task = some (.serving (.put args)))
      (hp : (n.handler.putEntry args.key args.value = .error .emptyRing ∧
          p.handler = n.handler) ∨
        (n.handler.putEntry args.key args.value = .ok p.handler ∧
          getServer (irHash args.key) p.handler.currentView.view = .error .emptyRing)) :
      Does n .serve ({ n with toProcess := p, task := none }.notePut args.key)
  | get {args : GetArgs} {p : Process} (htask : n.task = some (.serving (.get args)))
      (hp : p.handler = n.handler ∨
        ∃ reply, n.handler.getLocked args = .ok (p.handler, reply)) :
      Does n .serve { n with toProcess := p, task := none }
  | received {view : GetServersReply} (hidle : n.ping = none) :
      Does n (.ping view) { n with ping := some (.assigning view) }
  | pingAssigned {view : GetServersReply} {p : Process} (hping : n.ping = some (.assigning view))
      (hp : p.handler = { n.handler with currentView := view }) :
      Does n .pingAssign
        { n with
          toProcess := p
          ping := if n.handler.currentView.viewNum ≠ view.viewNum then some .cleaning else none }
  | pingCleaned {p : Process} (hping : n.ping = some .cleaning)
      (hp : p.handler = n.handler ∨ n.handler.cleanHash = .ok p.handler) :
      Does n .pingClean { n with toProcess := p, ping := none }
  | quiet {p : Process} (hp : p.handler = n.handler) :
      Does n .snapshot { n with toProcess := p, exchange := none }
  | sent {peer : Server} {args : AntiEntropyArgs} {p : Process} (hidle : n.exchange = none)
      (hsnap : n.handler.snapshot = .ok (some (peer, args))) (hp : p.handler = n.handler) :
      Does n .snapshot { n with toProcess := p, exchange := some { peer, args } }
  | finished {e : Exchange} {reply : AntiEntropyReply} {p : Process}
      (hex : n.exchange = some e) (hphase : e.phase = .replied reply)
      (hp : n.handler.replyLocked e.peer reply = .ok p.handler ∨
        (n.handler.replyLocked e.peer reply = .error .emptyRing ∧ p.handler = n.handler)) :
      Does n .finish { n with toProcess := p, exchange := none }

theorem request_does {n n' : Node} {call : ClientCall} (h : n.request call = some n') :
    Does n (.request call) n' := by
  unfold request at h
  split at h
  · cases h
  · next hbusy =>
    have hidle : n.task = none := by simpa using hbusy
    cases run_cases (Locked.readView_ends n.toProcess (fun _ => False)) h with
    | inl hret =>
        obtain ⟨view, p, ⟨rfl, hp⟩, rfl⟩ := hret
        have hserver : p.handler.server = n.handler.server := by rw [hp]
        by_cases hold : call.viewNum < n.handler.currentView.viewNum
        · have hnone : verdict n.handler.server call n.handler.currentView = none :=
            if_neg fun hv => by omega
          have hdoes : Does n (.request call) _ := .decided hp hidle
          rw [hnone] at hdoes
          simpa only [if_pos hold, endCall] using hdoes
        · by_cases hnew : call.viewNum > n.handler.currentView.viewNum
          · simp only [if_neg hold, if_pos hnew]
            exact .ahead hp hidle hnew
          · have hnum : call.viewNum = n.handler.currentView.viewNum := by omega
            have hdoes : Does n (.request call) _ := .decided hp hidle
            simp only [verdict, hnum, true_and] at hdoes
            simpa only [if_neg hold, if_neg hnew, decideOwner_eq, hserver] using hdoes
    | inr hthrow =>
        obtain ⟨p, hfalse, -⟩ := hthrow
        exact hfalse.elim

theorem assign_does {n n' : Node} (h : n.assign = some n') : Does n .assign n' := by
  unfold assign at h
  split at h
  · next call view htask =>
    cases run_cases (Locked.assignView_ends view n.toProcess) h with
    | inl hret =>
        obtain ⟨needToClean, p, ⟨hp, rfl⟩, rfl⟩ := hret
        have hserver : p.handler.server = n.handler.server := by rw [hp]
        have hdoes := Does.assigned htask hp
        by_cases hnum : n.handler.currentView.viewNum = view.viewNum
        · simpa [hnum, conclude_eq, hserver] using hdoes
        · simpa [hnum] using hdoes
    | inr hthrow =>
        obtain ⟨p, hfalse, -⟩ := hthrow
        exact hfalse.elim
  · cases h

theorem clean_does {n n' : Node} (h : n.clean = some n') : Does n .clean n' := by
  unfold clean at h
  split at h
  · next call view htask =>
    cases run_cases (Locked.cleanHash_ends n.toProcess) h with
    | inl hret =>
        obtain ⟨_, p, hp, rfl⟩ := hret
        rw [conclude_eq]
        exact .cleaned htask hp
    | inr hthrow =>
        obtain ⟨p, hp, rfl⟩ := hthrow
        exact .cleanThrew htask hp.2
  · cases h

theorem serve_does {n n' : Node} (h : n.serve = some n') : Does n .serve n' := by
  unfold serve at h
  split at h
  · next args htask =>
    cases run_cases (Locked.putSection_ends args n.toProcess) h with
    | inl hret =>
        obtain ⟨_, p, ⟨h₁, servers, hput, hget, hp⟩, rfl⟩ := hret
        exact .put htask hput hget hp
    | inr hthrow =>
        obtain ⟨p, hp, rfl⟩ := hthrow
        exact .putThrew htask hp
  · next args htask =>
    cases run_cases (Locked.getSection_ends args n.toProcess) h with
    | inl hret =>
        obtain ⟨reply, p, hp, rfl⟩ := hret
        exact .get htask (.inr ⟨reply, hp⟩)
    | inr hthrow =>
        obtain ⟨p, hp, rfl⟩ := hthrow
        exact .get htask (.inl hp)
  · cases h

theorem pingAssign_does {n n' : Node} (h : n.pingAssign = some n') : Does n .pingAssign n' := by
  unfold pingAssign at h
  split at h
  · next view hping =>
    cases run_cases (Locked.assignView_ends view n.toProcess) h with
    | inl hret =>
        obtain ⟨needToClean, p, ⟨hp, rfl⟩, rfl⟩ := hret
        have hdoes := Does.pingAssigned hping hp
        simpa using hdoes
    | inr hthrow =>
        obtain ⟨p, hfalse, -⟩ := hthrow
        exact hfalse.elim
  · cases h

theorem pingClean_does {n n' : Node} (h : n.pingClean = some n') : Does n .pingClean n' := by
  unfold pingClean at h
  split at h
  · next hping =>
    cases run_cases (Locked.cleanHash_ends n.toProcess) h with
    | inl hret =>
        obtain ⟨_, p, hp, rfl⟩ := hret
        exact .pingCleaned hping (.inr hp)
    | inr hthrow =>
        obtain ⟨p, hp, rfl⟩ := hthrow
        exact .pingCleaned hping (.inl hp.2)
  · cases h

theorem snapshot_does {n n' : Node} (h : n.snapshot = some n') : Does n .snapshot n' := by
  unfold snapshot at h
  split at h
  · cases h
  · next hbusy =>
    have hidle : n.exchange = none := by simpa using hbusy
    cases run_cases (Locked.beginExchange_ends n.toProcess) h with
    | inl hret =>
        obtain ⟨sent, p, ⟨hsnap, hp⟩, rfl⟩ := hret
        cases sent with
        | none => exact .quiet hp
        | some e => exact .sent hidle hsnap hp
    | inr hthrow =>
        obtain ⟨p, hp, rfl⟩ := hthrow
        have hdoes := Does.quiet hp.2
        rw [← hidle] at hdoes
        exact hdoes

theorem finish_does {n n' : Node} (h : n.finish = some n') : Does n .finish n' := by
  unfold finish at h
  split at h
  · next peer args reply since hex =>
    cases run_cases (Locked.processReply_ends peer reply n.toProcess) h with
    | inl hret =>
        obtain ⟨_, p, hp, rfl⟩ := hret
        exact .finished hex rfl (.inl hp)
    | inr hthrow =>
        obtain ⟨p, hp, rfl⟩ := hthrow
        exact .finished hex rfl (.inr hp)
  · cases h

theorem step_does {n n' : Node} {a : Local} (h : n.step a = some n') : Does n a n' := by
  cases a with
  | request call => exact request_does h
  | refresh view =>
      simp only [step, refresh] at h
      split at h
      · next call htask =>
        cases h
        exact .refreshed htask
      · cases h
  | assign => exact assign_does h
  | clean => exact clean_does h
  | serve => exact serve_does h
  | ping view =>
      simp only [step, receive] at h
      split at h
      · cases h
      · next hbusy =>
        cases h
        exact .received (by simpa using hbusy)
  | pingAssign => exact pingAssign_does h
  | pingClean => exact pingClean_does h
  | snapshot => exact snapshot_does h
  | finish => exact finish_does h

/-! ## What a step does to the entries -/

def Puts (n : Node) (a : Local) (args : PutArgs) : Prop :=
  a = .serve ∧ n.task = some (.serving (.put args))

/-- What a step does to the handler, and to the items that its store holds. -/
inductive Effect (n : Node) (items : List Item) : Local → Handler → List Item → Prop
  | still {a : Local} (hno : ∀ args, ¬ n.Puts a args) : Effect n items a n.handler items
  | assigned {call : ClientCall} {view : GetServersReply}
      (htask : n.task = some (.assigning call view)) :
      Effect n items .assign { n.handler with currentView := view } items
  | pingAssigned {view : GetServersReply} (hping : n.ping = some (.assigning view)) :
      Effect n items .pingAssign { n.handler with currentView := view } items
  | cleaned {a : Local} {st : Store} (ha : a = .clean ∨ a = .pingClean) :
      Effect n items a
        { n.handler with
          toStore := st
          diffs := Lru.cleanDiffs n.handler.server n.handler.currentView.view
            (items.map Item.key) items n.handler.diffs }
        (Lru.clean n.handler.server n.handler.currentView.view items)
  | put {args : PutArgs} {st : Store} (htask : n.task = some (.serving (.put args))) :
      Effect n items .serve
        { n.handler with
          toStore := st
          diffs := (n.handler.noteDiffs args.key
            (group args.key n.handler.currentView.view)).diffs }
        (Lru.put FitsCounter n.handler.server args.key args.value items)
  | get {args : GetArgs} {st : Store} (htask : n.task = some (.serving (.get args))) :
      Effect n items .serve { n.handler with toStore := st } (Lru.get args.key items).1
  | replied {e : Exchange} {reply : AntiEntropyReply} {st : Store} (hex : n.exchange = some e)
      (hphase : e.phase = .replied reply) (hok : reply.status = .ok) :
      Effect n items .finish
        { n.handler with toStore := st, diffs := n.handler.diffs.erase e.peer }
        (Lru.invalidateAll reply.invalidatedEntries items)

theorem Effect.still_of_ne {n : Node} {items : List Item} {a : Local} (ha : a ≠ .serve) :
    Effect n items a n.handler items :=
  .still fun _ hputs => ha hputs.1

/-- A run of `cleanHash` that returns has cleaned, or there was nothing to clean. -/
theorem cleanHash_effect {n : Node} {items : List Item} {h : Handler}
    (hr : Represents n.handler.toStore items) (hclean : n.handler.cleanHash = .ok h) {a : Local}
    (ha : a = .clean ∨ a = .pingClean) :
    ∃ items', Effect n items a h items' ∧ Represents h.toStore items' := by
  by_cases hring : n.handler.currentView.view.NonEmpty
  · obtain ⟨st, hrun, hrep, -⟩ := Handler.cleanHash_spec hr hring
    rw [hrun] at hclean
    cases hclean
    exact ⟨_, .cleaned ha, hrep⟩
  · rw [Handler.cleanHash_of_empty hr hring] at hclean
    split at hclean
    · cases hclean
      refine ⟨items, .still_of_ne ?_, hr⟩
      rintro rfl
      simp at ha
    · cases hclean

theorem Effect.transfer {n : Node} {items items' : List Item} {a : Local} {h h' : Handler}
    (heq : h' = h) (heff : Effect n items a h items') (hr : Represents h.toStore items') :
    ∃ items', Effect n items a h' items' ∧ Represents h'.toStore items' := by
  subst heq
  exact ⟨items', heff, hr⟩

theorem put_effect {n : Node} {items : List Item} {args : PutArgs} {h : Handler}
    (hr : Represents n.handler.toStore items) (htask : n.task = some (.serving (.put args)))
    (hput : n.handler.putEntry args.key args.value = .ok h) :
    Effect n items .serve (h.noteDiffs args.key (group args.key h.currentView.view))
        (Lru.put FitsCounter n.handler.server args.key args.value items) ∧
      Represents h.toStore (Lru.put FitsCounter n.handler.server args.key args.value items) := by
  obtain ⟨st, hrun, hrep⟩ := Handler.putEntry_spec hr args.key args.value
  rw [hrun] at hput
  cases hput
  exact ⟨.put htask, hrep⟩

theorem Does.effect {n n' : Node} {a : Local} {items : List Item} (h : Does n a n')
    (hr : Represents n.handler.toStore items) :
    ∃ items', Effect n items a n'.handler items' ∧ Represents n'.handler.toStore items' := by
  cases h with
  | decided hp hidle => exact Effect.transfer hp (.still_of_ne fun ha => by cases ha) hr
  | ahead hp hidle hnum => exact Effect.transfer hp (.still_of_ne fun ha => by cases ha) hr
  | refreshed htask => exact ⟨items, .still_of_ne (fun ha => by cases ha), hr⟩
  | assigned htask hp => exact Effect.transfer hp (.assigned htask) hr
  | cleaned htask hp => exact cleanHash_effect hr hp (.inl rfl)
  | cleanThrew htask hp => exact Effect.transfer hp (.still_of_ne fun ha => by cases ha) hr
  | put htask hput hget hp =>
      obtain ⟨heff, hrep⟩ := put_effect hr htask hput
      simp only [group, hget] at heff
      exact Effect.transfer hp heff hrep
  | @putThrew args p htask hp =>
      cases hp with
      | inl hfault =>
          obtain ⟨st, hrun, -⟩ := Handler.putEntry_spec hr args.key args.value
          rw [hrun] at hfault
          cases hfault.1
      | inr hwrote =>
          obtain ⟨heff, hrep⟩ := put_effect hr htask hwrote.1
          have hnone : p.handler.noteDiffs args.key
              (group args.key p.handler.currentView.view) = p.handler := by
            simp [group, hwrote.2, Handler.noteDiffs]
          rw [hnone] at heff
          exact ⟨_, heff, hrep⟩
  | @get args p htask hp =>
      cases hp with
      | inl hp =>
          have hno : ∀ args', ¬ n.Puts .serve args' := fun args' hputs => by
            cases htask.symm.trans hputs.2
          exact Effect.transfer hp (.still hno) hr
      | inr hp =>
          obtain ⟨reply, hrun⟩ := hp
          obtain ⟨st, hget, hrep⟩ := Handler.getLocked_spec hr args
          rw [hget] at hrun
          exact Effect.transfer (Prod.mk.inj (Except.ok.inj hrun)).1.symm (.get htask) hrep
  | received hidle => exact ⟨items, .still_of_ne (fun ha => by cases ha), hr⟩
  | pingAssigned hping hp => exact Effect.transfer hp (.pingAssigned hping) hr
  | pingCleaned hping hp =>
      cases hp with
      | inl hp => exact Effect.transfer hp (.still_of_ne fun ha => by cases ha) hr
      | inr hp => exact cleanHash_effect hr hp (.inr rfl)
  | quiet hp => exact Effect.transfer hp (.still_of_ne fun ha => by cases ha) hr
  | sent hidle hsnap hp => exact Effect.transfer hp (.still_of_ne fun ha => by cases ha) hr
  | @finished e reply p hex hphase hp =>
      cases hp with
      | inr hfault => exact Effect.transfer hfault.2 (.still_of_ne fun ha => by cases ha) hr
      | inl hp =>
          by_cases hok : reply.status = .ok
          · obtain ⟨st, hrun, hrep⟩ := Handler.replyLocked_spec hr e.peer hok
            rw [hrun] at hp
            exact Effect.transfer (Except.ok.inj hp).symm (.replied hex hphase hok) hrep
          · rw [Handler.replyLocked, if_neg hok] at hp
            exact Effect.transfer (Except.ok.inj hp).symm (.still_of_ne fun ha => by cases ha) hr

theorem Does.effect_items {n n' : Node} {a : Local} (h : Does n a n')
    (hr : Represents n.handler.toStore n.handler.items) :
    Effect n n.handler.items a n'.handler n'.handler.items ∧
      Represents n'.handler.toStore n'.handler.items := by
  obtain ⟨items', heff, hrep⟩ := h.effect hr
  rw [hrep.items_eq]
  exact ⟨heff, hrep⟩

theorem Effect.server {n : Node} {items items' : List Item} {a : Local} {h : Handler}
    (heff : Effect n items a h items') : h.server = n.handler.server := by
  cases heff <;> rfl

theorem Effect.items_of_puts {n : Node} {items items' : List Item} {a : Local} {h : Handler}
    (heff : Effect n items a h items') {args : PutArgs} (hputs : n.Puts a args) :
    items' = Lru.put FitsCounter n.handler.server args.key args.value items := by
  obtain ⟨rfl, htask⟩ := hputs
  cases heff with
  | still hno => exact absurd ⟨rfl, htask⟩ (hno args)
  | cleaned ha => simp at ha
  | put htask' =>
      rw [htask] at htask'
      cases htask'
      rfl
  | get htask' =>
      rw [htask] at htask'
      cases htask'

theorem Effect.diffs {n : Node} {items items' : List Item} {a : Local} {h : Handler}
    (heff : Effect n items a h items') :
    (h.diffs = n.handler.diffs ∧ ∀ args, ¬ n.Puts a args) ∨
      (∃ args, n.Puts a args ∧ h.diffs = (n.handler.noteDiffs args.key
        (group args.key n.handler.currentView.view)).diffs) ∨
      (∃ e reply, a = .finish ∧ n.exchange = some e ∧ e.phase = .replied reply ∧
        reply.status = .ok ∧ h.diffs = n.handler.diffs.erase e.peer) ∨
      (a = .clean ∨ a = .pingClean) := by
  cases heff with
  | still hno => exact .inl ⟨rfl, hno⟩
  | assigned htask => exact .inl ⟨rfl, fun args hputs => by cases hputs.1⟩
  | pingAssigned hping => exact .inl ⟨rfl, fun args hputs => by cases hputs.1⟩
  | cleaned ha => exact .inr (.inr (.inr ha))
  | put htask => exact .inr (.inl ⟨_, ⟨rfl, htask⟩, rfl⟩)
  | get htask => exact .inl ⟨rfl, fun args hputs => by cases htask.symm.trans hputs.2⟩
  | replied hex hphase hok => exact .inr (.inr (.inl ⟨_, _, rfl, hex, hphase, hok, rfl⟩))

theorem Does.finished_ok {n n' : Node} (h : Does n .finish n')
    (hr : Represents n.handler.toStore n.handler.items) {e : Exchange} {reply : AntiEntropyReply}
    (hex : n.exchange = some e) (hphase : e.phase = .replied reply) (hok : reply.status = .ok) :
    n'.handler.diffs = n.handler.diffs.erase e.peer ∧
      n'.handler.items = Lru.invalidateAll reply.invalidatedEntries n.handler.items := by
  cases h with
  | @finished e' reply' p hex' hphase' hp =>
      rw [hex] at hex'
      cases hex'
      rw [hphase] at hphase'
      cases hphase'
      obtain ⟨st, hrun, hrep⟩ := Handler.replyLocked_spec hr e.peer hok
      rw [hrun] at hp
      cases hp with
      | inl hdone =>
          have hhandler := Except.ok.inj hdone
          constructor
          · rw [← hhandler]
          · rw [← hhandler]
            exact hrep.items_eq
      | inr hfault => cases hfault.1

/-- A thread cleans when it has assigned a view with another number. -/
theorem Does.cleans {n n' : Node} {a : Local} (h : Does n a n')
    (ha : a = .clean ∨ a = .pingClean) :
    (∃ call view, n.task = some (.cleaning call view)) ∨ n.ping = some .cleaning := by
  cases ha with
  | inl ha =>
      subst ha
      cases h with
      | cleaned htask hp => exact .inl ⟨_, _, htask⟩
      | cleanThrew htask hp => exact .inl ⟨_, _, htask⟩
  | inr ha =>
      subst ha
      cases h with
      | pingCleaned hping hp => exact .inr hping

/-- A step of a server leaves its exchange as it was, notes a put for it or begins
a new one. -/
theorem Does.exchange {n n' : Node} {a : Local} (h : Does n a n') {e : Exchange}
    (hex : n'.exchange = some e) :
    (n.exchange = some e ∧ ∀ args, ¬ n.Puts a args) ∨
      (∃ args old, n.Puts a args ∧ n.exchange = some old ∧
        e = { old with since := old.since ++ [args.key] }) ∨
      ∃ peer args, a = .snapshot ∧ n.exchange = none ∧
        n.handler.snapshot = .ok (some (peer, args)) ∧ e = { peer, args } := by
  have hnoted : ∀ {n₁ : Node} {args : PutArgs}, n.Puts a args → n₁.exchange = n.exchange →
      (n₁.notePut args.key).exchange = some e → ∃ args old, n.Puts a args ∧
        n.exchange = some old ∧ e = { old with since := old.since ++ [args.key] } := by
    intro n₁ args hputs hn hnote
    obtain ⟨old, hold, rfl⟩ := Option.map_eq_some_iff.mp hnote
    exact ⟨args, old, hputs, hn.symm.trans hold, rfl⟩
  cases h with
  | put htask hput hget hp => exact .inr (.inl (hnoted ⟨rfl, htask⟩ rfl hex))
  | putThrew htask hp => exact .inr (.inl (hnoted ⟨rfl, htask⟩ rfl hex))
  | quiet hp => cases hex
  | sent hidle hsnap hp =>
      cases hex
      exact .inr (.inr ⟨_, _, rfl, hidle, hsnap, rfl⟩)
  | finished hex' hphase' hp => cases hex
  | get htask hp => exact .inl ⟨hex, fun args hputs => by cases htask.symm.trans hputs.2⟩
  | decided hp hidle => exact .inl ⟨hex, fun args hputs => by cases hputs.1⟩
  | ahead hp hidle hnum => exact .inl ⟨hex, fun args hputs => by cases hputs.1⟩
  | refreshed htask => exact .inl ⟨hex, fun args hputs => by cases hputs.1⟩
  | assigned htask hp => exact .inl ⟨hex, fun args hputs => by cases hputs.1⟩
  | cleaned htask hp => exact .inl ⟨hex, fun args hputs => by cases hputs.1⟩
  | cleanThrew htask hp => exact .inl ⟨hex, fun args hputs => by cases hputs.1⟩
  | received hidle => exact .inl ⟨hex, fun args hputs => by cases hputs.1⟩
  | pingAssigned hping hp => exact .inl ⟨hex, fun args hputs => by cases hputs.1⟩
  | pingCleaned hping hp => exact .inl ⟨hex, fun args hputs => by cases hputs.1⟩

/-! ## Tasks and views -/

/-- The current view, or one that a thread has received and is working with. -/
inductive HoldsView (n : Node) (v : GetServersReply) : Prop
  | current (h : n.handler.currentView = v)
  | assigning {call : ClientCall} (h : n.task = some (.assigning call v))
  | cleaning {call : ClientCall} (h : n.task = some (.cleaning call v))
  | pinged (h : n.ping = some (.assigning v))

theorem Effect.currentView {n : Node} {items items' : List Item} {a : Local} {h : Handler}
    (heff : Effect n items a h items') :
    h.currentView = n.handler.currentView ∨
      (a = .assign ∧ ∃ call, n.task = some (.assigning call h.currentView)) ∨
      (a = .pingAssign ∧ n.ping = some (.assigning h.currentView)) := by
  cases heff with
  | assigned htask => exact .inr (.inl ⟨rfl, _, htask⟩)
  | pingAssigned hping => exact .inr (.inr ⟨rfl, hping⟩)
  | still hno => exact .inl rfl
  | cleaned ha => exact .inl rfl
  | put htask => exact .inl rfl
  | get htask => exact .inl rfl
  | replied hex hphase hok => exact .inl rfl

theorem verdict_some {server : Server} {call : ClientCall} {view : GetServersReply} {t : Task}
    (h : verdict server call view = some t) :
    t = .serving call ∧ call.viewNum = view.viewNum ∧ server ∈ group call.key view.view := by
  unfold verdict at h
  split at h
  · next hv =>
    cases h
    exact ⟨rfl, hv⟩
  · cases h

/-- How the handler thread comes to a new task. -/
inductive Begins (n : Node) (a : Local) (n' : Node) : Task → Prop
  | refreshing {call : ClientCall} (ha : a = .request call) (hidle : n.task = none)
      (hnum : call.viewNum > n.handler.currentView.viewNum) : Begins n a n' (.refreshing call)
  | assigning {call : ClientCall} {view : GetServersReply} (ha : a = .refresh view)
      (htask : n.task = some (.refreshing call)) : Begins n a n' (.assigning call view)
  | cleaning {call : ClientCall} {view : GetServersReply}
      (htask : n.task = some (.assigning call view))
      (hview : n'.handler.currentView = view)
      (hnum : n.handler.currentView.viewNum ≠ view.viewNum) : Begins n a n' (.cleaning call view)
  | decided {call : ClientCall} (hview : n'.handler.currentView = n.handler.currentView)
      (hnum : call.viewNum = n.handler.currentView.viewNum)
      (hown : n.handler.server ∈ group call.key n.handler.currentView.view) :
      Begins n a n' (.serving call)
  | assigned {call : ClientCall} {view : GetServersReply}
      (htask : n.task = some (.assigning call view))
      (hview : n'.handler.currentView = view) (hnum : call.viewNum = view.viewNum)
      (hown : n.handler.server ∈ group call.key view.view) : Begins n a n' (.serving call)
  | cleaned {call : ClientCall} {view : GetServersReply}
      (htask : n.task = some (.cleaning call view))
      (hview : n'.handler.currentView = n.handler.currentView) (hnum : call.viewNum = view.viewNum)
      (hown : n.handler.server ∈ group call.key view.view) : Begins n a n' (.serving call)

theorem Does.begins {n n' : Node} {a : Local} (h : Does n a n')
    (hr : Represents n.handler.toStore n.handler.items) {t : Task} (ht : n'.task = some t) :
    n.task = some t ∨ Begins n a n' t := by
  cases h with
  | decided hp hidle =>
      obtain ⟨rfl, hnum, hown⟩ := verdict_some ht
      exact .inr (.decided (by rw [hp]) hnum hown)
  | ahead hp hidle hnum =>
      cases ht
      exact .inr (.refreshing rfl hidle hnum)
  | refreshed htask =>
      cases ht
      exact .inr (.assigning rfl htask)
  | @assigned call view p htask hp =>
      have hview : p.handler.currentView = view := by rw [hp]
      simp only at ht
      split at ht
      · next hnum =>
        cases ht
        exact .inr (.cleaning htask hview hnum)
      · obtain ⟨rfl, hnum, hown⟩ := verdict_some ht
        exact .inr (.assigned htask hview hnum hown)
  | cleaned htask hp =>
      obtain ⟨items', -, hserver, hview⟩ := Handler.cleanHash_represents hr hp
      obtain ⟨rfl, hnum, hown⟩ := verdict_some ht
      rw [hserver] at hown
      exact .inr (.cleaned htask hview hnum hown)
  | cleanThrew htask hp => cases ht
  | put htask hput hget hp => cases ht
  | putThrew htask hp => cases ht
  | get htask hp => cases ht
  | received hidle => exact .inl ht
  | pingAssigned hping hp => exact .inl ht
  | pingCleaned hping hp => exact .inl ht
  | quiet hp => exact .inl ht
  | sent hidle hsnap hp => exact .inl ht
  | finished hex hphase hp => exact .inl ht

/-- A task stays until its own section runs. -/
theorem Does.task_kept {n n' : Node} {a : Local} (h : Does n a n') {k : Task}
    (hk : n.task = some k) (ha : ¬ k.AdvancedBy a) : n'.task = some k := by
  have hbusy : n.task ≠ none := by simp [hk]
  -- every section of the handler thread belongs to a task
  have hown : ∀ {k' : Task}, n.task = some k' → k'.AdvancedBy a → n'.task = some k := by
    intro k' hk' ha'
    rw [hk] at hk'
    cases hk'
    exact absurd ha' ha
  cases h with
  | decided hp hidle => exact absurd hidle hbusy
  | ahead hp hidle hnum => exact absurd hidle hbusy
  | refreshed htask => exact hown htask trivial
  | assigned htask hp => exact hown htask trivial
  | cleaned htask hp => exact hown htask trivial
  | cleanThrew htask hp => exact hown htask trivial
  | put htask hput hget hp => exact hown htask trivial
  | putThrew htask hp => exact hown htask trivial
  | get htask hp => exact hown htask trivial
  | received hidle => exact hk
  | pingAssigned hping hp => exact hk
  | pingCleaned hping hp => exact hk
  | quiet hp => exact hk
  | sent hidle hsnap hp => exact hk
  | finished hex hphase hp => exact hk

theorem Does.ping {n n' : Node} {a : Local} (h : Does n a n') {p : Ping}
    (hv : n'.ping = some p) :
    n.ping = some p ∨ (∃ v, a = .ping v ∧ p = .assigning v) ∨
      ∃ v, n.ping = some (.assigning v) ∧ n.handler.currentView.viewNum ≠ v.viewNum ∧
        p = .cleaning := by
  cases h with
  | received hidle =>
      cases hv
      exact .inr (.inl ⟨_, rfl, rfl⟩)
  | pingAssigned hping hp =>
      simp only at hv
      split at hv
      · next hnum =>
        cases hv
        exact .inr (.inr ⟨_, hping, hnum, rfl⟩)
      · cases hv
  | pingCleaned hping hp => cases hv
  | decided hp hidle => exact .inl hv
  | ahead hp hidle hnum => exact .inl hv
  | refreshed htask => exact .inl hv
  | assigned htask hp => exact .inl hv
  | cleaned htask hp => exact .inl hv
  | cleanThrew htask hp => exact .inl hv
  | put htask hput hget hp => exact .inl hv
  | putThrew htask hp => exact .inl hv
  | get htask hp => exact .inl hv
  | quiet hp => exact .inl hv
  | sent hidle hsnap hp => exact .inl hv
  | finished hex hphase hp => exact .inl hv

/-- A server only gets new views from the view service. -/
theorem Does.holdsView {n n' : Node} {a : Local} (h : Does n a n')
    (hr : Represents n.handler.toStore n.handler.items) {v : GetServersReply}
    (hv : n'.HoldsView v) : n.HoldsView v ∨ a = .refresh v ∨ a = .ping v := by
  cases hv with
  | current hcur =>
      subst hcur
      left
      rcases (h.effect_items hr).1.currentView with hsame | ⟨-, call, htask⟩ | ⟨-, hping⟩
      · exact .current hsame.symm
      · exact .assigning htask
      · exact .pinged hping
  | assigning htask =>
      cases h.begins hr htask with
      | inl hold => exact .inl (.assigning hold)
      | inr hnew =>
          cases hnew with
          | assigning ha => exact .inr (.inl ha)
  | cleaning htask =>
      cases h.begins hr htask with
      | inl hold => exact .inl (.cleaning hold)
      | inr hnew =>
          cases hnew with
          | cleaning hold => exact .inl (.assigning hold)
  | pinged hping =>
      rcases h.ping hping with hold | ⟨w, ha, hw⟩ | ⟨w, -, -, hw⟩
      · exact .inl (.pinged hold)
      · cases hw
        exact .inr (.inr ha)
      · cases hw

/-- A view that a thread has received and not yet assigned. -/
inductive Received (n : Node) (v : GetServersReply) : Prop
  | assigning {call : ClientCall} (h : n.task = some (.assigning call v))
  | pinged (h : n.ping = some (.assigning v))

theorem Does.receives {n n' : Node} {a : Local} (h : Does n a n')
    (hr : Represents n.handler.toStore n.handler.items) {v : GetServersReply}
    (hv : n'.Received v) : n.Received v ∨ a = .refresh v ∨ a = .ping v := by
  cases hv with
  | assigning htask =>
      cases h.begins hr htask with
      | inl hold => exact .inl (.assigning hold)
      | inr hnew =>
          cases hnew with
          | assigning ha => exact .inr (.inl ha)
  | pinged hping =>
      rcases h.ping hping with hold | ⟨w, ha, hw⟩ | ⟨w, -, -, hw⟩
      · exact .inl (.pinged hold)
      · cases hw
        exact .inr (.inr ha)
      · cases hw

/-- A call that passes the check names a view that the server holds and is in
the group of. -/
theorem Does.serving {n n' : Node} {a : Local} (h : Does n a n')
    (hr : Represents n.handler.toStore n.handler.items) {call : ClientCall}
    (ht : n'.task = some (.serving call)) :
    n.task = some (.serving call) ∨ ∃ v, n.HoldsView v ∧ call.viewNum = v.viewNum ∧
      n.handler.server ∈ group call.key v.view := by
  cases h.begins hr ht with
  | inl hold => exact .inl hold
  | inr hnew =>
      cases hnew with
      | decided hview hnum hown => exact .inr ⟨_, .current rfl, hnum, hown⟩
      | assigned htask hview hnum hown => exact .inr ⟨_, .assigning htask, hnum, hown⟩
      | cleaned htask hview hnum hown => exact .inr ⟨_, .cleaning htask, hnum, hown⟩

end Node

end RobustCache
