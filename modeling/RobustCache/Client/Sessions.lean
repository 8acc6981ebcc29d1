import RobustCache.Client.Refresh
import RobustCache.Cluster.Monotone
import RobustCache.Cluster.Responses

/-! # Clients that follow the views

The operations of the C++ client against the whole system. A client calls a member of
the group that it finds in the view it holds, and fetches the view again when it is
turned away. Since a server learns of a newer view from the number of a call, a client
is turned away only if a view has been published that it does not hold.
-/

namespace RobustCache

open Lib

theorem System.step_clients {s s' : System} {e : Event} (h : s.step e = some s') (i : Nat) :
    s'.clients i = s.clients i ∨ (e = .fetch i ∧ s'.clients i = s.vs.getView) := by
  cases step_moves h with
  | @fetch client hfree =>
      by_cases hi : i = client
      · subst hi
        exact .inr ⟨rfl, Function.update_self _ _ _⟩
      · exact .inl (Function.update_of_ne hi _ _)
  | service hvs => exact .inl rfl
  | getStatistics hfree => exact .inl rfl
  | pollEnds hpoll => exact .inl rfl
  | polled hpoll hidle => exact .inl rfl
  | act hview hcluster => exact .inl rfl

/-! ## Clients -/

/-- The arguments that `get` and `put` of `client.h` fill in. -/
def Operation.call : Operation .cpp → Int → ClientCall
  | .get key, viewNum => .get ⟨key, viewNum⟩
  | .put key value, viewNum => .put ⟨key, value, viewNum⟩

@[simp] theorem Operation.viewNum_call (op : Operation .cpp) (viewNum : Int) :
    (op.call viewNum).viewNum = viewNum := by
  cases op <;> rfl

@[simp] theorem Operation.key_call (op : Operation .cpp) (viewNum : Int) :
    (op.call viewNum).key = op.key := by
  cases op <;> rfl

/-- Where a client is in its operation. -/
inductive Seat where
  | idle
  /-- The server is picked and the arguments are filled in. -/
  | calling (server : Server) (call : ClientCall)
  /-- The handler thread of the server has taken the call. -/
  | waiting (server : Server) (call : ClientCall)
  /-- The operation has failed, and `getView` is next. -/
  | failing
deriving DecidableEq

def Seat.waitsFor (t : Server) : Seat → Bool
  | .waiting server _ => decide (server = t)
  | _ => false

structure Sessions where
  system : System := {}
  seats : Nat → Seat := fun _ => .idle
  /-- How often each client has been answered `WRONG_SERVER`. -/
  refusals : Nat → Nat := fun _ => 0
  /-- How often each client could not reach the view service after a failure. -/
  unreached : Nat → Nat := fun _ => 0

inductive SessionEvent where
  /-- The client begins an operation; `draw` is what `gen()` returns. -/
  | call (i draw : Nat) (op : Operation .cpp)
  /-- The server takes the call of the client. -/
  | take (i : Nat)
  /-- The connection of the client fails. -/
  | drop (i : Nat)
  | getView (i : Nat)
  | viewServiceException (i : Nat)
  /-- Anything else that happens in the system. -/
  | other (e : Event)

namespace Sessions

def held (s : Sessions) (i : Nat) : GetServersReply := s.system.clients i

def seat (s : Sessions) (i : Nat) (seat : Seat) : Sessions :=
  { s with seats := Function.update s.seats i seat }

def response (s : Sessions) : Event → Option (Server × Response)
  | .act (.on t b) => ((s.system.cluster.nodes t).response b).map fun r => (t, r)
  | _ => none

/-- The answer reaches the client that waits for it. -/
def hear (s : Sessions) (t : Server) (r : Response) : Sessions :=
  { s with
    seats := fun i =>
      if (s.seats i).waitsFor t then (if r = .replied then .idle else .failing) else s.seats i
    refusals := fun i =>
      if (s.seats i).waitsFor t ∧ r = .wrongServer then s.refusals i + 1 else s.refusals i }

def advance (s : Sessions) (e : Event) : Option Sessions :=
  (s.system.step e).map fun system =>
    match s.response e with
    | some (t, r) => { s.hear t r with system }
    | none => { s with system }

/-- A client fetches the view when it is constructed, or after a failure. -/
def allows (s : Sessions) : Event → Bool
  | .fetch i => decide (s.seats i = .idle)
  | _ => true

def step (s : Sessions) : SessionEvent → Option Sessions
  | .call i draw op =>
      match s.seats i with
      | .idle =>
          match Cpp.getServerID draw op.key (s.held i).view with
          | .ok server => some (s.seat i (.calling server (op.call (s.held i).viewNum)))
          | .error .emptyRing => some (s.seat i .failing)
          | .error _ => none
      | _ => none
  | .take i =>
      match s.seats i with
      | .calling server call =>
          (s.seat i (.waiting server call)).advance (.act (.on server (.request call)))
      | _ => none
  | .drop i =>
      match s.seats i with
      | .calling _ _ => some (s.seat i .failing)
      | .waiting _ _ => some (s.seat i .failing)
      | _ => none
  | .getView i =>
      match s.seats i with
      | .failing => (s.system.step (.fetch i)).map fun system => { s with system }.seat i .idle
      | _ => none
  | .viewServiceException i =>
      match s.seats i with
      | .failing =>
          some { s.seat i .idle with
            unreached := Function.update s.unreached i (s.unreached i + 1) }
      | _ => none
  | .other e => if s.allows e then s.advance e else none

/-! ## What every run keeps -/

/-- The handler thread is in the call, and what it has received is not older. -/
def Attends (s : Sessions) (server : Server) (call : ClientCall) : Prop :=
  ∃ t, s.system.cluster.tasks server = some t ∧ t.call? = some call ∧
    ∀ view, t.view? = some view → call.viewNum ≤ view.viewNum

structure Attended (s : Sessions) : Prop where
  inv : s.system.Inv
  /-- A client calls a member of the group in the view that it holds. -/
  routed : ∀ i server call, s.seats i = .calling server call ∨ s.seats i = .waiting server call →
    call.viewNum = (s.held i).viewNum ∧ server ∈ group call.key (s.held i).view
  attends : ∀ i server call, s.seats i = .waiting server call → s.Attends server call

/-- The same before an event, which may be the one that takes a call. -/
structure Ready (s : Sessions) (e : Event) : Prop where
  inv : s.system.Inv
  routed : ∀ i server call, s.seats i = .calling server call ∨ s.seats i = .waiting server call →
    call.viewNum = (s.held i).viewNum ∧ server ∈ group call.key (s.held i).view
  attends : ∀ i server call, s.seats i = .waiting server call →
    e = .act (.on server (.request call)) ∨ s.Attends server call

theorem Attended.ready {s : Sessions} (h : Attended s) (e : Event) : Ready s e :=
  ⟨h.inv, h.routed, fun i server call hi => .inr (h.attends i server call hi)⟩

/-- What a client hears in a step of the system. -/
inductive Hears (s s' : Sessions) (i : Nat) : Prop
  | nothing (hseat : s'.seats i = s.seats i) (hcount : s'.refusals i = s.refusals i)
      (hattends : ∀ server call, s.seats i = .waiting server call → s'.Attends server call)
  | ended (hwas : s.seats i ≠ .failing) (hseat : s'.seats i = .idle ∨ s'.seats i = .failing)
      (hcount : s'.refusals i = s.refusals i)
  | refused (hwas : s.seats i ≠ .failing) (hseat : s'.seats i = .failing)
      (hcount : s'.refusals i = s.refusals i + 1)
      (hnew : (s.held i).viewNum < s.system.vs.viewNum)

theorem advance_spec {s s' : Sessions} {e : Event} (h : s.advance e = some s') :
    s.system.step e = some s'.system ∧ s'.unreached = s.unreached ∧
      (∀ i, (∀ t r, s.response e = some (t, r) → (s.seats i).waitsFor t = false) →
        s'.seats i = s.seats i ∧ s'.refusals i = s.refusals i) ∧
      ∀ i t r, s.response e = some (t, r) → (s.seats i).waitsFor t = true →
        s'.seats i = (if r = .replied then .idle else .failing) ∧
        s'.refusals i = s.refusals i + if r = .wrongServer then 1 else 0 := by
  unfold advance at h
  obtain ⟨system, hstep, rfl⟩ := Option.map_eq_some_iff.mp h
  cases hr : s.response e with
  | none => exact ⟨hstep, rfl, fun i _ => ⟨rfl, rfl⟩, fun i t r he => by cases he⟩
  | some tr =>
      obtain ⟨t, r⟩ := tr
      refine ⟨hstep, rfl, fun i hi => ?_, fun i t' r' he hi => ?_⟩
      · have hoff := hi t r rfl
        simp [hear, hoff]
      · cases he
        refine ⟨by simp [hear, hi], ?_⟩
        by_cases hwrong : r = .wrongServer <;> simp [hear, hi, hwrong]

/-- What the thread has received for the call is still not older after a step that goes
on with it. -/
theorem view_of_begins {s : Sessions} (hinv : s.system.Inv) {server : Server} {call : ClientCall}
    {b : Local} {n : Node} (hnum : call.viewNum ≤ s.system.vs.viewNum)
    (hready : b = .request call ∨ s.Attends server call)
    (hview : ∀ v, (Action.on server b).view? = some v → v = s.system.vs.getView)
    (hdoes : (s.system.cluster.nodes server).Does b n) {t : Task} (ht : n.task = some t)
    {view : GetServersReply} (hreceived : t.view? = some view) : call.viewNum ≤ view.viewNum := by
  have hold : ∀ {t'}, (s.system.cluster.nodes server).task = some t' → t'.view? = some view →
      call.viewNum ≤ view.viewNum := by
    intro t' ht' hv
    cases hready with
    | inl hb =>
        subst hb
        cases hdoes with
        | decided hp hidle => cases ht'.symm.trans hidle
        | ahead hp hidle hnum => cases ht'.symm.trans hidle
    | inr hattends =>
        obtain ⟨t'', htask, -, hle⟩ := hattends
        cases htask.symm.trans ht'
        exact hle view hv
  cases hdoes.begins (hinv.sound.represents server) ht with
  | inl hsame => exact hold hsame hreceived
  | inr hbegins =>
      cases hbegins with
      | refreshing ha hidle hnew => cases hreceived
      | assigning ha htask =>
          cases hreceived
          rw [hview view (by rw [ha]; rfl)]
          exact hnum
      | cleaning htask hcur hne => exact hold htask hreceived
      | decided hcur hsame hown => cases hreceived
      | assigned htask hcur hsame hown => cases hreceived
      | cleaned htask hcur hsame hown => cases hreceived

theorem published_of_received {s : Sessions} (hinv : s.system.Inv) {server : Server} {t : Task}
    (htask : s.system.cluster.tasks server = some t) {view : GetServersReply}
    (hview : t.view? = some view) : s.system.vs.Published view := by
  cases t with
  | assigning call view' =>
      cases hview
      exact hinv.published _ (.inr ⟨server, .assigning htask⟩)
  | cleaning call view' =>
      cases hview
      exact hinv.published _ (.inr ⟨server, .cleaning htask⟩)
  | refreshing call => cases hview
  | serving call => cases hview
  | merging sender query => cases hview

/-- A client that is turned away does not hold the current view: the server has decided
with a published view of another number, and not of a smaller one. -/
theorem newer_of_decides {s : Sessions} (hinv : s.system.Inv) {i : Nat} {server : Server}
    {call : ClientCall} (hnum : call.viewNum = (s.held i).viewNum)
    (hown : server ∈ group call.key (s.held i).view) {b : Local} {view : GetServersReply}
    (hready : b = .request call ∨ s.Attends server call)
    (hdecides : (s.system.cluster.nodes server).Decides b call view)
    (hnot : call.viewNum = view.viewNum → server ∉ group call.key view.view) :
    (s.held i).viewNum < s.system.vs.viewNum := by
  have hheld : s.system.vs.Published (s.held i) := hinv.published _ (.inl ⟨i, rfl⟩)
  have hdecided : s.system.vs.Published view ∧ call.viewNum ≤ view.viewNum := by
    cases hdecides with
    | current hb hle => exact ⟨hinv.published _ (.inr ⟨server, .current rfl⟩), hle⟩
    | received hb htask hview =>
        refine ⟨published_of_received hinv htask hview, ?_⟩
        rcases hready with hreq | ⟨t, htask', -, hle⟩
        · rcases hb with hb | hb <;> cases hb.symm.trans hreq
        · cases htask'.symm.trans htask
          exact hle view hview
  obtain ⟨hview, hle⟩ := hdecided
  have hne : call.viewNum ≠ view.viewNum := by
    intro heq
    have hsame : s.held i = view := hheld.eq hview (hnum.symm.trans heq)
    rw [hsame] at hown
    exact hnot heq hown
  have hlatest := hview.le hinv.wellFormed
  omega

theorem hears_at {s s' : Sessions} (hinv : s.system.Inv) {i : Nat} {server : Server}
    {call : ClientCall} (hseat : s.seats i = .waiting server call)
    (hnum : call.viewNum = (s.held i).viewNum)
    (hown : server ∈ group call.key (s.held i).view) {b : Local}
    (hready : b = .request call ∨ s.Attends server call)
    (h : s.advance (.act (.on server b)) = some s') : Hears s s' i := by
  obtain ⟨hstep, -, hoff, hon⟩ := advance_spec h
  have hwaits : (s.seats i).waitsFor server = true := by
    rw [hseat]
    exact decide_eq_true rfl
  have hwas : s.seats i ≠ .failing := fun he => by cases hseat.symm.trans he
  have hlatest : call.viewNum ≤ s.system.vs.viewNum := by
    rw [hnum]
    exact (hinv.published _ (.inl ⟨i, rfl⟩)).le hinv.wellFormed
  generalize hsystem : s'.system = system at hstep
  cases System.step_moves hstep with
  | act hview hcluster =>
      obtain ⟨n, hn, rfl⟩ := Option.map_eq_some_iff.mp hcluster
      have hdoes := Node.step_does hn
      have hhandles : (s.system.cluster.nodes server).Handles b call := by
        rcases hready with hb | ⟨t, htask, hcall, -⟩
        · exact .inl hb
        · exact .inr ⟨t, htask, hcall⟩
      cases Node.step_responds hhandles hn with
      | @goesOn t hnone htask hcall =>
          obtain ⟨hsame, hcount⟩ := hoff i fun t r hr => by simp [response, hnone] at hr
          refine .nothing hsame hcount fun server' call' hwaiting => ?_
          cases hseat.symm.trans hwaiting
          refine ⟨t, ?_, hcall, fun view hreceived => ?_⟩
          · rw [hsystem, Cluster.tasks_set, Function.update_self]
            exact htask
          · exact view_of_begins hinv hlatest hready (fun v hv => (hview v hv).2) hdoes htask
              hreceived
      | refused hsome hdecides hnot =>
          obtain ⟨hfailing, hcount⟩ := hon i server .wrongServer (by simp [response, hsome]) hwaits
          have hserver : n.handler.server = server :=
            (hdoes.effect_items (hinv.sound.represents server)).1.server.trans
              (hinv.sound.server server)
          rw [hserver] at hnot
          exact .refused hwas hfailing hcount (newer_of_decides hinv hnum hown hready hdecides hnot)
      | @ended r hsome hother =>
          obtain ⟨hended, hcount⟩ := hon i server r (by simp [response, hsome]) hwaits
          rw [if_neg hother, Nat.add_zero] at hcount
          refine .ended hwas ?_ hcount
          rw [hended]
          split
          · exact .inl rfl
          · exact .inr rfl

theorem hears_elsewhere {s s' : Sessions} {e : Event} {i : Nat} {server : Server}
    {call : ClientCall} (hseat : s.seats i = .waiting server call)
    (hat : ∀ b, e ≠ .act (.on server b)) (hattends : s.Attends server call)
    (h : s.advance e = some s') : Hears s s' i := by
  obtain ⟨hstep, -, hoff, -⟩ := advance_spec h
  have hdeaf : ∀ t r, s.response e = some (t, r) → (s.seats i).waitsFor t = false := by
    intro t r hr
    rw [hseat]
    apply decide_eq_false
    rintro rfl
    unfold response at hr
    split at hr
    · next b =>
      obtain ⟨r', -, he⟩ := Option.map_eq_some_iff.mp hr
      cases he
      exact hat b rfl
    · cases hr
  obtain ⟨hsame, hcount⟩ := hoff i hdeaf
  refine .nothing hsame hcount fun server' call' hwaiting => ?_
  cases hseat.symm.trans hwaiting
  obtain ⟨t, htask, hcall, hle⟩ := hattends
  refine ⟨t, ?_, hcall, hle⟩
  generalize s'.system = system at hstep ⊢
  cases System.step_moves hstep with
  | service hvs => exact htask
  | getStatistics hfree => exact htask
  | pollEnds hpoll => exact htask
  | polled hpoll hidle => exact htask
  | fetch hfree => exact htask
  | act hview hcluster =>
      refine (Cluster.step_moves hcluster).task_kept htask fun hadv => ?_
      rcases hadv.own_step with ⟨b, hb, -⟩ | ⟨-, sender, query, rfl⟩
      · exact hat b (by rw [hb])
      · cases hcall

theorem advance_hears {s s' : Sessions} {e : Event} (hready : Ready s e)
    (h : s.advance e = some s') (i : Nat) : Hears s s' i := by
  have hsilent : (∀ t, (s.seats i).waitsFor t = false) → Hears s s' i := by
    intro hnone
    obtain ⟨hseat, hcount⟩ := (advance_spec h).2.2.1 i fun t r _ => hnone t
    refine .nothing hseat hcount fun server call hwaiting => ?_
    have hwaits := hnone server
    rw [hwaiting] at hwaits
    exact absurd rfl (of_decide_eq_false hwaits)
  cases hseat : s.seats i with
  | idle => exact hsilent fun t => by rw [hseat]; rfl
  | calling server call => exact hsilent fun t => by rw [hseat]; rfl
  | failing => exact hsilent fun t => by rw [hseat]; rfl
  | waiting server call =>
      obtain ⟨hnum, hown⟩ := hready.routed i server call (.inr hseat)
      have hattends := hready.attends i server call hseat
      by_cases hat : ∃ b, e = .act (.on server b)
      · obtain ⟨b, rfl⟩ := hat
        apply hears_at hready.inv hseat hnum hown _ h
        rcases hattends with he | hattends
        · cases he
          exact .inl rfl
        · exact .inr hattends
      · have hnot : ∀ b, e ≠ .act (.on server b) := fun b he => hat ⟨b, he⟩
        exact hears_elsewhere hseat hnot (hattends.resolve_left (hnot _)) h

theorem advance_held {s s' : Sessions} {e : Event} (h : s.advance e = some s') (i : Nat) :
    s'.held i = s.held i ∨ (e = .fetch i ∧ s'.held i = s.system.vs.getView) :=
  System.step_clients (advance_spec h).1 i

theorem advance_attended {s s' : Sessions} {e : Event} (hready : Ready s e)
    (hfetch : ∀ i, e = .fetch i → s.seats i = .idle) (h : s.advance e = some s') :
    Attended s' := by
  have hhears := advance_hears hready h
  constructor
  · exact System.step_inv hready.inv (advance_spec h).1
  · intro i server call hseat
    have hsame : s'.seats i = s.seats i := by
      cases hhears i with
      | nothing hsame hcount hattends => exact hsame
      | ended hwas hended hcount =>
          rcases hended with he | he <;> rw [he] at hseat <;> simp at hseat
      | refused hwas hfailing hcount hnew =>
          rw [hfailing] at hseat
          simp at hseat
    rw [hsame] at hseat
    rcases advance_held h i with hheld | ⟨he, -⟩
    · rw [hheld]
      exact hready.routed i server call hseat
    · rw [hfetch i he] at hseat
      simp at hseat
  · intro i server call hseat
    cases hhears i with
    | nothing hsame hcount hattends => exact hattends server call (hsame.symm.trans hseat)
    | ended hwas hended hcount =>
        rcases hended with he | he <;> cases hseat.symm.trans he
    | refused hwas hfailing hcount hnew => cases hseat.symm.trans hfailing

theorem mem_group_of_getServerID {draw : Nat} {key : Bytes} {v : View} {server : Server}
    (h : Cpp.getServerID draw key v = .ok server) : server ∈ group key v := by
  unfold Cpp.getServerID at h
  unfold group
  cases hget : getServer (irHash key) v with
  | error fault =>
      rw [hget] at h
      cases h
  | ok servers =>
      rw [hget] at h
      simp only at h
      split at h
      · cases h
      · unfold memberAt at h
        split at h
        · next found hfound =>
          cases h
          exact List.mem_of_getElem? hfound
        · cases h

theorem seat_cases {s : Sessions} {i j : Nat} {seat seat' : Seat}
    (h : (s.seat i seat).seats j = seat') :
    (j = i ∧ seat = seat') ∨ (j ≠ i ∧ s.seats j = seat') := by
  by_cases hj : j = i
  · subst hj
    exact .inl ⟨rfl, (Function.update_self _ _ _).symm.trans h⟩
  · exact .inr ⟨hj, (Function.update_of_ne hj _ _).symm.trans h⟩

theorem Attended.seat {s : Sessions} (h : Attended s) (i : Nat) {seat : Seat}
    (hrouted : ∀ server call, seat = .calling server call →
      call.viewNum = (s.held i).viewNum ∧ server ∈ group call.key (s.held i).view)
    (hwaits : ∀ server call, seat ≠ .waiting server call) : Attended (s.seat i seat) := by
  constructor
  · exact h.inv
  · intro j server call hj
    rcases hj with hj | hj
    · rcases seat_cases hj with ⟨rfl, hseat⟩ | ⟨-, hold⟩
      · exact hrouted server call hseat
      · exact h.routed j server call (.inl hold)
    · rcases seat_cases hj with ⟨-, hseat⟩ | ⟨-, hold⟩
      · exact absurd hseat (hwaits server call)
      · exact h.routed j server call (.inr hold)
  · intro j server call hj
    rcases seat_cases hj with ⟨-, hseat⟩ | ⟨-, hold⟩
    · exact absurd hseat (hwaits server call)
    · exact h.attends j server call hold

/-- The bound on how often the client has been turned away, up to the offset `k`. -/
structure Within (k : Int) (i : Nat) (s : Sessions) : Prop where
  held : (s.refusals i : Int) ≤ s.unreached i + (s.held i).viewNum + k +
    if s.seats i = .failing then 1 else 0
  latest : (s.refusals i : Int) ≤ s.unreached i + s.system.vs.viewNum + k

theorem advance_within {s s' : Sessions} {e : Event} {k : Int} {i : Nat} (hinv : s.system.Inv)
    (h : s.advance e = some s') (hhears : Hears s s' i) (hw : Within k i s) : Within k i s' := by
  obtain ⟨hstep, hunreached, -⟩ := advance_spec h
  have hinv' := System.step_inv hinv hstep
  have hgrows : (s.system.vs.viewNum : Int) ≤ s'.system.vs.viewNum :=
    ((ViewService.published_getView hinv.wellFormed).extends (System.step_extends hstep)).le
      hinv'.wellFormed
  have hheld : (s.held i).viewNum ≤ (s'.held i).viewNum := by
    rcases advance_held h i with hsame | ⟨-, hnew⟩
    · rw [hsame]
    · rw [hnew]
      exact (hinv.published _ (.inl ⟨i, rfl⟩)).le hinv.wellFormed
  have hbound := hw.held
  have hlatest := hw.latest
  have hun : s'.unreached i = s.unreached i := congrFun hunreached i
  cases hhears with
  | nothing hseat hcount hattends =>
      constructor
      · rw [hcount, hun, hseat]
        omega
      · rw [hcount, hun]
        omega
  | ended hwas hseat hcount =>
      rw [if_neg hwas] at hbound
      constructor
      · rw [hcount, hun]
        split <;> omega
      · rw [hcount, hun]
        omega
  | refused hwas hseat hcount hnew =>
      rw [if_neg hwas] at hbound
      constructor
      · rw [hcount, hun, if_pos hseat]
        push_cast
        omega
      · rw [hcount, hun]
        push_cast
        omega

/-- The events that can happen, and what each of them leaves. -/
inductive Moves (s : Sessions) : SessionEvent → Sessions → Prop
  | calls {i draw : Nat} {op : Operation .cpp} {server : Server} (hidle : s.seats i = .idle)
      (hpick : Cpp.getServerID draw op.key (s.held i).view = .ok server) :
      Moves s (.call i draw op) (s.seat i (.calling server (op.call (s.held i).viewNum)))
  | fails {ev : SessionEvent} {i : Nat} (hwas : s.seats i ≠ .failing) :
      Moves s ev (s.seat i .failing)
  | taken {i : Nat} {server : Server} {call : ClientCall} {s' : Sessions}
      (hcalling : s.seats i = .calling server call)
      (h : (s.seat i (.waiting server call)).advance (.act (.on server (.request call))) =
        some s') : Moves s (.take i) s'
  | fetches {i : Nat} {system : System} (hfailing : s.seats i = .failing)
      (h : s.system.step (.fetch i) = some system) :
      Moves s (.getView i) ({ s with system }.seat i .idle)
  | unreached {i : Nat} (hfailing : s.seats i = .failing) :
      Moves s (.viewServiceException i)
        { s.seat i .idle with unreached := Function.update s.unreached i (s.unreached i + 1) }
  | other {e : Event} {s' : Sessions} (hallows : ∀ i, e = .fetch i → s.seats i = .idle)
      (h : s.advance e = some s') : Moves s (.other e) s'

theorem step_moves {s s' : Sessions} {ev : SessionEvent} (h : s.step ev = some s') :
    Moves s ev s' := by
  cases ev with
  | call i draw op =>
      simp only [step] at h
      split at h
      · next hidle =>
        split at h
        · next server hpick =>
          cases h
          exact .calls hidle hpick
        · cases h
          exact .fails fun he => by cases hidle.symm.trans he
        · cases h
      · cases h
  | take i =>
      simp only [step] at h
      split at h
      · next server call hcalling => exact .taken hcalling h
      · cases h
  | drop i =>
      simp only [step] at h
      split at h
      · next hcalling =>
        cases h
        exact .fails fun he => by cases hcalling.symm.trans he
      · next hwaiting =>
        cases h
        exact .fails fun he => by cases hwaiting.symm.trans he
      · cases h
  | getView i =>
      simp only [step] at h
      split at h
      · next hfailing =>
        obtain ⟨system, hfetch, rfl⟩ := Option.map_eq_some_iff.mp h
        exact .fetches hfailing hfetch
      · cases h
  | viewServiceException i =>
      simp only [step] at h
      split at h
      · next hfailing =>
        cases h
        exact .unreached hfailing
      · cases h
  | other e =>
      simp only [step] at h
      split at h
      · next hallows =>
        refine .other ?_ h
        rintro i rfl
        exact of_decide_eq_true hallows
      · cases h

theorem Attended.take {s : Sessions} (h : Attended s) {i : Nat} {server : Server}
    {call : ClientCall} (hcalling : s.seats i = .calling server call) :
    Ready (s.seat i (.waiting server call)) (.act (.on server (.request call))) := by
  constructor
  · exact h.inv
  · intro j server' call' hj
    rcases hj with hj | hj
    · rcases seat_cases hj with ⟨-, hseat⟩ | ⟨-, hold⟩
      · cases hseat
      · exact h.routed j server' call' (.inl hold)
    · rcases seat_cases hj with ⟨rfl, hseat⟩ | ⟨-, hold⟩
      · cases hseat
        exact h.routed j server call (.inl hcalling)
      · exact h.routed j server' call' (.inr hold)
  · intro j server' call' hj
    rcases seat_cases hj with ⟨-, hseat⟩ | ⟨-, hold⟩
    · cases hseat
      exact .inl rfl
    · exact .inr (h.attends j server' call' hold)

theorem step_attended {s s' : Sessions} {ev : SessionEvent} (hatt : Attended s)
    (h : s.step ev = some s') : Attended s' := by
  cases step_moves h with
  | calls hidle hpick =>
      apply hatt.seat
      · intro server call he
        cases he
        rw [Operation.viewNum_call, Operation.key_call]
        exact ⟨rfl, mem_group_of_getServerID hpick⟩
      · intro server call he
        cases he
  | fails hwas => exact hatt.seat _ (fun _ _ he => by cases he) fun _ _ he => by cases he
  | taken hcalling hadvance =>
      refine advance_attended (hatt.take hcalling) (fun i he => ?_) hadvance
      cases he
  | @fetches i system hfailing hfetch =>
      have hcluster : system.cluster = s.system.cluster := by
        cases System.step_moves hfetch with
        | fetch hfree => rfl
      have hfetched : Attended { s with system } := by
        constructor
        · exact System.step_inv hatt.inv hfetch
        · intro j server call hj
          rcases System.step_clients hfetch j with hsame | ⟨he, -⟩
          · rw [show ({ s with system } : Sessions).held j = s.held j from hsame]
            exact hatt.routed j server call hj
          · cases he
            rw [show s.seats i = .failing from hfailing] at hj
            simp at hj
        · intro j server call hj
          unfold Attends
          rw [show ({ s with system } : Sessions).system.cluster = s.system.cluster from hcluster]
          exact hatt.attends j server call hj
      exact hfetched.seat i (fun _ _ he => by cases he) fun _ _ he => by cases he
  | @unreached i hfailing =>
      have hleft : Attended (s.seat i .idle) :=
        hatt.seat i (fun _ _ he => by cases he) fun _ _ he => by cases he
      exact ⟨hleft.inv, hleft.routed, hleft.attends⟩
  | other hallows hadvance => exact advance_attended (hatt.ready _) hallows hadvance

theorem Within.seat {s : Sessions} {k : Int} {i j : Nat} (hw : Within k i s)
    (hwas : s.seats j ≠ .failing) (seat : Seat) : Within k i (s.seat j seat) := by
  have hbound := hw.held
  refine ⟨?_, hw.latest⟩
  show (s.refusals i : Int) ≤ s.unreached i + (s.held i).viewNum + k + _
  by_cases hij : i = j
  · subst hij
    rw [if_neg hwas] at hbound
    split <;> omega
  · rw [show (s.seat j seat).seats i = s.seats i from Function.update_of_ne hij _ _]
    exact hbound

theorem step_within {s s' : Sessions} {ev : SessionEvent} {k : Int} {i : Nat} (hatt : Attended s)
    (hw : Within k i s) (h : s.step ev = some s') : Within k i s' := by
  cases step_moves h with
  | calls hidle hpick => exact hw.seat (fun he => by cases hidle.symm.trans he) _
  | fails hwas => exact hw.seat hwas _
  | @taken j server call s' hcalling hadvance =>
      have hready := hatt.take hcalling
      have htaken := hw.seat (fun he => by cases hcalling.symm.trans he) (.waiting server call)
      exact advance_within hready.inv hadvance (advance_hears hready hadvance i) htaken
  | @fetches j system hfailing hfetch =>
      have hbound := hw.held
      have hlatest := hw.latest
      cases System.step_moves hfetch with
      | fetch hfree =>
          refine ⟨?_, hlatest⟩
          by_cases hij : i = j
          · subst hij
            rw [if_neg (by simp [Sessions.seat])]
            show (s.refusals i : Int) ≤ s.unreached i +
              (Function.update s.system.clients i s.system.vs.getView i).viewNum + k + 0
            rw [Function.update_self]
            show (s.refusals i : Int) ≤ s.unreached i + s.system.vs.viewNum + k + 0
            omega
          · show (s.refusals i : Int) ≤ s.unreached i +
              (Function.update s.system.clients j s.system.vs.getView i).viewNum + k +
                if Function.update s.seats j .idle i = .failing then 1 else 0
            rw [Function.update_of_ne hij, Function.update_of_ne hij]
            exact hbound
  | @unreached j hfailing =>
      have hbound := hw.held
      have hlatest := hw.latest
      by_cases hij : i = j
      · subst hij
        rw [if_pos hfailing] at hbound
        constructor
        · show (s.refusals i : Int) ≤ (Function.update s.unreached i (s.unreached i + 1) i : Nat) +
            (s.held i).viewNum + k + if Function.update s.seats i .idle i = .failing then 1 else 0
          rw [Function.update_self, Function.update_self, if_neg fun he => by cases he]
          push_cast
          omega
        · show (s.refusals i : Int) ≤ (Function.update s.unreached i (s.unreached i + 1) i : Nat) +
            s.system.vs.viewNum + k
          rw [Function.update_self]
          push_cast
          omega
      · constructor
        · show (s.refusals i : Int) ≤ (Function.update s.unreached j (s.unreached j + 1) i : Nat) +
            (s.held i).viewNum + k + if Function.update s.seats j .idle i = .failing then 1 else 0
          rw [Function.update_of_ne hij, Function.update_of_ne hij]
          exact hbound
        · show (s.refusals i : Int) ≤ (Function.update s.unreached j (s.unreached j + 1) i : Nat) +
            s.system.vs.viewNum + k
          rw [Function.update_of_ne hij]
          exact hlatest
  | other hallows hadvance =>
      exact advance_within hatt.inv hadvance (advance_hears (hatt.ready _) hadvance i) hw

/-! ## Runs -/

theorem initial_attended : Attended {} :=
  ⟨System.initial_inv, fun _ _ _ hi => by simp at hi, fun _ _ _ hi => by simp at hi⟩

theorem attended_of_reach {s : Sessions} (h : Reach step anyAction {} s) : Attended s :=
  h.invariant initial_attended fun _ _ _ hatt _ hstep => step_attended hatt hstep

/-- In every run, a client is answered `WRONG_SERVER` at most once for each view that
has been published since the one it held, and once more for each time that it could not
reach the view service afterwards. While a client holds the current view, no server turns
it away. -/
theorem refusals_bounded {s s' : Sessions} (hs : Reach step anyAction {} s)
    (h : Reach step anyAction s s') {i : Nat} (hseat : s.seats i ≠ .failing) :
    (s'.refusals i : Int) - s.refusals i ≤
      (s'.system.vs.viewNum - (s.held i).viewNum) + (s'.unreached i - s.unreached i) := by
  have hatt := attended_of_reach hs
  have hheld : (s.held i).viewNum ≤ s.system.vs.viewNum :=
    (hatt.inv.published _ (.inl ⟨i, rfl⟩)).le hatt.inv.wellFormed
  have hstart : Within (s.refusals i - s.unreached i - (s.held i).viewNum) i s := by
    constructor
    · rw [if_neg hseat]
      omega
    · omega
  have hend := h.invariant (P := fun s' => Attended s' ∧ Within _ i s') ⟨hatt, hstart⟩
    fun _ _ _ hi _ hstep => ⟨step_attended hi.1 hstep, step_within hi.1 hi.2 hstep⟩
  have hlatest := hend.2.latest
  omega

def joinAndFetch (a : Server) : List SessionEvent :=
  [.other (.service (.addPing a 0)), .other (.service (.addView 0)), .other (.fetch 0)]

/-- A replica joins and the server learns of it. The client calls, is turned away,
fetches the view and calls again. -/
def callAfterJoin (a b : Server) : List SessionEvent :=
  let view : GetServersReply := { view := View.single [a, b], viewNum := 2 }
  [.other (.service (.addReplica b a 0)), .other (.act (.on a (.ping view))),
    .other (.act (.on a .pingAssign)), .other (.act (.on a .pingClean)), .call 0 0 (.get [7]),
    .take 0, .getView 0, .call 0 0 (.get [7]), .take 0, .other (.act (.on a .serve))]

theorem refusals_bounded_callAfterJoin :
    ∃ s s' : Sessions, Reach step anyAction {} s ∧ Reach step anyAction s s' ∧
      s.seats 0 = .idle ∧ s'.seats 0 = .idle ∧ s'.refusals 0 = s.refusals 0 + 1 ∧
      (s'.refusals 0 : Int) - s.refusals 0 ≤
        (s'.system.vs.viewNum - (s.held 0).viewNum) + (s'.unreached 0 - s.unreached 0) ∧
      (s'.system.vs.viewNum - (s.held 0).viewNum) + (s'.unreached 0 - s.unreached 0 : Int) = 1 := by
  have hrun : ((perform step anyAction {} (joinAndFetch ⟨[1], 1⟩)).bind fun s =>
      (perform step anyAction s (callAfterJoin ⟨[1], 1⟩ ⟨[2], 2⟩)).map fun s' =>
        (s.seats 0, s'.seats 0, decide (s'.refusals 0 = s.refusals 0 + 1),
          (s'.system.vs.viewNum - (s.held 0).viewNum) + (s'.unreached 0 - s.unreached 0 : Int))) =
      some (.idle, .idle, true, 1) := by
    decide +kernel
  obtain ⟨s, hs, hrest⟩ := Option.bind_eq_some_iff.mp hrun
  obtain ⟨s', hs', hend⟩ := Option.map_eq_some_iff.mp hrest
  obtain ⟨hidle, hend⟩ := Prod.mk.inj hend
  obtain ⟨hidle', hend⟩ := Prod.mk.inj hend
  obtain ⟨honce, hone⟩ := Prod.mk.inj hend
  have hreach := reach_of_perform hs
  have hreach' := reach_of_perform hs'
  have hbound := refusals_bounded hreach hreach' (i := 0) fun he => by cases hidle.symm.trans he
  exact ⟨s, s', hreach, hreach', hidle, hidle', of_decide_eq_true honce, hbound, hone⟩

end Sessions

end RobustCache
