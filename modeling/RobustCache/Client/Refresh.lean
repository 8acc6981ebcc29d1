import RobustCache.Client.Routing

/-! # What the clients do about a failure

`get`, `put` and `getView` of the three clients with their exception handlers.
What a call meets on its way (the random draw, whether the server can be reached
and what it answers, what the view service answers) is a parameter. The trace
records failures and refetches in the order in which they happen.
-/

namespace RobustCache

open Lib

/-- Why an operation fails for want of the right server. -/
inductive Failure where
  | emptyRing
  | connection
  | rpc
  | wrongServer
deriving DecidableEq, Repr

inductive ClientEvent where
  | failed (f : Failure)
  | fetched (v : GetServersReply)
deriving DecidableEq

/-- The exceptions of the clients. A division by zero in C++ is none: it ends the
process. -/
inductive Exn where
  | emptyRing
  | viewService
  | wrongServer
  | connectionFailed
  | noKey
  | invalidValue
  /-- An exception of Thrift, while connecting or calling. -/
  | transport
  /-- The value cannot be converted. -/
  | io
  | classNotFound
  /-- An exception of the language, such as an index error. -/
  | unchecked (f : RouteFault)
  | getFailed
  | putFailed
  | crash
deriving DecidableEq

inductive DecodeFault where
  | io
  | classNotFound

/-- What one operation meets. -/
structure Net where
  draw : Nat
  /-- The order in which Java visits the key set of a map. -/
  order : View → List Int
  perm : ∀ v, (order v).Perm v.hashToServer.keys
  connects : Bool
  /-- The reply of the server, if the call gets through; only its status counts
  for a put. -/
  answer : Option GetReply
  /-- What the view service answers when it is asked. -/
  service : Option GetServersReply
  encode : Bytes → Option Bytes
  decode : Bytes → Except DecodeFault Bytes

namespace Net

/-- `deserialize` and `cPickle.loads`. -/
def decoded (net : Net) (value : Bytes) : Except Exn Bytes :=
  match net.decode value with
  | .ok value => .ok value
  | .error .io => .error .io
  | .error .classNotFound => .error .classNotFound

/-- `serialize` and `cPickle.dumps`. -/
def encoded (net : Net) (value : Bytes) : Except Exn Unit :=
  match net.encode value with
  | some _ => .ok ()
  | none => .error .io

end Net

/-- The view that the client holds, and what has happened to it. -/
structure World where
  view : GetServersReply
  trace : List ClientEvent := []

namespace World

def failed (w : World) (f : Failure) : World := { w with trace := w.trace ++ [.failed f] }

def fetched (w : World) (v : GetServersReply) : World :=
  { view := v, trace := w.trace ++ [.fetched v] }

end World

/-- A program of a client, which may raise an exception. -/
def Program (α : Type) := World → Except Exn α × World

namespace Program

variable {α β : Type}

instance : Monad Program where
  pure a := fun w => (.ok a, w)
  bind x f := fun w =>
    match x w with
    | (.ok a, w) => f a w
    | (.error e, w) => (.error e, w)

def raise (e : Exn) : Program α := fun w => (.error e, w)

/-- `try`, with all its `catch` clauses in one handler. -/
def catching (x : Program α) (handler : Exn → Program α) : Program α := fun w =>
  match x w with
  | (.ok a, w) => (.ok a, w)
  | (.error e, w) => handler e w

def pick (route : View → Except RouteFault Server) (exn : RouteFault → Exn) : Program Server :=
  fun w =>
  match route w.view.view with
  | .ok server => (.ok server, w)
  | .error f =>
      (.error (exn f), if w.view.view.hashToServer.isEmpty then w.failed .emptyRing else w)

def connect (net : Net) : Program Unit := fun w =>
  if net.connects then (.ok (), w) else (.error .transport, w.failed .connection)

def call (net : Net) : Program GetReply := fun w =>
  match net.answer with
  | none => (.error .transport, w.failed .rpc)
  | some reply => (.ok reply, if reply.status = .wrongServer then w.failed .wrongServer else w)

def fetch (net : Net) (unreachable : Exn) : Program Unit := fun w =>
  match net.service with
  | some v => (.ok (), w.fetched v)
  | none => (.error unreachable, w)

/-- The lines that all operations have in common: pick a server, connect to it,
prepare the arguments and call. -/
def ask (net : Net) (route : View → Except RouteFault Server) (exn : RouteFault → Exn)
    (prepare : Except Exn Unit) : Program GetReply := do
  let _ ← pick route exn
  connect net
  match prepare with
  | .ok () => call net
  | .error e => raise e

end Program

open Program

namespace Cpp

def exn : RouteFault → Exn
  | .emptyRing => .emptyRing
  | _ => .crash

def getView (net : Net) : Program Unit := fetch net .viewService

/-- The `catch` clauses of `get` and of `put`. -/
def handle {α : Type} (net : Net) : Exn → Program α
  | .emptyRing => do
      getView net
      raise .emptyRing
  | .viewService => raise .viewService
  | .wrongServer => raise .wrongServer
  | .crash => raise .crash
  | _ => do
      getView net
      raise .connectionFailed

def get (net : Net) (key : Bytes) : Program (Option Bytes) :=
  catching
    (do
      let reply ← ask net (getServerID net.draw key) exn (.ok ())
      match reply.status with
      | .ok => return some reply.value
      | .wrongServer => do
          getView net
          raise .wrongServer
      | .noKey => return none)
    (handle net)

def put (net : Net) (key _value : Bytes) : Program (Option Bytes) :=
  catching
    (do
      let reply ← ask net (getServerID net.draw key) exn (.ok ())
      if reply.status = .wrongServer then do
        getView net
        raise .wrongServer
      else return none)
    (handle net)

end Cpp

namespace Java

def exn : RouteFault → Exn
  | .emptyRing => .emptyRing
  | f => .unchecked f

def getView (net : Net) : Program Unit := fetch net .viewService

/-- `catch (Exception e)`: refetch the view and throw again. -/
def refetch {α : Type} (net : Net) (e : Exn) : Program α := do
  getView net
  raise e

def handlePut (net : Net) : Exn → Program (Option Bytes)
  | .io => raise .invalidValue
  | e => refetch net e

def put (net : Net) (key : Chars) (value : Bytes) : Program (Option Bytes) :=
  catching
    (do
      let reply ← ask net (fun v => pickServer (net.order v) net.draw key v) exn (net.encoded value)
      if reply.status = .wrongServer then raise .wrongServer else return none)
    (handlePut net)

def handleGet (net : Net) : Exn → Program (Option Bytes)
  | .classNotFound => raise .invalidValue
  | .noKey => raise .noKey
  | e => refetch net e

def get (net : Net) (key : Chars) : Program (Option Bytes) :=
  catching
    (do
      let reply ← ask net (fun v => pickServer (net.order v) net.draw key v) exn (.ok ())
      match reply.status with
      | .wrongServer => raise .wrongServer
      | .noKey => raise .noKey
      | .ok =>
          match net.decoded reply.value with
          | .ok value => return some value
          | .error e => raise e)
    (handleGet net)

end Java

namespace Python

def getView (net : Net) : Program Unit := fetch net .transport

def get (net : Net) (key : Bytes) : Program (Option Bytes) :=
  catching
    (do
      let reply ← ask net (getServer net.draw key) .unchecked (.ok ())
      match reply.status with
      | .ok =>
          match net.decoded reply.value with
          | .ok value => return some value
          | .error e => raise e
      | .noKey => return some []
      | .wrongServer => do
          getView net
          raise .wrongServer)
    fun _ => raise .getFailed

def put (net : Net) (key value : Bytes) : Program (Option Bytes) :=
  catching
    (do
      let reply ← ask net (getServer net.draw key) .unchecked (net.encoded value)
      if reply.status = .wrongServer then do
        getView net
        raise .wrongServer
      else return none)
    fun _ => raise .putFailed

end Python

/-! ## One operation of one client -/

inductive Client where
  | cpp
  | java
  | python
deriving DecidableEq, Repr

def Client.Key : Client → Type
  | .cpp => Bytes
  | .java => Java.Chars
  | .python => Bytes

inductive Operation (c : Client) where
  | get (key : c.Key)
  | put (key : c.Key) (value : Bytes)

def Client.perform (net : Net) : (c : Client) → Operation c → Program (Option Bytes)
  | .cpp, .get key => Cpp.get net key
  | .cpp, .put key value => Cpp.put net key value
  | .java, .get key => Java.get net key
  | .java, .put key value => Java.put net key value
  | .python, .get key => Python.get net key
  | .python, .put key value => Python.put net key value

def Client.route (net : Net) (v : View) : (c : Client) → c.Key → Except RouteFault Server
  | .cpp, key => Cpp.getServerID net.draw key v
  | .java, key => Java.pickServer (net.order v) net.draw key v
  | .python, key => Python.getServer net.draw key v

namespace Operation

def key {c : Client} : Operation c → c.Key
  | .get key => key
  | .put key _ => key

/-- Java and Python convert the value of a put before they call. -/
def prepares {c : Client} (net : Net) : Operation c → Bool
  | .get _ => true
  | .put _ value => decide (c = .cpp) || (net.encode value).isSome

/-- Why the operation fails, as far as the ring, the server and its answer are
concerned. -/
def failure {c : Client} (net : Net) (v : View) (call : Operation c) : Option Failure :=
  match c.route net v call.key with
  | .error _ => if v.hashToServer.isEmpty then some .emptyRing else none
  | .ok _ =>
      if net.connects = false then some .connection
      else if call.prepares net = false then none
      else
        match net.answer with
        | none => some .rpc
        | some reply => if reply.status = .wrongServer then some .wrongServer else none

end Operation

def World.since (w w' : World) : List ClientEvent := w'.trace.drop w.trace.length

/-- An operation that failed for want of the right server leaves a view that the
view service returned after the failure; one that succeeded or found no key
leaves the view it found. -/
structure Refreshes (w : World) (r : Except Exn (Option Bytes)) (w' : World) : Prop where
  refreshed : ∀ f, .failed f ∈ w.since w' → ∃ before after,
    w.since w' = before ++ .failed f :: after ∧ .fetched w'.view ∈ after
  kept : (∀ e, r = .error e → e = .noKey) → w'.view = w.view

/-! ## What each client does -/

section Outcomes

variable {net : Net} {w : World} {v : GetServersReply}

theorem bind_apply {α β : Type} (x : Program α) (f : α → Program β) (w : World) :
    (x >>= f) w = match x w with
      | (.ok a, w) => f a w
      | (.error e, w) => (.error e, w) := rfl

theorem ask_eq (net : Net) (route : View → Except RouteFault Server) (exn : RouteFault → Exn)
    (prepare : Except Exn Unit) (w : World) :
    ask net route exn prepare w = match route w.view.view with
      | .error f =>
          (.error (exn f), if w.view.view.hashToServer.isEmpty then w.failed .emptyRing else w)
      | .ok _ =>
          if net.connects = false then (.error .transport, w.failed .connection)
          else match prepare with
            | .error e => (.error e, w)
            | .ok () => call net w := by
  simp only [ask, bind_apply, pick]
  cases route w.view.view with
  | error f => rfl
  | ok server =>
      cases hconnects : net.connects with
      | false => simp [connect, hconnects]
      | true =>
          cases prepare with
          | error e => simp [connect, hconnects, raise]
          | ok _ => simp [connect, hconnects]

/-- The client asks the view service after the failure. -/
def Client.refetches (c : Client) (f : Failure) : Bool :=
  decide (c ≠ .python) || decide (f = .wrongServer)

/-- How an operation ends, given why it fails: with an exception and, if the
client refetches, the view that the view service answers; or else with the view
as it was, unless an exception of another kind has made the client refetch. -/
def Ending (c : Client) (w : World) (v : GetServersReply) (o : Except Exn (Option Bytes) × World) :
    Option Failure → Prop
  | some f => (∃ e, o.1 = .error e ∧ e ≠ .noKey) ∧
      o.2 = if c.refetches f then (w.failed f).fetched v else w.failed f
  | none => o.2 = w ∨ (o.2 = w.fetched v ∧ ∃ e, o.1 = .error e ∧ e ≠ .noKey)

/-- The cases of an operation, one for each line that can fail. -/
theorem ending_of_ask {c : Client} (call : Operation c) (exn : RouteFault → Exn)
    (prepare : Except Exn Unit) (finish : GetReply → Program (Option Bytes))
    (handler : Exn → Program (Option Bytes))
    (hroute : ∀ f, c.route net w.view.view call.key = .error f →
      Ending c w v (handler (exn f)
          (if w.view.view.hashToServer.isEmpty then w.failed .emptyRing else w))
        (if w.view.view.hashToServer.isEmpty then some .emptyRing else none))
    (hprepares : call.prepares net = match prepare with
      | .ok _ => true
      | .error _ => false)
    (hprepare : ∀ e, prepare = .error e → Ending c w v (handler e w) none)
    (htransport : ∀ f, f = .connection ∨ f = .rpc →
      Ending c w v (handler .transport (w.failed f)) (some f))
    (hreply : ∀ reply : GetReply, reply.status ≠ .wrongServer →
      Ending c w v (catching (finish reply) handler w) none)
    (hwrong : ∀ reply : GetReply, reply.status = .wrongServer →
      Ending c w v (catching (finish reply) handler (w.failed .wrongServer)) (some .wrongServer)) :
    Ending c w v
      (catching (ask net (fun view => c.route net view call.key) exn prepare >>= finish) handler w)
      (call.failure net w.view.view) := by
  simp only [Operation.failure, catching, bind_apply, ask_eq, hprepares]
  cases hr : c.route net w.view.view call.key with
  | error f => exact hroute f hr
  | ok server =>
      cases net.connects with
      | false => exact htransport .connection (.inl rfl)
      | true =>
          cases prepare with
          | error e => exact hprepare e rfl
          | ok _ =>
              simp only [Program.call]
              cases net.answer with
              | none => exact htransport .rpc (.inr rfl)
              | some reply =>
                  by_cases hstatus : reply.status = .wrongServer
                  · simp only [if_pos hstatus]
                    exact hwrong reply hstatus
                  · simp only [if_neg hstatus]
                    exact hreply reply hstatus

end Outcomes

namespace Cpp

variable {net : Net} {w : World} {v : GetServersReply}

theorem getServerID_of_empty {view : View} (hempty : view.hashToServer.isEmpty = true)
    (draw : Nat) (key : Bytes) : getServerID draw key view = .error .emptyRing := by
  have hnot : ¬ view.NonEmpty := by simp [View.NonEmpty, hempty]
  rw [getServerID, getServer_of_empty hnot]

theorem handle_route (hv : net.service = some v) {draw : Nat} {key : Bytes} {f : RouteFault}
    (hroute : getServerID draw key w.view.view = .error f) :
    Ending .cpp w v (handle net (exn f)
        (if w.view.view.hashToServer.isEmpty then w.failed .emptyRing else w))
      (if w.view.view.hashToServer.isEmpty then some .emptyRing else none) := by
  cases hempty : w.view.view.hashToServer.isEmpty with
  | true =>
      rw [getServerID_of_empty hempty] at hroute
      cases hroute
      simp [Ending, handle, exn, getView, bind_apply, fetch, hv, raise, Client.refetches]
  | false =>
      cases f <;> simp [Ending, handle, exn, getView, bind_apply, fetch, hv, raise]

theorem handle_transport (hv : net.service = some v) (f : Failure) :
    Ending .cpp w v (handle net .transport (w.failed f)) (some f) := by
  simp [Ending, handle, getView, bind_apply, fetch, hv, raise, Client.refetches]

theorem catching_wrongServer (hv : net.service = some v) (w : World) :
    catching (do getView net; raise .wrongServer : Program (Option Bytes)) (handle net) w =
      (.error .wrongServer, w.fetched v) := by
  simp [catching, getView, bind_apply, fetch, hv, raise, handle]

theorem get_ending (hv : net.service = some v) (key : Bytes) :
    Ending .cpp w v (get net key w)
      (Operation.failure net w.view.view (.get key : Operation .cpp)) := by
  refine ending_of_ask (.get key : Operation .cpp) exn (.ok ()) _ (handle net)
    (fun f => handle_route hv) rfl (fun e he => by cases he)
    (fun f _ => handle_transport hv f) (fun reply hok => ?_) (fun reply hwrong => ?_)
  · refine .inl ?_
    cases hstatus : reply.status with
    | ok => simp [catching, pure]
    | noKey => simp [catching, pure]
    | wrongServer => exact absurd hstatus hok
  · simp only [hwrong]
    rw [catching_wrongServer hv]
    simp [Ending, Client.refetches]

theorem put_ending (hv : net.service = some v) (key value : Bytes) :
    Ending .cpp w v (put net key value w)
      (Operation.failure net w.view.view (.put key value : Operation .cpp)) := by
  refine ending_of_ask (.put key value : Operation .cpp) exn (.ok ()) _ (handle net)
    (fun f => handle_route hv) rfl (fun e he => by cases he)
    (fun f _ => handle_transport hv f) (fun reply hok => ?_) (fun reply hwrong => ?_)
  · simp only [if_neg hok]
    exact .inl rfl
  · simp only [if_pos hwrong]
    rw [catching_wrongServer hv]
    simp [Ending, Client.refetches]

end Cpp

namespace Java

variable {net : Net} {w : World} {v : GetServersReply}

/-- `catch (Exception e)` after a failure or after another exception. -/
theorem refetch_eq (hv : net.service = some v) (e : Exn) (w : World) :
    refetch (α := Option Bytes) net e w = (.error e, w.fetched v) := by
  simp [refetch, getView, bind_apply, fetch, hv, raise]

theorem ending_fetched (fail : Option Failure) {e : Exn} (he : e ≠ .noKey) :
    Ending .java w v (.error e, (match fail with
      | some f => w.failed f
      | none => w).fetched v) fail := by
  cases fail with
  | none => exact .inr ⟨rfl, e, rfl, he⟩
  | some f => exact ⟨⟨e, rfl, he⟩, by simp [Client.refetches]⟩

theorem ending_route {handler : Exn → Program (Option Bytes)} {f : RouteFault}
    (hhandler : handler (exn f) = refetch net (exn f)) (hv : net.service = some v) :
    Ending .java w v (handler (exn f)
        (if w.view.view.hashToServer.isEmpty then w.failed .emptyRing else w))
      (if w.view.view.hashToServer.isEmpty then some .emptyRing else none) := by
  have hne : exn f ≠ .noKey := by cases f <;> simp [exn]
  rw [hhandler, refetch_eq hv]
  split
  · exact ending_fetched (some .emptyRing) hne
  · exact ending_fetched none hne

theorem prepares_put (net : Net) (c : Client) (hc : c ≠ .cpp) (key : c.Key) (value : Bytes) :
    Operation.prepares net (.put key value) = match net.encoded value with
      | .ok _ => true
      | .error _ => false := by
  simp only [Operation.prepares, Net.encoded, hc, decide_false, Bool.false_or]
  cases net.encode value with
  | none => rfl
  | some _ => rfl

theorem encoded_error {value : Bytes} {e : Exn} (he : net.encoded value = .error e) : e = .io := by
  unfold Net.encoded at he
  split at he
  · cases he
  · cases he
    rfl

theorem put_ending (hv : net.service = some v) (key : Chars) (value : Bytes) :
    Ending .java w v (put net key value w)
      (Operation.failure net w.view.view (.put key value : Operation .java)) := by
  refine ending_of_ask (.put key value : Operation .java) exn (net.encoded value) _ (handlePut net)
    (fun f _ => ending_route (by cases f <;> rfl) hv)
    (prepares_put net .java (by decide) key value) (fun e he => ?_) (fun f _ => ?_)
    (fun reply hok => ?_) (fun reply hwrong => ?_)
  · rw [encoded_error he]
    exact .inl rfl
  · simp only [handlePut, refetch_eq hv]
    exact ending_fetched (some f) (by decide)
  · simp only [if_neg hok]
    exact .inl rfl
  · simp only [if_pos hwrong, catching, raise, handlePut, refetch_eq hv]
    exact ending_fetched (some .wrongServer) (by decide)

theorem get_ending (hv : net.service = some v) (key : Chars) :
    Ending .java w v (get net key w)
      (Operation.failure net w.view.view (.get key : Operation .java)) := by
  refine ending_of_ask (.get key : Operation .java) exn (.ok ()) _ (handleGet net)
    (fun f _ => ending_route (by cases f <;> rfl) hv) rfl (fun e he => by cases he)
    (fun f _ => ?_) (fun reply hok => ?_) (fun reply hwrong => ?_)
  · simp only [handleGet, refetch_eq hv]
    exact ending_fetched (some f) (by decide)
  · cases hstatus : reply.status with
    | wrongServer => exact absurd hstatus hok
    | noKey => exact .inl rfl
    | ok =>
        simp only [catching, Net.decoded]
        cases net.decode reply.value with
        | ok value => exact .inl rfl
        | error e =>
            cases e with
            | io =>
                simp only [raise, handleGet, refetch_eq hv]
                exact ending_fetched none (by decide)
            | classNotFound => exact .inl rfl
  · simp only [hwrong, catching, raise, handleGet, refetch_eq hv]
    exact ending_fetched (some .wrongServer) (by decide)

end Java

namespace Python

variable {net : Net} {w : World} {v : GetServersReply}

/-- The bare `except` refetches nothing. -/
theorem ending_raise (fail : Option Failure) {e : Exn} (he : e ≠ .noKey)
    (hfail : fail ≠ some .wrongServer) :
    Ending .python w v (.error e, match fail with
      | some f => w.failed f
      | none => w) fail := by
  cases fail with
  | none => exact .inl rfl
  | some f =>
      have hf : f ≠ .wrongServer := fun h => hfail (by rw [h])
      exact ⟨⟨e, rfl, he⟩, by simp [Client.refetches, hf]⟩

theorem ending_route {e : Exn} (he : e ≠ .noKey) :
    Ending .python w v
      (.error e, if w.view.view.hashToServer.isEmpty then w.failed .emptyRing else w)
      (if w.view.view.hashToServer.isEmpty then some .emptyRing else none) := by
  split
  · exact ending_raise (some .emptyRing) he (by decide)
  · exact ending_raise none he (by decide)

theorem ending_wrongServer (hv : net.service = some v) {e : Exn} (he : e ≠ .noKey) :
    Ending .python w v
      (catching (do getView net; raise .wrongServer : Program (Option Bytes)) (fun _ => raise e)
        (w.failed .wrongServer)) (some .wrongServer) := by
  simp [Ending, catching, getView, bind_apply, fetch, hv, raise, Client.refetches, he]

theorem get_ending (hv : net.service = some v) (key : Bytes) :
    Ending .python w v (get net key w)
      (Operation.failure net w.view.view (.get key : Operation .python)) := by
  refine ending_of_ask (.get key : Operation .python) .unchecked (.ok ()) _ _
    (fun f _ => ending_route (by decide)) rfl (fun e he => by cases he) (fun f hf => ?_)
    (fun reply hok => ?_) (fun reply hwrong => ?_)
  · refine ending_raise (some f) (by decide) ?_
    rcases hf with rfl | rfl <;> decide
  · cases hstatus : reply.status with
    | wrongServer => exact absurd hstatus hok
    | noKey => exact .inl rfl
    | ok =>
        simp only [catching]
        cases net.decoded reply.value with
        | ok value => exact .inl rfl
        | error e => exact .inl rfl
  · simp only [hwrong]
    exact ending_wrongServer hv (by decide)

theorem put_ending (hv : net.service = some v) (key value : Bytes) :
    Ending .python w v (put net key value w)
      (Operation.failure net w.view.view (.put key value : Operation .python)) := by
  refine ending_of_ask (.put key value : Operation .python) .unchecked (net.encoded value) _ _
    (fun f _ => ending_route (by decide)) (Java.prepares_put net .python (by decide) key value)
    (fun e he => .inl rfl) (fun f hf => ?_) (fun reply hok => ?_) (fun reply hwrong => ?_)
  · refine ending_raise (some f) (by decide) ?_
    rcases hf with rfl | rfl <;> decide
  · simp only [if_neg hok]
    exact .inl rfl
  · simp only [if_pos hwrong]
    exact ending_wrongServer hv (by decide)

end Python

theorem Client.ending {net : Net} {v : GetServersReply} (hv : net.service = some v) (w : World)
    (c : Client) (call : Operation c) :
    Ending c w v (c.perform net call w) (call.failure net w.view.view) := by
  cases c with
  | cpp =>
      cases call with
      | get key => exact Cpp.get_ending hv key
      | put key value => exact Cpp.put_ending hv key value
  | java =>
      cases call with
      | get key => exact Java.get_ending hv key
      | put key value => exact Java.put_ending hv key value
  | python =>
      cases call with
      | get key => exact Python.get_ending hv key
      | put key value => exact Python.put_ending hv key value

/-! ## Runs -/

structure Taken (c : Client) where
  before : World
  call : Operation c
  net : Net
  result : Except Exn (Option Bytes)
  after : World

def Client.run (c : Client) (w : World) : List (Operation c × Net) → List (Taken c)
  | [] => []
  | (call, net) :: rest =>
      let ended := c.perform net call w
      ⟨w, call, net, ended.1, ended.2⟩ :: c.run ended.2 rest

theorem not_refreshes {w w' : World} {r : Except Exn (Option Bytes)} {f : Failure}
    (hsince : w.since w' = [.failed f]) : ¬ Refreshes w r w' := by
  intro hrefresh
  obtain ⟨before, after, hsplit, hmem⟩ := hrefresh.refreshed f (by simp [hsince])
  rw [hsince] at hsplit
  have hlen := congrArg List.length hsplit
  simp only [List.length_append, List.length_cons, List.length_nil] at hlen
  rw [List.eq_nil_of_length_eq_zero (by omega : after.length = 0)] at hmem
  cases hmem

theorem refreshes_of_ending {c : Client} {w : World} {v : GetServersReply}
    {o : Except Exn (Option Bytes) × World} {fail : Option Failure} (h : Ending c w v o fail) :
    Refreshes w o.1 o.2 ↔ ∀ f, fail = some f → c.refetches f = true := by
  cases fail with
  | none =>
      refine ⟨fun _ f hf => (by cases hf), fun _ => ?_⟩
      rcases h with hsame | ⟨hfetched, e, he, hne⟩
      · rw [hsame]
        exact ⟨fun f hf => by simp [World.since] at hf, fun _ => rfl⟩
      · rw [hfetched]
        exact ⟨fun f hf => by simp [World.since, World.fetched] at hf,
          fun hkept => absurd (hkept e he) hne⟩
  | some f =>
      obtain ⟨⟨e, he, hne⟩, hend⟩ := h
      rw [hend]
      cases hre : c.refetches f with
      | true =>
          rw [if_pos rfl]
          have hsince : w.since ((w.failed f).fetched v) = [.failed f, .fetched v] := by
            simp [World.since, World.failed, World.fetched]
          refine ⟨fun _ g hg => ?_, fun _ => ⟨fun g hg => ?_, fun hkept => ?_⟩⟩
          · cases hg
            exact hre
          · rw [hsince] at hg ⊢
            have hgf : g = f := by simpa using hg
            rw [hgf]
            exact ⟨[], [.fetched v], rfl, List.mem_singleton_self _⟩
          · exact absurd (hkept e he) hne
      | false =>
          rw [if_neg (by decide)]
          have hsince : w.since (w.failed f) = [.failed f] := by
            simp [World.since, World.failed]
          refine ⟨fun hrefresh => absurd hrefresh (not_refreshes hsince), fun hall => ?_⟩
          · rw [hall f rfl] at hre
            cases hre

/-- In every run with the view service reachable, an operation treats its view as
it should unless the client is the Python one and fails on an empty ring or
without an answer. -/
theorem refreshes_iff (c : Client) (w : World) (ops : List (Operation c × Net))
    (hservice : ∀ op ∈ ops, op.2.service.isSome = true) :
    ∀ t ∈ c.run w ops, Refreshes t.before t.result t.after ↔
      (c = .python → ∀ f, t.call.failure t.net t.before.view.view = some f → f = .wrongServer) := by
  induction ops generalizing w with
  | nil =>
      intro t ht
      cases ht
  | cons op rest ih =>
      obtain ⟨call, net⟩ := op
      intro t ht
      rcases List.mem_cons.mp ht with rfl | ht
      · obtain ⟨v, hv⟩ := Option.isSome_iff_exists.mp (hservice _ List.mem_cons_self)
        rw [refreshes_of_ending (Client.ending hv w c call)]
        simp only [Client.refetches, Bool.or_eq_true, decide_eq_true_eq]
        constructor
        · intro hall hc f hf
          exact (hall f hf).resolve_left fun hne => hne hc
        · intro hall f hf
          by_cases hc : c = .python
          · exact .inr (hall hc f hf)
          · exact .inl hc
      · exact ih _ (fun op hop => hservice op (List.mem_cons_of_mem _ hop)) t ht

def sampleNet (connects : Bool) (status : Status) : Net where
  draw := 0
  order v := v.hashToServer.keys
  perm _ := .refl _
  connects := connects
  answer := some { status }
  service := some { view := View.single [⟨[1], 1⟩], viewNum := 1 }
  encode value := some value
  decode value := .ok value

/-- The C++ client starts with an empty ring and then finds the server down. -/
def cppOps : List (Operation .cpp × Net) :=
  [(.get ([1] : Bytes), sampleNet true .ok), (.put ([1] : Bytes) [7], sampleNet false .ok)]

theorem refreshes_iff_cpp :
    (∀ op ∈ cppOps, op.2.service.isSome = true) ∧
      ∀ t ∈ Client.run .cpp { view := {} } cppOps, Refreshes t.before t.result t.after := by
  have hservice : ∀ op ∈ cppOps, op.2.service.isSome = true := by
    intro op hop
    rcases List.mem_cons.mp hop with rfl | hop
    · rfl
    · rw [List.mem_singleton.mp hop]
      rfl
  refine ⟨hservice, fun t ht => ?_⟩
  exact (refreshes_iff .cpp { view := {} } cppOps hservice t ht).mpr fun hc => by cases hc

/-- The Python client goes on with the empty ring that it started with, and with
a view whose only server is down. -/
theorem python_keeps_stale_view :
    let empty : World := { view := {} }
    let up : World := { view := { view := View.single [⟨[2], 2⟩] } }
    ¬ Refreshes empty (Python.get (sampleNet true .ok) [1] empty).1
        (Python.get (sampleNet true .ok) [1] empty).2 ∧
      ¬ Refreshes up (Python.put (sampleNet false .ok) [1] [7] up).1
        (Python.put (sampleNet false .ok) [1] [7] up).2 := by
  intro empty up
  exact ⟨not_refreshes (f := .emptyRing) (by decide +kernel),
    not_refreshes (f := .connection) (by decide +kernel)⟩

end RobustCache
