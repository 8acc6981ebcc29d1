import RobustCache.Wire.Bounds
import RobustCache.Wire.Connection

/-! # Calls over a connection

A client writes its calls one after the other into a connection. Whatever the pieces are
in which they arrive, the processor gets these calls, in order, and the client the answers
to them, up to a call that is larger than the server admits. The calls of any client fit
into one frame when they reach the handlers.
-/

namespace RobustCache.Thrift

open Lib Lib.Parser

/-! ## What is left to read and to write -/

def replies (served : List (List Byte × Option (List Byte))) : List Byte :=
  served.flatMap fun p =>
    match p.2 with
    | none => []
    | some reply => if reply = [] then [] else framed reply

/-- The frames that are still to be processed follow in what has been read of them and
what has not. -/
def SocketState.Awaits (incoming : List Byte) (todo : List (List Byte)) : SocketState → Prop
  | recvFraming buffer => buffer.length < 4 ∧ buffer ++ incoming = todo.flatMap framed
  | recv want buffer => ∃ request rest, todo = request :: rest ∧ want = request.length ∧
      buffer.length < want ∧ buffer ++ incoming = request ++ rest.flatMap framed
  | send buffer => buffer ≠ [] ∧ incoming = todo.flatMap framed
  | closed => True
  | aborted => False

/-- What has been written, and what is being written, are the answers. -/
def SocketState.Answers (outgoing answers : List Byte) : SocketState → Prop
  | send buffer => outgoing ++ buffer = answers
  | closed => outgoing <+: answers
  | _ => outgoing = answers

namespace Connection

section Frames

variable {frames : List (List Byte)} {c c' : Connection}

/-- The frames that went to the processor, and those that are still to come, are the
frames that the client has sent. -/
structure Serves (frames : List (List Byte)) (c : Connection) : Prop where
  awaits : ∃ todo, frames = c.served.map Prod.fst ++ todo ∧ c.socket.Awaits c.incoming todo
  answers : c.socket.Answers c.outgoing (replies c.served)

theorem Serves.not_aborted (hc : c.Serves frames) : c.socket ≠ .aborted := by
  obtain ⟨todo, -, hawaits⟩ := hc.awaits
  intro haborted
  rw [haborted] at hawaits
  exact hawaits

theorem replies_append (served : List (List Byte × Option (List Byte)))
    (request : List Byte) (answer : Option (List Byte)) :
    replies (served ++ [(request, answer)]) = replies served ++ replies [(request, answer)] :=
  List.flatMap_append

theorem ofBytes_size {request : List Byte} (h : request.length < 256 ^ 4) :
    ofBytes (toBytes 4 request.length) = request.length := by
  rw [ofBytes_toBytes, Nat.mod_eq_of_lt h]

theorem header_of_frames {buffer rest : List Byte} {todo : List (List Byte)}
    (hlength : buffer.length = 4) (h : buffer ++ rest = todo.flatMap framed) :
    ∃ request todo', todo = request :: todo' ∧ buffer = toBytes 4 request.length ∧
      rest = request ++ todo'.flatMap framed := by
  cases todo with
  | nil =>
      have hempty := List.append_eq_nil_iff.mp h
      rw [hempty.1] at hlength
      simp at hlength
  | cons request todo =>
      rw [List.flatMap_cons, framed, List.append_assoc] at h
      have hparts := List.append_inj h (by rw [hlength, length_toBytes])
      exact ⟨request, todo, rfl, hparts.1, hparts.2⟩

/-- The processor has taken the first of the frames that were left. -/
theorem serves_transition {request : List Byte} {todo : List (List Byte)}
    (htodo : frames = c.served.map Prod.fst ++ request :: todo)
    (hincoming : c.incoming = todo.flatMap framed) (hanswers : c.outgoing = replies c.served)
    (answer : Option (List Byte)) : (c.transition request answer).Serves frames := by
  have hframes : frames = (c.served ++ [(request, answer)]).map Prod.fst ++ todo := by
    rw [htodo, List.map_append, List.append_assoc]
    rfl
  have hreplies := replies_append c.served request answer
  rw [← hanswers] at hreplies
  cases answer with
  | none =>
      exact ⟨⟨todo, hframes, trivial⟩, by simp [transition, SocketState.Answers, hreplies]⟩
  | some reply =>
      by_cases hempty : reply = []
      · have hnone : replies [(request, some reply)] = [] := by simp [replies, hempty]
        rw [hnone, List.append_nil] at hreplies
        refine ⟨⟨todo, hframes, ?_⟩, ?_⟩
        · simp [transition, hempty, SocketState.Awaits, hincoming]
        · simp only [transition, hempty, if_true, SocketState.Answers]
          rw [← hempty, hreplies]
      · have hone : replies [(request, some reply)] = framed reply := by simp [replies, hempty]
        rw [hone] at hreplies
        refine ⟨⟨todo, hframes, ?_⟩, ?_⟩
        · simp [transition, hempty, SocketState.Awaits, hincoming, framed]
        · simp only [transition, hempty, if_false, SocketState.Answers]
          exact hreplies.symm

theorem Serves.written (hc : c.Serves frames) : c.outgoing <+: replies c.served := by
  have hanswers := hc.answers
  have hnot := hc.not_aborted
  generalize c.socket = socket at hanswers hnot
  cases socket with
  | recvFraming buffer => exact hanswers ▸ List.prefix_rfl
  | recv want buffer => exact hanswers ▸ List.prefix_rfl
  | send buffer => exact ⟨buffer, hanswers⟩
  | closed => exact hanswers
  | aborted => exact absurd rfl hnot

theorem Moves.serves (hsizes : ∀ f ∈ frames, f ≠ [] ∧ f.length < 256 ^ 4) (h : c.Moves c')
    (hc : c.Serves frames) : c'.Serves frames := by
  have hwritten := hc.written
  obtain ⟨⟨todo, htodo, hawaits⟩, hanswers⟩ := hc
  cases h with
  | header hsocket hincoming hshort =>
      rw [hsocket] at hawaits hanswers
      rw [SocketState.Awaits, hincoming, ← List.append_assoc] at hawaits
      exact ⟨⟨todo, htodo, hshort, hawaits.2⟩, hanswers⟩
  | refuse => exact ⟨⟨todo, htodo, trivial⟩, hwritten⟩
  | size hsocket hincoming hgot hfull hsize =>
      rw [hsocket] at hawaits hanswers
      rw [SocketState.Awaits, hincoming, ← List.append_assoc] at hawaits
      have hlength := hfull
      rw [List.length_append] at hlength
      obtain ⟨request, rest, rfl, hheader, hrest⟩ :=
        header_of_frames (by rw [List.length_append]; omega) hawaits.2
      -- the size in the header is that of the next frame, which is not empty
      have hrequest := hsizes request (by rw [htodo]; simp)
      rw [hheader, ofBytes_size hrequest.2]
      exact ⟨⟨_, htodo, request, rest, rfl, rfl, List.length_pos_iff.mpr hrequest.1, hrest⟩,
        hanswers⟩
  | piece hsocket hincoming hshort =>
      rw [hsocket] at hawaits hanswers
      obtain ⟨request, rest, rfl, rfl, -, hbytes⟩ := hawaits
      rw [hincoming, ← List.append_assoc] at hbytes
      exact ⟨⟨_, htodo, request, rest, rfl, rfl, hshort, hbytes⟩, hanswers⟩
  | @request buffer got left answer hsocket hincoming =>
      rw [hsocket] at hawaits hanswers
      obtain ⟨request, rest, rfl, hfull, -, hbytes⟩ := hawaits
      rw [hincoming, ← List.append_assoc] at hbytes
      obtain ⟨hrequest, hleft⟩ := List.append_inj hbytes hfull
      rw [hrequest]
      exact serves_transition (c := { c with incoming := left }) htodo hleft hanswers answer
  | abort hsocket hnone =>
      rw [hsocket] at hawaits
      obtain ⟨request, rest, -, -, hbuffer, -⟩ := hawaits
      omega
  | @write sent left hsocket =>
      rw [hsocket] at hawaits hanswers
      simp only [SocketState.Answers, ← List.append_assoc] at hanswers
      by_cases hdone : left = []
      · refine ⟨⟨todo, htodo, ?_⟩, ?_⟩
        · simp [hdone, SocketState.Awaits, hawaits.2]
        · simpa [hdone, SocketState.Answers] using hanswers
      · refine ⟨⟨todo, htodo, ?_⟩, ?_⟩
        · simp only [hdone, if_false, SocketState.Awaits]
          exact ⟨hdone, hawaits.2⟩
        · simp only [hdone, if_false, SocketState.Answers]
          exact hanswers
  | close => exact ⟨⟨todo, htodo, trivial⟩, hwritten⟩

/-- In every run, with any pieces and failures, the connection serves the frames. -/
theorem reach_serves (hsizes : ∀ f ∈ frames, f ≠ [] ∧ f.length < 256 ^ 4)
    (h : Reach step anyAction { incoming := frames.flatMap framed } c) : c.Serves frames := by
  apply h.invariant
  · exact ⟨⟨frames, rfl, by simp, rfl⟩, rfl⟩
  · intro c e c' hc _ hstep
    exact (step_moves hstep).serves hsizes hc

theorem read_isSome {n : Nat} (hincoming : c.incoming ≠ []) (hn : 0 < n) :
    ∃ r, c.read n = some r := by
  have hgot : c.incoming.take n ≠ [] := by
    simp only [ne_eq, List.take_eq_nil_iff, hincoming, or_false]
    omega
  exact ⟨_, if_neg hgot⟩

theorem todo_of_short {buffer : List Byte} {todo : List (List Byte)} (hshort : buffer.length < 4)
    (h : buffer = todo.flatMap framed) : todo = [] := by
  cases todo with
  | nil => rfl
  | cons request todo =>
      have hlength := congrArg List.length h
      simp only [List.flatMap_cons, framed, List.length_append, length_toBytes] at hlength
      omega

/-- A connection that is open and can read and write either waits for the next call with
all calls answered, or goes on. -/
theorem idle_or_moves (hc : c.Serves frames) (hopen : c.socket ≠ .closed) :
    (c.served.map Prod.fst = frames ∧ c.outgoing = replies c.served) ∨
      ∀ n answer, (c.step (.ready (n + 1) answer)).isSome := by
  obtain ⟨⟨todo, htodo, hawaits⟩, hanswers⟩ := hc
  cases hsocket : c.socket with
  | recvFraming buffer =>
      rw [hsocket] at hawaits hanswers
      obtain ⟨hbuffer, hbytes⟩ := hawaits
      by_cases hincoming : c.incoming = []
      · left
        rw [hincoming, List.append_nil] at hbytes
        rw [htodo, todo_of_short hbuffer hbytes, List.append_nil]
        exact ⟨rfl, hanswers⟩
      · right
        intro n answer
        obtain ⟨r, hr⟩ := c.read_isSome hincoming (n := min (n + 1) (4 - buffer.length)) (by omega)
        simp only [step, hsocket, recvFraming, hr, bind, Option.bind]
        split
        · rfl
        · split <;> rfl
  | recv want buffer =>
      rw [hsocket] at hawaits
      obtain ⟨request, rest, -, rfl, hbuffer, hbytes⟩ := hawaits
      right
      intro n answer
      have hincoming : c.incoming ≠ [] := by
        intro hnone
        have hlength := congrArg List.length hbytes
        simp only [hnone, List.append_nil, List.length_append] at hlength
        omega
      obtain ⟨r, hr⟩ :=
        c.read_isSome hincoming (n := min (n + 1) (request.length - buffer.length)) (by omega)
      simp only [step, hsocket, recv, if_pos hbuffer, hr, bind, Option.bind]
      split <;> rfl
  | send buffer =>
      rw [hsocket] at hawaits
      right
      intro n answer
      simp only [step, hsocket, send, if_neg hawaits.1, Nat.succ_ne_zero, if_false]
      rfl
  | closed => exact absurd hsocket hopen
  | aborted =>
      rw [hsocket] at hawaits
      exact hawaits.elim

end Frames

end Connection

/-! ## Calls over a connection -/

/-- The messages of a client, each with its sequence number. -/
def messages (calls : List (Call × Int)) : List (List Byte) :=
  calls.map fun p => p.1.message p.2

/-- The calls that a client can write: a frame holds less than two gigabytes. -/
def Writable (calls : List (Call × Int)) : Prop :=
  ∀ p ∈ calls, p.1.Valid ∧ FitsIn 4 p.2 ∧ (p.1.message p.2).length < maxSize

theorem message_ne_nil (c : Call) (seqid : Int) : c.message seqid ≠ [] := by
  apply List.ne_nil_of_length_pos
  simp only [Call.message, writeMessageBegin, List.length_append, length_writeInt]
  omega

theorem Writable.sizes {calls : List (Call × Int)} (h : Writable calls) :
    ∀ f ∈ messages calls, f ≠ [] ∧ f.length < 256 ^ 4 := by
  intro f hf
  obtain ⟨p, hp, rfl⟩ := List.mem_map.mp hf
  have hlength := (h p hp).2.2
  exact ⟨message_ne_nil p.1 p.2, lt_trans hlength (by decide)⟩

theorem Writable.process {calls : List (Call × Int)} (h : Writable calls) (stack : Nat) :
    (messages calls).map (process stack) = calls.map fun p => .ok (.call p.1 p.2, []) := by
  rw [messages, List.map_map]
  apply List.map_congr_left
  intro p hp
  have htakes := takes_process stack (h p hp).1 (h p hp).2.1 []
  rwa [List.append_nil] at htakes

/-- In every run of a connection, in whatever pieces the socket gives and takes the bytes
and whenever it fails, the processor reads exactly the calls of the client, in their order
and each once, and the client gets answers of the processor in the order of its calls.
Unless the connection is closed, all calls have been answered or it can go on. -/
theorem calls_served (stack : Nat) {calls : List (Call × Int)} (hcalls : Writable calls)
    {c : Connection}
    (h : Reach Connection.step anyAction { incoming := (messages calls).flatMap framed } c) :
    ∃ done todo, calls = done ++ todo ∧
      (c.served.map fun p => process stack p.1) = (done.map fun p => .ok (.call p.1 p.2, [])) ∧
      c.outgoing <+: replies c.served ∧ c.socket ≠ .aborted ∧
      (c.socket = .closed ∨ todo = [] ∧ c.outgoing = replies c.served ∨
        ∀ n answer, (c.step (.ready (n + 1) answer)).isSome) := by
  have hserves := Connection.reach_serves hcalls.sizes h
  obtain ⟨rest, hrest, -⟩ := hserves.awaits
  obtain ⟨done, todo, rfl, hdone, htodo⟩ := List.map_eq_append_iff.mp hrest
  have hwritable : Writable done := fun p hp => hcalls p (List.mem_append_left todo hp)
  refine ⟨done, todo, rfl, ?_, hserves.written, hserves.not_aborted, ?_⟩
  · rw [← hwritable.process stack, messages, hdone, List.map_map]
    rfl
  · by_cases hclosed : c.socket = .closed
    · exact .inl hclosed
    · right
      refine (Connection.idle_or_moves hserves hclosed).imp_left fun hidle => ⟨?_, hidle.2⟩
      have hlength := congrArg List.length hidle.1
      have hlength' := congrArg List.length hdone
      simp only [messages, List.length_map, List.length_append] at hlength hlength'
      exact List.length_eq_zero_iff.mp (by omega)

def putAndGet : List (Call × Int) := [(.put ⟨[7], [9], 1⟩, 0), (.get ⟨[7], 1⟩, 0)]

theorem putAndGet_writable : Writable putAndGet := by
  intro p hp
  simp only [putAndGet, List.mem_cons, List.not_mem_nil, or_false] at hp
  rcases hp with rfl | rfl
  · refine ⟨?_, by decide, by decide +kernel⟩
    simp [Call.Valid, Codec.putArgs, Codec.struct, field, Codec.string, Codec.i32, FitsIn, maxSize]
  · refine ⟨?_, by decide, by decide +kernel⟩
    simp [Call.Valid, Codec.getArgs, Codec.struct, field, Codec.string, Codec.i32, FitsIn, maxSize]

/-- The header of the first frame comes in two pieces, and its answer leaves in two. -/
def inPieces : List SocketEvent :=
  [.ready 3 none, .ready 9 none, .ready 20 none, .ready 100 (some [1]), .ready 2 none,
    .ready 100 none, .ready 100 none, .ready 100 (some [2]), .ready 100 none]

theorem calls_served_inPieces :
    ∃ c : Connection,
      Reach Connection.step anyAction { incoming := (messages putAndGet).flatMap framed } c ∧
      c.socket = .recvFraming [] ∧ c.outgoing = framed [1] ++ framed [2] ∧
      ∃ done todo, putAndGet = done ++ todo ∧
        (c.served.map fun p => process 1 p.1) = (done.map fun p => .ok (.call p.1 p.2, [])) ∧
        c.outgoing <+: replies c.served ∧ c.socket ≠ .aborted ∧
        (c.socket = .closed ∨ todo = [] ∧ c.outgoing = replies c.served ∨
          ∀ n answer, (c.step (.ready (n + 1) answer)).isSome) := by
  have hrun : (perform Connection.step anyAction
      { incoming := (messages putAndGet).flatMap framed } inPieces).map
        (fun c => (c.socket, c.outgoing)) = some (.recvFraming [], framed [1] ++ framed [2]) := by
    decide +kernel
  obtain ⟨c, hc, hend⟩ := Option.map_eq_some_iff.mp hrun
  have hreach := reach_of_perform hc
  obtain ⟨hsocket, houtgoing⟩ := Prod.mk.inj hend
  exact ⟨c, hreach, hsocket, houtgoing, calls_served 1 putAndGet_writable hreach⟩

/-! ## Calls that are too large -/

/-- In every run, a call with more bytes of keys and values than the frame size that the
server admits does not reach the processor, and neither does a call after it. -/
theorem oversized_never_served {before after : List (Call × Int)} {big : Call} {seqid : Int}
    (hcalls : Writable (before ++ (big, seqid) :: after)) (hbig : maxFrameSize < big.size)
    {c : Connection}
    (h : Reach Connection.step anyAction
      { incoming := (messages (before ++ (big, seqid) :: after)).flatMap framed } c) :
    c.served.length ≤ before.length := by
  have hserves := Connection.reach_serves hcalls.sizes h
  obtain ⟨rest, hrest, -⟩ := hserves.awaits
  -- otherwise the large message is among the frames that went to the processor
  by_contra hmore
  have hmem : big.message seqid ∈ c.served.map Prod.fst := by
    rw [messages, List.map_append, List.map_cons] at hrest
    rcases List.append_eq_append_iff.mp hrest with ⟨mid, hserved, hmid⟩ | ⟨mid, hbefore, -⟩
    · cases mid with
      | nil =>
          have hlength := congrArg List.length hserved
          simp only [List.append_nil, List.length_map] at hlength
          omega
      | cons m mid =>
          cases (List.cons.inj hmid).1
          rw [hserved]
          simp
    · have hlength := congrArg List.length hbefore
      simp only [List.length_append, List.length_map] at hlength
      omega
  obtain ⟨p, hp, hmessage⟩ := List.mem_map.mp hmem
  have hbounded := (Connection.reach_bounded h).served p hp
  obtain ⟨hvalid, hseqid, -⟩ := hcalls (big, seqid) (by simp)
  have hsize : big.size ≤ (big.message seqid).length := Call.size_le_message hvalid hseqid
  rw [hmessage] at hbounded
  omega

theorem step_header {c : Connection} {frame rest : List Byte} (hsocket : c.socket = .recvFraming [])
    (hincoming : c.incoming = framed frame ++ rest) (hlength : frame.length < 256 ^ 4) :
    c.step (.ready 4 none) = some
      { c with
        incoming := frame ++ rest
        socket := if maxFrameSize < frame.length then .closed else .recv frame.length [] } := by
  have htake : c.incoming.take 4 = toBytes 4 frame.length := by
    rw [hincoming, framed, List.append_assoc, List.take_left' (length_toBytes 4 _)]
  have hdrop : c.incoming.drop 4 = frame ++ rest := by
    rw [hincoming, framed, List.append_assoc, List.drop_left' (length_toBytes 4 _)]
  have hne : toBytes 4 frame.length ≠ [] :=
    List.ne_nil_of_length_pos (by rw [length_toBytes]; decide)
  by_cases hbig : maxFrameSize < frame.length
  · simp [Connection.step, hsocket, Connection.recvFraming, Connection.read, htake, hdrop, hne,
      Connection.ofBytes_size hlength, hbig]
  · simp [Connection.step, hsocket, Connection.recvFraming, Connection.read, htake, hdrop, hne,
      Connection.ofBytes_size hlength, hbig]

theorem step_body {c : Connection} {frame rest : List Byte}
    (hsocket : c.socket = .recv frame.length []) (hincoming : c.incoming = frame ++ rest)
    (hne : frame ≠ []) :
    c.step (.ready frame.length (some [])) = some
      { c with
        incoming := rest
        served := c.served ++ [(frame, some [])]
        socket := .recvFraming [] } := by
  have htake : c.incoming.take frame.length = frame := by
    rw [hincoming, List.take_left' rfl]
  have hdrop : c.incoming.drop frame.length = rest := by
    rw [hincoming, List.drop_left' rfl]
  have hpos : 0 < frame.length := List.length_pos_iff.mpr hne
  simp [Connection.step, hsocket, Connection.recv, Connection.read, htake, hdrop, hne, hpos,
    Connection.transition]

@[irreducible] def zeros (n : Nat) : Call := .put ⟨[], List.replicate n 0, 0⟩

theorem size_zeros (n : Nat) : (zeros n).size = n := by
  unfold zeros
  simp [Call.size]

theorem length_zeros (n : Nat) : ((zeros n).message 0).length = n + 41 := by
  unfold zeros
  simp only [Call.message, Call.name, Call.arguments, ascii, writeMessageBegin, Codec.arguments,
    Codec.putArgs, Codec.struct, writeStruct, Field.write, field, Codec.string, Codec.i32,
    writeFieldBegin, writeType, List.flatMap_cons, List.flatMap_nil, List.length_append,
    writeString, length_writeInt, List.length_replicate, List.length_map,
    List.length_cons, List.length_nil]
  omega

theorem zeros_writable {n : Nat} (h : n + 41 < maxSize) : Writable [(zeros n, 0)] := by
  intro p hp
  cases List.mem_singleton.mp hp
  have hseqid : FitsIn 4 0 := by decide
  refine ⟨?_, hseqid, by rwa [length_zeros]⟩
  unfold zeros
  unfold maxSize at h
  simp [Call.Valid, Codec.putArgs, Codec.struct, field, Codec.string, Codec.i32, FitsIn, maxSize]
  omega

/-- A put, a value with one byte more than a frame may have, and a get. -/
def putBigGet : List (Call × Int) :=
  [(.put ⟨[7], [9], 1⟩, 0)] ++ (zeros 268435457, 0) :: [(.get ⟨[7], 1⟩, 0)]

theorem putBigGet_writable : Writable putBigGet := by
  intro p hp
  rw [putBigGet, List.singleton_append, List.mem_cons, List.mem_cons, List.mem_singleton] at hp
  rcases hp with rfl | rfl | rfl
  · exact putAndGet_writable _ (by simp [putAndGet])
  · exact zeros_writable (by decide) _ (List.mem_singleton.mpr rfl)
  · exact putAndGet_writable _ (by simp [putAndGet])

theorem oversized_never_served_putBigGet :
    ∃ c : Connection,
      Reach Connection.step anyAction { incoming := (messages putBigGet).flatMap framed } c ∧
      c.socket = .closed ∧ c.served = [((Call.put ⟨[7], [9], 1⟩).message 0, some [])] ∧
      c.served.length ≤ 1 := by
  let first := (Call.put ⟨[7], [9], 1⟩).message 0
  let big := (zeros 268435457).message 0
  let last := framed ((Call.get ⟨[7], 1⟩).message 0) ++ []
  let c₁ : Connection :=
    { socket := .recv first.length [], incoming := first ++ (framed big ++ last) }
  let c₂ : Connection := { incoming := framed big ++ last, served := [(first, some [])] }
  let c₃ : Connection :=
    { socket := .closed, incoming := big ++ last, served := [(first, some [])] }
  have hlength : big.length = 268435457 + 41 := length_zeros _
  have hheader : Connection.step { incoming := framed first ++ (framed big ++ last) }
      (.ready 4 none) = some c₁ := by
    rw [step_header rfl rfl (by decide +kernel), if_neg (by decide +kernel)]
  have hbody : c₁.step (.ready first.length (some [])) = some c₂ :=
    step_body rfl rfl (message_ne_nil _ 0)
  have hclose : c₂.step (.ready 4 none) = some c₃ := by
    rw [step_header rfl rfl (by rw [hlength]; decide), if_pos (by rw [hlength]; decide)]
  have hreach : Reach Connection.step anyAction
      { incoming := (messages putBigGet).flatMap framed } c₃ :=
    .tail (.tail (.tail .refl trivial hheader) trivial hbody) trivial hclose
  have hbig : maxFrameSize < (zeros 268435457).size := by
    rw [size_zeros]
    decide
  exact ⟨c₃, hreach, rfl, rfl, oversized_never_served putBigGet_writable hbig hreach⟩

/-! ## Calls of any client -/

/-- In every run of a connection, whatever bytes the client sends, the keys and values of a
call that the processor reads are together no longer than the frame size that the server
admits, so that the request of the handler came in one frame. -/
theorem served_fit_frame (stack : Nat) {incoming : List Byte} {c : Connection}
    (h : Reach Connection.step anyAction { incoming := incoming } c) {frame : List Byte}
    {answer : Option (List Byte)} (hserved : (frame, answer) ∈ c.served) {call : Call}
    {seqid : Int} {rest : List Byte}
    (hcall : process stack frame = .ok (.call call seqid, rest)) :
    call.size ≤ maxFrameSize ∧ ∀ r, call.request = some r → r.FitsFrame := by
  have hframe := (Connection.reach_bounded h).served _ hserved
  have hweight : call.weight + rest.length ≤ 0 + frame.length :=
    weighs_process stack frame _ rest hcall
  have hsize : (call.weight : Int) ≤ maxFrameSize := by
    simp only at hframe
    omega
  exact ⟨call.size_eq ▸ hsize, fun r hr => Call.fitsFrame hsize hr⟩

theorem served_fit_frame_inPieces :
    ∃ (c : Connection) (frame : List Byte) (answer : Option (List Byte)),
      Reach Connection.step anyAction { incoming := (messages putAndGet).flatMap framed } c ∧
      (frame, answer) ∈ c.served ∧
      process 1 frame = .ok (.call (.put ⟨[7], [9], 1⟩) 0, []) ∧
      (Call.put ⟨[7], [9], 1⟩).size ≤ maxFrameSize ∧ (Request.put ⟨[7], [9], 1⟩).FitsFrame := by
  have hrun : (perform Connection.step anyAction
      { incoming := (messages putAndGet).flatMap framed } inPieces).map
        (fun c => c.served.head?) =
          some (some ((Call.put ⟨[7], [9], 1⟩).message 0, some [1])) := by
    decide +kernel
  obtain ⟨c, hc, hhead⟩ := Option.map_eq_some_iff.mp hrun
  have hreach := reach_of_perform hc
  have hmem := List.mem_of_head? hhead
  have hcall : process 1 ((Call.put ⟨[7], [9], 1⟩).message 0) = _ :=
    List.head_eq_of_cons_eq (putAndGet_writable.process 1)
  have hfit := served_fit_frame 1 hreach hmem hcall
  exact ⟨c, _, _, hreach, hmem, hcall, hfit.1, hfit.2 _ rfl⟩

end RobustCache.Thrift
