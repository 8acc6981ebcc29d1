import RobustCache.Lib.Codec
import RobustCache.Lib.Run
import RobustCache.Server.Refinement

/-! # A connection of the server

The server reads its requests from a socket that gives the bytes in pieces of any size. A
request comes in a frame, four bytes with its size in front; when it is complete, it goes
to the processor, and the connection reads on when the answer has been written. Whatever
a client sends and whatever the pieces are, the server takes the frames as they were sent.
-/

namespace RobustCache.Thrift

open Lib Lib.Parser

/-- The socket and application states that go together. -/
inductive SocketState where
  | recvFraming (buffer : List Byte)
  | recv (want : Nat) (buffer : List Byte)
  | send (buffer : List Byte)
  | closed
  | aborted
  deriving Repr, DecidableEq

/-- The bytes that the client sends and the server has not read, those that the server has
written, and the requests that went to the processor with its answers. -/
structure Connection where
  socket : SocketState := .recvFraming []
  incoming : List Byte
  outgoing : List Byte := []
  served : List (List Byte × Option (List Byte)) := []
  deriving Repr, DecidableEq

inductive SocketEvent where
  /-- The socket gives or takes at most so many bytes. If a request is complete then, the
  processor writes this answer or throws. -/
  | ready (bytes : Nat) (answer : Option (List Byte))
  /-- The client has disconnected, or the socket throws. -/
  | failed
  deriving Repr, DecidableEq

/-- A frame as `flush` and the server write it. -/
def framed (bytes : List Byte) : List Byte := toBytes 4 bytes.length ++ bytes

namespace Connection

def read (c : Connection) (n : Nat) : Option (List Byte × Connection) :=
  if c.incoming.take n = [] then none
  else some (c.incoming.take n, { c with incoming := c.incoming.drop n })

/-- The request goes to the processor. If that throws, the connection is closed; after an
answer of no bytes it reads on at once. -/
def transition (c : Connection) (request : List Byte) (answer : Option (List Byte)) : Connection :=
  { c with
    served := c.served ++ [(request, answer)]
    socket :=
      match answer with
      | none => .closed
      | some reply => if reply = [] then .recvFraming [] else .send (framed reply) }

def recvFraming (c : Connection) (buffer : List Byte) (n : Nat) : Option Connection := do
  let (got, c) ← c.read (min n (4 - buffer.length))
  if (buffer ++ got).length < 4 then return { c with socket := .recvFraming (buffer ++ got) }
  else if maxFrameSize < ofBytes (buffer ++ got) then return { c with socket := .closed }
  else return { c with socket := .recv (ofBytes (buffer ++ got)) [] }

/-- It is asserted that something is left to read. -/
def recv (c : Connection) (want : Nat) (buffer : List Byte) (n : Nat)
    (answer : Option (List Byte)) : Option Connection :=
  if buffer.length < want then do
    let (got, c) ← c.read (min n (want - buffer.length))
    if (buffer ++ got).length = want then return c.transition (buffer ++ got) answer
    else return { c with socket := .recv want (buffer ++ got) }
  else some { c with socket := .aborted }

def send (c : Connection) (buffer : List Byte) (n : Nat) : Option Connection :=
  if buffer = [] then some { c with socket := .recvFraming [] }
  else if n = 0 then none
  else
    some
      { c with
        outgoing := c.outgoing ++ buffer.take n
        socket := if buffer.drop n = [] then .recvFraming [] else .send (buffer.drop n) }

/-- `workSocket`. -/
def step (c : Connection) : SocketEvent → Option Connection
  | .ready n answer =>
      match c.socket with
      | .recvFraming buffer => c.recvFraming buffer n
      | .recv want buffer => c.recv want buffer n answer
      | .send buffer => c.send buffer n
      | .closed | .aborted => none
  | .failed =>
      match c.socket with
      | .recv want buffer =>
          if buffer.length < want then some { c with socket := .closed }
          else some { c with socket := .aborted }
      | .recvFraming _ | .send _ => some { c with socket := .closed }
      | .closed | .aborted => none

/-! ## What an event does -/

/-- All that an event can do, with what it has read or written. -/
inductive Moves (c : Connection) : Connection → Prop
  | header {buffer got rest : List Byte} : c.socket = .recvFraming buffer →
      c.incoming = got ++ rest → (buffer ++ got).length < 4 →
      Moves c { c with incoming := rest, socket := .recvFraming (buffer ++ got) }
  | refuse {buffer got rest : List Byte} : c.socket = .recvFraming buffer →
      c.incoming = got ++ rest → got.length ≤ 4 - buffer.length →
      Moves c { c with incoming := rest, socket := .closed }
  | size {buffer got rest : List Byte} : c.socket = .recvFraming buffer →
      c.incoming = got ++ rest → got.length ≤ 4 - buffer.length → 4 ≤ (buffer ++ got).length →
      (ofBytes (buffer ++ got) : Int) ≤ maxFrameSize →
      Moves c { c with incoming := rest, socket := .recv (ofBytes (buffer ++ got)) [] }
  | piece {want : Nat} {buffer got rest : List Byte} : c.socket = .recv want buffer →
      c.incoming = got ++ rest → (buffer ++ got).length < want →
      Moves c { c with incoming := rest, socket := .recv want (buffer ++ got) }
  | request {buffer got rest : List Byte} {answer : Option (List Byte)} :
      c.socket = .recv (buffer ++ got).length buffer → c.incoming = got ++ rest →
      Moves c (transition { c with incoming := rest } (buffer ++ got) answer)
  | abort {want : Nat} {buffer : List Byte} : c.socket = .recv want buffer →
      want ≤ buffer.length → Moves c { c with socket := .aborted }
  | write {sent left : List Byte} : c.socket = .send (sent ++ left) →
      Moves c
        { c with
          outgoing := c.outgoing ++ sent
          socket := if left = [] then .recvFraming [] else .send left }
  | close : c.socket ≠ .aborted → Moves c { c with socket := .closed }

theorem read_eq_some {c c' : Connection} {n : Nat} {got : List Byte}
    (h : c.read n = some (got, c')) :
    got.length ≤ n ∧ ∃ rest, c.incoming = got ++ rest ∧ c' = { c with incoming := rest } := by
  unfold read at h
  split at h
  · cases h
  · cases h
    exact ⟨List.length_take_le n _, _, (List.take_append_drop n _).symm, rfl⟩

section Steps

variable {c c' : Connection}

theorem recvFraming_moves {buffer : List Byte} (hsocket : c.socket = .recvFraming buffer) {n : Nat}
    (h : c.recvFraming buffer n = some c') : c.Moves c' := by
  unfold recvFraming at h
  obtain ⟨⟨got, c₁⟩, hread, h⟩ := Option.bind_eq_some_iff.mp h
  obtain ⟨hgot, rest, hincoming, rfl⟩ := read_eq_some hread
  simp only at h
  split at h
  · next hshort =>
    cases h
    exact .header hsocket hincoming hshort
  · next hfull =>
    split at h
    · cases h
      exact .refuse hsocket hincoming (by omega)
    · next hsize =>
      cases h
      exact .size hsocket hincoming (by omega) (Nat.not_lt.mp hfull) (Int.not_lt.mp hsize)

theorem recv_moves {want : Nat} {buffer : List Byte} (hsocket : c.socket = .recv want buffer)
    {n : Nat} {answer : Option (List Byte)} (h : c.recv want buffer n answer = some c') :
    c.Moves c' := by
  unfold recv at h
  split at h
  · obtain ⟨⟨got, c₁⟩, hread, h⟩ := Option.bind_eq_some_iff.mp h
    obtain ⟨hgot, rest, hincoming, rfl⟩ := read_eq_some hread
    simp only at h
    split at h
    · next hfull =>
      cases h
      subst hfull
      exact .request hsocket hincoming
    · next hbuffer hshort =>
      cases h
      have hlt : (buffer ++ got).length < want := by
        rw [List.length_append] at hshort ⊢
        omega
      exact .piece hsocket hincoming hlt
  · next hnone =>
    cases h
    exact .abort hsocket (Nat.not_lt.mp hnone)

theorem send_moves {buffer : List Byte} (hsocket : c.socket = .send buffer) {n : Nat}
    (h : c.send buffer n = some c') : c.Moves c' := by
  unfold send at h
  split at h
  · next hempty =>
    cases h
    have hmoves := @Moves.write c [] [] (by rw [hsocket, hempty]; rfl)
    rwa [List.append_nil] at hmoves
  · split at h
    · cases h
    · cases h
      exact .write (by rw [hsocket, List.take_append_drop])

theorem step_moves {e : SocketEvent} (h : c.step e = some c') : c.Moves c' := by
  cases e with
  | ready n answer =>
      cases hsocket : c.socket with
      | recvFraming buffer =>
          simp only [step, hsocket] at h
          exact recvFraming_moves hsocket h
      | recv want buffer =>
          simp only [step, hsocket] at h
          exact recv_moves hsocket h
      | send buffer =>
          simp only [step, hsocket] at h
          exact send_moves hsocket h
      | closed | aborted => simp [step, hsocket] at h
  | failed =>
      cases hsocket : c.socket with
      | recvFraming buffer | send buffer =>
          simp only [step, hsocket, Option.some.injEq] at h
          exact h ▸ .close (by simp [hsocket])
      | recv want buffer =>
          simp only [step, hsocket] at h
          split at h
          · cases h
            exact .close (by simp [hsocket])
          · next hnone =>
            cases h
            exact .abort hsocket (Nat.not_lt.mp hnone)
      | closed | aborted => simp [step, hsocket] at h

end Steps

end Connection

/-! ## Frames of any client -/

/-- A part of one frame, and all of it only if the frame has no bytes. More than its size
has been read only if that is a size which the server admits. -/
def Incomplete (begun : List Byte) : Prop :=
  ∃ frame : List Byte, frame.length < 2 ^ 32 ∧ begun <+: framed frame ∧
    (begun = framed frame → frame = []) ∧
    (4 < begun.length → (frame.length : Int) ≤ maxFrameSize)

/-- What has been read after the frames that went to the processor, which is a part of one
more frame. A frame of no bytes leaves nothing to read: the server aborts on it. -/
def SocketState.Begun (begun : List Byte) : SocketState → Prop
  | recvFraming buffer => begun = buffer ∧ buffer.length < 4
  | recv want buffer => begun = toBytes 4 want ++ buffer ∧
      (buffer.length < want ∨ want = 0 ∧ buffer = [])
  | send _ => begun = []
  | closed => (begun.length : Int) ≤ 4 + maxFrameSize ∧ Incomplete begun
  | aborted => begun = framed []

/-- Whatever four bytes come first, they are the size of some frame. -/
theorem incomplete_of_short {begun : List Byte} (h : begun.length ≤ 4) : Incomplete begun := by
  let header := begun ++ List.replicate (4 - begun.length) 0
  have hlength : header.length = 4 := by
    rw [List.length_append, List.length_replicate]
    omega
  have hsize : toBytes 4 (ofBytes header) = header := by
    have hbytes := toBytes_ofBytes header
    rwa [hlength] at hbytes
  have hframed : framed (List.replicate (ofBytes header) 0) =
      header ++ List.replicate (ofBytes header) 0 := by
    rw [framed, List.length_replicate, hsize]
  refine ⟨List.replicate (ofBytes header) 0, ?_, ?_, fun hall => ?_, fun hlong => ?_⟩
  · have hlt := ofBytes_lt header
    rw [hlength] at hlt
    rw [List.length_replicate]
    exact hlt
  · rw [hframed, List.append_assoc]
    exact List.prefix_append _ _
  · have hsum := congrArg List.length (hall.trans hframed)
    rw [List.length_append, hlength] at hsum
    exact List.eq_nil_of_length_eq_zero (by omega)
  · omega

theorem incomplete_of_body {want : Nat} {buffer : List Byte} (hwant : (want : Int) ≤ maxFrameSize)
    (h : buffer.length < want ∨ want = 0 ∧ buffer = []) :
    Incomplete (toBytes 4 want ++ buffer) := by
  have hlength : (buffer ++ List.replicate (want - buffer.length) 0).length = want := by
    rw [List.length_append, List.length_replicate]
    rcases h with hshort | ⟨rfl, rfl⟩
    · omega
    · rfl
  refine ⟨buffer ++ List.replicate (want - buffer.length) 0, ?_, ?_, ?_, fun _ => ?_⟩
  · rw [hlength]
    unfold maxFrameSize at hwant
    omega
  · rw [framed, hlength, ← List.append_assoc]
    exact List.prefix_append _ _
  · intro hall
    rw [framed, hlength] at hall
    have hsame := congrArg List.length (List.append_cancel_left hall)
    rw [hlength] at hsame
    apply List.eq_nil_of_length_eq_zero
    rcases h with hshort | ⟨rfl, rfl⟩
    · omega
    · exact hlength
  · rw [hlength]
    exact hwant

namespace Connection

section Streams

variable {c c' : Connection}

/-- The frames that went to the processor, and the one being read, are of a size that the
server admits. -/
structure Bounded (c : Connection) : Prop where
  served : ∀ p ∈ c.served, (p.1.length : Int) ≤ maxFrameSize
  reading : ∀ want buffer, c.socket = .recv want buffer → (want : Int) ≤ maxFrameSize

theorem Moves.bounded (h : c.Moves c') (hc : c.Bounded) : c'.Bounded := by
  cases h with
  | header | refuse | abort | close => exact ⟨hc.served, fun _ _ heq => by cases heq⟩
  | size _ _ _ _ hsize =>
      refine ⟨hc.served, fun want buffer heq => ?_⟩
      cases heq
      exact hsize
  | piece hsocket =>
      refine ⟨hc.served, fun want buffer heq => ?_⟩
      cases heq
      exact hc.reading _ _ hsocket
  | @request buffer got rest answer hsocket =>
      constructor
      · intro p hp
        rcases List.mem_append.mp hp with hp | hp
        · exact hc.served p hp
        · cases List.mem_singleton.mp hp
          exact hc.reading _ _ hsocket
      · intro want buffer heq
        simp only [transition] at heq
        split at heq
        · cases heq
        · split at heq <;> cases heq
  | write =>
      refine ⟨hc.served, fun want buffer heq => ?_⟩
      simp only at heq
      split at heq <;> cases heq

theorem initial_bounded (incoming : List Byte) : Bounded { incoming := incoming } :=
  ⟨fun _ hp => by simp at hp, fun _ _ heq => by cases heq⟩

theorem reach_bounded {incoming : List Byte}
    (h : Reach step anyAction { incoming := incoming } c) : c.Bounded := by
  apply h.invariant (initial_bounded incoming)
  · intro c e c' hc _ hstep
    exact (step_moves hstep).bounded hc

/-- What the client has sent are the frames that went to the processor, what has been read
of the next one, and what has not been read. -/
def Accounts (stream : List Byte) (c : Connection) : Prop :=
  ∃ begun, stream = (c.served.flatMap fun p => framed p.1) ++ (begun ++ c.incoming) ∧
    c.socket.Begun begun

theorem length_begun {begun : List Byte} (hc : c.Bounded) (h : c.socket.Begun begun) :
    (begun.length : Int) ≤ 4 + maxFrameSize := by
  have hreading := hc.reading
  generalize c.socket = socket at h hreading
  cases socket with
  | recvFraming buffer =>
      obtain ⟨rfl, hshort⟩ := h
      unfold maxFrameSize
      omega
  | recv want buffer =>
      have hwant := hreading want buffer rfl
      obtain ⟨rfl, hshort⟩ := h
      have hlength : buffer.length ≤ want := by
        rcases hshort with hshort | ⟨-, rfl⟩
        · omega
        · exact Nat.zero_le _
      rw [List.length_append, length_toBytes]
      omega
  | send buffer =>
      cases h
      decide
  | closed => exact h.1
  | aborted =>
      cases h
      decide

theorem incomplete_begun {begun : List Byte} (hc : c.Bounded) (h : c.socket.Begun begun) :
    Incomplete begun := by
  have hreading := hc.reading
  generalize c.socket = socket at h hreading
  cases socket with
  | recvFraming buffer =>
      obtain ⟨rfl, hshort⟩ := h
      exact incomplete_of_short hshort.le
  | recv want buffer =>
      have hwant := hreading want buffer rfl
      obtain ⟨rfl, hshort⟩ := h
      exact incomplete_of_body hwant hshort
  | send buffer =>
      cases h
      exact incomplete_of_short (by decide)
  | closed => exact h.2
  | aborted =>
      cases h
      exact incomplete_of_short (by decide)

theorem accounts_transition {stream request : List Byte}
    (h : stream = (c.served.flatMap fun p => framed p.1) ++ (framed request ++ c.incoming))
    (answer : Option (List Byte)) : (c.transition request answer).Accounts stream := by
  refine ⟨[], ?_, ?_⟩
  · simp only [transition, List.flatMap_append, List.flatMap_singleton, List.append_assoc,
      List.nil_append]
    exact h
  · cases answer with
    | none => exact ⟨by decide, incomplete_of_short (by decide)⟩
    | some reply =>
        by_cases hempty : reply = []
        · simp [transition, hempty, SocketState.Begun]
        · simp [transition, hempty, SocketState.Begun]

theorem Moves.accounts {stream : List Byte} (h : c.Moves c') (hbounded : c.Bounded)
    (hc : c.Accounts stream) : c'.Accounts stream := by
  obtain ⟨begun, hstream, hbegun⟩ := hc
  cases h with
  | @header buffer got rest hsocket hincoming hshort =>
      rw [hsocket] at hbegun
      obtain ⟨rfl, -⟩ := hbegun
      rw [hincoming, ← List.append_assoc begun] at hstream
      exact ⟨_, hstream, rfl, hshort⟩
  | @refuse buffer got rest hsocket hincoming hgot =>
      rw [hsocket] at hbegun
      obtain ⟨rfl, hshort⟩ := hbegun
      rw [hincoming, ← List.append_assoc begun] at hstream
      have hheader : (begun ++ got).length ≤ 4 := by
        rw [List.length_append]
        omega
      refine ⟨_, hstream, ?_, incomplete_of_short hheader⟩
      unfold maxFrameSize
      omega
  | @size buffer got rest hsocket hincoming hgot hfull hsize =>
      rw [hsocket] at hbegun
      obtain ⟨rfl, hshort⟩ := hbegun
      rw [hincoming, ← List.append_assoc begun] at hstream
      have hlength : (begun ++ got).length = 4 := by
        rw [List.length_append] at hfull ⊢
        omega
      -- the four bytes are what the size is written as, so that a whole frame is accounted for
      have hheader := toBytes_ofBytes (begun ++ got)
      rw [hlength] at hheader
      refine ⟨_, hstream, by rw [hheader, List.append_nil], ?_⟩
      rcases Nat.eq_zero_or_pos (ofBytes (begun ++ got)) with hzero | hpos
      · exact .inr ⟨hzero, rfl⟩
      · exact .inl hpos
  | @piece want buffer got rest hsocket hincoming hshort =>
      rw [hsocket] at hbegun
      obtain ⟨rfl, -⟩ := hbegun
      refine ⟨toBytes 4 want ++ (buffer ++ got), ?_, rfl, .inl hshort⟩
      simp only [hstream, hincoming, List.append_assoc]
  | @request buffer got rest answer hsocket hincoming =>
      rw [hsocket] at hbegun
      obtain ⟨rfl, -⟩ := hbegun
      apply accounts_transition
      simp only [hstream, hincoming, framed, List.append_assoc]
  | abort hsocket hnone =>
      rw [hsocket] at hbegun
      obtain ⟨rfl, hshort⟩ := hbegun
      -- something is left to read of every other frame
      rcases hshort with hshort | ⟨rfl, rfl⟩
      · omega
      · exact ⟨_, hstream, rfl⟩
  | @write sent left hsocket =>
      rw [hsocket] at hbegun
      refine ⟨begun, hstream, ?_⟩
      by_cases hdone : left = []
      · simp only [hdone, if_true]
        exact ⟨hbegun, by decide⟩
      · simp only [hdone, if_false]
        exact hbegun
  | close =>
      exact ⟨begun, hstream, length_begun hbounded hbegun, incomplete_begun hbounded hbegun⟩

theorem reach_accounts {stream : List Byte}
    (h : Reach step anyAction { incoming := stream } c) : c.Accounts stream := by
  have hinv : c.Bounded ∧ c.Accounts stream := by
    apply h.invariant (P := fun c => c.Bounded ∧ c.Accounts stream)
    · exact ⟨initial_bounded stream, [], rfl, rfl, by decide⟩
    · intro c e c' hc _ hstep
      have hmoves := step_moves hstep
      exact ⟨hmoves.bounded hc.1, hmoves.accounts hc.1 hc.2⟩
  exact hinv.2

end Streams

end Connection

/-- In every run of a connection, whatever bytes a client sends and in whatever pieces,
what the server has read is the frames that went to the processor, in order and unchanged,
and a part of one more that is no longer than the server admits. The server is aborted
only by a frame of no bytes. -/
theorem stream_accounted {stream : List Byte} {c : Connection}
    (h : Reach Connection.step anyAction { incoming := stream } c) :
    ∃ begun, stream = (c.served.flatMap fun p => framed p.1) ++ (begun ++ c.incoming) ∧
      Incomplete begun ∧ (begun.length : Int) ≤ 4 + maxFrameSize ∧
      (c.socket = .aborted → begun = framed []) := by
  obtain ⟨begun, hstream, hbegun⟩ := Connection.reach_accounts h
  have hbounded := Connection.reach_bounded h
  refine ⟨begun, hstream, Connection.incomplete_begun hbounded hbegun,
    Connection.length_begun hbounded hbegun, ?_⟩
  intro haborted
  rw [haborted] at hbegun
  exact hbegun

/-- A frame of one byte, and one of no bytes. -/
theorem stream_accounted_emptyFrame :
    ∃ c : Connection,
      Reach Connection.step anyAction { incoming := framed [5] ++ (framed [] ++ [8]) } c ∧
      c.socket = .aborted ∧ c.served = [([5], some [])] ∧
      ∃ begun, framed [5] ++ (framed [] ++ [8]) =
          (c.served.flatMap fun p => framed p.1) ++ (begun ++ c.incoming) ∧
        Incomplete begun ∧ (begun.length : Int) ≤ 4 + maxFrameSize ∧
        (c.socket = .aborted → begun = framed []) := by
  have hrun : (perform Connection.step anyAction
      { incoming := framed [5] ++ (framed [] ++ [8]) }
        [.ready 4 none, .ready 1 (some []), .ready 4 none, .ready 1 none]).map
          (fun c => (c.socket, c.served)) = some (.aborted, [([5], some [])]) := by
    decide +kernel
  obtain ⟨c, hc, hend⟩ := Option.map_eq_some_iff.mp hrun
  have hreach := reach_of_perform hc
  obtain ⟨hsocket, hserved⟩ := Prod.mk.inj hend
  exact ⟨c, hreach, hsocket, hserved, stream_accounted hreach⟩

end RobustCache.Thrift
