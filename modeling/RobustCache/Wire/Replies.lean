import RobustCache.View.Monitor
import RobustCache.Wire.Delivery

/-! # Replies over a connection

A client opens a connection for each call, and reads the reply in one frame. Whenever the
connection fails, the client gets the reply of the handler as it was written, or none.
-/

namespace RobustCache.Thrift

open Lib Lib.Parser

/-! ## Structures of the replies -/

def statusCode : Status → Int
  | .ok => 1
  | .noKey => 2
  | .wrongServer => 3

/-- The cast of a number; there is no name for the others. -/
def statusOf (n : Int) : Option Status :=
  [Status.ok, Status.noKey, Status.wrongServer].find? fun s => statusCode s = n

theorem statusOf_statusCode (s : Status) : statusOf (statusCode s) = some s := by
  cases s <;> rfl

theorem statusCode_fits (s : Status) : FitsIn 4 (statusCode s) := by
  cases s <;> decide

namespace Codec

/-- A status is written as its number; before it is read, it has none of the names. -/
def status : Codec (Option Status) where
  type := .i32
  write s := writeInt 4 ((s.map statusCode).getD 0)
  read _ _ := statusOf <$> readI32
  Valid s := s.isSome
  type_ne_stop := i32.type_ne_stop
  takes _ _ s h := by
    obtain ⟨s, rfl⟩ := Option.isSome_iff_exists.mp h
    have htakes := (takes_int ReadFault.endOfFile (statusCode_fits s)).map statusOf
    rwa [statusOf_statusCode] at htakes

def putReply : Codec (Option Status) :=
  struct [field 1 status (fun s => s) fun v _ => v] (by decide) (by decide) (fun _ _ => rfl)

def getReply : Codec (Option Status × Bytes) :=
  struct [field 1 status Prod.fst fun v r => (v, r.2), field 2 string Prod.snd fun v r => (r.1, v)]
    (by decide) (by decide) (fun _ _ => rfl)

def antiEntropyReply : Codec (Option Status × List Bytes) :=
  struct
    [field 1 status Prod.fst fun v r => (v, r.2),
      field 2 (list string []) Prod.snd fun v r => (r.1, v)]
    (by decide) (by decide) (fun _ _ => rfl)

def statistics : Codec StatisticsReply :=
  struct
    [field 1 i64 (fun s => s.numInsertions) fun v s => { s with numInsertions := v },
      field 2 i64 (fun s => s.numUpdates) fun v s => { s with numUpdates := v },
      field 3 i64 (fun s => s.numGoodGets) fun v s => { s with numGoodGets := v },
      field 4 i64 (fun s => s.numFailedGets) fun v s => { s with numFailedGets := v },
      field 5 i64 (fun s => s.dataSize) fun v s => { s with dataSize := v },
      field 6 i64 (fun s => s.memoryOverhead) fun v s => { s with memoryOverhead := v },
      field 7 i64 (fun s => s.numEvictions) fun v s => { s with numEvictions := v },
      field 8 i64 (fun s => s.numPurges) fun v s => { s with numPurges := v }]
    (by decide) (by decide) (fun _ _ => rfl)

end Codec

namespace Call

def Result : Call → Type
  | put _ => Option Status
  | get _ => Option Status × Bytes
  | getStatistics => StatisticsReply
  | antiEntropy _ => Option Status × List Bytes

def resultCodec : (c : Call) → Codec c.Result
  | put _ => Codec.putReply
  | get _ => Codec.getReply
  | getStatistics => Codec.statistics
  | antiEntropy _ => Codec.antiEntropyReply

/-- The value that a client reads into. -/
def fresh : (c : Call) → c.Result
  | put _ => (none : Option Status)
  | get _ => ((none, []) : Option Status × Bytes)
  | getStatistics => ({} : StatisticsReply)
  | antiEntropy _ => ((none, []) : Option Status × List Bytes)

/-- The result of a call is in the field `success`, with the number zero. -/
def resultFields (c : Call) : List (Field (Option c.Result)) :=
  [field 0 c.resultCodec (fun r => r.getD c.fresh) fun v _ => some v]

def reply (c : Call) (seqid : Int) (a : c.Result) : List Byte :=
  writeMessageBegin c.name .reply seqid ++ writeStruct c.resultFields (some a)

end Call

/-! ## Receiving a reply -/

/-- How a call ends whose reply could be read. -/
inductive Returns (α : Type) where
  | result (a : α)
  | exception
  | missingResult
  deriving Repr, DecidableEq

/-- A message of another type or name is skipped, and the result read after it. The
sequence number is not compared. -/
def Call.recv (c : Call) (stack : Nat) : Reader (Returns c.Result) := do
  let (fname, mtype, _) ← readMessageBegin
  if mtype = TMessageType.exception.code then
    skip stack (some .struct)
    return .exception
  else
    if mtype ≠ TMessageType.reply.code then skip stack (some .struct)
    if fname ≠ c.name then skip stack (some .struct)
    let result ← readStruct c.resultFields stack none
    match result with
    | some a => return .result a
    | none => return .missingResult

/-- `TFramedTransport::readFrame`. -/
def readFrame : Reader (List Byte) := do
  let sz ← readI32
  if sz < 0 then fail .negativeSize else take .endOfFile sz.toNat

/-- The client reads one frame and the reply in it. -/
def Call.receive (c : Call) (stack : Nat) : Reader (Returns c.Result) := do
  let frame ← readFrame
  match c.recv stack frame with
  | .ok (r, _) => return r
  | .error fault => fail fault

theorem zero_fits : FitsIn 2 0 := by decide

theorem Call.takes_recv (c : Call) (stack : Nat) {a : c.Result} (ha : c.resultCodec.Valid a)
    {seqid : Int} (hseqid : FitsIn 4 seqid) :
    Takes (c.recv stack) (c.reply seqid a) (.result a) := by
  have hids : (c.resultFields.map Field.id).Nodup := List.nodup_singleton _
  have hfit : ∀ f ∈ c.resultFields, FitsIn 2 f.id := by
    intro f hf
    cases List.mem_singleton.mp hf
    exact zero_fits
  have hvalid : ∀ f ∈ c.resultFields, f.codec.Valid (f.get (some a)) := by
    intro f hf
    cases List.mem_singleton.mp hf
    exact ha
  have hresult : Takes (readStruct c.resultFields stack none)
      (writeStruct c.resultFields (some a)) (some a) :=
    takes_readStruct hids hfit stack hvalid none
  apply (takes_readMessageBegin c.name_lt .reply hseqid).bind
  have hcode : TMessageType.reply.code ≠ TMessageType.exception.code := by decide
  simp only [if_neg hcode, ne_eq, not_true_eq_false, if_false]
  rw [← List.append_nil (writeStruct c.resultFields (some a))]
  exact hresult.bind (takes_pure _)

theorem framed_eq {frame : List Byte} (h : frame.length < maxSize) :
    framed frame = writeInt 4 frame.length ++ frame := by
  have hmod : ((frame.length : Int) % 256 ^ 4).toNat = frame.length := by
    unfold maxSize at h
    omega
  rw [framed, writeInt, hmod]

theorem takes_readFrame {frame : List Byte} (h : frame.length < maxSize) :
    Takes readFrame (framed frame) frame := by
  rw [framed_eq h]
  apply (takes_int ReadFault.endOfFile (size_fits h)).bind
  rw [if_neg (by omega), Int.toNat_natCast]
  exact takes_take ReadFault.endOfFile frame

/-- A part of a frame is not taken for one. -/
theorem readFrame_part {frame part : List Byte} (hframe : frame.length < maxSize)
    (hpart : part <+: framed frame) (hne : part ≠ framed frame) :
    readFrame part = .error .endOfFile := by
  by_cases hshort : part.length < 4
  · exact bind_error (int_short ReadFault.endOfFile hshort) _
  · -- the size has arrived, and less than that follows
    obtain ⟨rest, hrest⟩ := hpart
    rw [framed_eq hframe] at hrest hne
    obtain ⟨body, hbody, hleft⟩ : ∃ body, part = writeInt 4 frame.length ++ body ∧
        frame = body ++ rest := by
      rcases List.append_eq_append_iff.mp hrest with ⟨mid, hmid, hrest⟩ | ⟨mid, hmid, hrest⟩
      · have hlength := congrArg List.length hmid
        rw [length_writeInt, List.length_append] at hlength
        have hnil : mid = [] := List.length_eq_zero_iff.mp (by omega)
        subst hnil
        exact ⟨[], by rw [hmid, List.append_nil, List.append_nil], hrest.symm⟩
      · exact ⟨mid, hmid, hrest⟩
    have hlt : body.length < frame.length := by
      have hrestne : rest ≠ [] := by
        rintro rfl
        rw [List.append_nil] at hleft
        exact hne (hleft ▸ hbody)
      have hpos := List.length_pos_iff.mpr hrestne
      rw [hleft, List.length_append]
      omega
    rw [hbody]
    refine (bind_ok (takes_int ReadFault.endOfFile (size_fits hframe) body) _).trans ?_
    rw [if_neg (by omega), Int.toNat_natCast]
    exact take_short ReadFault.endOfFile hlt

theorem Call.receive_framed (c : Call) (stack : Nat) {a : c.Result}
    (ha : c.resultCodec.Valid a) {seqid : Int} (hseqid : FitsIn 4 seqid)
    (hlength : (c.reply seqid a).length < maxSize) :
    c.receive stack (framed (c.reply seqid a)) = .ok (.result a, []) := by
  have hframe := takes_readFrame hlength []
  have hrecv := c.takes_recv stack ha hseqid []
  rw [List.append_nil] at hframe hrecv
  refine (bind_ok hframe _).trans ?_
  rw [hrecv]
  rfl

theorem Call.receive_part (c : Call) (stack : Nat) {a : c.Result} {seqid : Int} {part : List Byte}
    (hlength : (c.reply seqid a).length < maxSize) (hpart : part <+: framed (c.reply seqid a))
    (hne : part ≠ framed (c.reply seqid a)) : c.receive stack part = .error .endOfFile :=
  bind_error (readFrame_part hlength hpart hne) _

theorem reply_ne_nil (c : Call) (seqid : Int) (a : c.Result) : c.reply seqid a ≠ [] := by
  apply List.ne_nil_of_length_pos
  simp only [Call.reply, writeMessageBegin, List.length_append, length_writeInt]
  omega

/-- In every run of a connection for one call, in whatever pieces the bytes go and whenever
it fails, the client that reads what has arrived gets the result of the handler, or it
finds the end of the connection: no part of a reply is taken for one. -/
theorem reply_intact (stack : Nat) {call : Call} {seqid : Int} (hcall : Writable [(call, seqid)])
    {c : Connection}
    (h : Reach Connection.step anyAction
      { incoming := (messages [(call, seqid)]).flatMap framed } c)
    {a : call.Result} (ha : call.resultCodec.Valid a)
    (hlength : (call.reply seqid a).length < maxSize)
    (hserved : ∀ p ∈ c.served, p.2 = some (call.reply seqid a)) :
    call.receive stack c.outgoing = .ok (.result a, []) ∨
      call.receive stack c.outgoing = .error .endOfFile := by
  have hserves := Connection.reach_serves hcall.sizes h
  have hwritten := hserves.written
  obtain ⟨todo, htodo, -⟩ := hserves.awaits
  have hpart : c.outgoing <+: framed (call.reply seqid a) := by
    cases hall : c.served with
    | nil =>
        rw [hall] at hwritten
        exact hwritten.trans List.nil_prefix
    | cons p rest =>
        have hlen := congrArg List.length htodo
        rw [hall] at hlen
        simp only [messages, List.map_cons, List.map_nil, List.length_append, List.length_cons,
          List.length_map, List.length_nil] at hlen
        have hrest : rest = [] := List.length_eq_zero_iff.mp (by omega)
        have hanswer := hserved p (by rw [hall]; exact List.mem_cons_self)
        have hone : replies c.served = framed (call.reply seqid a) := by
          rw [hall, hrest]
          simp [replies, hanswer, reply_ne_nil]
        exact hone ▸ hwritten
  by_cases hdone : c.outgoing = framed (call.reply seqid a)
  · left
    rw [hdone]
    exact call.receive_framed stack ha (hcall _ List.mem_cons_self).2.1 hlength
  · exact .inr (call.receive_part stack hlength hpart hdone)

/-- A get of a key, and its result. -/
def oneGet : Call := .get ⟨[7], 1⟩

def oneResult : oneGet.Result := ((some .ok, [9]) : Option Status × Bytes)

theorem oneGet_writable : Writable [(oneGet, 0)] := fun p hp =>
  putAndGet_writable p (List.mem_cons_of_mem _ hp)

theorem oneResult_valid : oneGet.resultCodec.Valid oneResult := by
  show ∀ f ∈ _, _
  simp [oneResult, field, Codec.status, Codec.string, maxSize]

/-- The connection fails when a part of the answer has been written. -/
def lostAfterPart : List SocketEvent :=
  [.ready 4 none, .ready 100 (some (oneGet.reply 0 oneResult)), .ready 10 none, .failed]

theorem reply_intact_lostAfterPart :
    ∃ c : Connection,
      Reach Connection.step anyAction { incoming := (messages [(oneGet, 0)]).flatMap framed } c ∧
      c.socket = .closed ∧ c.outgoing = (framed (oneGet.reply 0 oneResult)).take 10 ∧
      (oneGet.receive 1 c.outgoing = .ok (.result oneResult, []) ∨
        oneGet.receive 1 c.outgoing = .error .endOfFile) := by
  have hrun : (perform Connection.step anyAction
      { incoming := (messages [(oneGet, 0)]).flatMap framed } lostAfterPart).map
        (fun c => ((c.socket, c.outgoing), c.served)) =
      some ((.closed, (framed (oneGet.reply 0 oneResult)).take 10),
        [(oneGet.message 0, some (oneGet.reply 0 oneResult))]) := by
    decide +kernel
  obtain ⟨c, hc, hend⟩ := Option.map_eq_some_iff.mp hrun
  have hreach := reach_of_perform hc
  obtain ⟨hend, hserved⟩ := Prod.mk.inj hend
  obtain ⟨hsocket, houtgoing⟩ := Prod.mk.inj hend
  refine ⟨c, hreach, hsocket, houtgoing,
    reply_intact 1 oneGet_writable hreach oneResult_valid (by decide +kernel) ?_⟩
  intro p hp
  rw [hserved] at hp
  cases List.mem_singleton.mp hp
  rfl

end RobustCache.Thrift
