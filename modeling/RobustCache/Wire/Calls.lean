import RobustCache.Wire.Binary

/-! # The calls of the storage service

The structures of the interface as codecs, and the messages in which a client sends its
calls. The processor of the server reads from the bytes of a message the call that was
written.
-/

namespace RobustCache.Thrift

open Lib Lib.Parser

/-! ## Structures of the interface -/

theorem one_fits : FitsIn 2 1 := by decide

namespace Codec

def server : Codec Server :=
  struct
    [field 1 string Server.server fun v s => { s with server := v },
      field 2 i32 Server.port fun v s => { s with port := v }]
    (by decide) (by decide) (fun _ _ => rfl)

def putArgs : Codec PutArgs :=
  struct
    [field 1 string PutArgs.key fun v a => { a with key := v },
      field 2 string PutArgs.value fun v a => { a with value := v },
      field 3 i32 PutArgs.viewNum fun v a => { a with viewNum := v }]
    (by decide) (by decide) (fun _ _ => rfl)

def getArgs : Codec GetArgs :=
  struct
    [field 1 string GetArgs.key fun v a => { a with key := v },
      field 2 i32 GetArgs.viewNum fun v a => { a with viewNum := v }]
    (by decide) (by decide) (fun _ _ => rfl)

def versionEntry : Codec VersionEntry :=
  struct
    [field 1 server VersionEntry.server fun v e => { e with server := v },
      field 2 i64 VersionEntry.version fun v e => { e with version := v }]
    (by decide) (by decide) (fun _ _ => rfl)

def entry : Codec Entry :=
  struct
    [field 1 string Entry.key fun v e => { e with key := v },
      field 2 string Entry.value fun v e => { e with value := v },
      field 3 (list versionEntry ⟨⟨[], 0⟩, 0⟩) Entry.version fun v e => { e with version := v }]
    (by decide) (by decide) (fun _ _ => rfl)

def antiEntropyArgs : Codec AntiEntropyArgs :=
  struct
    [field 1 (list entry ⟨[], [], []⟩) AntiEntropyArgs.entries fun v a => { a with entries := v },
      field 2 i32 AntiEntropyArgs.viewNum fun v a => { a with viewNum := v }]
    (by decide) (by decide) (fun _ _ => rfl)

/-- The arguments of a method with one argument. -/
def arguments {α : Type} (c : Codec α) : Codec α :=
  struct [field 1 c (fun a => a) fun v _ => v] (List.nodup_singleton _)
    (fun _ hf => List.mem_singleton.mp hf ▸ one_fits) (fun _ _ => rfl)

def noArguments : Codec Unit := struct [] List.nodup_nil (by simp) (fun _ _ => rfl)

end Codec

/-! ## Messages -/

inductive TMessageType where
  | call
  | reply
  | exception
  | oneway
  deriving Repr, DecidableEq

def TMessageType.code : TMessageType → Nat
  | call => 1
  | reply => 2
  | exception => 3
  | oneway => 4

def version1 : BitVec 32 := 0x80010000

def versionMask : BitVec 32 := 0xffff0000

def writeMessageBegin (name : Bytes) (type : TMessageType) (seqid : Int) : List Byte :=
  writeInt 4 (version1 ||| BitVec.ofNat 32 type.code).toInt ++
    (writeString name ++ writeInt 4 seqid)

/-- The number of a message type is not compared with the types. A message without a
version begins with its name. -/
def readMessageBegin : Reader (Bytes × Nat × Int) := do
  let sz ← readI32
  if sz < 0 then
    if BitVec.ofInt 32 sz &&& versionMask ≠ version1 then fail .badVersion
    else
      let name ← readString
      let seqid ← readI32
      return (name, (BitVec.ofInt 32 sz &&& 0xff).toNat, seqid)
  else
    let name ← readStringBody sz
    let type ← readByte
    let seqid ← readI32
    return (name, (BitVec.ofInt 32 type).toNat, seqid)

theorem takes_readMessageBegin {name : Bytes} (hname : name.length < maxSize)
    (type : TMessageType) {seqid : Int} (hseqid : FitsIn 4 seqid) :
    Takes readMessageBegin (writeMessageBegin name type seqid) (name, type.code, seqid) := by
  have hversion : FitsIn 4 (version1 ||| BitVec.ofNat 32 type.code).toInt := by
    cases type <;> decide
  apply (takes_int ReadFault.endOfFile hversion).bind
  have hnegative : (version1 ||| BitVec.ofNat 32 type.code).toInt < 0 := by
    cases type <;> decide
  have hmask : (version1 ||| BitVec.ofNat 32 type.code) &&& versionMask = version1 := by
    cases type <;> decide
  have hcode : ((version1 ||| BitVec.ofNat 32 type.code) &&& 0xff).toNat = type.code := by
    cases type <;> decide
  rw [if_pos hnegative, BitVec.ofInt_toInt, if_neg (not_not_intro hmask), hcode]
  apply (takes_readString hname).bind
  exact (takes_int ReadFault.endOfFile hseqid).map fun seqid => (name, type.code, seqid)

/-! ## Calls -/

/-- A call of the storage service. -/
inductive Call where
  | put (query : PutArgs)
  | get (query : GetArgs)
  | getStatistics
  | antiEntropy (data : AntiEntropyArgs)
  deriving Repr, DecidableEq

def ascii (text : List Char) : Bytes := text.map fun c => Fin.ofNat 256 c.toNat

namespace Call

def name : Call → Bytes
  | put _ => ascii ['p', 'u', 't']
  | get _ => ascii ['g', 'e', 't']
  | getStatistics =>
      ascii ['g', 'e', 't', 'S', 't', 'a', 't', 'i', 's', 't', 'i', 'c', 's']
  | antiEntropy _ => ascii ['a', 'n', 't', 'i', 'E', 'n', 't', 'r', 'o', 'p', 'y']

def arguments : Call → List Byte
  | put query => (Codec.arguments Codec.putArgs).write query
  | get query => (Codec.arguments Codec.getArgs).write query
  | getStatistics => Codec.noArguments.write ()
  | antiEntropy data => (Codec.arguments Codec.antiEntropyArgs).write data

/-- The numbers fit into their types and the sizes into four bytes. -/
def Valid : Call → Prop
  | put query => Codec.putArgs.Valid query
  | get query => Codec.getArgs.Valid query
  | getStatistics => True
  | antiEntropy data => Codec.antiEntropyArgs.Valid data

def message (c : Call) (seqid : Int) : List Byte :=
  writeMessageBegin c.name .call seqid ++ c.arguments

end Call

/-- What the processor makes of a message. -/
inductive Received where
  | call (c : Call) (seqid : Int)
  | invalidMessageType
  | unknownMethod
  deriving Repr, DecidableEq

/-- The arguments of the method of that name. The arguments of an unknown one are skipped. -/
def dispatchCall (stack : Nat) (fname : Bytes) (seqid : Int) : Reader Received :=
  if fname = (Call.put ⟨[], [], 0⟩).name then
    (fun query => .call (.put query) seqid) <$>
      (Codec.arguments Codec.putArgs).read stack ⟨[], [], 0⟩
  else if fname = (Call.get ⟨[], 0⟩).name then
    (fun query => .call (.get query) seqid) <$>
      (Codec.arguments Codec.getArgs).read stack ⟨[], 0⟩
  else if fname = Call.getStatistics.name then
    (fun _ => .call .getStatistics seqid) <$> Codec.noArguments.read stack ()
  else if fname = (Call.antiEntropy ⟨[], 0⟩).name then
    (fun data => .call (.antiEntropy data) seqid) <$>
      (Codec.arguments Codec.antiEntropyArgs).read stack ⟨[], 0⟩
  else do
    skip stack (some .struct)
    return .unknownMethod

def process (stack : Nat) : Reader Received := do
  let (fname, mtype, seqid) ← readMessageBegin
  if mtype ≠ TMessageType.call.code ∧ mtype ≠ TMessageType.oneway.code then
    return .invalidMessageType
  else dispatchCall stack fname seqid

theorem takes_arguments {α : Type} (c : Codec α) (stack : Nat) (old : α) {a : α}
    (h : c.Valid a) :
    Takes ((Codec.arguments c).read stack old) ((Codec.arguments c).write a) a := by
  apply (Codec.arguments c).takes stack old a
  intro f hf
  cases List.mem_singleton.mp hf
  exact h

theorem takes_dispatchCall (stack : Nat) {c : Call} (h : c.Valid) (seqid : Int) :
    Takes (dispatchCall stack c.name seqid) c.arguments (.call c seqid) := by
  cases c with
  | put query =>
      exact (takes_arguments Codec.putArgs stack _ h).map _
  | get query =>
      exact (takes_arguments Codec.getArgs stack _ h).map _
  | getStatistics =>
      have htakes := Codec.noArguments.takes stack () () (by simp [Codec.noArguments, Codec.struct])
      exact htakes.map fun _ => Received.call .getStatistics seqid
  | antiEntropy data =>
      exact (takes_arguments Codec.antiEntropyArgs stack _ h).map _

theorem Call.name_lt (c : Call) : c.name.length < maxSize := by
  cases c <;> simp [Call.name, ascii, maxSize]

theorem takes_process (stack : Nat) {c : Call} (h : c.Valid) {seqid : Int}
    (hseqid : FitsIn 4 seqid) : Takes (process stack) (c.message seqid) (.call c seqid) := by
  apply (takes_readMessageBegin c.name_lt .call hseqid).bind
  exact takes_dispatchCall stack h seqid

end RobustCache.Thrift
