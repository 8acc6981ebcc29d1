import RobustCache.Core.Types
import RobustCache.Lib.Codec

/-! # The binary protocol

How the generated code writes and reads the structures of the interface: integers,
strings, lists and structures with numbered fields. A reader skips the fields that it does
not know. A codec carries the law that its reader takes back what its writer wrote, and
the codecs of lists and structures are built from those of their parts.
-/

namespace RobustCache.Thrift

open Lib Lib.Parser

/-- The exceptions of a reader, and the end of its stack. -/
inductive ReadFault where
  | endOfFile
  | negativeSize
  | badVersion
  | stackOverflow
  deriving Repr, DecidableEq

abbrev Reader := Parser ReadFault

inductive TType where
  | stop | void | bool | byte | double | i16 | i32 | u64 | i64 | string | struct | map | set
  | list | utf8 | utf16
  deriving Repr, DecidableEq

namespace TType

def code : TType → Int
  | stop => 0
  | void => 1
  | bool => 2
  | byte => 3
  | double => 4
  | i16 => 6
  | i32 => 8
  | u64 => 9
  | i64 => 10
  | string => 11
  | struct => 12
  | map => 13
  | set => 14
  | list => 15
  | utf8 => 16
  | utf16 => 17

def all : List TType :=
  [stop, void, bool, byte, double, i16, i32, u64, i64, string, struct, map, set, list, utf8, utf16]

/-- The cast of a number; a number of no type is read as well. -/
def ofCode (n : Int) : Option TType := all.find? fun t => t.code = n

@[simp] theorem ofCode_code (t : TType) : ofCode t.code = some t := by
  cases t <;> rfl

theorem code_fits (t : TType) : FitsIn 1 t.code := by
  cases t <;> decide

end TType

/-! ## Scalars -/

def readByte : Reader Int := int .endOfFile 1

def readI16 : Reader Int := int .endOfFile 2

def readI32 : Reader Int := int .endOfFile 4

def readI64 : Reader Int := int .endOfFile 8

def readStringBody (size : Int) : Reader Bytes :=
  if size < 0 then fail .negativeSize else take .endOfFile size.toNat

def readString : Reader Bytes := do
  let size ← readI32
  readStringBody size

def writeString (str : Bytes) : List Byte := writeInt 4 str.length ++ str

def writeType (type : TType) : List Byte := writeInt 1 type.code

def readType : Reader (Option TType) := TType.ofCode <$> readByte

theorem takes_readType (type : TType) : Takes readType (writeType type) (some type) := by
  have h : Takes readType (writeType type) (TType.ofCode type.code) :=
    (takes_int ReadFault.endOfFile type.code_fits).map TType.ofCode
  rwa [TType.ofCode_code] at h

/-- The sizes that the signed number of four bytes can hold. -/
abbrev maxSize : Nat := 2147483648

theorem size_fits {n : Nat} (h : n < maxSize) : FitsIn 4 n := by
  unfold maxSize at h
  unfold FitsIn
  norm_num
  omega

theorem takes_readString {str : Bytes} (h : str.length < maxSize) :
    Takes readString (writeString str) str := by
  apply (takes_int ReadFault.endOfFile (size_fits h)).bind
  unfold readStringBody
  rw [if_neg (by omega), Int.toNat_natCast]
  exact takes_take ReadFault.endOfFile str

/-! ## Containers and fields -/

def readSize : Reader Nat := do
  let size ← readI32
  if size < 0 then fail .negativeSize else return size.toNat

theorem takes_readSize {n : Nat} (h : n < maxSize) : Takes readSize (writeInt 4 n) n := by
  have htake : Takes readSize (writeInt 4 n ++ []) n := by
    apply (takes_int ReadFault.endOfFile (size_fits h)).bind
    rw [if_neg (by omega), Int.toNat_natCast]
    exact takes_pure n
  rwa [List.append_nil] at htake

def readListBegin : Reader (Option TType × Nat) := do
  let elemType ← readType
  let size ← readSize
  return (elemType, size)

def readMapBegin : Reader (Option TType × Option TType × Nat) := do
  let keyType ← readType
  let valType ← readType
  let size ← readSize
  return (keyType, valType, size)

/-- The field after a stop has the number zero. -/
def readFieldBegin : Reader (Option TType × Int) := do
  let type ← readType
  if type = some .stop then return (type, 0)
  else
    let id ← readI16
    return (type, id)

def writeFieldBegin (type : TType) (id : Int) : List Byte := writeType type ++ writeInt 2 id

theorem takes_readFieldBegin {type : TType} {id : Int} (htype : type ≠ .stop)
    (hid : FitsIn 2 id) : Takes readFieldBegin (writeFieldBegin type id) (some type, id) := by
  apply (takes_readType type).bind
  rw [if_neg (by simpa using htype)]
  exact (takes_int ReadFault.endOfFile hid).map fun id => (some type, id)

theorem takes_readFieldStop :
    Takes readFieldBegin (writeType .stop) (some .stop, 0) := by
  have h : Takes readFieldBegin (writeType .stop ++ []) (some .stop, 0) := by
    apply (takes_readType .stop).bind
    rw [if_pos rfl]
    exact takes_pure _
  rwa [List.append_nil] at h

/-- The fields of a structure up to its stop. Each round takes a byte or fails, so as many
rounds as there are bytes, and one more, come to the end. -/
def skipFields (skipValue : Option TType → Reader Unit) : Nat → Reader Unit
  | 0 => fail .endOfFile
  | rounds + 1 => do
      let (type, _) ← readFieldBegin
      if type = some .stop then return ()
      else
        skipValue type
        skipFields skipValue rounds

/-- The first argument is the number of calls that still fit on the stack: nothing but
the stack bounds how deep the values may be nested. -/
def skip : Nat → Option TType → Reader Unit
  | 0, _ => fail .stackOverflow
  | _ + 1, some .bool | _ + 1, some .byte => discard readByte
  | _ + 1, some .i16 => discard readI16
  | _ + 1, some .i32 => discard readI32
  | _ + 1, some .i64 => discard readI64
  | _ + 1, some .double => discard (take .endOfFile 8)
  | _ + 1, some .string => discard readString
  | stack + 1, some .struct => fun bytes => skipFields (skip stack) (bytes.length + 1) bytes
  | stack + 1, some .map => do
      let (keyType, valType, size) ← readMapBegin
      discard (times (do skip stack keyType; skip stack valType) size)
  | stack + 1, some .set | stack + 1, some .list => do
      let (elemType, size) ← readListBegin
      discard (times (skip stack elemType) size)
  | _ + 1, _ => pure ()

/-! ## Codecs -/

/-- How values of a type are written and read. The reader is given the calls that fit on
the stack and the value that it reads into. -/
structure Codec (α : Type) where
  type : TType
  write : α → List Byte
  read : Nat → α → Reader α
  Valid : α → Prop
  type_ne_stop : type ≠ .stop
  takes : ∀ stack old a, Valid a → Takes (read stack old) (write a) a

namespace Codec

variable {α σ : Type}

def i32 : Codec Int where
  type := .i32
  write := writeInt 4
  read _ _ := readI32
  Valid := FitsIn 4
  type_ne_stop := by decide
  takes _ _ _ h := takes_int ReadFault.endOfFile h

def i64 : Codec Int where
  type := .i64
  write := writeInt 8
  read _ _ := readI64
  Valid := FitsIn 8
  type_ne_stop := by decide
  takes _ _ _ h := takes_int ReadFault.endOfFile h

def string : Codec Bytes where
  type := .string
  write := writeString
  read _ _ := readString
  Valid str := str.length < maxSize
  type_ne_stop := by decide
  takes _ _ _ h := takes_readString h

/-- A list is resized to its new elements, which are read one by one; the type of the
elements is read and not compared. -/
def list (c : Codec α) (fresh : α) : Codec (List α) where
  type := .list
  write as := writeType c.type ++ (writeInt 4 as.length ++ as.flatMap c.write)
  read stack _ := do
    let (_, size) ← readListBegin
    times (c.read stack fresh) size
  Valid as := as.length < maxSize ∧ ∀ a ∈ as, c.Valid a
  type_ne_stop := by decide
  takes stack _ as h := by
    have hbegin : Takes readListBegin (writeType c.type ++ writeInt 4 as.length)
        (some c.type, as.length) :=
      (takes_readType c.type).bind ((takes_readSize h.1).map fun size => (some c.type, size))
    have helems := takes_times as fun a ha => c.takes stack fresh a (h.2 a ha)
    rw [← List.append_assoc]
    exact hbegin.bind helems

end Codec

/-! ## Structures -/

structure Field (σ : Type) where
  Value : Type
  codec : Codec Value
  id : Int
  get : σ → Value
  set : Value → σ → σ

/-- The field of that number, with how to read it from a value and to change it there. -/
def field {σ α : Type} (id : Int) (codec : Codec α) (get : σ → α) (set : α → σ → σ) : Field σ :=
  { Value := α, codec, id, get, set }

namespace Field

variable {σ : Type}

def write (f : Field σ) (a : σ) : List Byte :=
  writeFieldBegin f.codec.type f.id ++ f.codec.write (f.get a)

/-- The field is taken over from one value to the other. -/
def copy (f : Field σ) (a b : σ) : σ := f.set (f.get a) b

end Field

section Structs

variable {σ : Type}

def writeStruct (fields : List (Field σ)) (a : σ) : List Byte :=
  fields.flatMap (Field.write · a) ++ writeType .stop

/-- A field is read if it has the number and the type of a known one, else skipped. -/
def readField (fields : List (Field σ)) (stack : Nat) (type : Option TType) (id : Int) (old : σ) :
    Reader σ :=
  match fields.find? fun f => f.id = id with
  | some f =>
      if type = some f.codec.type then (f.set · old) <$> f.codec.read stack (f.get old)
      else do
        skip stack type
        return old
  | none => do
      skip stack type
      return old

def readFields (fields : List (Field σ)) (stack : Nat) : Nat → σ → Reader σ
  | 0, _ => fail .endOfFile
  | rounds + 1, old => do
      let (type, id) ← readFieldBegin
      if type = some .stop then return old
      else
        let new ← readField fields stack type id old
        readFields fields stack rounds new

def readStruct (fields : List (Field σ)) (stack : Nat) (old : σ) : Reader σ := fun bytes =>
  readFields fields stack (bytes.length + 1) old bytes

theorem find?_field {fields : List (Field σ)} (hids : (fields.map Field.id).Nodup)
    {f : Field σ} (hf : f ∈ fields) : fields.find? (fun g => g.id = f.id) = some f := by
  induction fields with
  | nil => simp at hf
  | cons g fields ih =>
      simp only [List.map_cons, List.nodup_cons] at hids
      rcases List.mem_cons.mp hf with rfl | hf
      · simp
      · have hne : g.id ≠ f.id := fun h => hids.1 (h ▸ List.mem_map_of_mem hf)
        rw [List.find?_cons_of_neg (by simpa using hne)]
        exact ih hids.2 hf

theorem takes_readField {fields : List (Field σ)} (hids : (fields.map Field.id).Nodup)
    (stack : Nat) {f : Field σ} (hf : f ∈ fields) {a : σ} (hvalid : f.codec.Valid (f.get a))
    (old : σ) :
    Takes (readField fields stack (some f.codec.type) f.id old) (f.codec.write (f.get a))
      (f.copy a old) := by
  unfold readField
  rw [find?_field hids hf]
  simp only [if_true]
  exact (f.codec.takes stack (f.get old) (f.get a) hvalid).map (f.set · old)

theorem takes_readFields {fields : List (Field σ)} (hids : (fields.map Field.id).Nodup)
    (hfit : ∀ f ∈ fields, FitsIn 2 f.id) (stack : Nat) (a : σ) (todo : List (Field σ))
    (hsub : ∀ f ∈ todo, f ∈ fields) (hvalid : ∀ f ∈ todo, f.codec.Valid (f.get a))
    {rounds : Nat} (hrounds : todo.length < rounds) (old : σ) :
    Takes (readFields fields stack rounds old) (writeStruct todo a)
      (todo.foldl (fun b f => f.copy a b) old) := by
  -- on the fields that are still in the input; the reader knows all of `fields` throughout
  induction todo generalizing rounds old with
  | nil =>
      obtain ⟨rounds, rfl⟩ := Nat.exists_eq_succ_of_ne_zero (Nat.ne_of_gt hrounds)
      have h : Takes (readFields fields stack (rounds + 1) old) (writeType .stop ++ []) old := by
        apply takes_readFieldStop.bind
        simp only [if_true]
        exact takes_pure old
      rwa [List.append_nil] at h
  | cons f todo ih =>
      obtain ⟨rounds, rfl⟩ := Nat.exists_eq_succ_of_ne_zero (Nat.ne_zero_of_lt hrounds)
      have hf := hsub f List.mem_cons_self
      have hrest := ih (fun g hg => hsub g (List.mem_cons_of_mem f hg))
        (fun g hg => hvalid g (List.mem_cons_of_mem f hg)) (Nat.lt_of_succ_lt_succ hrounds)
        (f.copy a old)
      have hfield := takes_readField hids stack hf (hvalid f List.mem_cons_self) old
      have hbegin := takes_readFieldBegin f.codec.type_ne_stop (hfit f hf)
      have hall : writeStruct (f :: todo) a = writeFieldBegin f.codec.type f.id ++
          (f.codec.write (f.get a) ++ writeStruct todo a) := by
        simp only [writeStruct, Field.write, List.flatMap_cons, List.append_assoc]
      rw [hall]
      apply hbegin.bind
      simp only [Option.some.injEq, f.codec.type_ne_stop, if_false]
      exact hfield.bind hrest

theorem length_lt_writeStruct (fields : List (Field σ)) (a : σ) :
    fields.length < (writeStruct fields a).length := by
  induction fields with
  | nil => simp [writeStruct, writeType]
  | cons f fields ih =>
      simp only [writeStruct, List.flatMap_cons, List.length_append, List.length_cons, Field.write,
        writeFieldBegin, writeType, length_writeInt] at ih ⊢
      omega

theorem takes_readStruct {fields : List (Field σ)} (hids : (fields.map Field.id).Nodup)
    (hfit : ∀ f ∈ fields, FitsIn 2 f.id) (stack : Nat) {a : σ}
    (hvalid : ∀ f ∈ fields, f.codec.Valid (f.get a)) (old : σ) :
    Takes (readStruct fields stack old) (writeStruct fields a)
      (fields.foldl (fun b f => f.copy a b) old) := by
  intro rest
  have hrounds : fields.length < (writeStruct fields a ++ rest).length + 1 := by
    have hlength := length_lt_writeStruct fields a
    rw [List.length_append]
    omega
  exact takes_readFields hids hfit stack a fields (fun _ hf => hf) hvalid hrounds old rest

/-- A structure is written field by field. Reading all fields replaces the old value,
whatever it was. -/
def Codec.struct (fields : List (Field σ)) (hids : (fields.map Field.id).Nodup)
    (hfit : ∀ f ∈ fields, FitsIn 2 f.id)
    (hall : ∀ a old : σ, fields.foldl (fun b f => f.copy a b) old = a) : Codec σ where
  type := .struct
  write := writeStruct fields
  read := readStruct fields
  Valid a := ∀ f ∈ fields, f.codec.Valid (f.get a)
  type_ne_stop := by decide
  takes stack old a h := by
    have htakes := takes_readStruct hids hfit stack h old
    rwa [hall] at htakes

end Structs

end RobustCache.Thrift
