import RobustCache.Server.Frames
import RobustCache.Wire.Calls

/-! # The size of what is read

A reader makes nothing of a message that the message does not hold: in whatever bytes a
client sends, fields that are unknown or repeated included, the keys and values of a call
are together no longer than the message.
-/

namespace RobustCache.Thrift

open Lib Lib.Parser

/-! ## Readers -/

theorem weighs_readStringBody (size : Int) : Weighs (readStringBody size) 0 List.length := by
  unfold readStringBody
  split
  · exact weighs_fail _ _ _
  · exact weighs_take _ _

theorem weighs_readString : Weighs readString 0 List.length :=
  (weighs_int _ 4).bind weighs_readStringBody

theorem weighs_readType : Weighs readType 0 fun _ => 0 :=
  Weighs.map (f := TType.ofCode) (weighs_int _ 1)

theorem weighs_readSize : Weighs readSize 0 fun _ => 0 := by
  apply (weighs_int _ 4).bind
  intro size
  split
  · exact weighs_fail _ _ _
  · exact weighs_pure (le_refl _)

theorem weighs_readListBegin : Weighs readListBegin 0 fun _ => 0 :=
  weighs_readType.bind fun _ => weighs_readSize.bind fun _ => weighs_pure (le_refl _)

theorem weighs_readMapBegin : Weighs readMapBegin 0 fun _ => 0 :=
  weighs_readType.bind fun _ => weighs_readType.bind fun _ => weighs_readSize.bind fun _ =>
    weighs_pure (le_refl _)

theorem weighs_readFieldBegin : Weighs readFieldBegin 0 fun _ => 0 := by
  apply weighs_readType.bind
  intro type
  split
  · exact weighs_pure (le_refl _)
  · exact (weighs_int _ 2).bind fun _ => weighs_pure (le_refl _)

theorem weighs_discard {α : Type} {p : Reader α} {weight : α → Nat} (hp : Weighs p 0 weight) :
    Weighs (discard p) 0 fun _ => 0 := by
  apply Weighs.map
  apply hp.mono
  intro a
  omega

theorem weighs_skipFields {skipValue : Option TType → Reader Unit}
    (h : ∀ type, Weighs (skipValue type) 0 fun _ => 0) (rounds : Nat) :
    Weighs (skipFields skipValue rounds) 0 fun _ => 0 := by
  induction rounds with
  | zero => exact weighs_fail _ _ _
  | succ rounds ih =>
      apply weighs_readFieldBegin.bind
      rintro ⟨type, id⟩
      dsimp only
      split
      · exact weighs_pure (le_refl _)
      · exact (h type).bind fun _ => ih

theorem weighs_skip (stack : Nat) (type : Option TType) :
    Weighs (skip stack type) 0 fun _ => 0 := by
  induction stack generalizing type with
  | zero => exact weighs_fail _ _ _
  | succ stack ih =>
      have helems : ∀ elemType size,
          Weighs (discard (times (skip stack elemType) size)) 0 fun _ => 0 :=
        fun elemType size => weighs_discard (weighs_times (ih elemType) size)
      cases type with
      | none => exact weighs_pure (le_refl _)
      | some type =>
          cases type with
          | stop | void | u64 | utf8 | utf16 => exact weighs_pure (le_refl _)
          | bool | byte => exact weighs_discard (weighs_int _ 1)
          | i16 => exact weighs_discard (weighs_int _ 2)
          | i32 => exact weighs_discard (weighs_int _ 4)
          | i64 => exact weighs_discard (weighs_int _ 8)
          | double => exact weighs_discard (weighs_take _ 8)
          | string => exact weighs_discard weighs_readString
          | struct => exact fun bytes => weighs_skipFields ih (bytes.length + 1) bytes
          | map =>
              apply weighs_readMapBegin.bind
              rintro ⟨keyType, valType, size⟩
              exact weighs_discard (weighs_times ((ih keyType).bind fun _ => ih valType) size)
          | set | list =>
              apply weighs_readListBegin.bind
              rintro ⟨elemType, size⟩
              exact helems elemType size

/-! ## Codecs -/

/-- The values that are read weigh no more than the bytes taken, and what is replaced. -/
def Codec.Weighs {α : Type} (c : Codec α) (weight : α → Nat) : Prop :=
  ∀ stack old, Parser.Weighs (c.read stack old) (weight old) weight

theorem weighs_i32 : Codec.i32.Weighs fun _ => 0 := fun _ _ => weighs_int _ 4

theorem weighs_i64 : Codec.i64.Weighs fun _ => 0 := fun _ _ => weighs_int _ 8

theorem weighs_string : Codec.string.Weighs List.length := by
  intro stack old
  apply weighs_readString.mono
  intro str
  omega

theorem weighs_name : Codec.string.Weighs fun _ => 0 := by
  intro stack old
  apply weighs_readString.mono
  intro str
  omega

theorem weighs_list {α : Type} {c : Codec α} {weight : α → Nat} (hc : c.Weighs weight)
    {fresh : α} (hfresh : weight fresh = 0) :
    (c.list fresh).Weighs fun as => (as.map weight).sum := by
  intro stack old
  have helem := hc stack fresh
  rw [hfresh] at helem
  have hlist : Parser.Weighs ((c.list fresh).read stack old) 0 fun as => (as.map weight).sum := by
    apply weighs_readListBegin.bind
    rintro ⟨elemType, size⟩
    exact weighs_times helem size
  apply hlist.mono
  intro as
  omega

/-- The weight of the field is its part in the weight of the structure. -/
def Field.Weighs {σ : Type} (f : Field σ) (weight : σ → Nat) : Prop :=
  ∃ part : f.Value → Nat, f.codec.Weighs part ∧
    ∀ v old, weight (f.set v old) + part (f.get old) ≤ weight old + part v

section Structs

variable {σ : Type} {fields : List (Field σ)} {weight : σ → Nat}

theorem weighs_readField (hfields : ∀ f ∈ fields, f.Weighs weight) (stack : Nat)
    (type : Option TType) (id : Int) (old : σ) :
    Parser.Weighs (readField fields stack type id old) (weight old) weight := by
  have hskip : Parser.Weighs (do skip stack type; return old) (weight old) weight := by
    have hkept : Parser.Weighs (skip stack type) (weight old) fun _ => weight old := by
      apply (weighs_skip stack type).mono
      intro _
      omega
    exact hkept.bind fun _ => weighs_pure (le_refl _)
  unfold readField
  split
  · next f hf =>
    obtain ⟨part, hpart, hset⟩ := hfields f (List.mem_of_find?_eq_some hf)
    split
    · apply Weighs.map
      apply (hpart stack (f.get old)).mono
      intro v
      have hv := hset v old
      omega
    · exact hskip
  · exact hskip

theorem weighs_readFields (hfields : ∀ f ∈ fields, f.Weighs weight) (stack rounds : Nat)
    (old : σ) : Parser.Weighs (readFields fields stack rounds old) (weight old) weight := by
  induction rounds generalizing old with
  | zero => exact weighs_fail _ _ _
  | succ rounds ih =>
      have hbegin : Parser.Weighs readFieldBegin (weight old) fun _ => weight old := by
        apply weighs_readFieldBegin.mono
        intro _
        omega
      apply hbegin.bind
      rintro ⟨type, id⟩
      dsimp only
      split
      · exact weighs_pure (le_refl _)
      · exact (weighs_readField hfields stack type id old).bind ih

theorem weighs_struct (hfields : ∀ f ∈ fields, f.Weighs weight)
    (hids : (fields.map Field.id).Nodup) (hfit : ∀ f ∈ fields, FitsIn 2 f.id)
    (hall : ∀ a old : σ, fields.foldl (fun b f => f.copy a b) old = a) :
    (Codec.struct fields hids hfit hall).Weighs weight :=
  fun stack old bytes => weighs_readFields hfields stack (bytes.length + 1) old bytes

end Structs

/-! ## Rounds -/

theorem readFieldBegin_lt {bytes rest : List Byte} {begun : Option TType × Int}
    (h : readFieldBegin bytes = .ok (begun, rest)) : rest.length < bytes.length := by
  have htype : Weighs readType 0 fun _ => 1 :=
    Weighs.map (f := TType.ofCode) (weighs_int_width _ 1)
  have hbegin : Weighs readFieldBegin 0 fun _ => 1 := by
    apply htype.bind
    intro type
    split
    · exact weighs_pure (le_refl _)
    · have hid : Weighs readI16 1 fun _ => 1 := (weighs_int _ 2).mono fun _ => by omega
      exact hid.bind fun _ => weighs_pure (le_refl _)
  have hlength : 1 + rest.length ≤ 0 + bytes.length := hbegin bytes begun rest h
  omega

/-- More rounds than there are bytes make no difference: a structure that is skipped ends at
its stop, or fails, before the rounds are used up. -/
theorem skipFields_rounds {skipValue : Option TType → Reader Unit}
    (hskip : ∀ type, Weighs (skipValue type) 0 fun _ => 0) {rounds rounds' : Nat}
    {bytes : List Byte} (h : bytes.length < rounds) (h' : bytes.length < rounds') :
    skipFields skipValue rounds bytes = skipFields skipValue rounds' bytes := by
  induction rounds generalizing rounds' bytes with
  | zero => omega
  | succ rounds ih =>
      obtain ⟨rounds', rfl⟩ := Nat.exists_eq_succ_of_ne_zero (Nat.ne_zero_of_lt h')
      unfold skipFields
      cases hbegin : readFieldBegin bytes with
      | error fault => rw [bind_error hbegin, bind_error hbegin]
      | ok r =>
          obtain ⟨⟨type, id⟩, rest⟩ := r
          have hrest := readFieldBegin_lt hbegin
          rw [bind_ok hbegin, bind_ok hbegin]
          dsimp only
          split
          · rfl
          · cases hvalue : skipValue type rest with
            | error fault => rw [bind_error hvalue, bind_error hvalue]
            | ok r =>
                have hleft : 0 + r.2.length ≤ 0 + rest.length := hskip type _ _ _ hvalue
                rw [bind_ok hvalue, bind_ok hvalue]
                exact ih (by omega) (by omega)

theorem readFields_rounds {σ : Type} {fields : List (Field σ)}
    (hfields : ∀ f ∈ fields, f.Weighs fun _ => 0) (stack : Nat) {rounds rounds' : Nat}
    {bytes : List Byte} (h : bytes.length < rounds) (h' : bytes.length < rounds') (old : σ) :
    readFields fields stack rounds old bytes = readFields fields stack rounds' old bytes := by
  induction rounds generalizing rounds' bytes old with
  | zero => omega
  | succ rounds ih =>
      obtain ⟨rounds', rfl⟩ := Nat.exists_eq_succ_of_ne_zero (Nat.ne_zero_of_lt h')
      unfold readFields
      cases hbegin : readFieldBegin bytes with
      | error fault => rw [bind_error hbegin, bind_error hbegin]
      | ok r =>
          obtain ⟨⟨type, id⟩, rest⟩ := r
          have hrest := readFieldBegin_lt hbegin
          rw [bind_ok hbegin, bind_ok hbegin]
          dsimp only
          split
          · rfl
          · cases hvalue : readField fields stack type id old rest with
            | error fault => rw [bind_error hvalue, bind_error hvalue]
            | ok r =>
                have hleft : 0 + r.2.length ≤ 0 + rest.length :=
                  weighs_readField hfields stack type id old _ _ _ hvalue
                rw [bind_ok hvalue, bind_ok hvalue]
                exact ih (by omega) (by omega) r.1

/-! ## Calls -/

def entryWeight (e : Entry) : Nat := e.key.length + e.value.length

def Call.weight : Call → Nat
  | put query => query.key.length + query.value.length
  | get query => query.key.length
  | getStatistics => 0
  | antiEntropy data => (data.entries.map entryWeight).sum

def Received.weight : Received → Nat
  | call c _ => c.weight
  | invalidMessageType | unknownMethod => 0

theorem weighs_putArgs :
    Codec.putArgs.Weighs fun query => query.key.length + query.value.length := by
  apply weighs_struct
  intro f hf
  simp only [List.mem_cons, List.not_mem_nil, or_false] at hf
  rcases hf with rfl | rfl | rfl
  · exact ⟨List.length, weighs_string, fun v old => by simp only [field]; omega⟩
  · exact ⟨List.length, weighs_string, fun v old => by simp only [field]; omega⟩
  · exact ⟨fun _ => 0, weighs_i32, fun v old => le_refl _⟩

theorem weighs_getArgs : Codec.getArgs.Weighs fun query => query.key.length := by
  apply weighs_struct
  intro f hf
  simp only [List.mem_cons, List.not_mem_nil, or_false] at hf
  rcases hf with rfl | rfl
  · exact ⟨List.length, weighs_string, fun v old => by simp only [field]; omega⟩
  · exact ⟨fun _ => 0, weighs_i32, fun v old => le_refl _⟩

theorem weighs_server : Codec.server.Weighs fun _ => 0 := by
  apply weighs_struct
  intro f hf
  simp only [List.mem_cons, List.not_mem_nil, or_false] at hf
  rcases hf with rfl | rfl
  · exact ⟨fun _ => 0, weighs_name, fun v old => le_refl _⟩
  · exact ⟨fun _ => 0, weighs_i32, fun v old => le_refl _⟩

theorem weighs_versionEntry : Codec.versionEntry.Weighs fun _ => 0 := by
  apply weighs_struct
  intro f hf
  simp only [List.mem_cons, List.not_mem_nil, or_false] at hf
  rcases hf with rfl | rfl
  · exact ⟨fun _ => 0, weighs_server, fun v old => le_refl _⟩
  · exact ⟨fun _ => 0, weighs_i64, fun v old => le_refl _⟩

theorem weighs_entry : Codec.entry.Weighs entryWeight := by
  apply weighs_struct
  intro f hf
  simp only [List.mem_cons, List.not_mem_nil, or_false] at hf
  rcases hf with rfl | rfl | rfl
  · exact ⟨List.length, weighs_string, fun v old => by simp only [field, entryWeight]; omega⟩
  · exact ⟨List.length, weighs_string, fun v old => by simp only [field, entryWeight]; omega⟩
  · refine ⟨_, weighs_list weighs_versionEntry rfl, fun v old => ?_⟩
    simp [field, entryWeight]

theorem weighs_antiEntropyArgs :
    Codec.antiEntropyArgs.Weighs fun data => (data.entries.map entryWeight).sum := by
  apply weighs_struct
  intro f hf
  simp only [List.mem_cons, List.not_mem_nil, or_false] at hf
  rcases hf with rfl | rfl
  · exact ⟨_, weighs_list weighs_entry rfl, fun v old => by simp only [field]; omega⟩
  · exact ⟨fun _ => 0, weighs_i32, fun v old => le_refl _⟩

theorem weighs_arguments {α : Type} {c : Codec α} {weight : α → Nat} (hc : c.Weighs weight) :
    (Codec.arguments c).Weighs weight := by
  apply weighs_struct
  intro f hf
  cases List.mem_singleton.mp hf
  exact ⟨weight, hc, fun v old => by simp only [field]; omega⟩

theorem weighs_dispatchCall (stack : Nat) (fname : Bytes) (seqid : Int) :
    Parser.Weighs (dispatchCall stack fname seqid) 0 Received.weight := by
  unfold dispatchCall
  split
  · exact Weighs.map (weighs_arguments weighs_putArgs stack _)
  split
  · exact Weighs.map (weighs_arguments weighs_getArgs stack _)
  split
  · have hnone : Codec.noArguments.Weighs fun _ => 0 := by
      apply weighs_struct
      simp
    exact Weighs.map (hnone stack ())
  split
  · exact Weighs.map (weighs_arguments weighs_antiEntropyArgs stack _)
  · exact (weighs_skip stack _).bind fun _ => weighs_pure (le_refl _)

theorem weighs_readMessageBegin : Parser.Weighs readMessageBegin 0 fun _ => 0 := by
  have hname : ∀ size, Parser.Weighs (readStringBody size) 0 fun _ => 0 := fun size =>
    (weighs_readStringBody size).mono fun _ => by omega
  apply (weighs_int _ 4).bind
  intro sz
  split
  · split
    · exact weighs_fail _ _ _
    · apply ((weighs_int _ 4).bind hname).bind
      intro name
      exact (weighs_int _ 4).bind fun _ => weighs_pure (le_refl _)
  · apply (hname sz).bind
    intro name
    apply (weighs_int _ 1).bind
    intro type
    exact (weighs_int _ 4).bind fun _ => weighs_pure (le_refl _)

/-- Whatever the bytes are, the call that the processor reads weighs no more. -/
theorem weighs_process (stack : Nat) : Parser.Weighs (process stack) 0 Received.weight := by
  apply weighs_readMessageBegin.bind
  rintro ⟨fname, mtype, seqid⟩
  dsimp only
  split
  · exact weighs_pure (le_refl _)
  · exact weighs_dispatchCall stack fname seqid

def Call.size : Call → Int
  | put query => query.key.length + query.value.length
  | get query => query.key.length
  | getStatistics => 0
  | antiEntropy data => data.size

theorem Call.size_eq (c : Call) : c.size = c.weight := by
  cases c with
  | put query => simp [size, weight]
  | get query => simp [size, weight]
  | getStatistics => rfl
  | antiEntropy data => simp [size, weight, AntiEntropyArgs.size, entryWeight, Function.comp_def]

/-- The message of a call is at least as long as its keys and values: they can be read
from it. -/
theorem Call.size_le_message {c : Call} (hc : c.Valid) {seqid : Int} (hseqid : FitsIn 4 seqid) :
    c.size ≤ (c.message seqid).length := by
  have htakes := takes_process 0 hc hseqid []
  have hweight := weighs_process 0 _ _ _ htakes
  simp only [Received.weight, List.append_nil, List.length_nil, Nat.zero_add] at hweight
  rw [c.size_eq]
  omega

/-- The request of the handler that a call becomes. -/
def Call.request : Call → Option Request
  | put query => some (.put query)
  | get query => some (.get query)
  | getStatistics => none
  | antiEntropy data => some (.antiEntropy data)

theorem Call.fitsFrame {c : Call} (h : (c.weight : Int) ≤ maxFrameSize) {r : Request}
    (hr : c.request = some r) : r.FitsFrame := by
  cases c with
  | put query =>
      cases hr
      simpa [weight, Request.FitsFrame] using h
  | get query =>
      cases hr
      trivial
  | getStatistics => cases hr
  | antiEntropy data =>
      cases hr
      intro e he
      have hle := List.le_sum_of_mem (List.mem_map_of_mem (f := entryWeight) he)
      simp only [weight, entryWeight] at h hle
      omega

end RobustCache.Thrift
