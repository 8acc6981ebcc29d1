import Mathlib.Data.Finset.Range
import Mathlib.Data.Finset.Card
import RobustCache.Lib.Chain
import RobustCache.Lib.Probe
import RobustCache.Core.Ring
import RobustCache.Core.Version

/-! # The hash table with its recency list

The private state of `KVStorageHandler` that holds the data, and the functions
that only touch it: probing, the index-linked list, insertion, removal,
eviction and rehashing. Positions are integers with `-1` for no position.
-/

namespace RobustCache

open Lib

inductive State where
  | empty
  | alive
  | dead
deriving DecidableEq, Repr

structure Record where
  state : State := .empty
  key : Bytes := []
  value : Bytes := []
  prev : Int := -1
  next : Int := -1
  version : Version := []
deriving DecidableEq, Repr

/-- `MEMORY_LIMIT`, `1 << 30`. -/
def memoryLimit : Int := 1073741824

/-- Conversion of a sum to a 32-bit `int`. -/
def toInt32 (n : Int) : Int := (n + 2147483648) % 4294967296 - 2147483648

/-- `t[i]`; a position outside the table reads as an unused record. -/
def recordAt (t : Array Record) (i : Int) : Record :=
  if i < 0 then {} else t.getD i.toNat {}

def setRecord (t : Array Record) (i : Int) (r : Record) : Array Record :=
  if i < 0 then t else t.setIfInBounds i.toNat r

structure Store where
  statistics : GetStatisticsReply := {}
  hashTable : Array Record := Array.replicate 10 {}
  listHead : Int := -1
  listTail : Int := -1
  totalKeyValueSize : Int := 0
  numEntries : Int := 0
  numDeadEntries : Int := 0

namespace Store

def slot (st : Store) (i : Int) : Record := recordAt st.hashTable i

def modify (st : Store) (i : Int) (f : Record → Record) : Store :=
  { st with hashTable := setRecord st.hashTable i (f (st.slot i)) }

def getUsedMemory (st : Store) : Int := st.totalKeyValueSize

/-- The test that ends the loop of `getPosition`. -/
def stopsAt (t : Array Record) (key : Bytes) (pos : Nat) : Bool :=
  decide ((recordAt t pos).state = .empty) ||
    (decide ((recordAt t pos).state = .alive) && decide ((recordAt t pos).key = key))

/-- Probe from the home slot of the key. A turn that meets no stopping slot is
an endless loop, since probing changes nothing. -/
def getPosition (st : Store) (key : Bytes) : Except Fault Int :=
  let size := st.hashTable.size
  match Probe.scan size (stopsAt st.hashTable key) size (hash key % size) with
  | some pos => .ok pos
  | none => .error .diverges

/-- Make `next` follow `prev`, or head the list when there is no `prev`. -/
def linkNext (st : Store) (prev next : Int) : Store :=
  if prev ≠ -1 then st.modify prev fun r => { r with next := next }
  else { st with listHead := next }

/-- Make `prev` precede `next`, or end the list when there is no `next`. -/
def linkPrev (st : Store) (next prev : Int) : Store :=
  if next ≠ -1 then st.modify next fun r => { r with prev := prev }
  else { st with listTail := prev }

def removeFromList (st : Store) (pos : Int) : Except Fault Store := do
  check ((st.slot pos).state = .alive)
  let st := st.linkNext (st.slot pos).prev (st.slot pos).next
  let st := st.linkPrev (st.slot pos).next (st.slot pos).prev
  return st

def addToFront (st : Store) (pos : Int) : Except Fault Store := do
  check ((st.slot pos).state = .alive)
  let st := st.modify pos fun r => { r with prev := -1, next := st.listHead }
  let st :=
    if st.listHead ≠ -1 then st.modify st.listHead fun r => { r with prev := pos } else st
  let st := { st with listHead := pos }
  return if st.listTail = -1 then { st with listTail := pos } else st

def accessEntry (st : Store) (pos : Int) : Except Fault Store := do
  check ((st.slot pos).state = .alive)
  let st ← st.removeFromList pos
  st.addToFront pos

/-- Assign the value of a record, with the two adjustments of the size counter. -/
def setValue (st : Store) (pos : Int) (value : Bytes) : Store :=
  let st := { st with
    totalKeyValueSize := toInt32 (st.totalKeyValueSize - (st.slot pos).value.length) }
  let st := st.modify pos fun r => { r with value }
  { st with totalKeyValueSize := toInt32 (st.totalKeyValueSize + value.length) }

def setVersion (st : Store) (pos : Int) (version : Version) : Store :=
  st.modify pos fun r => { r with version }

/-- `addEntry`; the two overloads differ in the version vector they store. -/
def addEntry (st : Store) (pos : Int) (key value : Bytes) (version : Version) :
    Except Fault Store := do
  check ((st.slot pos).state = .empty)
  let st := { st.modify pos (fun r => { r with state := .alive, key, value, version }) with
    totalKeyValueSize := toInt32 (st.totalKeyValueSize + (key.length + value.length)) }
  let st ← st.addToFront pos
  return { st with numEntries := st.numEntries + 1 }

/-- The slot becomes a tombstone: a fresh record whose state is `DEAD`. -/
def removeEntry (st : Store) (pos : Int) : Except Fault Store := do
  let st ← st.removeFromList pos
  let size : Int := (st.slot pos).key.length + (st.slot pos).value.length
  let st := { st with totalKeyValueSize := toInt32 (st.totalKeyValueSize - size) }
  let st := st.modify pos fun _ => { state := .dead }
  return { st with
    numEntries := st.numEntries - 1
    numDeadEntries := st.numDeadEntries + 1 }

def evictEntry (st : Store) : Except Fault Store := do
  check (st.listTail ≠ -1)
  let st ← st.removeEntry st.listTail
  return { st with
    statistics := { st.statistics with numEvictions := st.statistics.numEvictions + 1 } }

/-- `while (getUsedMemory() > MEMORY_LIMIT) evictEntry();`. Every eviction turns
an `ALIVE` slot into a tombstone, so more rounds than slots end in the failed
assertion of `evictEntry`. -/
def evictLoop : Nat → Store → Except Fault Store
  | 0, _ => .error .diverges
  | fuel + 1, st =>
      if st.getUsedMemory > memoryLimit then do
        let st ← st.evictEntry
        evictLoop fuel st
      else .ok st

/-- The assignments of one round of `rehash` to the new table: the moved record
goes to `pos`, behind the record at `newListTail`. -/
def place (new : Array Record) (newListTail pos : Int) (moved : Record) : Array Record :=
  let new := setRecord new pos
    { recordAt new pos with
      state := .alive, key := moved.key, value := moved.value, version := moved.version,
      prev := newListTail }
  let new :=
    if newListTail ≠ -1 then
      setRecord new newListTail { recordAt new newListTail with next := pos }
    else new
  setRecord new pos { recordAt new pos with next := -1 }

/-- The loop of `rehash`: move the records from `i` on, in list order, into the
new table, leaving the contents of the new slot behind. A list that is longer
than the old table has slots is cyclic. -/
def rehashLoop : Nat → Array Record → Array Record → Int → Int → Int →
    Except Fault (Array Record × Int × Int)
  | 0, _, _, _, _, _ => .error .diverges
  | fuel + 1, old, new, newListHead, newListTail, i =>
      if i = -1 then .ok (new, newListHead, newListTail)
      else
        let moved := recordAt old i
        match Probe.scan new.size (fun p => decide ((recordAt new p).state = .empty)) new.size
            (hash moved.key % new.size) with
        | none => .error .diverges
        | some pos =>
            let slot := recordAt new pos
            let old := setRecord old i
              { moved with key := slot.key, value := slot.value, version := slot.version }
            let newListHead := if newListHead = -1 then (pos : Int) else newListHead
            rehashLoop fuel old (place new newListTail pos moved) newListHead pos
              (recordAt old i).next

def rehash (st : Store) (newSize : Nat) : Except Fault Store := do
  let (table, head, tail) ← rehashLoop (st.hashTable.size + 1) st.hashTable
    (Array.replicate newSize {}) (-1) (-1) st.listHead
  return { st with
    hashTable := table
    listHead := head
    listTail := tail
    numDeadEntries := 0 }

/-- Double the table when more than a quarter of it is alive. -/
def growIfLoaded (st : Store) : Except Fault Store :=
  if 4 * st.numEntries > st.hashTable.size then st.rehash (2 * st.hashTable.size) else .ok st

/-- Rehash in place when more than half of the table is not empty. -/
def rehashIfFull (st : Store) : Except Fault Store :=
  if 2 * (st.numEntries + st.numDeadEntries) > st.hashTable.size then
    st.rehash st.hashTable.size
  else .ok st

def normalizeTable (st : Store) : Except Fault Store := do
  let st ← evictLoop (st.hashTable.size + 1) st
  let st ← st.growIfLoaded
  st.rehashIfFull

/-! ## Reading the list -/

def order (st : Store) : List Int :=
  walk (-1) (fun i => (st.slot i).next) st.hashTable.size st.listHead

def slotsIn (st : Store) (s : State) : Finset Nat :=
  (Finset.range st.hashTable.size).filter fun i => (st.slot i).state = s

end Store

end RobustCache
