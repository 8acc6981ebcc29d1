import Mathlib.Data.List.Lex
import Mathlib.Data.Prod.Lex
import RobustCache.Lib.OrderedMap

/-! # Interface types

The structures of `cache.thrift` under their own field names, and the ways an
operation can fail to return. Strings are byte strings. Counters that the
source keeps in 64 bits are integers.
-/

namespace RobustCache

open Lib

/-- A `std::string`: a sequence of bytes, compared as unsigned characters. -/
abbrev Bytes := List (Fin 256)

instance instNeZeroByte : NeZero 256 := ⟨by decide⟩

instance instLawfulBEqBytes : LawfulBEq Bytes := inferInstance

structure Server where
  server : Bytes
  port : Int
deriving DecidableEq, Repr

/-- Servers are ordered by address, then port, as `cmpServers` and `ltstr` do. -/
instance : LinearOrder Server :=
  LinearOrder.lift' (fun s => toLex (s.server, s.port)) (by
    rintro ⟨a, p⟩ ⟨b, q⟩ h
    cases toLex.injective h
    rfl)

inductive Status where
  | ok
  | noKey
  | wrongServer
deriving DecidableEq, Repr

structure PutArgs where
  key : Bytes
  value : Bytes
  viewNum : Int
deriving DecidableEq, Repr

structure GetArgs where
  key : Bytes
  viewNum : Int
deriving DecidableEq, Repr

structure PutReply where
  status : Status
deriving DecidableEq, Repr

structure GetReply where
  status : Status
  value : Bytes := []
deriving DecidableEq, Repr

structure View where
  hashToServer : OrderedMap Int (List Server) := OrderedMap.empty
deriving DecidableEq

/-- The default value is the one a server or client holds before its first reply. -/
structure GetServersReply where
  view : View := {}
  viewNum : Int := 0
deriving DecidableEq

/-- The counters that the request handlers maintain. -/
structure GetStatisticsReply where
  numInsertions : Int := 0
  numUpdates : Int := 0
  numGoodGets : Int := 0
  numFailedGets : Int := 0
  numEvictions : Int := 0
  numPurges : Int := 0
deriving DecidableEq, Repr

/-- A version vector as the server keeps it: `std::vector<std::pair<Server, long long>>`. -/
abbrev Version := List (Server × Int)

structure VersionEntry where
  server : Server
  version : Int
deriving DecidableEq, Repr

structure Entry where
  key : Bytes
  value : Bytes
  version : List VersionEntry
deriving DecidableEq, Repr

structure AntiEntropyArgs where
  entries : List Entry
  viewNum : Int
deriving DecidableEq, Repr

structure AntiEntropyReply where
  status : Status
  invalidatedEntries : List Bytes := []
deriving DecidableEq, Repr

/-- The ways a call can fail to return a result: a failed `assert` aborts the
process, a loop without an exit runs forever, and the ring lookup throws
`EmptyRingException`. -/
inductive Fault where
  | assertion
  | diverges
  | emptyRing
deriving DecidableEq, Repr

/-- `assert(p)`. -/
def check (p : Prop) [Decidable p] : Except Fault Unit :=
  if p then .ok () else .error .assertion

@[simp] theorem check_of {p : Prop} [Decidable p] (h : p) : check p = .ok () := if_pos h

/-! ## Version vectors on the wire -/

/-- Copy a wire vector into the server's own representation. -/
def ofEntries (version : List VersionEntry) : Version :=
  version.map fun e => (e.server, e.version)

/-- Copy a stored vector into the wire representation. -/
def toEntries (version : Version) : List VersionEntry :=
  version.map fun p => ⟨p.1, p.2⟩

@[simp] theorem ofEntries_toEntries (version : Version) :
    ofEntries (toEntries version) = version := by
  simp [ofEntries, toEntries, Function.comp_def]

end RobustCache
