import RobustCache.Core.Types

/-! # Consistent hashing

`ConsistentHashing.h`: the key hash shared by the ring and the hash table, and
the lookup of the replica group in charge of a hash.
-/

namespace RobustCache

open Lib

/-- One round of the byte loop. The `char` is signed, so the cast to `unsigned
int` extends its sign. -/
def mixByte (result : BitVec 32) (c : Fin 256) : BitVec 32 :=
  let result := result ^^^ (BitVec.ofNat 8 c).signExtend 32
  result + ((result <<< 1) + (result <<< 4) + (result <<< 7) + (result <<< 8) +
    (result <<< 24))

def mixBytes (key : Bytes) : BitVec 32 := key.foldl mixByte 0

/-- `ir_hash`, which returns the accumulator as a signed integer. -/
def irHash (key : Bytes) : Int := (mixBytes key).toInt

/-- `KVStorageHandler::hash`, the same loop returned unsigned. -/
def hash (key : Bytes) : Nat := (mixBytes key).toNat

/-- The group of the first ring point at or after the hash, wrapping to the
first point of the ring. -/
def getServer (hash : Int) (v : View) : Except Fault (List Server) :=
  if v.hashToServer.isEmpty then .error .emptyRing
  else match v.hashToServer.lowerBound hash with
    | none => .ok ((v.hashToServer.first.map Prod.snd).getD [])
    | some e => .ok e.2

def View.NonEmpty (v : View) : Prop := v.hashToServer.isEmpty = false

instance (v : View) : Decidable v.NonEmpty := inferInstanceAs (Decidable (_ = false))

theorem getServer_of_nonEmpty {v : View} (h : v.NonEmpty) (hash : Int) :
    ∃ servers, getServer hash v = .ok servers := by
  unfold getServer
  rw [View.NonEmpty] at h
  rw [h]
  cases v.hashToServer.lowerBound hash with
  | none => exact ⟨_, rfl⟩
  | some e => exact ⟨_, rfl⟩

theorem getServer_of_empty {v : View} (h : ¬ v.NonEmpty) (hash : Int) :
    getServer hash v = .error .emptyRing := by
  have he : v.hashToServer.isEmpty = true := by simpa [View.NonEmpty] using h
  simp [getServer, he]

/-- The replica group of a key; no server is in charge under an empty ring. -/
def group (key : Bytes) (v : View) : List Server :=
  match getServer (irHash key) v with
  | .ok servers => servers
  | .error _ => []

theorem getServer_eq_group {v : View} (h : v.NonEmpty) (key : Bytes) :
    getServer (irHash key) v = .ok (group key v) := by
  obtain ⟨servers, hs⟩ := getServer_of_nonEmpty h (irHash key)
  simp [group, hs]

theorem nonEmpty_of_mem_group {v : View} {key : Bytes} {s : Server} (h : s ∈ group key v) :
    v.NonEmpty := by
  by_contra hne
  simp [group, getServer_of_empty hne] at h

def View.single (servers : List Server) : View :=
  { hashToServer := OrderedMap.empty.insert 0 servers }

theorem group_single (key : Bytes) (servers : List Server) :
    group key (View.single servers) = servers := by
  have hring : (View.single servers).hashToServer.entries = [(0, servers)] := rfl
  unfold group getServer OrderedMap.isEmpty OrderedMap.lowerBound OrderedMap.first
  rw [hring]
  by_cases h : irHash key ≤ 0
  · simp [h]
  · simp [h]

def View.twoPoints (p q : Int) (a b : Server) : View :=
  { hashToServer := (OrderedMap.empty.insert p [a]).insert q [b] }

end RobustCache
