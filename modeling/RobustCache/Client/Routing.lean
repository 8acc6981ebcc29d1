import RobustCache.View.Disruption

/-! # How the clients pick a server

The ring lookup of the three clients and the random choice within the group:
`getServerID` of `client.h`, `getServer` of `CacheClient.java` with
`ConsistentHashing.java`, and `getServer` of `client.py`. The random draw is a
parameter, as is the iteration order of a Java map.
-/

namespace RobustCache

open Lib

/-- How picking a server can fail: the exception for an empty ring, the division
by the size of an empty group in C++, the exception of `nextInt` for it in Java,
a missing map entry and an index that is out of range. -/
inductive RouteFault where
  | emptyRing
  | divideByZero
  | illegalArgument
  | nullPointer
  | outOfRange
deriving DecidableEq, Repr

def memberAt (servers : List Server) (i : Nat) : Except RouteFault Server :=
  match servers[i]? with
  | some server => .ok server
  | none => .error .outOfRange

namespace Cpp

/-- `getServerID`; `draw` is what `gen()` returns. -/
def getServerID (draw : Nat) (key : Bytes) (v : View) : Except RouteFault Server :=
  match getServer (irHash key) v with
  | .error _ => .error .emptyRing
  | .ok serversList =>
      if serversList.length = 0 then .error .divideByZero
      else memberAt serversList (draw % serversList.length)

end Cpp

namespace Java

/-- A `String`: a sequence of UTF-16 code units. -/
abbrev Chars := List (BitVec 16)

/-- One round of `ConsistentHashing.hash`; a `char` is unsigned. -/
def mixChar (result : BitVec 32) (c : BitVec 16) : BitVec 32 :=
  let result := result ^^^ c.zeroExtend 32
  result + ((result <<< 1) + (result <<< 4) + (result <<< 7) + (result <<< 8) +
    (result <<< 24))

def hash (s : Chars) : Int := (s.foldl mixChar 0).toInt

/-- The variables of the loop of `ConsistentHashing.getServer`. -/
structure Scan where
  minHash : Int := 0
  lb : Int := 0
  find1 : Bool := false
  find2 : Bool := false

def Scan.visit (hash : Int) (scan : Scan) (h : Int) : Scan :=
  let scan :=
    if !scan.find1 || h < scan.minHash then { scan with find1 := true, minHash := h } else scan
  if h < hash then scan
  else if !scan.find2 || h < scan.lb then { scan with find2 := true, lb := h }
  else scan

/-- `ConsistentHashing.getServer`, where `order` is the order in which the key set
is visited. -/
def getServer (order : List Int) (hash : Int) (v : View) : Except RouteFault (List Server) :=
  if v.hashToServer.isEmpty then .error .emptyRing
  else
    let scan := order.foldl (Scan.visit hash) {}
    match v.hashToServer.find? (if scan.find2 then scan.lb else scan.minHash) with
    | some servers => .ok servers
    | none => .error .nullPointer

/-- `Random.nextInt`; `draw` stands for the state of the generator. -/
def nextInt (draw bound : Nat) : Except RouteFault Nat :=
  if bound = 0 then .error .illegalArgument else .ok (draw % bound)

def pickServer (order : List Int) (draw : Nat) (key : Chars) (v : View) :
    Except RouteFault Server := do
  let servers ← getServer order (hash key) v
  let i ← nextInt draw servers.length
  memberAt servers i

end Java

namespace Python

/-- `n & 0xFFFFFFFF`. -/
def convert (n : Nat) : Nat := n % 4294967296

/-- One round of the hash loop, over integers that do not overflow. -/
def mixByte (result : Nat) (c : Fin 256) : Nat :=
  let result := result ^^^ convert c
  result + convert ((convert result <<< 1) + (convert result <<< 4) + (convert result <<< 7) +
    (convert result <<< 8) + (convert result <<< 24))

def hash (key : Bytes) : Int :=
  let result := key.foldl mixByte 0 % 4294967296
  if result > 2147483648 then (result : Int) - 4294967295 else result

/-- `bisect`: the position behind every key that is at most `x`. -/
def bisect (sortedKeys : List Int) (x : Int) : Nat :=
  (sortedKeys.takeWhile fun k => k ≤ x).length

/-- The ring point that `getServer` searches out; an empty ring has none. -/
def ringPoint (result : Int) (v : View) : Except RouteFault Int :=
  let sortedKeys := v.hashToServer.keys
  let pos := bisect sortedKeys result
  match sortedKeys[if pos = sortedKeys.length then 0 else pos]? with
  | some key => .ok key
  | none => .error .outOfRange

/-- `getServer`; `random.choice` of an empty list is an index error too. -/
def getServer (draw : Nat) (key : Bytes) (v : View) : Except RouteFault Server := do
  let point ← ringPoint (hash key) v
  match v.hashToServer.find? point with
  | none => .error .nullPointer
  | some servers =>
      if servers.length = 0 then .error .outOfRange
      else memberAt servers (draw % servers.length)

end Python

/-! ## The loop of the Java client -/

namespace Java

/-- Both tests of a round: take the new number if it is the first or the least. -/
def keepLeast (found : Bool) (value h : Int) : Bool × Int :=
  if !found || h < value then (true, h) else (found, value)

theorem visit_least (hash : Int) (scan : Scan) (h : Int) :
    ((scan.visit hash h).find1, (scan.visit hash h).minHash) =
      keepLeast scan.find1 scan.minHash h := by
  unfold Scan.visit keepLeast
  simp only
  split_ifs <;> rfl

theorem visit_bound (hash : Int) (scan : Scan) (h : Int) :
    ((scan.visit hash h).find2, (scan.visit hash h).lb) =
      if h < hash then (scan.find2, scan.lb) else keepLeast scan.find2 scan.lb h := by
  unfold Scan.visit keepLeast
  simp only
  split_ifs <;> simp_all

/-- The flag tells whether there is a number, and the variable is the least one. -/
def HoldsLeast (numbers : List Int) (found : Bool × Int) : Prop :=
  (found.1 = false → numbers = []) ∧
    (found.1 = true → found.2 ∈ numbers ∧ ∀ q ∈ numbers, found.2 ≤ q)

theorem holdsLeast_keepLeast {numbers : List Int} {found : Bool} {value : Int}
    (hs : HoldsLeast numbers (found, value)) (h : Int) :
    HoldsLeast (numbers ++ [h]) (keepLeast found value h) := by
  unfold keepLeast
  cases found with
  | false =>
      rw [hs.1 rfl]
      simp [HoldsLeast]
  | true =>
      obtain ⟨hmem, hleast⟩ := hs.2 rfl
      by_cases hlt : h < value
      · rw [if_pos (by simp [hlt])]
        refine ⟨fun hf => (by cases hf), fun _ => ⟨by simp, fun q hq => ?_⟩⟩
        rcases List.mem_append.mp hq with hq | hq
        · exact hlt.le.trans (hleast q hq)
        · exact (List.mem_singleton.mp hq).ge
      · rw [if_neg (by simp [hlt])]
        refine ⟨fun hf => (by cases hf), fun _ => ⟨by simp [hmem], fun q hq => ?_⟩⟩
        rcases List.mem_append.mp hq with hq | hq
        · exact hleast q hq
        · exact (not_lt.mp hlt).trans (List.mem_singleton.mp hq).ge

/-- What the variables say about the ring points visited so far. -/
structure Sees (hash : Int) (visited : List Int) (scan : Scan) : Prop where
  least : HoldsLeast visited (scan.find1, scan.minHash)
  bound : HoldsLeast (visited.filter fun h => hash ≤ h) (scan.find2, scan.lb)

theorem Sees.visit {hash : Int} {visited : List Int} {scan : Scan} (hs : Sees hash visited scan)
    (h : Int) : Sees hash (visited ++ [h]) (scan.visit hash h) := by
  constructor
  · rw [visit_least]
    exact holdsLeast_keepLeast hs.least h
  · rw [visit_bound, List.filter_append]
    by_cases hlt : h < hash
    · have hnot : ¬ hash ≤ h := not_le.mpr hlt
      simpa [hlt, hnot] using hs.bound
    · have hle : hash ≤ h := not_lt.mp hlt
      rw [if_neg hlt]
      simpa [hle] using holdsLeast_keepLeast hs.bound h

theorem sees_foldl {hash : Int} (visited rest : List Int) {scan : Scan}
    (hs : Sees hash visited scan) :
    Sees hash (visited ++ rest) (rest.foldl (Scan.visit hash) scan) := by
  induction rest generalizing visited scan with
  | nil => simpa using hs
  | cons h rest ih =>
      have := ih _ (hs.visit h)
      rwa [List.append_assoc, List.singleton_append] at this

theorem Sees.isNext {hash : Int} {order : List Int} {scan : Scan} (hs : Sees hash order scan)
    (hne : order ≠ []) :
    IsNext {q | q ∈ order} hash (if scan.find2 then scan.lb else scan.minHash) := by
  have hfound : scan.find1 = true := by
    cases hf : scan.find1 with
    | true => rfl
    | false => exact absurd (hs.least.1 hf) hne
  obtain ⟨hmem, hleast⟩ := hs.least.2 hfound
  cases hf : scan.find2 with
  | true =>
      obtain ⟨hlb, hfirst⟩ := hs.bound.2 hf
      simp only [List.mem_filter, decide_eq_true_eq] at hlb hfirst
      exact ⟨hlb.1, .inl ⟨hlb.2, fun q hq hle => hfirst q ⟨hq, hle⟩⟩⟩
  | false =>
      have hnone := hs.bound.1 hf
      refine ⟨hmem, .inr ⟨fun q hq => ?_, hleast⟩⟩
      by_contra hge
      have : q ∈ order.filter fun h => hash ≤ h := by simpa using ⟨hq, not_lt.mp hge⟩
      rw [hnone] at this
      cases this

theorem getServer_eq {order : List Int} {v : View} (horder : order.Perm v.hashToServer.keys)
    (hash : Int) :
    Java.getServer order hash v = match RobustCache.getServer hash v with
      | .ok servers => .ok servers
      | .error _ => .error .emptyRing := by
  by_cases hv : v.NonEmpty
  · obtain ⟨p, servers, hp, hfind⟩ := exists_next hv hash
    have hpoints : {q | q ∈ order} = v.points := by
      ext q
      exact horder.mem_iff.trans OrderedMap.mem_keys
    have hne : order ≠ [] := by
      intro hnil
      rw [hnil] at horder
      have hkey : p ∈ v.hashToServer.keys := OrderedMap.mem_keys.mpr hp.1
      rw [← horder.mem_iff] at hkey
      cases hkey
    have hsees : Sees hash order (order.foldl (Scan.visit hash) {}) :=
      sees_foldl [] order ⟨⟨fun _ => rfl, fun hf => by cases hf⟩,
        ⟨fun _ => rfl, fun hf => by cases hf⟩⟩
    have hnext := hsees.isNext hne
    rw [hpoints] at hnext
    have hpoint := hnext.unique hp
    have hring : v.hashToServer.isEmpty = false := hv
    rw [getServer_ok_iff.mpr ⟨p, hp, hfind⟩]
    simp only [Java.getServer, hring, hpoint, hfind, Bool.false_eq_true, if_false]
  · have hring : v.hashToServer.isEmpty = true := by simpa [View.NonEmpty] using hv
    rw [getServer_of_empty hv]
    simp only [Java.getServer, hring, if_true]

end Java

/-! ## Every group has someone to pick -/

theorem memberAt_mod {servers : List Server} (hne : servers ≠ []) (draw : Nat) :
    ∃ server, servers[draw % servers.length]? = some server ∧
      memberAt servers (draw % servers.length) = .ok server := by
  have hlt : draw % servers.length < servers.length :=
    Nat.mod_lt _ (List.length_pos_of_ne_nil hne)
  refine ⟨servers[draw % servers.length], List.getElem?_eq_getElem hlt, ?_⟩
  simp [memberAt, List.getElem?_eq_getElem hlt]

/-- On a ring without empty groups the lookup reports an empty ring or finds a group
that has a member at every reduced draw. -/
theorem getServer_member {ring : View}
    (hstaffed : ∀ point members, ring.hashToServer.find? point = some members → members ≠ [])
    (draw : Nat) (hash : Int) :
    (¬ ring.NonEmpty ∧ getServer hash ring = .error .emptyRing) ∨
      ∃ p servers server, getServer hash ring = .ok servers ∧
        ring.hashToServer.find? p = some servers ∧ servers ≠ [] ∧
        servers[draw % servers.length]? = some server ∧
        memberAt servers (draw % servers.length) = .ok server := by
  by_cases hne : ring.NonEmpty
  · obtain ⟨p, servers, hp, hfind⟩ := exists_next hne hash
    have hgroup := hstaffed p servers hfind
    obtain ⟨server, hmember, hpick⟩ := memberAt_mod hgroup draw
    exact .inr ⟨p, servers, server, getServer_ok_iff.mpr ⟨p, hp, hfind⟩, hfind, hgroup,
      hmember, hpick⟩
  · exact .inl ⟨hne, getServer_of_empty hne hash⟩

/-- The pick ends in the report of an empty ring, or at an index inside a group
that is not empty. -/
def PicksInside (v : View) (pick : Except RouteFault Server) : Prop :=
  (¬ v.NonEmpty ∧ pick = .error .emptyRing) ∨
    ∃ point servers i server, v.hashToServer.find? point = some servers ∧ servers ≠ [] ∧
      i < servers.length ∧ servers[i]? = some server ∧ pick = .ok server

/-- In every run of the view service no published group is empty, so that the C++
and the Java client never divide by zero or index out of range. -/
theorem picks_inside {vs : ViewService} (h : Reach ViewService.change anyAction {} vs) {n : Nat}
    {ring : View} (hring : vs.hashToServer[n]? = some ring) :
    (∀ point members, ring.hashToServer.find? point = some members → members ≠ []) ∧
      (∀ draw key, PicksInside ring (Cpp.getServerID draw key ring)) ∧
      ∀ order draw key, order.Perm ring.hashToServer.keys →
        PicksInside ring (Java.pickServer order draw key ring) := by
  have hstaffed := ViewService.staffed_of_reach h hring
  refine ⟨hstaffed, fun draw key => ?_, fun order draw key horder => ?_⟩
  · unfold Cpp.getServerID
    rcases getServer_member hstaffed draw (irHash key) with
      ⟨hempty, hget⟩ | ⟨p, servers, server, hget, hfind, hgroup, hmember, hpick⟩
    · rw [hget]
      exact .inl ⟨hempty, rfl⟩
    · have hlen : servers.length ≠ 0 := by simpa using hgroup
      rw [hget]
      simp only [if_neg hlen, hpick]
      exact .inr ⟨p, servers, _, server, hfind, hgroup,
        (List.getElem?_eq_some_iff.mp hmember).1, hmember, rfl⟩
  · unfold Java.pickServer
    rw [Java.getServer_eq horder]
    rcases getServer_member hstaffed draw (Java.hash key) with
      ⟨hempty, hget⟩ | ⟨p, servers, server, hget, hfind, hgroup, hmember, hpick⟩
    · rw [hget]
      exact .inl ⟨hempty, rfl⟩
    · have hlen : servers.length ≠ 0 := by simpa using hgroup
      rw [hget]
      simp only [Java.nextInt, if_neg hlen, hpick, bind, Except.bind]
      exact .inr ⟨p, servers, _, server, hfind, hgroup,
        (List.getElem?_eq_some_iff.mp hmember).1, hmember, rfl⟩

theorem picks_inside_joined :
    ∃ vs ring, Reach ViewService.change anyAction {} vs ∧ vs.hashToServer[4]? = some ring ∧
      PicksInside ring (Cpp.getServerID 7 [1] ring) ∧
      PicksInside ring (Java.pickServer ring.hashToServer.keys 7 [1] ring) := by
  have hrun : ((perform ViewService.change anyAction {}
      (ViewService.freshChanges ⟨[1], 1⟩ ⟨[2], 2⟩ ⟨[3], 3⟩)).bind fun vs =>
        vs.hashToServer[4]?).isSome
      = true := by
    decide +kernel
  obtain ⟨ring, hrun⟩ := Option.isSome_iff_exists.mp hrun
  obtain ⟨vs, hvs, hring⟩ := Option.bind_eq_some_iff.mp hrun
  have hpick := picks_inside (reach_of_perform hvs) hring
  exact ⟨vs, ring, reach_of_perform hvs, hring, hpick.2.1 7 [1], hpick.2.2 _ 7 [1] (.refl _)⟩

end RobustCache
