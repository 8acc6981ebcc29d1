import RobustCache.Lib.Circle
import RobustCache.View.Membership

/-! # How little a change of the ring moves

The group in charge of a hash before and after each operation of the view
service, for any ring, hash and arguments.
-/

namespace RobustCache

open Lib

def View.points (v : View) : Set Int := v.hashToServer.points

theorem getServer_eq_next (h : Int) (v : View) :
    getServer h v = match v.hashToServer.next h with
      | some e => .ok e.2
      | none => .error .emptyRing := by
  unfold getServer
  cases hempty : v.hashToServer.isEmpty with
  | true =>
      rw [OrderedMap.next_eq_none.mpr hempty]
      rfl
  | false =>
      cases hnext : v.hashToServer.next h with
      | none =>
          rw [OrderedMap.next_eq_none.mp hnext] at hempty
          cases hempty
      | some e =>
          unfold OrderedMap.next at hnext
          cases hlb : v.hashToServer.lowerBound h with
          | none =>
              rw [hlb] at hnext
              simp [show v.hashToServer.first = some e from hnext]
          | some e' =>
              rw [hlb] at hnext
              cases hnext
              rfl

theorem getServer_ok_iff {h : Int} {v : View} {servers : List Server} :
    getServer h v = .ok servers ↔
      ∃ p, IsNext v.points h p ∧ v.hashToServer.find? p = some servers := by
  rw [getServer_eq_next]
  constructor
  · intro hok
    cases hnext : v.hashToServer.next h with
    | none =>
        rw [hnext] at hok
        cases hok
    | some e =>
        rw [hnext] at hok
        cases hok
        exact ⟨e.1, OrderedMap.next_isNext hnext⟩
  · rintro ⟨p, hp⟩
    rw [OrderedMap.next_eq_some.mpr hp]

theorem exists_next {v : View} (hv : v.NonEmpty) (h : Int) :
    ∃ p servers, IsNext v.points h p ∧ v.hashToServer.find? p = some servers := by
  obtain ⟨servers, hok⟩ := getServer_of_nonEmpty hv h
  obtain ⟨p, hp⟩ := getServer_ok_iff.mp hok
  exact ⟨p, servers, hp⟩

namespace ViewService

section Insert

variable {ring : View} {point : Int} {members : List Server} {h : Int}

theorem points_insert : View.points { hashToServer := ring.hashToServer.insert point members } =
    insert point ring.points := by
  ext p
  simp only [View.points, OrderedMap.points, OrderedMap.find?_insert, Set.mem_ofPred_eq,
    Set.mem_insert_iff]
  by_cases hp : p = point
  · simp [hp]
  · simp [hp]

/-- Writing a group at a point takes over the hashes for which the point comes
first, and no others. -/
theorem getServer_insert :
    (IsNext (insert point ring.points) h point →
      getServer h { hashToServer := ring.hashToServer.insert point members } = .ok members) ∧
    (¬ IsNext (insert point ring.points) h point →
      getServer h { hashToServer := ring.hashToServer.insert point members } =
        getServer h ring) := by
  constructor
  · intro hnext
    rw [getServer_ok_iff]
    refine ⟨point, by rwa [points_insert], ?_⟩
    rw [OrderedMap.find?_insert, if_pos rfl]
  · intro hnot
    have hne : View.NonEmpty { hashToServer := ring.hashToServer.insert point members } := by
      rw [View.NonEmpty, Bool.eq_false_iff, ne_eq, OrderedMap.isEmpty_iff]
      intro hnone
      have := hnone point
      rw [OrderedMap.find?_insert, if_pos rfl] at this
      cases this
    obtain ⟨p, servers, hp, hfind⟩ := exists_next hne h
    have hnew : getServer h { hashToServer := ring.hashToServer.insert point members } =
        .ok servers := getServer_ok_iff.mpr ⟨p, hp, hfind⟩
    rw [points_insert] at hp
    have hpoint : p ≠ point := fun he => hnot (he ▸ hp)
    rw [OrderedMap.find?_insert, if_neg hpoint] at hfind
    have hold : IsNext ring.points h p :=
      hp.restrict (Set.subset_insert point ring.points) ⟨servers, hfind⟩
    rw [hnew, getServer_ok_iff.mpr ⟨p, hold, hfind⟩]

end Insert

theorem getServer_joinGroup (ring : View) (s master : Server) (h : Int) :
    getServer h (joinGroup ring s master) = getServer h ring ∨
      ∃ members, getServer h ring = .ok members ∧ master ∈ members ∧
        getServer h (joinGroup ring s master) = .ok (members ++ [s]) := by
  rcases joinGroup_cases ring s master with ⟨hsame, -⟩ | ⟨point, members, hmem, hmaster, hjoin⟩
  · exact .inl (by rw [hsame])
  · have hpoint : point ∈ ring.points := ⟨members, hmem⟩
    rw [hjoin]
    by_cases hnext : IsNext (insert point ring.points) h point
    · refine .inr ⟨members, ?_, hmaster, getServer_insert.1 hnext⟩
      exact getServer_ok_iff.mpr
        ⟨point, hnext.restrict (Set.subset_insert point ring.points) hpoint, hmem⟩
    · exact .inl (getServer_insert.2 hnext)

def kept (ring : View) (toRemove : List Server) : Set Int :=
  {p | ∃ members, ring.hashToServer.find? p = some members ∧ ∃ s ∈ members, s ∉ toRemove}

theorem kept_subset (ring : View) (toRemove : List Server) : kept ring toRemove ⊆ ring.points := by
  rintro p ⟨members, hmem, -⟩
  exact ⟨members, hmem⟩

theorem find?_dropServers_eq_some {ring : View} {toRemove : List Server} {p : Int}
    {members : List Server} (hmem : ring.hashToServer.find? p = some members)
    (hkeep : ∃ s ∈ members, s ∉ toRemove) :
    (dropServers ring toRemove).hashToServer.find? p =
      some (members.filter fun s => s ∉ toRemove) := by
  obtain ⟨s, hs, hnot⟩ := hkeep
  have hkept : s ∈ members.filter fun s => s ∉ toRemove := by simp [hs, hnot]
  rw [find?_dropServers, hmem, Option.bind_some, if_neg (List.ne_nil_of_mem hkept)]

theorem points_dropServers (ring : View) (toRemove : List Server) :
    (dropServers ring toRemove).points = kept ring toRemove := by
  ext p
  constructor
  · rintro ⟨members', hmem'⟩
    rw [find?_dropServers] at hmem'
    obtain ⟨members, hmem, hfilter⟩ := Option.bind_eq_some_iff.mp hmem'
    split at hfilter
    · cases hfilter
    · next hne =>
        obtain ⟨s, hs⟩ := List.exists_mem_of_ne_nil _ hne
        simp only [List.mem_filter, decide_eq_true_eq] at hs
        exact ⟨members, hmem, s, hs⟩
  · rintro ⟨members, hmem, hkeep⟩
    exact ⟨_, find?_dropServers_eq_some hmem hkeep⟩

/-- A hash stays with its group as long as the group keeps a server, and goes to
the next point that does otherwise. -/
theorem getServer_dropServers {ring : View} {toRemove : List Server} {h p : Int}
    {members : List Server} (hp : IsNext ring.points h p)
    (hmem : ring.hashToServer.find? p = some members)
    (hleft : (dropServers ring toRemove).NonEmpty) :
    ((∃ s ∈ members, s ∉ toRemove) → getServer h (dropServers ring toRemove) =
      .ok (members.filter fun s => s ∉ toRemove)) ∧
    ((∀ s ∈ members, s ∈ toRemove) → ∃ q next, IsNext (kept ring toRemove) p q ∧
      ring.hashToServer.find? q = some next ∧
      getServer h (dropServers ring toRemove) = .ok (next.filter fun s => s ∉ toRemove)) := by
  constructor
  · intro hkeep
    refine getServer_ok_iff.mpr ⟨p, ?_, find?_dropServers_eq_some hmem hkeep⟩
    rw [points_dropServers]
    exact hp.restrict (kept_subset ring toRemove) ⟨members, hmem, hkeep⟩
  · intro _
    obtain ⟨q, left, hq, hfind⟩ := exists_next hleft h
    have hok := getServer_ok_iff.mpr ⟨q, hq, hfind⟩
    rw [points_dropServers] at hq
    obtain ⟨next, hnext, hkeep⟩ := hq.1
    rw [find?_dropServers_eq_some hnext hkeep, Option.some.injEq] at hfind
    rw [← hfind] at hok
    exact ⟨q, next, (hp.from_next (kept_subset ring toRemove)).mp hq, hnext, hok⟩

/-- A server that joins takes over the hashes for which its point comes first. A
replica is appended to one group of its master. When servers leave and a ring is
left, each group goes on with its other servers, and the hashes of a group that
loses all of them go to the next old point that does not. -/
theorem minimal_disruption {vs : ViewService} (hwf : vs.WellFormed) (h : Int) :
    (∀ s point,
      (IsNext (vs.addServer s point).ring.points h point →
        getServer h (vs.addServer s point).ring = .ok [s]) ∧
      (¬ IsNext (vs.addServer s point).ring.points h point →
        getServer h (vs.addServer s point).ring = getServer h vs.ring)) ∧
    (∀ s master now, getServer h (vs.addReplica s master now).ring = getServer h vs.ring ∨
      ∃ members, getServer h vs.ring = .ok members ∧ master ∈ members ∧
        getServer h (vs.addReplica s master now).ring = .ok (members ++ [s])) ∧
    ∀ toRemove, (vs.removeServers toRemove).ring.NonEmpty →
      ∃ p members, IsNext vs.ring.points h p ∧ vs.ring.hashToServer.find? p = some members ∧
        getServer h vs.ring = .ok members ∧
        ((∃ s ∈ members, s ∉ toRemove) → getServer h (vs.removeServers toRemove).ring =
          .ok (members.filter fun s => s ∉ toRemove)) ∧
        ((∀ s ∈ members, s ∈ toRemove) → ∃ q next, IsNext (kept vs.ring toRemove) p q ∧
          vs.ring.hashToServer.find? q = some next ∧
          getServer h (vs.removeServers toRemove).ring =
            .ok (next.filter fun s => s ∉ toRemove)) := by
  refine ⟨fun s point => ?_, fun s master now => ?_, fun toRemove hleft => ?_⟩
  · rw [addServer, ring_publish hwf, points_insert]
    exact getServer_insert
  · unfold addReplica
    split
    · have hring : ({ vs.publish (vs.servers ++ [s]) (joinGroup vs.ring s master) with
          pings := vs.pings.insert s now } : ViewService).ring = joinGroup vs.ring s master :=
        ring_publish hwf (vs.servers ++ [s]) (joinGroup vs.ring s master)
      rw [hring]
      exact getServer_joinGroup vs.ring s master h
    · exact .inl rfl
  · rw [removeServers, ring_publish hwf] at hleft ⊢
    have hold : vs.ring.NonEmpty := by
      obtain ⟨q, -, hq, -⟩ := exists_next hleft h
      rw [points_dropServers] at hq
      obtain ⟨next, hnext, -⟩ := hq.1
      rw [View.NonEmpty, Bool.eq_false_iff, ne_eq, OrderedMap.isEmpty_iff]
      intro hnone
      rw [hnone q] at hnext
      cases hnext
    obtain ⟨p, members, hp, hmem⟩ := exists_next hold h
    exact ⟨p, members, hp, hmem, getServer_ok_iff.mpr ⟨p, hp, hmem⟩,
      getServer_dropServers hp hmem hleft⟩

/-- Of the points 5 and 9, the second is in charge of the hash 7 until a server
joins at 8, and the first, past the end of the ring, once the server at 9 leaves. -/
theorem minimal_disruption_wraps :
    let vs := (({} : ViewService).addServer ⟨[1], 1⟩ 5).addServer ⟨[2], 2⟩ 9
    vs.WellFormed ∧ getServer 7 vs.ring = .ok [⟨[2], 2⟩] ∧
      getServer 7 (vs.addServer ⟨[3], 3⟩ 8).ring = .ok [⟨[3], 3⟩] ∧
      ∃ q next, IsNext (kept vs.ring [⟨[2], 2⟩]) 9 q ∧ vs.ring.hashToServer.find? q = some next ∧
        getServer 7 (vs.removeServers [⟨[2], 2⟩]).ring =
          .ok (next.filter fun s => s ∉ [⟨[2], 2⟩]) := by
  intro vs
  have hwf : vs.WellFormed := ⟨rfl, rfl⟩
  have hold : IsNext vs.ring.points 7 9 :=
    (OrderedMap.next_isNext (e := (9, [⟨[2], 2⟩])) (by decide +kernel)).1
  have hnew : IsNext (vs.addServer ⟨[3], 3⟩ 8).ring.points 7 8 :=
    (OrderedMap.next_isNext (e := (8, [⟨[3], 3⟩])) (by decide +kernel)).1
  have hleft : (vs.removeServers [⟨[2], 2⟩]).ring.NonEmpty := by decide +kernel
  obtain ⟨hjoin, -, hleave⟩ := minimal_disruption hwf 7
  obtain ⟨p, members, hp, hmem, hok, -, hgone⟩ := hleave [⟨[2], 2⟩] hleft
  have hp9 : p = 9 := hp.unique hold
  subst hp9
  have hmembers : members = [⟨[2], 2⟩] := by
    have hfind : vs.ring.hashToServer.find? 9 = some [⟨[2], 2⟩] := by decide +kernel
    rw [hfind, Option.some.injEq] at hmem
    exact hmem.symm
  subst hmembers
  exact ⟨hwf, hok, (hjoin ⟨[3], 3⟩ 8).1 hnew, hgone fun s hs => hs⟩

end ViewService

end RobustCache
