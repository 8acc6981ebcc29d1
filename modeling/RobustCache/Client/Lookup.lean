import Mathlib.Data.List.TakeWhile
import RobustCache.Client.Routing

/-! # One ring, three lookups

The group that a client finds for a hash against the group that a server finds
for it. The Java client scans the points in any order and finds the same one. The
Python client searches with the other convention for a hash that is itself a
point of the ring, and goes on to the next one.
-/

namespace RobustCache

open Lib

namespace Java

/-- On every ring, in every order of its points and for every hash, the Java
lookup finds the group that the C++ lookup finds, that of the next point. -/
theorem getServer_agrees {order : List Int} {v : View} (horder : order.Perm v.hashToServer.keys)
    (hash : Int) :
    (v.NonEmpty → ∃ p servers, IsNext v.points hash p ∧ v.hashToServer.find? p = some servers ∧
      RobustCache.getServer hash v = .ok servers ∧ Java.getServer order hash v = .ok servers) ∧
    (RobustCache.getServer hash v = .error .emptyRing ↔ v.hashToServer.isEmpty = true) ∧
    (Java.getServer order hash v = .error .emptyRing ↔ v.hashToServer.isEmpty = true) := by
  rw [getServer_eq horder]
  by_cases hv : v.NonEmpty
  · have hring : v.hashToServer.isEmpty = false := hv
    obtain ⟨p, servers, hp, hfind⟩ := exists_next hv hash
    have hget := getServer_ok_iff.mpr ⟨p, hp, hfind⟩
    rw [hget, hring]
    exact ⟨fun _ => ⟨p, servers, hp, hfind, rfl, rfl⟩, by simp, by simp⟩
  · have hring : v.hashToServer.isEmpty = true := by simpa [View.NonEmpty] using hv
    rw [getServer_of_empty hv, hring]
    exact ⟨fun h => absurd h hv, by simp, by simp⟩

def extremeRing : View := View.twoPoints (-2147483648) 2147483647 ⟨[1], 1⟩ ⟨[2], 2⟩

theorem getServer_agrees_extremes :
    extremeRing.NonEmpty ∧
      ∃ p servers, IsNext extremeRing.points (-2147483648) p ∧
        extremeRing.hashToServer.find? p = some servers ∧
        RobustCache.getServer (-2147483648) extremeRing = .ok servers ∧
        Java.getServer [2147483647, -2147483648] (-2147483648) extremeRing = .ok servers := by
  have horder : List.Perm [2147483647, -2147483648] extremeRing.hashToServer.keys := by decide
  have hv : extremeRing.NonEmpty := by decide
  exact ⟨hv, (getServer_agrees horder (-2147483648)).1 hv⟩

end Java

namespace Python

/-- In a sorted list the element behind those up to `x`, or else the first one,
is the next one clockwise from `x + 1`. -/
theorem isNext_of_bisect {keys : List Int} (hsorted : keys.Pairwise (· < ·)) (hne : keys ≠ [])
    (x : Int) :
    ∃ q, keys[if bisect keys x = keys.length then 0 else bisect keys x]? = some q ∧
      IsNext {k | k ∈ keys} (x + 1) q := by
  have hsplit : keys.takeWhile (fun k => k ≤ x) ++ keys.dropWhile (fun k => k ≤ x) = keys :=
    List.takeWhile_append_dropWhile
  have hbelow : ∀ k ∈ keys.takeWhile (fun k => k ≤ x), k < x + 1 := by
    intro k hk
    have hle : k ≤ x := by simpa using List.mem_takeWhile_imp hk
    omega
  unfold bisect
  cases hrest : keys.dropWhile (fun k => k ≤ x) with
  | nil =>
      rw [hrest, List.append_nil] at hsplit
      rw [hsplit] at hbelow ⊢
      obtain ⟨first, rest, rfl⟩ := List.exists_cons_of_ne_nil hne
      exact ⟨first, by simp, .of_below hsorted hbelow⟩
  | cons q rest =>
      rw [hrest] at hsplit
      have hbehind : ¬ q ≤ x := by
        have hhead := List.head?_dropWhile_not (fun k => decide (k ≤ x)) keys
        rw [hrest] at hhead
        simpa using hhead
      -- the front is a variable from here on, so that the list can be rewritten
      generalize keys.takeWhile (fun k => k ≤ x) = front at hsplit hbelow ⊢
      subst hsplit
      have hlen : front.length ≠ (front ++ q :: rest).length := by simp
      refine ⟨q, ?_, .of_split hsorted hbelow (by omega)⟩
      rw [if_neg hlen]
      simp

/-- The Python search finds the point that the C++ lookup finds for the number
after the hash. -/
theorem ringPoint_isNext {v : View} (hv : v.NonEmpty) (hash : Int) :
    ∃ q, ringPoint hash v = .ok q ∧ IsNext v.points (hash + 1) q := by
  obtain ⟨p, servers, hp, -⟩ := exists_next hv hash
  have hne : v.hashToServer.keys ≠ [] := List.ne_nil_of_mem (OrderedMap.mem_keys.mpr hp.1)
  have hsorted : v.hashToServer.keys.Pairwise (· < ·) := v.hashToServer.sorted
  obtain ⟨q, hget, hq⟩ := isNext_of_bisect hsorted hne hash
  have hpoints : {k | k ∈ v.hashToServer.keys} = v.points := by
    ext k
    exact OrderedMap.mem_keys
  rw [hpoints] at hq
  refine ⟨q, ?_, hq⟩
  simp only [ringPoint, hget]

/-- Starting one further on makes a difference only at a point of the ring that
is not the only one. -/
theorem isNext_succ_eq_iff {s : Set Int} {h p q : Int} (hp : IsNext s h p)
    (hq : IsNext s (h + 1) q) : q = p ↔ h ∉ s ∨ s = {h} := by
  by_cases hmem : h ∈ s
  · have hph : p = h := hp.unique ⟨hmem, .inl ⟨le_refl h, fun r _ hr => hr⟩⟩
    subst hph
    refine ⟨fun he => .inr ?_, fun hcase => ?_⟩
    · subst he
      obtain ⟨-, ⟨hle, -⟩ | ⟨hbelow, hleast⟩⟩ := hq
      · omega
      · ext r
        rw [Set.mem_singleton_iff]
        refine ⟨fun hr => ?_, fun hr => hr ▸ hmem⟩
        have hlt := hbelow r hr
        have hle := hleast r hr
        omega
    · have hs := hcase.resolve_left fun hnot => hnot hmem
      have hqs := hq.1
      rw [hs] at hqs
      exact hqs
  · refine iff_of_true (hq.unique ?_) (.inl hmem)
    have hne : ∀ r ∈ s, r ≠ h := fun r hr he => hmem (he ▸ hr)
    obtain ⟨hps, ⟨hle, hleast⟩ | ⟨hbelow, hleast⟩⟩ := hp
    · refine ⟨hps, .inl ⟨?_, fun r hr hr' => hleast r hr (by omega)⟩⟩
      have := hne p hps
      omega
    · refine ⟨hps, .inr ⟨fun r hr => ?_, hleast⟩⟩
      have := hbelow r hr
      omega

/-- On every ring that is not empty and for every hash, the Python search returns a
point of the ring. It is the one of the C++ lookup unless the hash is a point and
there are others; then the client picks within the group of the server for every
key on whose hash they agree. -/
theorem ringPoint_agrees_iff {v : View} (hv : v.NonEmpty) (hash : Int) :
    ∃ p servers q, IsNext v.points hash p ∧ v.hashToServer.find? p = some servers ∧
      RobustCache.getServer hash v = .ok servers ∧ ringPoint hash v = .ok q ∧
      (q = p ↔ hash ∉ v.points ∨ v.points = {hash}) ∧
      (q = p → ∀ key draw, Python.hash key = hash → irHash key = hash →
        group key v = servers ∧
          Python.getServer draw key v = if servers.length = 0 then .error .outOfRange
            else memberAt servers (draw % servers.length)) := by
  obtain ⟨p, servers, hp, hfind⟩ := exists_next hv hash
  obtain ⟨q, hpoint, hq⟩ := ringPoint_isNext hv hash
  have hget := getServer_ok_iff.mpr ⟨p, hp, hfind⟩
  refine ⟨p, servers, q, hp, hfind, hget, hpoint, isNext_succ_eq_iff hp hq,
    fun he key draw hkey hkey' => ⟨?_, ?_⟩⟩
  · rw [group, hkey', hget]
  · rw [Python.getServer, hkey, hpoint, he]
    simp only [bind, Except.bind, hfind]

def pairRing : View := View.twoPoints 0 5 ⟨[1], 1⟩ ⟨[2], 2⟩

theorem ringPoint_agrees_iff_between :
    pairRing.NonEmpty ∧
      ∃ p q, IsNext pairRing.points 3 p ∧
        ringPoint 3 pairRing = .ok q ∧ q = p := by
  have hv : pairRing.NonEmpty := by decide
  have hnot : 3 ∉ pairRing.points := by
    rintro ⟨servers, hfind⟩
    have hnone : pairRing.hashToServer.find? 3 = none := by decide
    rw [hnone] at hfind
    cases hfind
  obtain ⟨p, servers, q, hp, -, -, hpoint, hiff, -⟩ := ringPoint_agrees_iff hv 3
  exact ⟨hv, p, q, hp, hpoint, hiff.mpr (.inl hnot)⟩

/-- The empty key hashes to the point of the first server, for the client as for
the servers, and the client goes to the second server. -/
theorem ringPoint_passes_point :
    Python.hash [] = 0 ∧ irHash [] = 0 ∧
      RobustCache.getServer 0 pairRing = .ok [⟨[1], 1⟩] ∧
      ringPoint 0 pairRing = .ok 5 ∧
      ∀ draw, Python.getServer draw [] pairRing = .ok ⟨[2], 2⟩ := by
  refine ⟨by decide, by decide, by decide, by decide, fun draw => ?_⟩
  have hpoint : ringPoint (Python.hash []) pairRing = .ok 5 := by decide
  have hfind : pairRing.hashToServer.find? 5 = some [⟨[2], 2⟩] := by decide
  simp only [Python.getServer, hpoint, bind, Except.bind, hfind]
  simp [memberAt, Nat.mod_one]

end Python

end RobustCache
