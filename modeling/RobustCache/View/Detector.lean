import RobustCache.View.Membership

/-! # The failure detector and the membership

`pings` and `views` are guarded by different mutexes. Here any number of calls
of `addServer` may be between their two sections, next to one `checkPings`; the
view service with one handler thread is a special case. The loop of `checkPings`
that prints the ring is left out.
-/

namespace RobustCache

open Lib

structure Registry where
  vs : ViewService := {}
  /-- The servers of the `addServer` calls between their two sections. -/
  adding : List Server := []

namespace Registry

/-- The sections, with the call that an `addView` belongs to. -/
inductive Part where
  | addPing (s : Server) (now : Int)
  | addView (s : Server) (point : Int)
  | addReplica (s master : Server) (now : Int)
  | receivePing (s : Server) (now : Int)
  | findExpired (now : Int)
  | removeExpired

def step (r : Registry) : Part → Option Registry
  | .addPing s now =>
      some { vs := { r.vs with pings := r.vs.pings.insert s now }, adding := s :: r.adding }
  | .addView s point =>
      if s ∈ r.adding then some { vs := r.vs.addServer s point, adding := r.adding.erase s }
      else none
  | .addReplica s master now => some { r with vs := r.vs.addReplica s master now }
  | .receivePing s now =>
      some { r with vs := { r.vs with
        pings := if r.vs.pings.contains s then r.vs.pings.insert s now else r.vs.pings } }
  | .findExpired now =>
      if r.vs.toRemove = [] then
        let expired := r.vs.pings.filter fun _ last => last < now - deadTime
        some { r with vs := { r.vs with
          pings := r.vs.pings.filter fun _ last => ¬ last < now - deadTime
          toRemove := expired.keys } }
      else none
  | .removeExpired =>
      if r.vs.toRemove = [] then none
      else some { r with vs := { r.vs.removeServers r.vs.toRemove with toRemove := [] } }

/-- No operation is between its two sections. -/
def Quiet (r : Registry) : Prop := r.adding = [] ∧ r.vs.toRemove = []

instance (r : Registry) : Decidable r.Quiet := inferInstanceAs (Decidable (_ ∧ _))

/-- What may overtake what. When `addServer` publishes its server, the entry it
made in `pings` has not been erased and the erased server removed from the view
in the meantime. When `checkPings` publishes the view without the expired
servers, none of them has come back to `pings`, unless by a call of `addServer`
that will publish it after that. -/
def orderly (r : Registry) : Part → Bool
  | .addView s _ => decide (s ∈ r.vs.pings.keys) || decide (s ∈ r.vs.toRemove)
  | .removeExpired =>
      r.vs.toRemove.all fun s => decide (s ∈ r.vs.pings.keys → s ∈ r.adding)
  | _ => true

/-- Who pings is a member or about to become one, and a member pings or is about
to be removed. -/
structure Tracks (r : Registry) : Prop where
  wellFormed : r.vs.WellFormed
  registered : ∀ s ∈ r.vs.pings.keys, s ∈ r.vs.servers ∨ s ∈ r.adding
  watched : ∀ s ∈ r.vs.servers, s ∈ r.vs.pings.keys ∨ s ∈ r.vs.toRemove

theorem initial_tracks : Tracks {} := by
  refine ⟨⟨rfl, rfl⟩, fun s hs => ?_, fun s hs => ?_⟩
  · cases hs
  · cases hs

theorem keys_receivePing {pings : OrderedMap Server Int} {s t : Server} {now : Int} :
    t ∈ (if pings.contains s then pings.insert s now else pings).keys ↔ t ∈ pings.keys := by
  split
  · next hs =>
      rw [OrderedMap.contains_iff] at hs
      rw [OrderedMap.mem_keys_insert]
      constructor
      · rintro (rfl | ht)
        · exact hs
        · exact ht
      · exact .inr
  · rfl

theorem keys_split {pings : OrderedMap Server Int} {limit : Int} {s : Server} :
    s ∈ pings.keys ↔ s ∈ (pings.filter fun _ last => ¬ last < limit).keys ∨
      s ∈ (pings.filter fun _ last => last < limit).keys := by
  simp only [OrderedMap.mem_keys, OrderedMap.find?_filter]
  cases pings.find? s with
  | none => simp
  | some last =>
      by_cases hlast : last < limit
      · simp [Option.filter_some, hlast]
      · simp [Option.filter_some, hlast, not_lt.mp hlast]

/-! ## What each section keeps -/

namespace Tracks

variable {r : Registry}

theorem addPing (h : Tracks r) (s : Server) (now : Int) :
    Tracks { vs := { r.vs with pings := r.vs.pings.insert s now }, adding := s :: r.adding } := by
  refine ⟨h.wellFormed, fun t ht => ?_, fun t ht => ?_⟩
  · rcases OrderedMap.mem_keys_insert.mp ht with rfl | ht
    · exact .inr List.mem_cons_self
    · exact (h.registered t ht).imp_right (List.mem_cons_of_mem _)
  · exact (h.watched t ht).imp_left fun hkey => OrderedMap.mem_keys_insert.mpr (.inr hkey)

/-- A server enters the view while its entry, or the removal it waits for, is
still there. -/
theorem addView {s : Server} (h : Tracks r) (hs : s ∈ r.vs.pings.keys ∨ s ∈ r.vs.toRemove)
    (point : Int) :
    Tracks { vs := r.vs.addServer s point, adding := r.adding.erase s } := by
  have hservers : (r.vs.addServer s point).servers = r.vs.servers ++ [s] :=
    ViewService.servers_publish h.wellFormed _ _
  have hmem : ∀ t, t ∈ (r.vs.addServer s point).servers ↔ t ∈ r.vs.servers ∨ t = s := by
    intro t
    rw [hservers, List.mem_append, List.mem_singleton]
  refine ⟨ViewService.wellFormed_publish h.wellFormed _ _, fun t ht => ?_, fun t ht => ?_⟩
  · show t ∈ (r.vs.addServer s point).servers ∨ t ∈ r.adding.erase s
    rw [hmem]
    by_cases hts : t = s
    · exact .inl (.inr hts)
    · exact (h.registered t ht).imp .inl fun hadd => (List.mem_erase_of_ne hts).mpr hadd
  · rcases (hmem t).mp ht with ht | rfl
    · exact h.watched t ht
    · exact hs

/-- A replica gets its entry in the section that publishes it. -/
theorem addReplica (h : Tracks r) (s master : Server) (now : Int) :
    Tracks { r with vs := r.vs.addReplica s master now } := by
  by_cases hmaster : master ∈ r.vs.servers
  · let joined := r.vs.publish (r.vs.servers ++ [s]) (ViewService.joinGroup r.vs.ring s master)
    have hservers : joined.servers = r.vs.servers ++ [s] :=
      ViewService.servers_publish h.wellFormed _ _
    have hmem : ∀ t, t ∈ joined.servers ↔ t ∈ r.vs.servers ∨ t = s := by
      intro t
      rw [hservers, List.mem_append, List.mem_singleton]
    rw [show r.vs.addReplica s master now =
      { joined with pings := r.vs.pings.insert s now } from if_pos hmaster]
    refine ⟨ViewService.wellFormed_publish h.wellFormed _ _, fun t ht => ?_, fun t ht => ?_⟩
    · show t ∈ joined.servers ∨ t ∈ r.adding
      rw [hmem]
      rcases OrderedMap.mem_keys_insert.mp ht with rfl | ht
      · exact .inl (.inr rfl)
      · exact (h.registered t ht).imp_left .inl
    · show t ∈ (r.vs.pings.insert s now).keys ∨ t ∈ r.vs.toRemove
      rw [OrderedMap.mem_keys_insert]
      rcases (hmem t).mp ht with ht | rfl
      · exact (h.watched t ht).imp_left .inr
      · exact .inl (.inl rfl)
  · rw [show r.vs.addReplica s master now = r.vs from if_neg hmaster]
    exact h

/-- The first section of `checkPings` moves entries to the list of removals. -/
theorem findExpired (h : Tracks r) (hidle : r.vs.toRemove = []) (limit : Int) :
    Tracks { r with vs := { r.vs with
      pings := r.vs.pings.filter fun _ last => ¬ last < limit
      toRemove := (r.vs.pings.filter fun _ last => last < limit).keys } } := by
  refine ⟨h.wellFormed, fun t ht => ?_, fun t ht => ?_⟩
  · exact h.registered t (keys_split.mpr (.inl ht))
  · rcases h.watched t ht with hkey | hgone
    · exact keys_split.mp hkey
    · rw [hidle] at hgone
      cases hgone

/-- The second section removes servers that have no entry, unless they are
registering again. -/
theorem removeExpired (h : Tracks r)
    (horder : ∀ t ∈ r.vs.toRemove, t ∈ r.vs.pings.keys → t ∈ r.adding) :
    Tracks { r with vs := { r.vs.removeServers r.vs.toRemove with toRemove := [] } } := by
  have hservers : (r.vs.removeServers r.vs.toRemove).servers =
      r.vs.servers.filter fun s => s ∉ r.vs.toRemove :=
    ViewService.servers_publish h.wellFormed _ _
  have hmem : ∀ t, t ∈ (r.vs.removeServers r.vs.toRemove).servers ↔
      t ∈ r.vs.servers ∧ t ∉ r.vs.toRemove := fun t => by simp [hservers]
  refine ⟨ViewService.wellFormed_publish h.wellFormed _ _, fun t ht => ?_, fun t ht => ?_⟩
  · show t ∈ (r.vs.removeServers r.vs.toRemove).servers ∨ t ∈ r.adding
    rw [hmem]
    rcases h.registered t ht with hin | hadd
    · by_cases hgone : t ∈ r.vs.toRemove
      · exact .inr (horder t hgone ht)
      · exact .inl ⟨hin, hgone⟩
    · exact .inr hadd
  · obtain ⟨hin, hstay⟩ := (hmem t).mp ht
    exact .inl ((h.watched t hin).resolve_right hstay)

end Tracks

theorem step_tracks {r r' : Registry} {p : Part} (h : Tracks r) (horder : r.orderly p = true)
    (hstep : r.step p = some r') : Tracks r' := by
  cases p with
  | addPing s now =>
      cases hstep
      exact h.addPing s now
  | addView s point =>
      simp only [step] at hstep
      split at hstep
      · cases hstep
        simp only [orderly, Bool.or_eq_true, decide_eq_true_eq] at horder
        exact h.addView horder point
      · cases hstep
  | addReplica s master now =>
      cases hstep
      exact h.addReplica s master now
  | receivePing s now =>
      cases hstep
      refine ⟨h.wellFormed, fun t ht => ?_, fun t ht => ?_⟩
      · exact h.registered t (keys_receivePing.mp ht)
      · exact (h.watched t ht).imp_left keys_receivePing.mpr
  | findExpired now =>
      simp only [step] at hstep
      split at hstep
      · next hidle =>
          cases hstep
          exact h.findExpired hidle _
      · cases hstep
  | removeExpired =>
      simp only [step] at hstep
      split at hstep
      · cases hstep
      · cases hstep
        simp only [orderly, List.all_eq_true, decide_eq_true_eq] at horder
        exact h.removeExpired horder

/-- In every run of orderly sections, whenever no operation is under way the
members of the current view are the servers with an entry in `pings`. -/
theorem members_eq_pings_of_orderly {r : Registry}
    (h : Reach step (fun r p => r.orderly p = true) {} r) (hquiet : r.Quiet) (s : Server) :
    s ∈ r.vs.servers ↔ s ∈ r.vs.pings.keys := by
  have htracks : Tracks r := h.invariant initial_tracks fun _ _ _ => step_tracks
  obtain ⟨hadding, hremove⟩ := hquiet
  constructor
  · intro hs
    have hwatched := htracks.watched s hs
    rw [hremove] at hwatched
    exact hwatched.resolve_right List.not_mem_nil
  · intro hs
    have hregistered := htracks.registered s hs
    rw [hadding] at hregistered
    exact hregistered.resolve_right List.not_mem_nil

/-- Two servers register at once, one gets a replica, and one expires while the
other one pings. -/
def orderlyParts (a b c : Server) : List Part :=
  [.addPing a 0, .addPing b 0, .addView b 9, .addView a 5, .addReplica c a 600,
    .receivePing a 700, .findExpired 1500, .receivePing c 1500, .removeExpired]

theorem members_eq_pings_of_orderly_joined :
    ∃ r : Registry, Reach step (fun r p => r.orderly p = true) {} r ∧ r.Quiet ∧
      ⟨[3], 3⟩ ∈ r.vs.servers ∧ ⟨[3], 3⟩ ∈ r.vs.pings.keys ∧ ⟨[2], 2⟩ ∉ r.vs.pings.keys := by
  have hrun : ((perform step (fun r p => r.orderly p = true) {}
      (orderlyParts ⟨[1], 1⟩ ⟨[2], 2⟩ ⟨[3], 3⟩)).map fun r =>
        (decide r.Quiet, r.vs.servers)) = some (true, [⟨[1], 1⟩, ⟨[3], 3⟩]) := by
    decide +kernel
  obtain ⟨r, hr, hend⟩ := Option.map_eq_some_iff.mp hrun
  have hreach := reach_of_perform hr
  have hquiet : r.Quiet := of_decide_eq_true (congrArg Prod.fst hend)
  have hservers : r.vs.servers = [⟨[1], 1⟩, ⟨[3], 3⟩] := congrArg Prod.snd hend
  have hagree := members_eq_pings_of_orderly hreach hquiet
  have hmem : ⟨[3], 3⟩ ∈ r.vs.servers := by
    rw [hservers]
    decide
  refine ⟨r, hreach, hquiet, hmem, (hagree _).mp hmem, fun hkey => ?_⟩
  have hgone := (hagree _).mpr hkey
  rw [hservers] at hgone
  exact absurd hgone (by decide)

/-- An expired server registers again between the two sections of `checkPings`:
it goes on pinging and is not in the view. A server whose registration is held up
until it has expired and been removed is in the view without an entry. -/
theorem members_ne_pings :
    (∃ r : Registry, Reach step anyAction {} r ∧ r.Quiet ∧
      ⟨[1], 1⟩ ∈ r.vs.pings.keys ∧ ⟨[1], 1⟩ ∉ r.vs.servers) ∧
    ∃ r : Registry, Reach step anyAction {} r ∧ r.Quiet ∧
      ⟨[1], 1⟩ ∈ r.vs.servers ∧ ⟨[1], 1⟩ ∉ r.vs.pings.keys := by
  constructor
  · have hrun : ((perform step anyAction {} [.addPing ⟨[1], 1⟩ 0, .addView ⟨[1], 1⟩ 5,
        .findExpired 1500, .addPing ⟨[1], 1⟩ 1500, .addView ⟨[1], 1⟩ 7, .removeExpired]).map
          fun r => (decide r.Quiet, r.vs.pings.keys, r.vs.servers)) =
        some (true, [⟨[1], 1⟩], []) := by
      decide +kernel
    obtain ⟨r, hr, hend⟩ := Option.map_eq_some_iff.mp hrun
    simp only [Prod.mk.injEq] at hend
    refine ⟨r, reach_of_perform hr, of_decide_eq_true hend.1, ?_, ?_⟩
    · rw [hend.2.1]
      decide
    · rw [hend.2.2]
      decide
  · have hrun : ((perform step anyAction {} [.addPing ⟨[1], 1⟩ 0, .findExpired 1500,
        .removeExpired, .addView ⟨[1], 1⟩ 5]).map
          fun r => (decide r.Quiet, r.vs.pings.keys, r.vs.servers)) =
        some (true, [], [⟨[1], 1⟩]) := by
      decide +kernel
    obtain ⟨r, hr, hend⟩ := Option.map_eq_some_iff.mp hrun
    simp only [Prod.mk.injEq] at hend
    refine ⟨r, reach_of_perform hr, of_decide_eq_true hend.1, ?_, ?_⟩
    · rw [hend.2.2]
      decide
    · rw [hend.2.1]
      decide

/-! ## One handler thread -/

/-- The registry of a view service that serves one call at a time. -/
def ofService (vs : ViewService) : Registry :=
  { vs := { vs with adding := none }, adding := vs.adding.toList }

def Part.ofSection (vs : ViewService) : ViewService.Section → Option Part
  | .addPing s now => some (.addPing s now)
  | .addView point => vs.adding.map fun s => .addView s point
  | .addReplica s master now => some (.addReplica s master now)
  | .receivePing s now => some (.receivePing s now)
  | .findExpired now => some (.findExpired now)
  | .removeExpired => some .removeExpired

theorem step_ofService {vs vs' : ViewService} {sec : ViewService.Section}
    (h : vs.step sec = some vs') :
    ∃ p, Part.ofSection vs sec = some p ∧ (ofService vs).step p = some (ofService vs') := by
  cases ViewService.step_moves h with
  | addPing hidle =>
      refine ⟨_, rfl, ?_⟩
      simp [step, ofService, hidle]
  | @addView s point hadding =>
      refine ⟨.addView s point, by simp [Part.ofSection, hadding], ?_⟩
      simp only [step, ofService, hadding, Option.toList_some, List.mem_singleton, if_true,
        List.erase_cons_head]
      rfl
  | @addReplica s master now hidle =>
      refine ⟨_, rfl, ?_⟩
      by_cases hmaster : master ∈ vs.servers
      · have hmaster' : master ∈ (ofService vs).vs.servers := hmaster
        simp only [step, ViewService.addReplica, if_pos hmaster, if_pos hmaster']
        rfl
      · have hmaster' : master ∉ (ofService vs).vs.servers := hmaster
        simp only [step, ViewService.addReplica, if_neg hmaster, if_neg hmaster']
  | receivePing hidle => exact ⟨_, rfl, rfl⟩
  | findExpired hidle => exact ⟨_, rfl, if_pos hidle⟩
  | removeExpired hbusy => exact ⟨_, rfl, if_neg hbusy⟩

theorem reach_ofService {vs : ViewService} (h : Reach ViewService.step anyAction {} vs) :
    Reach step anyAction {} (ofService vs) := by
  apply h.invariant (P := fun vs => Reach step anyAction {} (ofService vs))
  · exact .refl
  · intro vs sec vs' hvs _ hstep
    obtain ⟨p, -, hp⟩ := step_ofService hstep
    exact .tail hvs trivial hp

end Registry

end RobustCache
