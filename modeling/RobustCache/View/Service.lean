import RobustCache.Lib.Run
import RobustCache.Core.Ring

/-! # The view service

`ViewServiceHandler` at mutex granularity: each section between a lock and an
unlock is one step, and the handler thread and the ping checker may interleave
between sections. Times are in milliseconds.
-/

namespace RobustCache

open Lib

def deadTime : Int := 1000

structure ViewService where
  viewNum : Nat := 0
  views : List (List Server) := [[]]
  hashToServer : List View := [{}]
  pings : OrderedMap Server Int := OrderedMap.empty
  /-- The server of an `addServer` call between its two sections. -/
  adding : Option Server := none
  /-- What `checkPings` has found expired and not yet removed. -/
  toRemove : List Server := []

namespace ViewService

/-- `views[viewNum]`. -/
def servers (vs : ViewService) : List Server := vs.views.getD vs.viewNum []

/-- `hashToServer[viewNum]`. -/
def ring (vs : ViewService) : View := vs.hashToServer.getD vs.viewNum {}

def getView (vs : ViewService) : GetServersReply := { view := vs.ring, viewNum := vs.viewNum }

/-- Append a view and make it the current one. -/
def publish (vs : ViewService) (servers : List Server) (ring : View) : ViewService :=
  { vs with
    views := vs.views ++ [servers]
    hashToServer := vs.hashToServer ++ [ring]
    viewNum := vs.viewNum + 1 }

/-- The section of `addServer` under `viewMutex`; `point` is the random ring point. -/
def addServer (vs : ViewService) (s : Server) (point : Int) : ViewService :=
  vs.publish (vs.servers ++ [s]) { hashToServer := vs.ring.hashToServer.insert point [s] }

/-- Join the first group that the master is in. -/
def joinGroup (ring : View) (s master : Server) : View :=
  match ring.hashToServer.entries.find? fun e => master ∈ e.2 with
  | some (point, members) => { hashToServer := ring.hashToServer.insert point (members ++ [s]) }
  | none => ring

def addReplica (vs : ViewService) (s master : Server) (now : Int) : ViewService :=
  if master ∈ vs.servers then
    { vs.publish (vs.servers ++ [s]) (joinGroup vs.ring s master) with
      pings := vs.pings.insert s now }
  else vs

/-- Drop servers from every group, and the groups that become empty. -/
def dropServers (ring : View) (toRemove : List Server) : View :=
  let keep (members : List Server) := members.filter fun s => s ∉ toRemove
  { hashToServer := ring.hashToServer.filterMapValues fun members =>
      if keep members = [] then none else some (keep members) }

/-- The section of `checkPings` under `viewMutex`. -/
def removeServers (vs : ViewService) (toRemove : List Server) : ViewService :=
  vs.publish (vs.servers.filter fun s => s ∉ toRemove) (dropServers vs.ring toRemove)

/-- The sections, with the values they take from outside: the clock, the random
point and the arguments of a call. -/
inductive Section where
  | addPing (s : Server) (now : Int)
  | addView (point : Int)
  | addReplica (s master : Server) (now : Int)
  | receivePing (s : Server) (now : Int)
  | findExpired (now : Int)
  | removeExpired

def step (vs : ViewService) : Section → Option ViewService
  | .addPing s now =>
      if vs.adding = none then some { vs with pings := vs.pings.insert s now, adding := some s }
      else none
  | .addView point =>
      match vs.adding with
      | some s => some { vs.addServer s point with adding := none }
      | none => none
  | .addReplica s master now =>
      if vs.adding = none then some (vs.addReplica s master now) else none
  | .receivePing s now =>
      if vs.adding = none then
        some { vs with pings := if vs.pings.contains s then vs.pings.insert s now else vs.pings }
      else none
  | .findExpired now =>
      if vs.toRemove = [] then
        let expired := vs.pings.filter fun _ last => last < now - deadTime
        some { vs with
          pings := vs.pings.filter fun _ last => ¬ last < now - deadTime
          toRemove := expired.keys }
      else none
  | .removeExpired =>
      if vs.toRemove = [] then none
      else some { vs.removeServers vs.toRemove with toRemove := [] }

/-! ## What a section does -/

/-- The sections that can run, and what each of them leaves. -/
inductive Moves (vs : ViewService) : Section → ViewService → Prop
  | addPing {s : Server} {now : Int} (hidle : vs.adding = none) :
      Moves vs (.addPing s now) { vs with pings := vs.pings.insert s now, adding := some s }
  | addView {s : Server} {point : Int} (hadding : vs.adding = some s) :
      Moves vs (.addView point) { vs.addServer s point with adding := none }
  | addReplica {s master : Server} {now : Int} (hidle : vs.adding = none) :
      Moves vs (.addReplica s master now) (vs.addReplica s master now)
  | receivePing {s : Server} {now : Int} (hidle : vs.adding = none) :
      Moves vs (.receivePing s now)
        { vs with pings := if vs.pings.contains s then vs.pings.insert s now else vs.pings }
  | findExpired {now : Int} (hidle : vs.toRemove = []) :
      Moves vs (.findExpired now)
        { vs with
          pings := vs.pings.filter fun _ last => ¬ last < now - deadTime
          toRemove := (vs.pings.filter fun _ last => last < now - deadTime).keys }
  | removeExpired (hbusy : vs.toRemove ≠ []) :
      Moves vs .removeExpired { vs.removeServers vs.toRemove with toRemove := [] }

theorem step_moves {vs vs' : ViewService} {sec : Section} (h : vs.step sec = some vs') :
    Moves vs sec vs' := by
  cases sec with
  | addPing s now =>
      simp only [step] at h
      split at h
      · next hidle =>
          cases h
          exact .addPing hidle
      · cases h
  | addView point =>
      simp only [step] at h
      split at h
      · next s hadding =>
          cases h
          exact .addView hadding
      · cases h
  | addReplica s master now =>
      simp only [step] at h
      split at h
      · next hidle =>
          cases h
          exact .addReplica hidle
      · cases h
  | receivePing s now =>
      simp only [step] at h
      split at h
      · next hidle =>
          cases h
          exact .receivePing hidle
      · cases h
  | findExpired now =>
      simp only [step] at h
      split at h
      · next hidle =>
          cases h
          exact .findExpired hidle
      · cases h
  | removeExpired =>
      simp only [step] at h
      split at h
      · cases h
      · next hbusy =>
          cases h
          exact .removeExpired hbusy

/-! ## The history is append-only -/

/-- Both histories have an entry for every number up to the current one. -/
def WellFormed (vs : ViewService) : Prop :=
  vs.views.length = vs.viewNum + 1 ∧ vs.hashToServer.length = vs.viewNum + 1

/-- `vs'` has published everything that `vs` has, under the same numbers. -/
structure Extends (vs vs' : ViewService) : Prop where
  views : vs.views <+: vs'.views
  hashToServer : vs.hashToServer <+: vs'.hashToServer

theorem Extends.refl (vs : ViewService) : Extends vs vs := ⟨List.prefix_refl _, List.prefix_refl _⟩

theorem Extends.trans {vs vs' vs'' : ViewService} (h : Extends vs vs') (h' : Extends vs' vs'') :
    Extends vs vs'' := ⟨h.views.trans h'.views, h.hashToServer.trans h'.hashToServer⟩

/-- One section appends one view to both histories, or leaves them alone. -/
theorem step_cases {vs vs' : ViewService} {sec : Section} (h : vs.step sec = some vs') :
    (vs'.views = vs.views ∧ vs'.hashToServer = vs.hashToServer ∧ vs'.viewNum = vs.viewNum) ∨
      ∃ servers ring, vs'.views = vs.views ++ [servers] ∧
        vs'.hashToServer = vs.hashToServer ++ [ring] ∧ vs'.viewNum = vs.viewNum + 1 := by
  cases step_moves h with
  | addPing hidle => exact .inl ⟨rfl, rfl, rfl⟩
  | addView hadding => exact .inr ⟨_, _, rfl, rfl, rfl⟩
  | addReplica hidle =>
      unfold addReplica
      split
      · exact .inr ⟨_, _, rfl, rfl, rfl⟩
      · exact .inl ⟨rfl, rfl, rfl⟩
  | receivePing hidle => exact .inl ⟨rfl, rfl, rfl⟩
  | findExpired hidle => exact .inl ⟨rfl, rfl, rfl⟩
  | removeExpired hbusy => exact .inr ⟨_, _, rfl, rfl, rfl⟩

theorem step_wellFormed {vs vs' : ViewService} {sec : Section} (hwf : vs.WellFormed)
    (h : vs.step sec = some vs') : vs'.WellFormed := by
  unfold WellFormed at hwf ⊢
  rcases step_cases h with ⟨h1, h2, h3⟩ | ⟨servers, ring, h1, h2, h3⟩
  · rw [h1, h2, h3]
    exact hwf
  · rw [h1, h2, h3, List.length_append, List.length_append]
    simpa using hwf

theorem step_extends {vs vs' : ViewService} {sec : Section} (h : vs.step sec = some vs') :
    Extends vs vs' := by
  rcases step_cases h with ⟨h1, h2, -⟩ | ⟨servers, ring, h1, h2, -⟩
  · exact ⟨h1 ▸ List.prefix_refl _, h2 ▸ List.prefix_refl _⟩
  · exact ⟨h1 ▸ List.prefix_append _ _, h2 ▸ List.prefix_append _ _⟩

/-- The view was published under its number. -/
def Published (vs : ViewService) (v : GetServersReply) : Prop :=
  ∃ n : Nat, v.viewNum = n ∧ vs.hashToServer[n]? = some v.view

theorem published_getView {vs : ViewService} (hwf : vs.WellFormed) : vs.Published vs.getView := by
  refine ⟨vs.viewNum, rfl, ?_⟩
  have hlt : vs.viewNum < vs.hashToServer.length := by
    rw [hwf.2]
    omega
  simp [getView, ring, List.getD, hlt]

theorem published_default {vs : ViewService} (h : Extends {} vs) : vs.Published {} := by
  refine ⟨0, rfl, ?_⟩
  rcases h.hashToServer with ⟨rest, hrest⟩
  rw [← hrest]
  rfl

theorem Published.extends {vs vs' : ViewService} {v : GetServersReply} (hv : vs.Published v)
    (h : Extends vs vs') : vs'.Published v := by
  rcases hv with ⟨n, hn, hget⟩
  refine ⟨n, hn, ?_⟩
  rcases h.hashToServer with ⟨rest, hrest⟩
  have hlt : n < vs.hashToServer.length := (List.getElem?_eq_some_iff.mp hget).1
  rw [← hrest, List.getElem?_append_left hlt, hget]

theorem Published.eq {vs : ViewService} {v w : GetServersReply} (hv : vs.Published v)
    (hw : vs.Published w) (hnum : v.viewNum = w.viewNum) : v = w := by
  rcases hv with ⟨n, hn, hget⟩
  rcases hw with ⟨m, hm, hget'⟩
  have hnm : n = m := by omega
  subst hnm
  rw [hget, Option.some.injEq] at hget'
  rcases v with ⟨view, num⟩
  rcases w with ⟨view', num'⟩
  simp only at hget' hnum
  rw [hget', hnum]

end ViewService

end RobustCache
