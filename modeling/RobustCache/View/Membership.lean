import RobustCache.View.Service

/-! # Membership and ring

The operations that publish a view, in any order and with any arguments: which
properties of the member list and its ring every published view has, and which
ones take some care about who registers.
-/

namespace RobustCache

open Lib

namespace ViewService

/-- An operation that may publish a view, with what it takes from outside: the
random ring point, the clock and the servers found expired. -/
inductive Change where
  | addServer (s : Server) (point : Int)
  | addReplica (s master : Server) (now : Int)
  | checkPings (toRemove : List Server)

/-- `checkPings` publishes nothing when nothing has expired. -/
def change (vs : ViewService) : Change → Option ViewService
  | .addServer s point => some (vs.addServer s point)
  | .addReplica s master now => some (vs.addReplica s master now)
  | .checkPings toRemove => some (if toRemove = [] then vs else vs.removeServers toRemove)

/-- The members and the ring that a change publishes. -/
inductive Publishes (vs : ViewService) : Change → List Server → View → Prop
  | addServer (s : Server) (point : Int) : Publishes vs (.addServer s point) (vs.servers ++ [s])
      { hashToServer := vs.ring.hashToServer.insert point [s] }
  | addReplica (s master : Server) (now : Int) (hmaster : master ∈ vs.servers) :
      Publishes vs (.addReplica s master now) (vs.servers ++ [s]) (joinGroup vs.ring s master)
  | checkPings (toRemove : List Server) : Publishes vs (.checkPings toRemove)
      (vs.servers.filter fun s => s ∉ toRemove) (dropServers vs.ring toRemove)

/-- Two states with the same published views. -/
structure SameHistory (vs vs' : ViewService) : Prop where
  views : vs'.views = vs.views
  hashToServer : vs'.hashToServer = vs.hashToServer
  viewNum : vs'.viewNum = vs.viewNum

theorem change_cases {vs vs' : ViewService} {c : Change} (h : vs.change c = some vs') :
    SameHistory vs vs' ∨
      ∃ servers ring, Publishes vs c servers ring ∧ SameHistory (vs.publish servers ring) vs' := by
  cases c with
  | addServer s point =>
      cases h
      exact .inr ⟨_, _, .addServer s point, rfl, rfl, rfl⟩
  | addReplica s master now =>
      simp only [change, addReplica, Option.some.injEq] at h
      subst h
      split
      · next hmaster => exact .inr ⟨_, _, .addReplica s master now hmaster, rfl, rfl, rfl⟩
      · exact .inl ⟨rfl, rfl, rfl⟩
  | checkPings toRemove =>
      simp only [change, Option.some.injEq] at h
      subst h
      split
      · exact .inl ⟨rfl, rfl, rfl⟩
      · exact .inr ⟨_, _, .checkPings toRemove, rfl, rfl, rfl⟩

theorem SameHistory.servers {vs vs' : ViewService} (h : SameHistory vs vs') :
    vs'.servers = vs.servers := by
  rw [ViewService.servers, h.views, h.viewNum]
  rfl

theorem SameHistory.ring {vs vs' : ViewService} (h : SameHistory vs vs') : vs'.ring = vs.ring := by
  rw [ViewService.ring, h.hashToServer, h.viewNum]
  rfl

theorem servers_publish {vs : ViewService} (hwf : vs.WellFormed) (servers : List Server)
    (ring : View) : (vs.publish servers ring).servers = servers := by
  simp [publish, ViewService.servers, List.getD, ← hwf.1]

theorem ring_publish {vs : ViewService} (hwf : vs.WellFormed) (servers : List Server)
    (ring : View) : (vs.publish servers ring).ring = ring := by
  simp [publish, ViewService.ring, List.getD, ← hwf.2]

theorem wellFormed_publish {vs : ViewService} (hwf : vs.WellFormed) (servers : List Server)
    (ring : View) : (vs.publish servers ring).WellFormed := by
  unfold WellFormed at hwf ⊢
  simp only [publish, List.length_append, List.length_singleton]
  omega

/-- The property holds of the members and the ring of every published view. -/
def EveryView (P : List Server → View → Prop) (vs : ViewService) : Prop :=
  ∀ (n : Nat) (servers : List Server) (ring : View), vs.views[n]? = some servers →
    vs.hashToServer[n]? = some ring → P servers ring

theorem EveryView.current {P : List Server → View → Prop} {vs : ViewService}
    (h : vs.EveryView P) (hwf : vs.WellFormed) : P vs.servers vs.ring := by
  have h1 : vs.viewNum < vs.views.length := by
    have := hwf.1
    omega
  have h2 : vs.viewNum < vs.hashToServer.length := by
    have := hwf.2
    omega
  refine h vs.viewNum _ _ ?_ ?_
  · simp [ViewService.servers, List.getD, h1]
  · simp [ViewService.ring, List.getD, h2]

theorem EveryView.publish {P : List Server → View → Prop} {vs : ViewService} (h : vs.EveryView P)
    (hwf : vs.WellFormed) {servers : List Server} {ring : View} (hnew : P servers ring) :
    (vs.publish servers ring).EveryView P := by
  intro n servers' ring' hs hr
  simp only [ViewService.publish, List.getElem?_append, hwf.1, hwf.2] at hs hr
  split at hs
  · next hlt =>
      rw [if_pos hlt] at hr
      exact h n _ _ hs hr
  · next hlt =>
      rw [if_neg hlt] at hr
      have hlast : n - (vs.viewNum + 1) = 0 := by
        by_contra hne
        rw [List.getElem?_eq_none (by simp only [List.length_singleton]; omega)] at hs
        cases hs
      rw [hlast] at hs hr
      cases hs
      cases hr
      exact hnew

/-- The rule for published views: a property that the changes admitted hand on
from the current view to the next holds of every view published. -/
theorem everyView_of_publishes {P : List Server → View → Prop} {guard : ViewService → Change → Prop}
    {vs : ViewService} (h : Reach change guard {} vs) (h0 : P [] {})
    (hnext : ∀ vs c servers ring, guard vs c → P vs.servers vs.ring →
      Publishes vs c servers ring → P servers ring) : vs.WellFormed ∧ vs.EveryView P := by
  refine h.invariant (P := fun vs => vs.WellFormed ∧ vs.EveryView P) ?_ ?_
  · refine ⟨⟨rfl, rfl⟩, fun n servers ring hs hr => ?_⟩
    cases n with
    | zero =>
        cases hs
        cases hr
        exact h0
    | succ n => cases hs
  · intro vs c vs' hvs hguard hstep
    obtain ⟨hwf, hevery⟩ := hvs
    have hkeep : ∀ {w w' : ViewService}, SameHistory w w' → w.WellFormed ∧ w.EveryView P →
        w'.WellFormed ∧ w'.EveryView P := by
      intro w w' hsame hw
      unfold WellFormed EveryView
      rw [hsame.views, hsame.hashToServer, hsame.viewNum]
      exact hw
    rcases change_cases hstep with hsame | ⟨servers, ring, hpub, hsame⟩
    · exact hkeep hsame ⟨hwf, hevery⟩
    · refine hkeep hsame ⟨wellFormed_publish hwf servers ring, hevery.publish hwf ?_⟩
      exact hnext vs c servers ring hguard (hevery.current hwf) hpub

/-! ## Which server is at which point -/

def At (ring : View) (point : Int) (s : Server) : Prop :=
  ∃ members, ring.hashToServer.find? point = some members ∧ s ∈ members

theorem at_insert {ring : View} {point p : Int} {members : List Server} {s : Server} :
    At { hashToServer := ring.hashToServer.insert point members } p s ↔
      (p = point ∧ s ∈ members) ∨ (p ≠ point ∧ At ring p s) := by
  unfold At
  simp only [OrderedMap.find?_insert]
  by_cases hp : p = point
  · simp [hp]
  · simp [hp]

theorem find?_dropServers (ring : View) (toRemove : List Server) (point : Int) :
    (dropServers ring toRemove).hashToServer.find? point =
      (ring.hashToServer.find? point).bind fun members =>
        if (members.filter fun s => s ∉ toRemove) = [] then none
        else some (members.filter fun s => s ∉ toRemove) :=
  OrderedMap.find?_filterMapValues _ _ _

theorem at_dropServers {ring : View} {toRemove : List Server} {p : Int} {s : Server} :
    At (dropServers ring toRemove) p s ↔ At ring p s ∧ s ∉ toRemove := by
  unfold At
  rw [find?_dropServers]
  cases ring.hashToServer.find? p with
  | none => simp
  | some members =>
      rw [Option.bind_some]
      constructor
      · intro h
        obtain ⟨kept, hkept, hs⟩ := h
        split at hkept
        · cases hkept
        · cases hkept
          simp only [List.mem_filter, decide_eq_true_eq] at hs
          exact ⟨⟨members, rfl, hs.1⟩, hs.2⟩
      · intro h
        obtain ⟨⟨group, hgroup, hs⟩, hnot⟩ := h
        cases hgroup
        have hkept : s ∈ members.filter fun s => s ∉ toRemove := by simp [hs, hnot]
        exact ⟨_, if_neg (List.ne_nil_of_mem hkept), hkept⟩

theorem joinGroup_cases (ring : View) (s master : Server) :
    (joinGroup ring s master = ring ∧ ∀ p, ¬ At ring p master) ∨
      ∃ point members, ring.hashToServer.find? point = some members ∧ master ∈ members ∧
        joinGroup ring s master =
          { hashToServer := ring.hashToServer.insert point (members ++ [s]) } := by
  unfold joinGroup
  cases hfind : ring.hashToServer.entries.find? fun e => master ∈ e.2 with
  | none =>
      refine .inl ⟨rfl, fun p hp => ?_⟩
      obtain ⟨members, hmem, hmaster⟩ := hp
      have := List.find?_eq_none.mp hfind (p, members) (OrderedMap.find?_eq_some.mp hmem)
      simp [hmaster] at this
  | some e =>
      have hmaster : master ∈ e.2 := by simpa using List.find?_some hfind
      exact .inr ⟨e.1, e.2, OrderedMap.find?_eq_some.mpr (List.mem_of_find?_eq_some hfind),
        hmaster, rfl⟩

/-! ## The ring partitions the members -/

/-- No member is listed twice, every member is once in exactly one group, and
the groups have no other servers. -/
structure Partitions (servers : List Server) (ring : View) : Prop where
  nodup : servers.Nodup
  once : ∀ point members, ring.hashToServer.find? point = some members → members.Nodup
  covered : ∀ s ∈ servers, ∃! point, At ring point s
  inside : ∀ point s, At ring point s → s ∈ servers

theorem partitions_empty : Partitions [] {} := by
  refine ⟨List.nodup_nil, fun point members h => ?_, fun s hs => ?_, fun point s h => ?_⟩
  · cases h
  · cases hs
  · obtain ⟨members, h, -⟩ := h
    cases h

namespace Partitions

variable {servers : List Server} {ring : View}

theorem not_at (h : Partitions servers ring) {s : Server} (hs : s ∉ servers) (p : Int) :
    ¬ At ring p s := fun hat => hs (h.inside p s hat)

/-- Put a new server into one group, old or new, that has only members. -/
theorem insert (h : Partitions servers ring) {s : Server} (hs : s ∉ servers) {point : Int}
    (members : List Server) (hold : ∀ t, t ∈ members ↔ At ring point t) (hnodup : members.Nodup) :
    Partitions (servers ++ [s])
      { hashToServer := ring.hashToServer.insert point (members ++ [s]) } := by
  have hnot : s ∉ members := fun hmem => h.not_at hs point ((hold s).mp hmem)
  have hat : ∀ p t, At { hashToServer := ring.hashToServer.insert point (members ++ [s]) } p t ↔
      At ring p t ∨ (p = point ∧ t = s) := by
    intro p t
    rw [at_insert, List.mem_append, List.mem_singleton, hold]
    by_cases hp : p = point
    · simp [hp]
    · simp [hp]
  refine ⟨?_, ?_, ?_, ?_⟩
  · exact List.nodup_append.mpr ⟨h.nodup, List.nodup_singleton s, fun a ha b hb hab => by
      rw [List.mem_singleton.mp hb] at hab
      exact hs (hab ▸ ha)⟩
  · intro p g hg
    rw [OrderedMap.find?_insert] at hg
    split at hg
    · cases hg
      exact List.nodup_append.mpr ⟨hnodup, List.nodup_singleton s, fun a ha b hb hab => by
        rw [List.mem_singleton.mp hb] at hab
        exact hnot (hab ▸ ha)⟩
    · exact h.once p g hg
  · intro t ht
    rcases List.mem_append.mp ht with ht | ht
    · obtain ⟨p, hp, huniq⟩ := h.covered t ht
      have hne : t ≠ s := fun he => hs (he ▸ ht)
      refine ⟨p, (hat p t).mpr (.inl hp), fun q hq => ?_⟩
      exact huniq q (((hat q t).mp hq).resolve_right fun hnew => hne hnew.2)
    · rw [List.mem_singleton] at ht
      subst ht
      refine ⟨point, (hat point t).mpr (.inr ⟨rfl, rfl⟩), fun q hq => ?_⟩
      exact (((hat q t).mp hq).resolve_left (h.not_at hs q)).1
  · intro p t ht
    rcases (hat p t).mp ht with hold | ⟨-, rfl⟩
    · exact List.mem_append_left _ (h.inside p t hold)
    · exact List.mem_append_right _ (List.mem_singleton_self t)

theorem dropServers (h : Partitions servers ring) (toRemove : List Server) :
    Partitions (servers.filter fun s => s ∉ toRemove) (dropServers ring toRemove) := by
  refine ⟨h.nodup.filter _, ?_, ?_, ?_⟩
  · intro p g hg
    rw [find?_dropServers] at hg
    obtain ⟨members, hmem, hg⟩ := Option.bind_eq_some_iff.mp hg
    split at hg
    · cases hg
    · cases hg
      exact (h.once p members hmem).filter _
  · intro s hs
    simp only [List.mem_filter, decide_eq_true_eq] at hs
    obtain ⟨p, hp, huniq⟩ := h.covered s hs.1
    exact ⟨p, at_dropServers.mpr ⟨hp, hs.2⟩, fun q hq => huniq q (at_dropServers.mp hq).1⟩
  · intro p s hs
    obtain ⟨hold, hnot⟩ := at_dropServers.mp hs
    simpa [hnot] using h.inside p s hold

end Partitions

/-- A server registers only when it is not a member, and on a ring point of its
own. -/
def fresh (vs : ViewService) : Change → Bool
  | .addServer s point =>
      decide (s ∉ vs.servers) && decide (point ∉ vs.ring.hashToServer.keys)
  | .addReplica s master _ => decide (master ∈ vs.servers → s ∉ vs.servers)
  | .checkPings _ => true

theorem Publishes.partitions {vs : ViewService} {c : Change} {servers : List Server} {ring : View}
    (hpub : Publishes vs c servers ring) (hfresh : vs.fresh c = true)
    (h : Partitions vs.servers vs.ring) : Partitions servers ring := by
  cases hpub with
  | addServer s point =>
      simp only [fresh, Bool.and_eq_true, decide_eq_true_eq] at hfresh
      refine h.insert hfresh.1 [] (fun t => ?_) List.nodup_nil
      simp [At, OrderedMap.find?_eq_none.mpr hfresh.2]
  | addReplica s master now hmaster =>
      simp only [fresh, decide_eq_true_eq] at hfresh
      obtain ⟨p, hp, -⟩ := h.covered master hmaster
      rcases joinGroup_cases vs.ring s master with ⟨-, hnone⟩ | ⟨point, members, hmem, -, hjoin⟩
      · exact absurd hp (hnone p)
      · rw [hjoin]
        refine h.insert (hfresh hmaster) members (fun t => ?_) (h.once point members hmem)
        simp [At, hmem]
  | checkPings toRemove => exact h.dropServers toRemove

/-- As long as servers register afresh, every published ring partitions its
members. -/
theorem partitions_of_fresh {vs : ViewService}
    (h : Reach change (fun vs c => vs.fresh c = true) {} vs) (n : Nat) (servers : List Server)
    (ring : View) (hservers : vs.views[n]? = some servers)
    (hring : vs.hashToServer[n]? = some ring) : Partitions servers ring := by
  have hevery := everyView_of_publishes h partitions_empty fun _ _ _ _ hfresh hcur hpub =>
    hpub.partitions hfresh hcur
  exact hevery.2 n servers ring hservers hring

/-- Two servers join, the first one gets a replica, and the second one expires. -/
def freshChanges (a b c : Server) : List Change :=
  [.addServer a 5, .addServer b 9, .addReplica c a 0, .checkPings [b]]

theorem partitions_of_fresh_joined :
    ∃ vs ring, Reach change (fun vs c => vs.fresh c = true) {} vs ∧
      vs.views[4]? = some [⟨[1], 1⟩, ⟨[3], 3⟩] ∧ vs.hashToServer[4]? = some ring ∧
      Partitions [⟨[1], 1⟩, ⟨[3], 3⟩] ring := by
  have hrun : ((perform change (fun vs c => vs.fresh c = true) {}
      (freshChanges ⟨[1], 1⟩ ⟨[2], 2⟩ ⟨[3], 3⟩)).map fun vs =>
        (vs.views[4]?, vs.hashToServer[4]?.isSome)) =
      some (some [⟨[1], 1⟩, ⟨[3], 3⟩], true) := by
    decide +kernel
  obtain ⟨vs, hvs, hend⟩ := Option.map_eq_some_iff.mp hrun
  obtain ⟨ring, hring⟩ := Option.isSome_iff_exists.mp (congrArg Prod.snd hend)
  have hservers := congrArg Prod.fst hend
  exact ⟨vs, ring, reach_of_perform hvs, hservers, hring,
    partitions_of_fresh (reach_of_perform hvs) 4 _ ring hservers hring⟩

/-- A server that registers twice is listed twice, and one whose random point is
taken pushes the group there off the ring. -/
theorem unfresh_not_partitioned :
    (∃ vs servers, Reach change anyAction {} vs ∧ vs.views[2]? = some servers ∧
        ¬ servers.Nodup) ∧
      ∃ vs ring, Reach change anyAction {} vs ∧
        vs.views[2]? = some [⟨[1], 1⟩, ⟨[2], 2⟩] ∧ vs.hashToServer[2]? = some ring ∧
        ∀ point, ¬ At ring point ⟨[1], 1⟩ := by
  constructor
  · have hrun : ((perform change anyAction {} [.addServer ⟨[1], 1⟩ 5, .addServer ⟨[1], 1⟩ 9]).map
        fun vs => vs.views[2]?) = some (some [⟨[1], 1⟩, ⟨[1], 1⟩]) := by
      decide +kernel
    obtain ⟨vs, hvs, hend⟩ := Option.map_eq_some_iff.mp hrun
    exact ⟨vs, _, reach_of_perform hvs, hend, by decide⟩
  · have hrun : ((perform change anyAction {} [.addServer ⟨[1], 1⟩ 5, .addServer ⟨[2], 2⟩ 5]).map
        fun vs => (vs.views[2]?, vs.hashToServer[2]?)) =
        some (some [⟨[1], 1⟩, ⟨[2], 2⟩],
          some { hashToServer := OrderedMap.empty.insert 5 [⟨[2], 2⟩] }) := by
      decide +kernel
    obtain ⟨vs, hvs, hend⟩ := Option.map_eq_some_iff.mp hrun
    refine ⟨vs, _, reach_of_perform hvs, congrArg Prod.fst hend, congrArg Prod.snd hend, ?_⟩
    intro point hat
    rcases at_insert.mp hat with ⟨-, hmem⟩ | ⟨-, members, hnone, -⟩
    · simp at hmem
    · cases hnone

/-! ## No group is empty -/

/-- Every point of the ring has a server. -/
def Staffed (ring : View) : Prop :=
  ∀ point members, ring.hashToServer.find? point = some members → members ≠ []

theorem Publishes.staffed {vs : ViewService} {c : Change} {servers : List Server} {ring : View}
    (hpub : Publishes vs c servers ring) (h : Staffed vs.ring) : Staffed ring := by
  have hinsert : ∀ point (members : List Server) s, Staffed
      { hashToServer := vs.ring.hashToServer.insert point (members ++ [s]) } := by
    intro point members s p g hg
    rw [OrderedMap.find?_insert] at hg
    split at hg
    · cases hg
      simp
    · exact h p g hg
  cases hpub with
  | addServer s point => exact hinsert point [] s
  | addReplica s master now hmaster =>
      rcases joinGroup_cases vs.ring s master with ⟨hsame, -⟩ | ⟨point, members, -, -, hjoin⟩
      · rw [hsame]
        exact h
      · rw [hjoin]
        exact hinsert point members s
  | checkPings toRemove =>
      intro p g hg
      rw [find?_dropServers] at hg
      obtain ⟨members, -, hg⟩ := Option.bind_eq_some_iff.mp hg
      split at hg
      · cases hg
      · next hne =>
          cases hg
          exact hne

theorem staffed_of_reach {vs : ViewService} (h : Reach change anyAction {} vs) {n : Nat}
    {ring : View} (hring : vs.hashToServer[n]? = some ring) : Staffed ring := by
  have hevery := everyView_of_publishes (P := fun _ ring => Staffed ring) h
    (fun _ _ h => by cases h) fun _ _ _ _ _ hcur hpub => hpub.staffed hcur
  have hlen : n < vs.views.length := by
    have hlt := (List.getElem?_eq_some_iff.mp hring).1
    rw [hevery.1.2] at hlt
    rw [hevery.1.1]
    exact hlt
  exact hevery.2 n _ ring (List.getElem?_eq_getElem hlen) hring

/-! ## The sections publish what the changes publish -/

theorem SameHistory.publish {vs vs' : ViewService} (h : SameHistory vs vs') (servers : List Server)
    (ring : View) : SameHistory (vs.publish servers ring) (vs'.publish servers ring) := by
  constructor
  · simp only [ViewService.publish, h.views]
  · simp only [ViewService.publish, h.hashToServer]
  · simp only [ViewService.publish, h.viewNum]

theorem step_change {vs vs' w : ViewService} {sec : Section} (h : vs.step sec = some vs')
    (hsame : SameHistory w vs) :
    SameHistory w vs' ∨ ∃ c w', w.change c = some w' ∧ SameHistory w' vs' := by
  have hservers := hsame.servers
  have hring := hsame.ring
  cases step_moves h with
  | addPing hidle => exact .inl ⟨hsame.views, hsame.hashToServer, hsame.viewNum⟩
  | @addView s point hadding =>
      refine .inr ⟨.addServer s point, _, rfl, ?_⟩
      have hpub := hsame.publish (w.servers ++ [s])
        { hashToServer := w.ring.hashToServer.insert point [s] }
      simp only [addServer, hservers, hring]
      exact ⟨hpub.views, hpub.hashToServer, hpub.viewNum⟩
  | @addReplica s master now hidle =>
      refine .inr ⟨.addReplica s master now, _, rfl, ?_⟩
      have hpub := hsame.publish (w.servers ++ [s]) (joinGroup w.ring s master)
      simp only [addReplica, hservers, hring]
      split
      · exact ⟨hpub.views, hpub.hashToServer, hpub.viewNum⟩
      · exact hsame
  | receivePing hidle => exact .inl ⟨hsame.views, hsame.hashToServer, hsame.viewNum⟩
  | findExpired hidle => exact .inl ⟨hsame.views, hsame.hashToServer, hsame.viewNum⟩
  | removeExpired hbusy =>
      refine .inr ⟨.checkPings vs.toRemove, _, rfl, ?_⟩
      have hpub := hsame.publish (w.servers.filter fun s => s ∉ vs.toRemove)
        (dropServers w.ring vs.toRemove)
      simp only [if_neg hbusy, removeServers, hservers, hring]
      exact ⟨hpub.views, hpub.hashToServer, hpub.viewNum⟩

/-- Every run of the sections publishes the views of a run of whole changes. -/
theorem reach_change {vs : ViewService} (h : Reach step anyAction {} vs) :
    ∃ w, Reach change anyAction {} w ∧ SameHistory w vs := by
  refine h.invariant (P := fun vs => ∃ w, Reach change anyAction {} w ∧ SameHistory w vs) ?_ ?_
  · exact ⟨{}, .refl, rfl, rfl, rfl⟩
  · intro vs sec vs' hvs _ hstep
    obtain ⟨w, hw, hsame⟩ := hvs
    rcases step_change hstep hsame with hkeep | ⟨c, w', hc, hsame'⟩
    · exact ⟨w, hw, hkeep⟩
    · exact ⟨w', .tail hw trivial hc, hsame'⟩

end ViewService

end RobustCache
