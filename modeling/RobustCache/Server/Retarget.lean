import RobustCache.Server.Runs
import RobustCache.Server.Merge

/-! # What a view change does to replication

`cleanHash` is meant to leave a set of pending keys for exactly the peers of the
entries that survive, and to drop from their versions the servers that have left
the group. It rebuilds the sets entry by entry, with the group of one entry at a
time, and never gets past the first entry that it removes.
-/

namespace RobustCache

open Lib

/-- The entries that the loop of `cleanHash` visits: those in front of the first
one that the server does not own. -/
def Store.visited (st : Store) (server : Server) (v : View) : List Item :=
  st.items.takeWhile fun it => server ∈ group it.key v

/-- The entries behind the one that the loop removes. -/
def Store.behind (st : Store) (server : Server) (v : View) : List Item :=
  (st.items.dropWhile fun it => server ∈ group it.key v).tail

namespace Handler

/-- Another server that belongs to the group of an `ALIVE` key. -/
def IsPeer (h : Handler) (v : View) (s : Server) : Prop :=
  s ≠ h.server ∧ ∃ it, h.HoldsItem it ∧ s ∈ group it.key v

/-- Adopting `v` has turned the replication of `h` into that of `h'`. -/
structure Retargets (h h' : Handler) (v : View) : Prop where
  peers : ∀ s, s ∈ h'.diffs.keys ↔ h'.IsPeer v s
  /-- A new peer is to get every surviving entry. -/
  fresh : ∀ s, h'.IsPeer v s → s ∉ h.diffs.keys →
    s ∈ h'.diffs.keys ∧ ∀ it, h'.HoldsItem it → it.key ∈ noted h'.diffs s
  pending : ∀ s, h'.IsPeer v s → s ∈ h.diffs.keys →
    ∀ key ∈ noted h.diffs s, key ∈ noted h'.diffs s
  versions : ∀ it, h'.HoldsItem it → ∀ p ∈ it.version, p.1 ∈ group it.key v

/-- The states from which `cleanHash` does so. The last visited entry decides
which peers have a set; without one the sets stay as they are. -/
structure Retargetable (h : Handler) (v : View) : Prop where
  peers : match (h.visited h.server v).getLast? with
    | some last => ∀ it ∈ h.visited h.server v ++ h.behind h.server v,
        ∀ s ∈ group it.key v, s ≠ h.server → s ∈ group last.key v
    | none => ∀ s, s ∈ h.diffs.keys ↔
        s ≠ h.server ∧ ∃ it ∈ h.behind h.server v, s ∈ group it.key v
  /-- A set that is dropped on the way is made again of the keys of the list. -/
  pending : ∀ last ∈ (h.visited h.server v).getLast?, ∀ s ∈ group last.key v, s ≠ h.server →
    (∀ it ∈ h.visited h.server v, s ∈ group it.key v) ∨
      ∀ key ∈ noted h.diffs s, key ∈ h.items.map Item.key
  versions : ∀ it ∈ h.behind h.server v, ∀ p ∈ it.version, p.1 ∈ group it.key v

end Handler

def Item.trim (v : View) (it : Item) : Item :=
  { it with version := Handler.trimVersion it.version (group it.key v) }

/-- The loop trims what it visits, removes one entry, and leaves the rest. -/
theorem Lru.clean_eq (server : Server) (v : View) (items : List Item) :
    clean server v items =
      (items.takeWhile fun it => server ∈ group it.key v).map (Item.trim v) ++
        (items.dropWhile fun it => server ∈ group it.key v).tail := by
  induction items with
  | nil => rfl
  | cons it rest ih =>
      by_cases hown : server ∈ group it.key v
      · rw [List.takeWhile_cons_of_pos (by simpa using hown),
          List.dropWhile_cons_of_pos (by simpa using hown)]
        simp only [clean, if_pos hown, ih]
        rfl
      · rw [List.takeWhile_cons_of_neg (by simpa using hown),
          List.dropWhile_cons_of_neg (by simpa using hown)]
        simp only [clean, if_neg hown]
        rfl

namespace Handler

/-! ## The outcome of `cleanHash` -/

/-- `h'` is what `cleanHash` under `v` makes of `h`. -/
structure Cleaned (h h' : Handler) (v : View) : Prop where
  server : h'.server = h.server
  held : ∀ it, h'.HoldsItem it ↔
    it ∈ (h.visited h.server v).map (Item.trim v) ++ h.behind h.server v
  diffs : h'.diffs = adjustAll h.server (h.items.map Item.key)
    ((h.visited h.server v).map fun it => group it.key v) h.diffs

theorem cleanHash_cleaned {h : Handler} {items : List Item} (hr : Represents h.toStore items)
    {view : GetServersReply} (hview : view.view.NonEmpty) :
    ∃ h', { h with currentView := view }.cleanHash = .ok h' ∧ Cleaned h h' view.view := by
  have hr' : Represents ({ h with currentView := view } : Handler).toStore items := hr
  obtain ⟨st, hclean, hrep, -⟩ := cleanHash_spec hr' hview
  refine ⟨_, hclean, rfl, fun it => ?_, ?_⟩
  · unfold Store.visited Store.behind
    rw [hr.items_eq, ← Lru.clean_eq]
    exact hrep.mem_iff.symm
  · unfold Store.visited
    rw [hr.items_eq]
    exact Lru.cleanDiffs_eq _ _ _ _ _

namespace Cleaned

variable {h h' : Handler} {v : View} {s : Server}

theorem isPeer_iff (hc : Cleaned h h' v) :
    h'.IsPeer v s ↔ s ≠ h.server ∧
      ∃ it ∈ h.visited h.server v ++ h.behind h.server v, s ∈ group it.key v := by
  unfold IsPeer
  rw [hc.server]
  refine and_congr_right fun _ => ⟨fun hp => ?_, fun hp => ?_⟩
  · obtain ⟨it, hit, hs⟩ := hp
    cases List.mem_append.mp ((hc.held it).mp hit) with
    | inl hmem =>
        obtain ⟨old, hold, rfl⟩ := List.mem_map.mp hmem
        exact ⟨old, List.mem_append_left _ hold, hs⟩
    | inr hmem => exact ⟨it, List.mem_append_right _ hmem, hs⟩
  · obtain ⟨it, hit, hs⟩ := hp
    cases List.mem_append.mp hit with
    | inl hmem =>
        refine ⟨it.trim v, (hc.held _).mpr (List.mem_append_left _ ?_), hs⟩
        exact List.mem_map.mpr ⟨it, hmem, rfl⟩
    | inr hmem => exact ⟨it, (hc.held _).mpr (List.mem_append_right _ hmem), hs⟩

theorem key_mem (hc : Cleaned h h' v) {it : Item} (hit : h'.HoldsItem it) :
    it.key ∈ h.items.map Item.key := by
  cases List.mem_append.mp ((hc.held it).mp hit) with
  | inl hmem =>
      obtain ⟨old, hold, rfl⟩ := List.mem_map.mp hmem
      exact List.mem_map.mpr ⟨old, (List.takeWhile_prefix _).subset hold, rfl⟩
  | inr hmem =>
      refine List.mem_map.mpr ⟨it, ?_, rfl⟩
      exact (List.dropWhile_suffix _).subset ((List.tail_suffix _).subset hmem)

/-- The visited entries are trimmed, so only those left behind matter. -/
theorem versions_iff (hc : Cleaned h h' v) :
    (∀ it, h'.HoldsItem it → ∀ p ∈ it.version, p.1 ∈ group it.key v) ↔
      ∀ it ∈ h.behind h.server v, ∀ p ∈ it.version, p.1 ∈ group it.key v := by
  constructor
  · intro hv it hit
    exact hv it ((hc.held it).mpr (List.mem_append_right _ hit))
  · intro hv it hit p hp
    cases List.mem_append.mp ((hc.held it).mp hit) with
    | inl hmem =>
        obtain ⟨old, -, rfl⟩ := List.mem_map.mp hmem
        exact of_decide_eq_true (List.mem_filter.mp hp).2
    | inr hmem => exact hv it hmem p hp

/-- When the first entry is removed, or there is none, `diffs` is as before. -/
theorem retargets_iff_of_unvisited (hc : Cleaned h h' v) (hnil : h.visited h.server v = []) :
    Retargets h h' v ↔ Retargetable h v := by
  have hdiffs : h'.diffs = h.diffs := by
    rw [hc.diffs, hnil]
    rfl
  have hpeer : ∀ s, h'.IsPeer v s ↔
      s ≠ h.server ∧ ∃ it ∈ h.behind h.server v, s ∈ group it.key v := by
    intro s
    rw [hc.isPeer_iff, hnil, List.nil_append]
  constructor
  · intro hr
    refine ⟨?_, fun last hlast => ?_, hc.versions_iff.mp hr.versions⟩
    · rw [hnil]
      intro s
      rw [← hpeer, ← hr.peers, hdiffs]
    · rw [hnil] at hlast
      cases hlast
  · intro hr
    have hkeys := hr.peers
    rw [hnil] at hkeys
    refine ⟨fun s => ?_, fun s hs hnot => ?_, fun s _ _ key hkey => ?_,
      hc.versions_iff.mpr hr.versions⟩
    · rw [hpeer, hdiffs]
      exact hkeys s
    · exact absurd ((hkeys s).mpr ((hpeer s).mp hs)) hnot
    · rw [hdiffs]
      exact hkey

theorem find?_diffs {init : List Item} {last : Item} (hc : Cleaned h h' v)
    (hvisited : h.visited h.server v = init ++ [last]) (hs : s ≠ h.server) :
    h'.diffs.find? s = if s ∈ group last.key v then
        some (if ∀ it ∈ init, s ∈ group it.key v then
          (h.diffs.find? s).getD (keySet (h.items.map Item.key))
          else keySet (h.items.map Item.key))
      else none := by
  have hkeys : h.items.map Item.key ≠ [] := by
    have hlast : last ∈ h.items := by
      apply (List.takeWhile_prefix _).subset
      show last ∈ h.visited h.server v
      rw [hvisited]
      simp
    exact List.ne_nil_of_mem (List.mem_map_of_mem hlast)
  rw [hc.diffs, hvisited, List.map_append, List.map_singleton, find?_adjustAll hkeys hs]
  simp only [List.forall_mem_map]

section Visited

variable {init : List Item} {last : Item} (hc : Cleaned h h' v)
  (hvisited : h.visited h.server v = init ++ [last])

include hc hvisited

theorem mem_keys_diffs (hself : h.diffs.find? h.server = none) :
    s ∈ h'.diffs.keys ↔ s ≠ h.server ∧ s ∈ group last.key v := by
  rw [OrderedMap.mem_keys]
  by_cases hs : s = h.server
  · have hnone : h'.diffs.find? s = none := by
      rw [hs, hc.diffs]
      exact find?_adjustAll_self hself _
    rw [hnone]
    exact iff_of_false (by simp) fun hp => hp.1 hs
  · rw [hc.find?_diffs hvisited hs]
    by_cases hmem : s ∈ group last.key v <;> simp [hs, hmem]

theorem isPeer_of_mem_last (hs : s ≠ h.server) (hmem : s ∈ group last.key v) :
    h'.IsPeer v s := by
  refine hc.isPeer_iff.mpr ⟨hs, last, List.mem_append_left _ ?_, hmem⟩
  rw [hvisited]
  simp

theorem noted_diffs (hs : s ≠ h.server) (hmem : s ∈ group last.key v) :
    noted h'.diffs s = OrderedMap.keys (if ∀ it ∈ init, s ∈ group it.key v then
      (h.diffs.find? s).getD (keySet (h.items.map Item.key))
      else keySet (h.items.map Item.key)) := by
  rw [noted, hc.find?_diffs hvisited hs, if_pos hmem]
  rfl

theorem retargetable_of_retargets (hself : h.diffs.find? h.server = none)
    (hr : Retargets h h' v) : Retargetable h v := by
  have hlast : (h.visited h.server v).getLast? = some last := by
    rw [hvisited, List.getLast?_concat]
  refine ⟨?_, fun last' hlast' s hmem hs => ?_, hc.versions_iff.mp hr.versions⟩
  · rw [hlast]
    intro it hit s hmem hs
    have hpeer : h'.IsPeer v s := hc.isPeer_iff.mpr ⟨hs, it, hit, hmem⟩
    exact ((hc.mem_keys_diffs hvisited hself).mp ((hr.peers s).mpr hpeer)).2
  · have hsame : last' = last := Option.some.inj (hlast'.symm.trans hlast)
    rw [hsame] at hmem
    by_cases hall : ∀ it ∈ init, s ∈ group it.key v
    · refine .inl fun it hit => ?_
      rw [hvisited, List.mem_append, List.mem_singleton] at hit
      cases hit with
      | inl hit => exact hall it hit
      | inr hit => exact hit ▸ hmem
    · -- the set is made anew, so that only keys of the list survive in it
      refine .inr fun key hkey => ?_
      have hset : s ∈ h.diffs.keys := by
        by_contra hnot
        rw [noted, OrderedMap.find?_eq_none.mpr hnot] at hkey
        cases hkey
      have hkept := hr.pending s (hc.isPeer_of_mem_last hvisited hs hmem) hset key hkey
      rw [hc.noted_diffs hvisited hs hmem, if_neg hall] at hkept
      exact mem_keySet.mp hkept

theorem retargets_of_retargetable (hself : h.diffs.find? h.server = none)
    (hr : Retargetable h v) : Retargets h h' v := by
  have hlast : (h.visited h.server v).getLast? = some last := by
    rw [hvisited, List.getLast?_concat]
  have hgroups := hr.peers
  rw [hlast] at hgroups
  have hpeer : ∀ s, h'.IsPeer v s ↔ s ≠ h.server ∧ s ∈ group last.key v := by
    intro s
    refine ⟨fun hp => ?_, fun hp => hc.isPeer_of_mem_last hvisited hp.1 hp.2⟩
    obtain ⟨hs, it, hit, hmem⟩ := hc.isPeer_iff.mp hp
    exact ⟨hs, hgroups it hit s hmem hs⟩
  refine ⟨fun s => ?_, fun s hs hnot => ?_, fun s hs hset key hkey => ?_,
    hc.versions_iff.mpr hr.versions⟩
  · rw [hc.mem_keys_diffs hvisited hself, hpeer]
  · have hp := (hpeer s).mp hs
    refine ⟨(hc.mem_keys_diffs hvisited hself).mpr hp, fun it hit => ?_⟩
    rw [hc.noted_diffs hvisited hp.1 hp.2, OrderedMap.find?_eq_none.mpr hnot, Option.getD_none,
      ite_self]
    exact mem_keySet.mpr (hc.key_mem hit)
  · have hp := (hpeer s).mp hs
    rw [hc.noted_diffs hvisited hp.1 hp.2]
    by_cases hall : ∀ it ∈ init, s ∈ group it.key v
    · obtain ⟨set, hfind⟩ := OrderedMap.mem_keys.mp hset
      rw [noted, hfind] at hkey
      rw [if_pos hall, hfind]
      exact hkey
    · rw [if_neg hall]
      refine mem_keySet.mpr ?_
      cases hr.pending last hlast s hp.2 hp.1 with
      | inl hevery =>
          refine absurd (fun it hit => hevery it ?_) hall
          rw [hvisited]
          exact List.mem_append_left _ hit
      | inr hlisted => exact hlisted key hkey

end Visited

theorem retargets_iff (hc : Cleaned h h' v) (hself : h.diffs.find? h.server = none) :
    Retargets h h' v ↔ Retargetable h v := by
  rcases List.eq_nil_or_concat (h.visited h.server v) with hnil | ⟨init, last, hvisited⟩
  · exact hc.retargets_iff_of_unvisited hnil
  · rw [List.concat_eq_append] at hvisited
    exact ⟨hc.retargetable_of_retargets hvisited hself, hc.retargets_of_retargetable hvisited hself⟩

end Cleaned

/-- From every reachable state and under every view with a non-empty ring,
`cleanHash` returns, and retargets replication exactly from the states above. -/
theorem cleanHash_retargets_iff (server : Server) (steps : List Step) (view : GetServersReply)
    (hview : view.view.NonEmpty) :
    ∃ h h', (initial server).leaveAll steps = .ok h ∧
      { h with currentView := view }.cleanHash = .ok h' ∧
      (Retargets h h' view.view ↔ Retargetable h view.view) := by
  obtain ⟨h, items, hrun, hr, -, hself⟩ :=
    leaveAll_spec (h := initial server) Represents.initial rfl steps
  obtain ⟨h', hclean, hc⟩ := cleanHash_cleaned hr hview
  exact ⟨h, h', hrun, hclean, hc.retargets_iff hself⟩

/-- One put of a server with one peer. -/
def putForPeer (s peer : Server) : List Step :=
  [⟨{ view := View.single [s, peer], viewNum := 1 }, .serve (.put ⟨[1], [7], 1⟩)⟩]

theorem putForPeer_state {h : Handler}
    (hrun : (initial ⟨[1], 1⟩).leaveAll (putForPeer ⟨[1], 1⟩ ⟨[2], 2⟩) = .ok h) :
    h.server = ⟨[1], 1⟩ ∧ h.items = [⟨[1], [7], [(⟨[1], 1⟩, 1)]⟩] ∧ h.diffs.keys = [⟨[2], 2⟩] := by
  have hstate : ((initial ⟨[1], 1⟩).leaveAll (putForPeer ⟨[1], 1⟩ ⟨[2], 2⟩)).toOption.map
      (fun h => (h.server, h.items, h.diffs.keys)) =
        some (⟨[1], 1⟩, [⟨[1], [7], [(⟨[1], 1⟩, 1)]⟩], [⟨[2], 2⟩]) := by
    decide +kernel
  rw [hrun] at hstate
  have hparts := Option.some.inj hstate
  exact ⟨congrArg Prod.fst hparts, congrArg (fun p => p.2.1) hparts,
    congrArg (fun p => p.2.2) hparts⟩

/-- A third replica joins the group. -/
theorem cleanHash_retargets_iff_joined :
    (View.single [⟨[1], 1⟩, ⟨[2], 2⟩, ⟨[3], 3⟩]).NonEmpty ∧
      ∃ h h', (initial ⟨[1], 1⟩).leaveAll (putForPeer ⟨[1], 1⟩ ⟨[2], 2⟩) = .ok h ∧
        { h with currentView :=
            { view := View.single [⟨[1], 1⟩, ⟨[2], 2⟩, ⟨[3], 3⟩], viewNum := 2 } }.cleanHash =
          .ok h' ∧
        Retargets h h' (View.single [⟨[1], 1⟩, ⟨[2], 2⟩, ⟨[3], 3⟩]) := by
  have hview : (View.single [⟨[1], 1⟩, ⟨[2], 2⟩, ⟨[3], 3⟩]).NonEmpty := by decide
  obtain ⟨h, h', hrun, hclean, hiff⟩ := cleanHash_retargets_iff ⟨[1], 1⟩
    (putForPeer ⟨[1], 1⟩ ⟨[2], 2⟩)
    { view := View.single [⟨[1], 1⟩, ⟨[2], 2⟩, ⟨[3], 3⟩], viewNum := 2 } hview
  obtain ⟨hserver, hitems, -⟩ := putForPeer_state hrun
  refine ⟨hview, h, h', hrun, hclean, hiff.mpr ⟨?_, ?_, ?_⟩⟩
  · simp [Store.visited, Store.behind, hserver, hitems, group_single]
  · simp [Store.visited, hserver, hitems, group_single]
  · simp [Store.behind, hserver, hitems, group_single]

/-- A server that loses its only key keeps the set of its former peer. -/
theorem cleanHash_keeps_former_peer :
    ∃ h h', (initial ⟨[1], 1⟩).leaveAll (putForPeer ⟨[1], 1⟩ ⟨[2], 2⟩) = .ok h ∧
      { h with currentView := { view := View.single [⟨[2], 2⟩], viewNum := 2 } }.cleanHash =
        .ok h' ∧ (∀ it, ¬ h'.HoldsItem it) ∧ h'.diffs.keys = [⟨[2], 2⟩] ∧
      ¬ Retargets h h' (View.single [⟨[2], 2⟩]) := by
  obtain ⟨h, items, hrun, hr, -⟩ := leaveAll_spec (h := initial ⟨[1], 1⟩) Represents.initial rfl
    (putForPeer ⟨[1], 1⟩ ⟨[2], 2⟩)
  obtain ⟨hserver, hitems, hkeys⟩ := putForPeer_state hrun
  have hview : (GetServersReply.mk (View.single [⟨[2], 2⟩]) 2).view.NonEmpty := by decide
  obtain ⟨h', hclean, hc⟩ := cleanHash_cleaned hr hview
  have hnone : ∀ it, ¬ h'.HoldsItem it := by
    intro it
    rw [hc.held]
    simp [Store.visited, Store.behind, hserver, hitems, group_single]
  have hnil : h.visited h.server (View.single [⟨[2], 2⟩]) = [] := by
    simp [Store.visited, hserver, hitems, group_single]
  have hkeys' : h'.diffs.keys = [⟨[2], 2⟩] := by
    rw [hc.diffs, hnil]
    exact hkeys
  refine ⟨h, h', hrun, hclean, hnone, hkeys', fun hret => ?_⟩
  have hset : (⟨[2], 2⟩ : Server) ∈ h'.diffs.keys := by
    rw [hkeys']
    exact List.mem_singleton.mpr rfl
  obtain ⟨-, it, hit, -⟩ := (hret.peers _).mp hset
  exact hnone it hit

end Handler

end RobustCache
