import RobustCache.Server.Refinement

/-! # What a view change purges

`cleanHash` is meant to remove every entry that the server is no longer in
charge of. Its loop stops at the first one it removes, so it does so exactly
when there is at most one.
-/

namespace RobustCache

open Lib

def Store.Holds (st : Store) (key : Bytes) : Prop :=
  ∃ i, (st.slot i).state = .alive ∧ (st.slot i).key = key

theorem Represents.holds_iff {st : Store} {items : List Item} (h : Represents st items)
    {key : Bytes} : st.Holds key ↔ key ∈ items.map Item.key := by
  rw [List.mem_map]
  constructor
  · intro hk
    rcases hk with ⟨i, hi, he⟩
    exact ⟨(st.slot i).item, h.mem_iff.mpr ⟨i, hi, rfl⟩, he⟩
  · intro hk
    rcases hk with ⟨it, hit, he⟩
    rcases h.mem_iff.mp hit with ⟨i, hi, rfl⟩
    exact ⟨i, hi, he⟩

def Item.content (it : Item) : Bytes × Bytes := (it.key, it.value)

/-- The entries that the server is not in charge of. -/
def Store.unowned (st : Store) (server : Server) (v : View) : List Item :=
  st.items.filter fun it => server ∉ group it.key v

/-- `h'` holds what `h` held and is in charge of, in the same order, and counts
what is gone. -/
structure PurgesExactly (h h' : Handler) : Prop where
  alive : ∀ key, h'.Holds key ↔ h.Holds key ∧ h.server ∈ group key h'.currentView.view
  survivors : (h'.items.map Item.content).Sublist (h.items.map Item.content)
  numPurges : h'.statistics.numPurges =
    h.statistics.numPurges + (h.items.length - h'.items.length : Int)

namespace Lru

variable {server : Server} {v : View} {items : List Item}

theorem content_clean_sublist (server : Server) (v : View) (items : List Item) :
    ((clean server v items).map Item.content).Sublist (items.map Item.content) := by
  induction items with
  | nil => exact List.Sublist.refl _
  | cons it rest ih =>
      by_cases hown : server ∈ group it.key v
      · simp only [clean, if_pos hown, List.map_cons]
        exact ih.cons_cons _
      · simp only [clean, if_neg hown, List.map_cons]
        exact List.sublist_cons_self _ _

/-- With at most one entry to remove, the loop reaches it. -/
theorem key_clean_of_le_one
    (h : (items.filter fun it => server ∉ group it.key v).length ≤ 1) :
    (clean server v items).map Item.key =
      (items.filter fun it => server ∈ group it.key v).map Item.key := by
  induction items with
  | nil => rfl
  | cons it rest ih =>
      by_cases hown : server ∈ group it.key v
      · have hrest : (rest.filter fun it => server ∉ group it.key v).length ≤ 1 := by
          simpa [hown] using h
        simp [clean, hown, ih hrest]
      · have hrest : rest.filter (fun it => server ∉ group it.key v) = [] := by
          simpa [hown] using h
        have hall : rest.filter (fun it => server ∈ group it.key v) = rest := by
          rw [List.filter_eq_self]
          rw [List.filter_eq_nil_iff] at hrest
          simpa using hrest
        simp only [clean, if_neg hown]
        rw [List.filter_cons_of_neg (by simpa using hown), hall]

theorem exists_unowned_clean
    (h : 1 < (items.filter fun it => server ∉ group it.key v).length) :
    ∃ it ∈ clean server v items, server ∉ group it.key v := by
  induction items with
  | nil => simp at h
  | cons it rest ih =>
      by_cases hown : server ∈ group it.key v
      · have hrest : 1 < (rest.filter fun it => server ∉ group it.key v).length := by
          simpa [hown] using h
        rcases ih hrest with ⟨a, ha, hna⟩
        refine ⟨a, ?_, hna⟩
        simp [clean, hown, ha]
      · have hrest : ∃ a ∈ rest, server ∉ group a.key v := by
          simpa [hown] using h
        rcases hrest with ⟨a, ha, hna⟩
        refine ⟨a, ?_, hna⟩
        simp [clean, hown, ha]

end Lru

namespace Handler

theorem cleanHash_purges {h : Handler} {items : List Item} (hr : Represents h.toStore items)
    {view : GetServersReply} (hview : view.view.NonEmpty) :
    ∃ h', { h with currentView := view }.cleanHash = .ok h' ∧
      (PurgesExactly h h' ↔ (h.unowned h.server view.view).length ≤ 1) := by
  have hr' : Represents ({ h with currentView := view } : Handler).toStore items := hr
  rcases cleanHash_spec hr' hview with ⟨st, hclean, hrep, hstat⟩
  refine ⟨_, hclean, ?_⟩
  have hunowned : h.unowned h.server view.view =
      items.filter fun it => h.server ∉ group it.key view.view := by
    rw [Store.unowned, hr.items_eq]
  rw [hunowned]
  constructor
  · intro hexact
    by_contra hmany
    rcases Lru.exists_unowned_clean (not_le.mp hmany) with ⟨it, hit, hnot⟩
    have hholds : st.Holds it.key := hrep.holds_iff.mpr (List.mem_map.mpr ⟨it, hit, rfl⟩)
    exact hnot ((hexact.alive it.key).mp hholds).2
  · intro hle
    have hkeys := Lru.key_clean_of_le_one hle
    refine ⟨fun key => ?_, ?_, ?_⟩
    · show st.Holds key ↔ h.Holds key ∧ h.server ∈ group key view.view
      rw [hrep.holds_iff, hr.holds_iff]
      show key ∈ (Lru.clean h.server view.view items).map Item.key ↔ _
      rw [hkeys]
      simp only [List.mem_map, List.mem_filter, decide_eq_true_eq]
      constructor
      · intro hk
        rcases hk with ⟨it, ⟨hit, hown⟩, rfl⟩
        exact ⟨⟨it, hit, rfl⟩, hown⟩
      · intro hk
        rcases hk with ⟨⟨it, hit, rfl⟩, hown⟩
        exact ⟨it, ⟨hit, hown⟩, rfl⟩
    · show (st.items.map Item.content).Sublist (h.items.map Item.content)
      rw [hrep.items_eq, hr.items_eq]
      exact Lru.content_clean_sublist _ _ _
    · show st.statistics.numPurges = h.statistics.numPurges + (h.items.length - st.items.length)
      have hlen := Lru.length_clean h.server view.view items
      rw [hstat, hrep.items_eq, hr.items_eq]
      show h.statistics.numPurges + (Lru.purged h.server view.view items : Int) =
        h.statistics.numPurges +
          (items.length - (Lru.clean h.server view.view items).length : Int)
      omega

/-- From every reachable store and under every view with a non-empty ring,
`cleanHash` purges exactly what the server does not own if and only if at most
one of its entries is not owned. -/
theorem cleanHash_purges_iff (server : Server) (steps : List Step)
    (hring : ∀ s ∈ steps, s.view.view.NonEmpty) (view : GetServersReply)
    (hview : view.view.NonEmpty) :
    ∃ h h', (initial server).performAll steps = .ok h ∧
      { h with currentView := view }.cleanHash = .ok h' ∧
      (PurgesExactly h h' ↔ (h.unowned server view.view).length ≤ 1) := by
  rcases performAll_represents (h := initial server) Represents.initial hring with
    ⟨h, items, hrun, hr, hserver⟩
  rcases cleanHash_purges hr hview with ⟨h', hclean, hiff⟩
  rw [show h.server = server from hserver] at hiff
  exact ⟨h, h', hrun, hclean, hiff⟩

/-- The server `s` puts two keys while it is alone in the ring. -/
def twoPuts (s : Server) : List Step :=
  let view : GetServersReply := { view := View.single [s], viewNum := 1 }
  [⟨view, .serve (.put ⟨[1], [7], 1⟩)⟩, ⟨view, .serve (.put ⟨[2], [8], 1⟩)⟩]

/-- Of the two entries the server loses one to a server that joins. -/
theorem cleanHash_purges_iff_oneLost :
    ∃ (view : GetServersReply) (h h' : Handler), view.view.NonEmpty ∧
      (initial ⟨[1], 1⟩).performAll (twoPuts ⟨[1], 1⟩) = .ok h ∧
      { h with currentView := view }.cleanHash = .ok h' ∧
      h.items.map Item.key = [[2], [1]] ∧
      (h.unowned ⟨[1], 1⟩ view.view).map Item.key = [[1]] ∧
      (PurgesExactly h h' ↔ (h.unowned ⟨[1], 1⟩ view.view).length ≤ 1) ∧ PurgesExactly h h' := by
  let view : GetServersReply :=
    { view := View.twoPoints 0 (irHash [1]) ⟨[1], 1⟩ ⟨[2], 2⟩, viewNum := 2 }
  have hring : ∀ s ∈ twoPuts ⟨[1], 1⟩, s.view.view.NonEmpty := by decide
  have hview : view.view.NonEmpty := by decide
  obtain ⟨h, h', hrun, hclean, hiff⟩ := cleanHash_purges_iff ⟨[1], 1⟩ _ hring view hview
  have hkeys : (((initial ⟨[1], 1⟩).performAll (twoPuts ⟨[1], 1⟩)).toOption.map fun h =>
      (h.items.map Item.key, (h.unowned ⟨[1], 1⟩ view.view).map Item.key)) =
      some ([[2], [1]], [[1]]) := by
    decide +kernel
  rw [hrun] at hkeys
  obtain ⟨hitems, hlost⟩ := Prod.mk.inj (Option.some.inj hkeys)
  have hone : (h.unowned ⟨[1], 1⟩ view.view).length ≤ 1 := by
    rw [← List.length_map (f := Item.key), hlost]
    decide
  exact ⟨view, h, h', hview, hrun, hclean, hitems, hlost, hiff, hiff.mpr hone⟩

/-- Two entries of a server that leaves the ring: one of them stays. -/
theorem cleanHash_keeps_unowned :
    ∃ h h', (initial ⟨[1], 1⟩).performAll (twoPuts ⟨[1], 1⟩) = .ok h ∧
      { h with currentView := { view := View.single [⟨[2], 2⟩], viewNum := 2 } }.cleanHash =
        .ok h' ∧ ¬ PurgesExactly h h' := by
  have hring : ∀ s ∈ twoPuts ⟨[1], 1⟩, s.view.view.NonEmpty := by decide
  let view : GetServersReply := { view := View.single [⟨[2], 2⟩], viewNum := 2 }
  have hview : view.view.NonEmpty := by decide
  rcases performAll_represents (h := initial ⟨[1], 1⟩) Represents.initial hring with
    ⟨h, items, hrun, hr, hserver⟩
  have htwo : (((initial ⟨[1], 1⟩).performAll (twoPuts ⟨[1], 1⟩)).toOption.map fun h =>
      (h.unowned ⟨[1], 1⟩ (View.single [⟨[2], 2⟩])).length) = some 2 := by
    decide +kernel
  rw [hrun] at htwo
  have hlen : (h.unowned ⟨[1], 1⟩ (View.single [⟨[2], 2⟩])).length = 2 := Option.some.inj htwo
  rcases cleanHash_purges hr hview with ⟨h', hclean, hiff⟩
  refine ⟨h, h', hrun, hclean, fun hexact => ?_⟩
  have := hiff.mp hexact
  rw [show h.server = ⟨[1], 1⟩ from hserver, hlen] at this
  omega

end Handler

end RobustCache
