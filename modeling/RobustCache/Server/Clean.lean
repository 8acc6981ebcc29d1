import RobustCache.Server.Effects

/-! # What `cleanHash` does to the abstract store

The loop trims the version vectors of owned entries from the front of the list
up to the first entry that is not owned. It removes that entry, reads the link
of the tombstone it leaves, and stops there.
-/

namespace RobustCache

open Lib

namespace Lru

/-- What the loop leaves of the entries that it has not visited yet. -/
def clean (server : Server) (v : View) : List Item → List Item
  | [] => []
  | it :: rest =>
      if server ∈ group it.key v then
        { it with version := Handler.trimVersion it.version (group it.key v) } ::
          clean server v rest
      else rest

/-- The sets of keys after the loop, with `keys` the keys of the whole list. -/
def cleanDiffs (server : Server) (v : View) (keys : List Bytes) :
    List Item → OrderedMap Server (OrderedSet Bytes) → OrderedMap Server (OrderedSet Bytes)
  | [], diffs => diffs
  | it :: rest, diffs =>
      if server ∈ group it.key v then
        cleanDiffs server v keys rest
          (Handler.adjustDiffs server keys (group it.key v) diffs)
      else diffs

def purged (server : Server) (v : View) : List Item → Nat
  | [] => 0
  | it :: rest => if server ∈ group it.key v then purged server v rest else 1

theorem length_clean (server : Server) (v : View) (items : List Item) :
    (clean server v items).length + purged server v items = items.length := by
  induction items with
  | nil => rfl
  | cons it rest ih =>
      by_cases hown : server ∈ group it.key v
      · simp only [clean, purged, if_pos hown, List.length_cons]
        omega
      · simp only [clean, purged, if_neg hown, List.length_cons]

end Lru

def GetStatisticsReply.purged (s : GetStatisticsReply) (n : Nat) : GetStatisticsReply :=
  { s with numPurges := s.numPurges + n }

namespace Handler

/-- One round over an owned entry: only its version and `diffs` change. -/
theorem adjustVersion_spec {h : Handler} {l₁ rest : List Int} {pos : Int}
    (hl : Layout h.toStore (l₁ ++ pos :: rest)) (servers : List Server) :
    Layout (h.adjustVersion pos servers).toStore (l₁ ++ [pos] ++ rest) ∧
      itemsAt (h.adjustVersion pos servers).hashTable (l₁ ++ [pos]) = itemsAt h.hashTable l₁ ++
        [⟨(h.slot pos).key, (h.slot pos).value, trimVersion (h.slot pos).version servers⟩] ∧
      itemsAt (h.adjustVersion pos servers).hashTable rest = itemsAt h.hashTable rest ∧
      (h.adjustVersion pos servers).diffs = adjustDiffs h.server
        ((itemsAt h.hashTable (l₁ ++ pos :: rest)).map Item.key) servers h.diffs ∧
      ((h.adjustVersion pos servers).slot pos).next = rest.headD (-1) := by
  rcases hl.setVersion (trimVersion (h.slot pos).version servers) with ⟨hl₁, hitems⟩
  let st₁ := h.setVersion pos (trimVersion (h.slot pos).version servers)
  have hsplit : itemsAt st₁.hashTable (l₁ ++ [pos]) ++ itemsAt st₁.hashTable rest =
      (itemsAt h.hashTable l₁ ++
        [⟨(h.slot pos).key, (h.slot pos).value, trimVersion (h.slot pos).version servers⟩]) ++
        itemsAt h.hashTable rest := by
    rw [← itemsAt_append, List.append_assoc, List.append_assoc, List.singleton_append,
      List.singleton_append]
    exact hitems
  rcases List.append_inj hsplit (by simp [itemsAt]) with ⟨hdone, hrest⟩
  have hkeys : st₁.order.map (fun i => (st₁.slot i).key) =
      (itemsAt h.hashTable (l₁ ++ pos :: rest)).map Item.key := by
    have : st₁.order.map (fun i => (st₁.slot i).key) =
        (itemsAt st₁.hashTable (l₁ ++ pos :: rest)).map Item.key := by
      rw [hl₁.table.order_eq]
      unfold itemsAt
      rw [List.map_map]
      rfl
    rw [this, hitems, itemsAt_append, itemsAt_cons, List.map_append, List.map_append,
      List.map_cons, List.map_cons]
    rfl
  refine ⟨?_, hdone, hrest, ?_, hl₁.table.chain.next_eq⟩
  · rw [List.append_assoc, List.singleton_append]
    exact hl₁
  · show adjustDiffs h.server (st₁.order.map fun i => (st₁.slot i).key) servers h.diffs = _
    rw [hkeys]

/-- The loop from any round on: `l₁` has been visited, `rest` has not. -/
theorem cleanLoop_spec {rest : List Int} {h : Handler} {l₁ : List Int} {fuel : Nat}
    (hl : Layout h.toStore (l₁ ++ rest)) (hring : h.currentView.view.NonEmpty)
    (hfuel : rest.length < fuel) :
    ∃ st, cleanLoop fuel h (rest.headD (-1)) = .ok { h with
        toStore := st
        diffs := Lru.cleanDiffs h.server h.currentView.view
          ((itemsAt h.hashTable (l₁ ++ rest)).map Item.key) (itemsAt h.hashTable rest) h.diffs } ∧
      Represents st (itemsAt h.hashTable l₁ ++
        Lru.clean h.server h.currentView.view (itemsAt h.hashTable rest)) ∧
      st.statistics = h.statistics.purged
        (Lru.purged h.server h.currentView.view (itemsAt h.hashTable rest)) := by
  induction rest generalizing h l₁ fuel with
  | nil =>
      rcases fuel with _ | fuel
      · simp at hfuel
      refine ⟨h.toStore, by simp [cleanLoop, itemsAt, Lru.cleanDiffs], ⟨l₁, ?_, ?_⟩, ?_⟩
      · simpa using hl
      · simp [itemsAt, Lru.clean]
      · simp [itemsAt, Lru.purged, GetStatisticsReply.purged]
  | cons pos rest ih =>
      rcases fuel with _ | fuel
      · simp at hfuel
      rw [List.length_cons] at hfuel
      have halive : (h.slot pos).state = .alive := hl.alive (by simp)
      have hin := inside_of_alive halive
      have hne : pos ≠ -1 := by omega
      have hkey : (recordAt h.hashTable pos).item.key = (h.slot pos).key := rfl
      rw [List.headD_cons, itemsAt_cons, cleanLoop, if_neg hne,
        getServer_eq_group hring (h.slot pos).key]
      by_cases howned : h.server ∈ group (h.slot pos).key h.currentView.view
      · -- the entry stays, with a trimmed version, and the loop goes on behind it
        rcases adjustVersion_spec hl (group (h.slot pos).key h.currentView.view) with
          ⟨hl₁, hdone, hrest, hdiffs, hnext⟩
        rcases ih hl₁ hring (by omega : rest.length < fuel) with ⟨st, hrun, hrep, hstat⟩
        have hkeys : (itemsAt (h.adjustVersion pos
            (group (h.slot pos).key h.currentView.view)).hashTable (l₁ ++ [pos] ++ rest)).map
              Item.key = (itemsAt h.hashTable (l₁ ++ pos :: rest)).map Item.key := by
          rw [itemsAt_append, hdone, hrest, itemsAt_append, itemsAt_cons]
          simp [Record.item, Store.slot]
        rw [hkeys, hrest, hdiffs] at hrun
        rw [hdone, hrest, List.append_assoc] at hrep
        rw [hrest] at hstat
        refine ⟨st, ?_, ?_, ?_⟩
        · simp only [bind, Except.bind, if_pos howned, hnext, Lru.cleanDiffs, hkey]
          exact hrun
        · simp only [Lru.clean, hkey, if_pos howned]
          exact hrep
        · simp only [Lru.purged, hkey, if_pos howned]
          exact hstat
      · -- the entry goes, and the tombstone has no successor
        have hdis := hl.table.distinct_items
        rw [itemsAt_append, itemsAt_cons] at hdis
        rcases Represents.remove ⟨_, hl, rfl⟩ halive with ⟨st₁, h₁, hrep, hstat, hslot⟩
        rw [itemsAt_append, itemsAt_cons, ← hkey, Recency.remove_split hdis] at hrep
        let st₂ := st₁.tally fun s => { s with numPurges := s.numPurges + 1 }
        have hnext : (st₂.slot pos).next = -1 := by
          show (st₁.slot pos).next = -1
          rw [hslot]
        refine ⟨st₂, ?_, ?_, ?_⟩
        · simp only [bind, Except.bind, if_neg howned, h₁, Lru.cleanDiffs, hkey]
          show cleanLoop fuel { h with toStore := st₂ } (st₂.slot pos).next = _
          rcases fuel with _ | fuel
          · omega
          rw [hnext, cleanLoop, if_pos rfl]
        · simp only [Lru.clean, hkey, if_neg howned]
          exact hrep.tally _
        · simp only [Lru.purged, hkey, if_neg howned]
          show { st₁.statistics with numPurges := st₁.statistics.numPurges + 1 } = _
          rw [hstat]
          rfl

variable {h : Handler} {items : List Item}

theorem cleanHash_spec (hr : Represents h.toStore items) (hring : h.currentView.view.NonEmpty) :
    ∃ st, h.cleanHash = .ok { h with
        toStore := st
        diffs := Lru.cleanDiffs h.server h.currentView.view (items.map Item.key) items h.diffs } ∧
      Represents st (Lru.clean h.server h.currentView.view items) ∧
      st.statistics =
        h.statistics.purged (Lru.purged h.server h.currentView.view items) := by
  rcases hr with ⟨l, hl, rfl⟩
  have hhead : h.listHead = l.headD (-1) := hl.table.chain.2.first_eq
  have hl' : Layout h.toStore ([] ++ l) := hl
  unfold cleanHash
  rw [hhead]
  exact cleanLoop_spec hl' hring (Nat.lt_succ_of_le hl.table.length_le)

/-- Under an empty ring the first lookup throws, before anything has changed. -/
theorem cleanHash_of_empty (hr : Represents h.toStore items)
    (hring : ¬ h.currentView.view.NonEmpty) :
    h.cleanHash = if items = [] then .ok h else .error .emptyRing := by
  rcases hr with ⟨l, hl, rfl⟩
  have hhead : h.listHead = l.headD (-1) := hl.table.chain.2.first_eq
  cases l with
  | nil =>
      rw [List.headD_nil] at hhead
      simp [cleanHash, cleanLoop, hhead, itemsAt]
  | cons pos rest =>
      have hin := hl.table.inside (i := pos) (by simp)
      have hne : pos ≠ -1 := by omega
      rw [List.headD_cons] at hhead
      rw [cleanHash, hhead, cleanLoop, if_neg hne, getServer_of_empty hring]
      simp [itemsAt, bind, Except.bind]

theorem cleanHash_represents (hr : Represents h.toStore items) {h' : Handler}
    (hclean : h.cleanHash = .ok h') :
    ∃ items', Represents h'.toStore items' ∧ h'.server = h.server ∧
      h'.currentView = h.currentView := by
  by_cases hring : h.currentView.view.NonEmpty
  · rcases cleanHash_spec hr hring with ⟨st, hrun, hrep, -⟩
    rw [hrun] at hclean
    cases hclean
    exact ⟨_, hrep, rfl, rfl⟩
  · rw [cleanHash_of_empty hr hring] at hclean
    split at hclean
    · cases hclean
      exact ⟨items, hr, rfl, rfl⟩
    · cases hclean

/-! ## The ownership check -/

/-- The view that `checkServer` decides with. -/
def decided (h : Handler) (viewNum : Int) (pinged : GetServersReply) : GetServersReply :=
  if viewNum > h.currentView.viewNum then pinged else h.currentView

/-- The request names the view decided with, and the server is in its group. -/
def Accepts (h : Handler) (viewNum : Int) (key : Bytes) (pinged : GetServersReply) : Prop :=
  viewNum = (h.decided viewNum pinged).viewNum ∧
    h.server ∈ group key (h.decided viewNum pinged).view

instance (h : Handler) (viewNum : Int) (key : Bytes) (pinged : GetServersReply) :
    Decidable (h.Accepts viewNum key pinged) := inferInstanceAs (Decidable (_ ∧ _))

/-- `cleanHash` under the current view does not throw. -/
def CleanSafe (h : Handler) : Prop := h.currentView.view.NonEmpty ∨ h.listHead = -1

instance (h : Handler) : Decidable h.CleanSafe := inferInstanceAs (Decidable (_ ∨ _))

theorem owns_eq (h : Handler) {v : View} (hv : v.NonEmpty) (key : Bytes) :
    h.owns v key = .ok (decide (h.server ∈ group key v)) := by
  simp only [owns, getServer_eq_group hv, bind, Except.bind]
  rfl

theorem owns_of_empty (h : Handler) {v : View} (hv : ¬ v.NonEmpty) (key : Bytes) :
    h.owns v key = .error .emptyRing := by
  simp only [owns, getServer_of_empty hv, bind, Except.bind]

theorem listHead_eq_iff (hr : Represents h.toStore items) : h.listHead = -1 ↔ items = [] := by
  rcases hr with ⟨l, hl, rfl⟩
  rw [show h.listHead = -1 ↔ l = [] from hl.table.chain.head_eq_nil]
  simp [itemsAt]

theorem cleanHash_ok (hr : Represents h.toStore items) (hsafe : h.CleanSafe) :
    ∃ h' items', h.cleanHash = .ok h' ∧ Represents h'.toStore items' ∧ h'.server = h.server ∧
      h'.currentView = h.currentView := by
  by_cases hring : h.currentView.view.NonEmpty
  · rcases cleanHash_spec hr hring with ⟨st, hrun, hrep, -⟩
    exact ⟨_, _, hrun, hrep, rfl, rfl⟩
  · have hnil := (listHead_eq_iff hr).mp (hsafe.resolve_left hring)
    exact ⟨h, items, by rw [cleanHash_of_empty hr hring, if_pos hnil], hr, rfl, rfl⟩

theorem cleanHash_throws (hr : Represents h.toStore items) (hleak : ¬ h.CleanSafe) :
    h.cleanHash = .error .emptyRing := by
  have hring : ¬ h.currentView.view.NonEmpty := fun hv => hleak (.inl hv)
  have hne : ¬ items = [] := fun hnil => hleak (.inr ((listHead_eq_iff hr).mpr hnil))
  rw [cleanHash_of_empty hr hring, if_neg hne]

theorem adopt_ok (hr : Represents h.toStore items) {view : GetServersReply}
    (hring : view.view.NonEmpty) : ∃ h', h.adopt view = .ok h' ∧ h'.server = h.server := by
  have hr' : Represents ({ h with currentView := view } : Handler).toStore items := hr
  unfold adopt
  by_cases hnum : h.currentView.viewNum ≠ view.viewNum
  · rcases cleanHash_ok hr' (.inl hring) with ⟨h', items', hclean, -, hserver, -⟩
    exact ⟨h', by rw [if_pos hnum, hclean], hserver⟩
  · exact ⟨{ h with currentView := view }, if_neg hnum, rfl⟩

theorem checkServer_accepts (hr : Represents h.toStore items) {viewNum : Int} {key : Bytes}
    {pinged : GetServersReply} :
    (∃ h', h.checkServer viewNum key pinged = .ok (h', true)) ↔
      h.Accepts viewNum key pinged := by
  unfold checkServer Accepts decided
  by_cases hold : viewNum < h.currentView.viewNum
  · have hnew : ¬ viewNum > h.currentView.viewNum := by omega
    simp only [if_pos hold, if_neg hnew]
    constructor
    · intro hacc
      rcases hacc with ⟨h', hacc⟩
      cases hacc
    · intro hacc
      omega
  by_cases hnew : viewNum > h.currentView.viewNum
  · simp only [if_neg hold, if_pos hnew]
    by_cases hring : pinged.view.NonEmpty
    · rcases adopt_ok hr hring with ⟨h', hadopt, hserver⟩
      by_cases hnum : viewNum = pinged.viewNum
      · simp [hadopt, hnum, owns_eq h' hring, hserver, bind, Except.bind, pure, Except.pure]
      · simp [hadopt, hnum, bind, Except.bind, pure, Except.pure]
    · have hnot : h.server ∉ group key pinged.view := fun hin => hring (nonEmpty_of_mem_group hin)
      simp only [hnot, and_false, iff_false, not_exists]
      intro h' hrun
      cases hadopt : h.adopt pinged with
      | error e => simp [hadopt, bind, Except.bind] at hrun
      | ok h₁ =>
          by_cases hnum : viewNum = pinged.viewNum
          · simp [hadopt, hnum, owns_of_empty h₁ hring, bind, Except.bind] at hrun
          · simp [hadopt, hnum, bind, Except.bind, pure, Except.pure] at hrun
  · have hnum : viewNum = h.currentView.viewNum := by omega
    simp only [if_neg hold, if_neg hnew]
    by_cases hring : h.currentView.view.NonEmpty
    · simp [owns_eq h hring, hnum, bind, Except.bind, pure, Except.pure]
    · have hnot : h.server ∉ group key h.currentView.view := fun hin =>
        hring (nonEmpty_of_mem_group hin)
      simp [owns_of_empty h hring, hnot, bind, Except.bind]

end Handler

end RobustCache
