import RobustCache.Server.Entries

/-! # The set of keys of one peer

What the loops over `diffs` do to the set of a single server. A put and a view
change never make a set for the server itself. A view change keeps the set of a
peer through the entries whose group has the peer, drops it at an entry whose
group has not, and makes a new one, of all the keys of the list, at the next
entry whose group has.
-/

namespace RobustCache

open Lib

namespace Handler

variable {diffs : OrderedMap Server (OrderedSet Bytes)} {server s : Server} {keys : List Bytes}

/-! ## Puts and replies -/

theorem find?_insertDiff (diffs : OrderedMap Server (OrderedSet Bytes)) (s t : Server)
    (key : Bytes) :
    (insertDiff diffs s key).find? t =
      if t = s then some (OrderedSet.add ((diffs.find? s).getD OrderedMap.empty) key)
      else diffs.find? t := by
  unfold insertDiff
  rw [OrderedMap.find?_alter]
  by_cases ht : t = s <;> simp [ht]

theorem find?_noteDiffs_self (h : Handler) (key : Bytes) (servers : List Server) :
    (h.noteDiffs key servers).diffs.find? h.server = h.diffs.find? h.server := by
  unfold noteDiffs
  generalize h.diffs = diffs
  induction servers generalizing diffs with
  | nil => rfl
  | cons s rest ih =>
      simp only [List.foldl_cons] at ih ⊢
      rw [ih]
      by_cases hs : s = h.server
      · rw [if_pos hs]
      · have hne : h.server ≠ s := fun he => hs he.symm
        rw [if_neg hs, find?_insertDiff, if_neg hne]

/-! ## One entry of a view change -/

def keySet (keys : List Bytes) : OrderedSet Bytes := keys.foldl OrderedSet.add OrderedMap.empty

theorem mem_keySet {key : Bytes} : key ∈ (keySet keys).keys ↔ key ∈ keys := by
  unfold keySet
  rw [OrderedSet.mem_foldl_add]
  simp [OrderedMap.keys, OrderedMap.empty]

theorem find?_foldl_insertDiff (key : Bytes) (rest : List Bytes)
    (diffs : OrderedMap Server (OrderedSet Bytes)) (s t : Server) :
    ((key :: rest).foldl (fun diffs key => insertDiff diffs s key) diffs).find? t =
      if t = s then
        some ((key :: rest).foldl OrderedSet.add ((diffs.find? s).getD OrderedMap.empty))
      else diffs.find? t := by
  induction rest generalizing key diffs with
  | nil => exact find?_insertDiff diffs s t key
  | cons key' rest ih =>
      rw [List.foldl_cons, ih, find?_insertDiff, find?_insertDiff, if_pos rfl]
      by_cases ht : t = s
      · rw [if_pos ht, if_pos ht]
        rfl
      · rw [if_neg ht, if_neg ht, if_neg ht]

theorem find?_addPeer (hkeys : keys ≠ []) (t : Server) (hs : s ≠ server) :
    (if ¬ diffs.contains t ∧ t ≠ server then
        keys.foldl (fun diffs key => insertDiff diffs t key) diffs else diffs).find? s =
      if s = t then some ((diffs.find? s).getD (keySet keys)) else diffs.find? s := by
  obtain ⟨key, rest, rfl⟩ := List.exists_cons_of_ne_nil hkeys
  by_cases hst : s = t
  · subst hst
    rw [if_pos rfl]
    cases hfind : diffs.find? s with
    | none =>
        have hnot : ¬ diffs.contains s = true := by
          rw [OrderedMap.contains_iff]
          exact OrderedMap.find?_eq_none.mp hfind
        rw [if_pos ⟨hnot, hs⟩, find?_foldl_insertDiff, if_pos rfl, hfind]
        rfl
    | some set =>
        have hin : diffs.contains s = true := by
          rw [OrderedMap.contains_iff]
          exact OrderedMap.mem_keys.mpr ⟨set, hfind⟩
        rw [if_neg fun h => h.1 hin, hfind]
        rfl
  · rw [if_neg hst]
    split
    · rw [find?_foldl_insertDiff, if_neg hst]
    · rfl

theorem find?_addPeer_self (t : Server) :
    (if ¬ diffs.contains t ∧ t ≠ server then
        keys.foldl (fun diffs key => insertDiff diffs t key) diffs else diffs).find? server =
      diffs.find? server := by
  split
  · next h =>
      cases keys with
      | nil => rfl
      | cons key rest => rw [find?_foldl_insertDiff, if_neg fun he => h.2 he.symm]
  · rfl

theorem find?_addPeers (hkeys : keys ≠ []) (servers : List Server) (hs : s ≠ server) :
    (servers.foldl (fun diffs s => if ¬ diffs.contains s ∧ s ≠ server then
        keys.foldl (fun diffs key => insertDiff diffs s key) diffs else diffs) diffs).find? s =
      if s ∈ servers then some ((diffs.find? s).getD (keySet keys)) else diffs.find? s := by
  induction servers generalizing diffs with
  | nil => rfl
  | cons t rest ih =>
      rw [List.foldl_cons, ih, find?_addPeer hkeys t hs]
      by_cases hst : s = t
      · have hmem : s ∈ t :: rest := hst ▸ List.mem_cons_self
        rw [if_pos hst, if_pos hmem]
        split <;> rfl
      · have hmem : s ∈ t :: rest ↔ s ∈ rest := by
          rw [List.mem_cons]
          exact or_iff_right hst
        rw [if_neg hst]
        simp only [hmem]

theorem find?_addPeers_self (servers : List Server) :
    (servers.foldl (fun diffs s => if ¬ diffs.contains s ∧ s ≠ server then
        keys.foldl (fun diffs key => insertDiff diffs s key) diffs else diffs) diffs).find?
      server = diffs.find? server := by
  induction servers generalizing diffs with
  | nil => rfl
  | cons t rest ih => rw [List.foldl_cons, ih, find?_addPeer_self]

theorem find?_adjustDiffs (hkeys : keys ≠ []) (servers : List Server) (hs : s ≠ server) :
    (adjustDiffs server keys servers diffs).find? s =
      if s ∈ servers then some ((diffs.find? s).getD (keySet keys)) else none := by
  unfold adjustDiffs
  rw [OrderedMap.find?_filter, find?_addPeers hkeys servers hs]
  by_cases hmem : s ∈ servers
  · simp [hmem]
  · cases diffs.find? s <;> simp [hmem]

theorem find?_adjustDiffs_self (servers : List Server) (hself : diffs.find? server = none) :
    (adjustDiffs server keys servers diffs).find? server = none := by
  unfold adjustDiffs
  rw [OrderedMap.find?_filter, find?_addPeers_self, hself]
  rfl

/-! ## All the entries -/

/-- The visited entries one after the other, by their groups. -/
def adjustAll (server : Server) (keys : List Bytes) (groups : List (List Server))
    (diffs : OrderedMap Server (OrderedSet Bytes)) : OrderedMap Server (OrderedSet Bytes) :=
  groups.foldl (fun diffs servers => adjustDiffs server keys servers diffs) diffs

/-- A peer of the last group keeps its set if it is in every group, and has the
keys of the list otherwise. -/
theorem find?_adjustAll (hkeys : keys ≠ []) (hs : s ≠ server) (groups : List (List Server))
    (last : List Server) :
    (adjustAll server keys (groups ++ [last]) diffs).find? s =
      if s ∈ last then
        some (if ∀ g ∈ groups, s ∈ g then (diffs.find? s).getD (keySet keys) else keySet keys)
      else none := by
  unfold adjustAll
  induction groups generalizing diffs with
  | nil =>
      simp only [List.nil_append, List.foldl_cons, List.foldl_nil, find?_adjustDiffs hkeys last hs]
      simp
  | cons g rest ih =>
      rw [List.cons_append, List.foldl_cons, ih, find?_adjustDiffs hkeys g hs]
      by_cases hg : s ∈ g
      · simp [hg]
      · simp [hg]

theorem find?_adjustAll_self (hself : diffs.find? server = none) (groups : List (List Server)) :
    (adjustAll server keys groups diffs).find? server = none := by
  unfold adjustAll
  induction groups generalizing diffs with
  | nil => exact hself
  | cons g rest ih => exact ih (find?_adjustDiffs_self g hself)

end Handler

/-- The loop of `cleanHash` adjusts `diffs` at the entries in front of the first
that is not owned. -/
theorem Lru.cleanDiffs_eq (server : Server) (v : View) (keys : List Bytes) (items : List Item)
    (diffs : OrderedMap Server (OrderedSet Bytes)) :
    cleanDiffs server v keys items diffs = Handler.adjustAll server keys
      ((items.takeWhile fun it => server ∈ group it.key v).map fun it => group it.key v) diffs := by
  induction items generalizing diffs with
  | nil => rfl
  | cons it rest ih =>
      by_cases hown : server ∈ group it.key v
      · rw [List.takeWhile_cons_of_pos (by simpa using hown)]
        simp only [cleanDiffs, if_pos hown]
        exact ih _
      · rw [List.takeWhile_cons_of_neg (by simpa using hown)]
        simp only [cleanDiffs, if_neg hown]
        rfl

end RobustCache
