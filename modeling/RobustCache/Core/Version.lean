import RobustCache.Core.Types

/-! # Version vectors

The comparison and merge loops of the server over lists of (server, counter)
pairs, as written, and the order that the comparison loops decide.
-/

namespace RobustCache

/-- No common server has a larger counter on the left, and every server of the
left occurs on the right. -/
def atMost (v1 v2 : Version) : Bool :=
  (v1.all fun a => v2.all fun b => !(decide (a.1 = b.1) && decide (a.2 > b.2))) &&
    v1.all fun a => v2.any fun b => decide (a.1 = b.1)

/-- Raise the counter of the pair's server; a server that is absent stays absent. -/
def updateVersion (v1 : Version) (v2 : Server × Int) : Version :=
  v1.map fun a => if v2.1 = a.1 then (a.1, max a.2 v2.2) else a

def maximumVersion (v1 v2 : Version) : Version :=
  v2.foldl updateVersion (v1.foldl updateVersion [])

/-- The loop of `put`: count one more write of `server`, at its first pair or in
a new pair at the end. -/
def incrementVersion (server : Server) : Version → Version
  | [] => [(server, 1)]
  | p :: rest =>
      if p.1 = server then (p.1, p.2 + 1) :: rest else p :: incrementVersion server rest

/-- The counter that `put` increments, zero when the server is absent. -/
def counter (server : Server) : Version → Int
  | [] => 0
  | p :: rest => if p.1 = server then p.2 else counter server rest

theorem atMost_iff {v w : Version} :
    atMost v w = true ↔
      (∀ a ∈ v, ∀ b ∈ w, a.1 = b.1 → a.2 ≤ b.2) ∧ ∀ a ∈ v, ∃ b ∈ w, a.1 = b.1 := by
  simp only [atMost, Bool.and_eq_true, List.all_eq_true, List.any_eq_true,
    Bool.not_eq_true', Bool.and_eq_false_iff, decide_eq_false_iff_not, decide_eq_true_eq,
    gt_iff_lt, not_lt]
  constructor
  · rintro ⟨h, h'⟩
    exact ⟨fun a ha b hb he => (h a ha b hb).resolve_left (fun hne => hne he), h'⟩
  · rintro ⟨h, h'⟩
    exact ⟨fun a ha b hb => or_iff_not_imp_left.mpr fun he => h a ha b hb (not_not.mp he), h'⟩

theorem atMost_trans {u v w : Version} (h : atMost u v = true) (h' : atMost v w = true) :
    atMost u w = true := by
  rw [atMost_iff] at h h' ⊢
  refine ⟨fun a ha c hc he => ?_, fun a ha => ?_⟩
  · obtain ⟨b, hb, hab⟩ := h.2 a ha
    exact (h.1 a ha b hb hab).trans (h'.1 b hb c hc (hab.symm.trans he))
  · obtain ⟨b, hb, hab⟩ := h.2 a ha
    obtain ⟨c, hc, hbc⟩ := h'.2 b hb
    exact ⟨c, hc, hab.trans hbc⟩

def Version.Distinct (v : Version) : Prop := (v.map Prod.fst).Nodup

instance (v : Version) : Decidable v.Distinct := inferInstanceAs (Decidable (List.Nodup _))

theorem atMost_refl {v : Version} (h : v.Distinct) : atMost v v = true := by
  rw [atMost_iff]
  refine ⟨fun a ha b hb he => ?_, fun a ha => ⟨a, ha, rfl⟩⟩
  rw [List.inj_on_of_nodup_map h ha hb he]

/-- On distinct servers the two passes decide the pointwise order. -/
theorem atMost_iff_of_distinct {v w : Version} (hw : w.Distinct) :
    atMost v w = true ↔ ∀ a ∈ v, ∃ b ∈ w, b.1 = a.1 ∧ a.2 ≤ b.2 := by
  rw [atMost_iff]
  constructor
  · intro h a ha
    obtain ⟨b, hb, he⟩ := h.2 a ha
    exact ⟨b, hb, he.symm, h.1 a ha b hb he⟩
  · intro h
    constructor
    · intro a ha b hb he
      obtain ⟨b', hb', he', hle⟩ := h a ha
      rw [List.inj_on_of_nodup_map hw hb hb' (he.symm.trans he'.symm)]
      exact hle
    · intro a ha
      obtain ⟨b, hb, he, -⟩ := h a ha
      exact ⟨b, hb, he.symm⟩

theorem mem_of_atMost {v w : Version} (h : atMost v w = true) (h' : atMost w v = true)
    {a : Server × Int} (ha : a ∈ v) : a ∈ w := by
  rw [atMost_iff] at h h'
  obtain ⟨b, hb, hab⟩ := h.2 a ha
  have hle : a.2 ≤ b.2 := h.1 a ha b hb hab
  have hge : b.2 ≤ a.2 := h'.1 b hb a ha hab.symm
  have he : a = b := Prod.ext hab (le_antisymm hle hge)
  rw [he]
  exact hb

theorem perm_of_atMost {v w : Version} (hv : v.Distinct) (hw : w.Distinct)
    (h : atMost v w = true) (h' : atMost w v = true) : v.Perm w := by
  rw [List.perm_ext_iff_of_nodup (List.Nodup.of_map Prod.fst hv) (List.Nodup.of_map Prod.fst hw)]
  intro a
  constructor
  · intro ha
    exact mem_of_atMost h h' ha
  · intro ha
    exact mem_of_atMost h' h ha

theorem atMost_filter {v w : Version} (p : Server → Bool) (h : atMost v w = true) :
    atMost (v.filter fun a => p a.1) (w.filter fun a => p a.1) = true := by
  rw [atMost_iff] at h ⊢
  constructor
  · intro a ha b hb he
    exact h.1 a (List.mem_filter.mp ha).1 b (List.mem_filter.mp hb).1 he
  · intro a ha
    obtain ⟨hmem, hp⟩ := List.mem_filter.mp ha
    obtain ⟨b, hb, he⟩ := h.2 a hmem
    rw [he] at hp
    exact ⟨b, List.mem_filter.mpr ⟨hb, hp⟩, he⟩

/-- The merge starts from an empty vector and only raises counters that are
already there, so it is empty whatever the arguments are. -/
theorem maximumVersion_eq_nil (v w : Version) : maximumVersion v w = [] := by
  have h : ∀ u : Version, u.foldl updateVersion [] = [] := by
    intro u
    induction u with
    | nil => rfl
    | cons p rest ih => simpa [updateVersion] using ih
  rw [maximumVersion, h, h]

/-! ## Counting a write -/

theorem mem_incrementVersion_self (server : Server) (v : Version) :
    (server, counter server v + 1) ∈ incrementVersion server v := by
  induction v with
  | nil => simp [incrementVersion, counter]
  | cons p rest ih =>
      by_cases hp : p.1 = server
      · simp [incrementVersion, counter, hp]
      · simp [incrementVersion, counter, hp, ih]

theorem mem_incrementVersion {server : Server} {v : Version} {p : Server × Int}
    (h : p ∈ incrementVersion server v) :
    p = (server, counter server v + 1) ∨ p ∈ v := by
  induction v with
  | nil => simpa [incrementVersion, counter] using h
  | cons q rest ih =>
      by_cases hq : q.1 = server
      · simp only [incrementVersion, counter, hq, if_true, List.mem_cons] at h ⊢
        exact h.imp_right .inr
      · simp only [incrementVersion, counter, hq, if_false, List.mem_cons] at h ⊢
        rcases h with rfl | h
        · exact .inr (.inl rfl)
        · exact (ih h).imp_right .inr

theorem map_fst_incrementVersion (server : Server) (v : Version) :
    (incrementVersion server v).map Prod.fst =
      if server ∈ v.map Prod.fst then v.map Prod.fst else v.map Prod.fst ++ [server] := by
  induction v with
  | nil => simp [incrementVersion]
  | cons p rest ih =>
      by_cases hp : p.1 = server
      · simp [incrementVersion, hp]
      · simp only [incrementVersion, if_neg hp, List.map_cons, ih, List.mem_cons,
          Ne.symm hp, false_or]
        split <;> simp

theorem incrementVersion_distinct {server : Server} {v : Version} (h : v.Distinct) :
    (incrementVersion server v).Distinct := by
  unfold Version.Distinct at h ⊢
  rw [map_fst_incrementVersion]
  split
  · exact h
  · next hm =>
      refine List.nodup_append.mpr ⟨h, by simp, ?_⟩
      rintro a ha b hb rfl
      rw [List.mem_singleton] at hb
      exact hm (hb ▸ ha)

theorem counter_of_mem {server : Server} {v : Version} (h : v.Distinct) {c : Int}
    (hm : (server, c) ∈ v) : counter server v = c := by
  induction v with
  | nil => simp at hm
  | cons p rest ih =>
      obtain ⟨hp, hrest⟩ := List.nodup_cons.mp h
      rcases List.mem_cons.mp hm with rfl | hm
      · simp [counter]
      · have hne : p.1 ≠ server := fun he =>
          hp (List.mem_map.mpr ⟨(server, c), hm, he.symm⟩)
        simp [counter, hne, ih hrest hm]

theorem atMost_incrementVersion {server : Server} {v : Version} (h : v.Distinct) :
    atMost v (incrementVersion server v) = true := by
  rw [atMost_iff]
  constructor
  · rintro ⟨s, c⟩ ha ⟨s', c'⟩ hb rfl
    rcases mem_incrementVersion hb with he | hmem
    · cases he
      rw [counter_of_mem h ha]
      simp
    · rw [List.inj_on_of_nodup_map h ha hmem rfl]
  · intro a ha
    have hfst : a.1 ∈ (incrementVersion server v).map Prod.fst := by
      rw [map_fst_incrementVersion]
      split <;> simp [List.mem_map_of_mem ha]
    obtain ⟨b, hb, he⟩ := List.mem_map.mp hfst
    exact ⟨b, hb, he.symm⟩

end RobustCache
