import RobustCache.Lib.Recency

/-! # Where an item stands in a recency list

In front of an item stand only items that have been used after it. As long as
these and the item itself fit, no eviction reaches the item, whatever else the
list holds.
-/

namespace RobustCache.Lib.Recency

variable {α κ : Type} [DecidableEq κ] {key : α → κ}

/-- The item is in the list, behind items with the property only. -/
def Stands (ahead : α → Prop) (a : α) (l : List α) : Prop :=
  ∃ front back, l = front ++ a :: back ∧ ∀ b ∈ front, ahead b

variable {ahead : α → Prop} {a b : α} {l : List α} {k : κ}

omit [DecidableEq κ] in
theorem stands_head (a : α) (l : List α) : Stands ahead a (a :: l) :=
  ⟨[], l, rfl, fun b hb => by cases hb⟩

namespace Stands

omit [DecidableEq κ] in
theorem mem (h : Stands ahead a l) : a ∈ l := by
  obtain ⟨front, back, rfl, -⟩ := h
  simp

omit [DecidableEq κ] in
theorem cons (h : Stands ahead a l) (hb : ahead b) : Stands ahead a (b :: l) := by
  obtain ⟨front, back, rfl, hfront⟩ := h
  refine ⟨b :: front, back, rfl, fun c hc => ?_⟩
  rcases List.mem_cons.mp hc with rfl | hc
  · exact hb
  · exact hfront c hc

theorem remove (h : Stands ahead a l) (hk : key a ≠ k) : Stands ahead a (remove key k l) := by
  obtain ⟨front, back, rfl, hfront⟩ := h
  refine ⟨Recency.remove key k front, Recency.remove key k back, ?_, fun b hb => ?_⟩
  · simp [Recency.remove, hk]
  · exact hfront b (mem_remove.mp hb).1

theorem promote (h : Stands ahead a l) (hb : ahead b) (hk : key a ≠ key b) :
    Stands ahead a (promote key b l) :=
  (h.remove hk).cons hb

theorem rewrite {f : α → α} (h : Stands ahead a l) (hk : key a ≠ k)
    (hf : ∀ b ∈ l, key b = k → ahead b → ahead (f b)) : Stands ahead a (rewrite key k f l) := by
  obtain ⟨front, back, rfl, hfront⟩ := h
  refine ⟨Recency.rewrite key k f front, Recency.rewrite key k f back, ?_, fun b hb => ?_⟩
  · simp [Recency.rewrite, hk]
  · rcases mem_rewrite.mp hb with ⟨hb, -⟩ | ⟨c, hc, hck, rfl⟩
    · exact hfront b hb
    · exact hf c (List.mem_append_left _ hc) hck (hfront c hc)

end Stands

/-! ## Eviction -/

variable {fits : List α → Prop} [DecidablePred fits]

omit [DecidableEq κ] in
theorem prefix_shrink {l' : List α} (hinit : l' <+: l) (hfits : fits l') :
    l' <+: shrink fits l := by
  have htake := List.prefix_iff_eq_take.mp hinit
  have hlen : l'.length ≤ Nat.findGreatest (fun n => fits (l.take n)) l.length := by
    apply Nat.le_findGreatest hinit.length_le
    rw [← htake]
    exact hfits
  rw [htake]
  exact List.take_prefix_take_left hlen

omit [DecidableEq κ] in
theorem Stands.shrink (h : Stands ahead a l)
    (hfits : ∀ front, front ++ [a] <+: l → (∀ b ∈ front, ahead b) → fits (front ++ [a])) :
    Stands ahead a (shrink fits l) := by
  obtain ⟨front, back, rfl, hfront⟩ := h
  have hinit : front ++ [a] <+: front ++ a :: back := ⟨back, by simp⟩
  obtain ⟨rest, hrest⟩ := prefix_shrink hinit (hfits front hinit hfront)
  exact ⟨front, rest, by rw [← hrest]; simp, hfront⟩

/-! ## Weights -/

theorem sum_le_of_distinct {size : α → Int} {weight : κ → Int} {keys : Finset κ}
    (hweight : ∀ k, 0 ≤ weight k) (hdis : Distinct key l)
    (hsize : ∀ a ∈ l, size a ≤ weight (key a)) (hkeys : ∀ a ∈ l, key a ∈ keys) :
    (l.map size).sum ≤ ∑ k ∈ keys, weight k := by
  have hsum : (l.map size).sum ≤ (l.map fun a => weight (key a)).sum :=
    List.sum_le_sum hsize
  have hset : (l.map fun a => weight (key a)).sum = ∑ k ∈ (l.map key).toFinset, weight k := by
    rw [List.sum_toFinset weight hdis, List.map_map]
    rfl
  have hsub : (l.map key).toFinset ⊆ keys := by
    intro k hk
    obtain ⟨a, ha, rfl⟩ := List.mem_map.mp (List.mem_toFinset.mp hk)
    exact hkeys a ha
  calc (l.map size).sum
      ≤ ∑ k ∈ (l.map key).toFinset, weight k := hset ▸ hsum
    _ ≤ ∑ k ∈ keys, weight k := Finset.sum_le_sum_of_subset_of_nonneg hsub fun k _ _ => hweight k

end RobustCache.Lib.Recency
