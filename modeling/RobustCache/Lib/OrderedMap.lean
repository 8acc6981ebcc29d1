import Mathlib.Order.Basic
import Mathlib.Data.List.Sort
import Mathlib.Tactic

/-! # Ordered maps

A finite map kept as the list of its entries in increasing key order, with the
order as a field: iteration, the lower bound and the first entry read the list,
and a map with unsorted or repeated keys cannot be built.
-/

namespace RobustCache.Lib

structure OrderedMap (K V : Type) [LinearOrder K] where
  entries : List (K × V)
  sorted : (entries.map Prod.fst).Pairwise (· < ·)

namespace OrderedMap

variable {K V : Type} [LinearOrder K]

@[ext] theorem ext {m m' : OrderedMap K V} (h : m.entries = m'.entries) : m = m' := by
  cases m
  cases m'
  cases h
  rfl

instance [DecidableEq V] : DecidableEq (OrderedMap K V) := fun m m' =>
  decidable_of_iff (m.entries = m'.entries) ⟨ext, fun h => h ▸ rfl⟩

def empty : OrderedMap K V := ⟨[], List.Pairwise.nil⟩

instance : Inhabited (OrderedMap K V) := ⟨empty⟩

def isEmpty (m : OrderedMap K V) : Bool := m.entries.isEmpty

def keys (m : OrderedMap K V) : List K := m.entries.map Prod.fst

def find? (m : OrderedMap K V) (k : K) : Option V :=
  (m.entries.find? fun e => e.1 = k).map Prod.snd

def contains (m : OrderedMap K V) (k : K) : Bool := decide (k ∈ m.keys)

/-- The entry with the least key that is at least `k`. -/
def lowerBound (m : OrderedMap K V) (k : K) : Option (K × V) :=
  m.entries.find? fun e => k ≤ e.1

def first (m : OrderedMap K V) : Option (K × V) := m.entries.head?

/-- Update the value under `k`, inserting it in key order when it is absent. -/
def alterEntries (k : K) (f : Option V → V) : List (K × V) → List (K × V)
  | [] => [(k, f none)]
  | e :: rest =>
      if k < e.1 then (k, f none) :: e :: rest
      else if e.1 < k then e :: alterEntries k f rest
      else (k, f (some e.2)) :: rest

theorem mem_alterEntries {k : K} {f : Option V → V} {l : List (K × V)} {a : K}
    (h : a ∈ (alterEntries k f l).map Prod.fst) : a = k ∨ a ∈ l.map Prod.fst := by
  induction l with
  | nil => simpa [alterEntries] using h
  | cons e rest ih =>
      simp only [alterEntries] at h
      split at h
      · simpa using h
      · split at h
        · simp only [List.map_cons, List.mem_cons] at h ⊢
          rcases h with h | h
          · exact .inr (.inl h)
          · exact (ih h).imp_right .inr
        · simp only [List.map_cons, List.mem_cons] at h ⊢
          exact h.imp_right .inr

theorem alterEntries_sorted {k : K} {f : Option V → V} {l : List (K × V)}
    (h : (l.map Prod.fst).Pairwise (· < ·)) :
    ((alterEntries k f l).map Prod.fst).Pairwise (· < ·) := by
  induction l with
  | nil => simp [alterEntries]
  | cons e rest ih =>
      simp only [List.map_cons, List.pairwise_cons] at h
      simp only [alterEntries]
      split
      · next hlt =>
          simp only [List.map_cons, List.pairwise_cons, List.mem_cons]
          refine ⟨?_, h⟩
          rintro a (rfl | ha)
          · exact hlt
          · exact hlt.trans (h.1 a ha)
      · split
        · next hgt =>
            simp only [List.map_cons, List.pairwise_cons]
            refine ⟨?_, ih h.2⟩
            intro a ha
            rcases mem_alterEntries ha with rfl | ha
            · exact hgt
            · exact h.1 a ha
        · next hnlt hngt =>
            have hk : e.1 = k := le_antisymm (not_lt.mp hnlt) (not_lt.mp hngt)
            simp only [List.map_cons, List.pairwise_cons]
            exact ⟨fun a ha => hk ▸ h.1 a ha, h.2⟩

def alter (m : OrderedMap K V) (k : K) (f : Option V → V) : OrderedMap K V :=
  ⟨alterEntries k f m.entries, alterEntries_sorted m.sorted⟩

def insert (m : OrderedMap K V) (k : K) (v : V) : OrderedMap K V := m.alter k fun _ => v

def filter (m : OrderedMap K V) (p : K → V → Bool) : OrderedMap K V :=
  ⟨m.entries.filter fun e => p e.1 e.2,
    (m.sorted.sublist (List.filter_sublist.map Prod.fst))⟩

def erase (m : OrderedMap K V) (k : K) : OrderedMap K V := m.filter fun a _ => a ≠ k

theorem filterMap_sorted {W : Type} {l : List (K × V)} (f : V → Option W)
    (h : (l.map Prod.fst).Pairwise (· < ·)) :
    ((l.filterMap fun e => (f e.2).map fun w => (e.1, w)).map Prod.fst).Pairwise (· < ·) := by
  induction l with
  | nil => simp
  | cons e rest ih =>
      simp only [List.map_cons, List.pairwise_cons] at h
      cases hf : f e.2 with
      | none => simpa [hf] using ih h.2
      | some w =>
          simp only [List.filterMap_cons, hf, Option.map_some, List.map_cons,
            List.pairwise_cons]
          refine ⟨?_, ih h.2⟩
          intro a ha
          refine h.1 a ?_
          simp only [List.mem_map, List.mem_filterMap, Option.map_eq_some_iff] at ha
          obtain ⟨x, ⟨e', he', w', _, rfl⟩, rfl⟩ := ha
          exact List.mem_map.mpr ⟨e', he', rfl⟩

/-- Map the values, dropping the entries whose value vanishes. -/
def filterMapValues {W : Type} (m : OrderedMap K V) (f : V → Option W) : OrderedMap K W :=
  ⟨m.entries.filterMap fun e => (f e.2).map fun w => (e.1, w), filterMap_sorted f m.sorted⟩

/-! ## Reading the entries -/

theorem find?_eq_some {m : OrderedMap K V} {k : K} {v : V} :
    m.find? k = some v ↔ (k, v) ∈ m.entries := by
  obtain ⟨l, h⟩ := m
  unfold find?
  induction l with
  | nil => simp
  | cons e rest ih =>
      simp only [List.map_cons, List.pairwise_cons] at h
      by_cases hk : e.1 = k
      · have hnot : (k, v) ∉ rest := fun hm =>
          absurd (h.1 k (List.mem_map.mpr ⟨(k, v), hm, rfl⟩)) (by simp [hk])
        simp only [List.find?_cons, hk, decide_true, Option.map_some, Option.some.injEq,
          List.mem_cons, hnot, or_false]
        constructor
        · rintro rfl
          exact hk ▸ rfl
        · rintro rfl
          rfl
      · simp only [List.find?_cons, hk, decide_false, List.mem_cons, ih h.2]
        constructor
        · exact .inr
        · rintro (rfl | hm)
          · exact absurd rfl hk
          · exact hm

theorem find?_eq_none {m : OrderedMap K V} {k : K} : m.find? k = none ↔ k ∉ m.keys := by
  unfold find? keys
  rw [Option.map_eq_none_iff, List.find?_eq_none]
  simp only [decide_eq_true_eq, List.mem_map, not_exists, not_and]

theorem mem_keys {m : OrderedMap K V} {k : K} : k ∈ m.keys ↔ ∃ v, m.find? k = some v := by
  rw [← not_iff_not, ← find?_eq_none]
  cases m.find? k <;> simp

theorem nodup_keys (m : OrderedMap K V) : m.keys.Nodup := m.sorted.imp ne_of_lt

theorem contains_iff {m : OrderedMap K V} {k : K} : m.contains k = true ↔ k ∈ m.keys :=
  decide_eq_true_iff

@[simp] theorem find?_empty (k : K) : (empty : OrderedMap K V).find? k = none := rfl

theorem find?_alter (m : OrderedMap K V) (k : K) (f : Option V → V) (a : K) :
    (m.alter k f).find? a = if a = k then some (f (m.find? k)) else m.find? a := by
  obtain ⟨l, h⟩ := m
  unfold find? alter
  simp only
  induction l with
  | nil =>
      by_cases ha : a = k
      · simp [alterEntries, ha]
      · simp [alterEntries, ha, Ne.symm ha]
  | cons e rest ih =>
      simp only [List.map_cons, List.pairwise_cons] at h
      simp only [alterEntries]
      split
      · next hlt =>
          have hnone : ∀ x ∈ e :: rest, ¬ decide (x.1 = k) = true := by
            intro x hx
            have : k < x.1 := by
              rcases List.mem_cons.mp hx with rfl | hx
              · exact hlt
              · exact hlt.trans (h.1 _ (List.mem_map.mpr ⟨x, hx, rfl⟩))
            simp [this.ne']
          by_cases ha : a = k
          · subst ha
            rw [List.find?_eq_none.mpr hnone]
            simp
          · simp [List.find?_cons, ha, Ne.symm ha]
      · split
        · next hgt =>
            by_cases ha : a = k
            · subst ha
              have := ih h.2
              simp only [if_true] at this ⊢
              simp [hgt.ne, this]
            · have := ih h.2
              simp only [if_neg ha] at this ⊢
              by_cases he : e.1 = a
              · simp [he]
              · simp [he, this]
        · next hnlt hngt =>
            have hk : e.1 = k := le_antisymm (not_lt.mp hnlt) (not_lt.mp hngt)
            by_cases ha : a = k
            · simp [ha, hk]
            · simp [ha, Ne.symm ha, hk]

theorem find?_insert (m : OrderedMap K V) (k : K) (v : V) (a : K) :
    (m.insert k v).find? a = if a = k then some v else m.find? a :=
  find?_alter m k _ a

theorem mem_keys_insert {m : OrderedMap K V} {k a : K} {v : V} :
    a ∈ (m.insert k v).keys ↔ a = k ∨ a ∈ m.keys := by
  rw [mem_keys, mem_keys, find?_insert]
  by_cases h : a = k
  · simp [h]
  · simp [h]

theorem find?_filter (m : OrderedMap K V) (p : K → V → Bool) (k : K) :
    (m.filter p).find? k = (m.find? k).filter fun v => p k v := by
  cases h : m.find? k with
  | none =>
      rw [Option.filter_none, find?_eq_none]
      intro hm
      obtain ⟨e, he, rfl⟩ := List.mem_map.mp hm
      rw [find?_eq_none] at h
      exact h (List.mem_map.mpr ⟨e, (List.mem_filter.mp he).1, rfl⟩)
  | some v =>
      have hmem := find?_eq_some.mp h
      by_cases hp : p k v = true
      · simp only [Option.filter_some, hp, if_true]
        exact find?_eq_some.mpr (List.mem_filter.mpr ⟨hmem, hp⟩)
      · rw [Option.filter_some, if_neg hp, find?_eq_none]
        intro hm
        obtain ⟨e, he, rfl⟩ := List.mem_map.mp hm
        obtain ⟨he, hpe⟩ := List.mem_filter.mp he
        have : m.find? e.1 = some e.2 := find?_eq_some.mpr he
        rw [h, Option.some.injEq] at this
        exact hp (this ▸ hpe)

theorem find?_erase (m : OrderedMap K V) (k a : K) :
    (m.erase k).find? a = if a = k then none else m.find? a := by
  unfold erase
  rw [find?_filter]
  by_cases h : a = k
  · subst h
    cases m.find? a <;> simp
  · cases m.find? a <;> simp [h]

theorem least_of_find? {m : OrderedMap K V} {p : K × V → Bool} {e : K × V}
    (he : m.entries.find? p = some e) {e' : K × V} (hmem : e' ∈ m.entries) (hp : p e' = true) :
    e.1 ≤ e'.1 := by
  obtain ⟨l, hs⟩ := m
  obtain ⟨-, front, back, rfl, hnone⟩ := List.find?_eq_some_iff_append.mp he
  rcases List.mem_append.mp hmem with hfront | hback
  · have hno := hnone e' hfront
    simp [hp] at hno
  · rcases List.mem_cons.mp hback with rfl | hback
    · exact le_refl _
    · rw [List.map_append, List.map_cons, List.pairwise_append, List.pairwise_cons] at hs
      exact (hs.2.1.1 e'.1 (List.mem_map.mpr ⟨e', hback, rfl⟩)).le

theorem length_erase {m : OrderedMap K V} {k : K} (hk : k ∈ m.keys) :
    (m.erase k).entries.length + 1 = m.entries.length := by
  have hone : (m.entries.filter fun e => !decide (e.1 ≠ k)).length = 1 := by
    have hcount := List.count_eq_one_of_mem m.nodup_keys hk
    rw [keys, List.count, List.countP_map, List.countP_eq_length_filter] at hcount
    rw [← hcount]
    congr 2
    funext e
    by_cases he : e.1 = k <;> simp [he]
  have hsplit := List.length_eq_length_filter_add (l := m.entries) fun e => decide (e.1 ≠ k)
  rw [hsplit, hone]
  rfl

theorem find?_filterMapValues {W : Type} (m : OrderedMap K V) (f : V → Option W) (k : K) :
    (m.filterMapValues f).find? k = (m.find? k).bind f := by
  apply Option.ext
  intro w
  rw [find?_eq_some]
  simp only [filterMapValues, List.mem_filterMap, Option.map_eq_some_iff, Option.bind_eq_some_iff,
    find?_eq_some]
  constructor
  · rintro ⟨e, he, w', hw, heq⟩
    cases heq
    exact ⟨e.2, he, hw⟩
  · rintro ⟨v, hv, hw⟩
    exact ⟨(k, v), hv, w, hw, rfl⟩

theorem isEmpty_iff {m : OrderedMap K V} : m.isEmpty = true ↔ ∀ k, m.find? k = none := by
  unfold isEmpty
  rw [List.isEmpty_iff]
  constructor
  · intro h k
    simp [find?, h]
  · intro h
    by_contra hne
    obtain ⟨e, he⟩ := List.exists_mem_of_ne_nil _ hne
    have := h e.1
    rw [find?_eq_none] at this
    exact this (List.mem_map.mpr ⟨e, he, rfl⟩)

end OrderedMap

abbrev OrderedSet (K : Type) [LinearOrder K] := OrderedMap K Unit

namespace OrderedSet

variable {K : Type} [LinearOrder K]

def add (s : OrderedSet K) (k : K) : OrderedSet K := OrderedMap.insert s k ()

theorem mem_add {s : OrderedSet K} {k a : K} :
    a ∈ (add s k).keys ↔ a = k ∨ a ∈ s.keys :=
  OrderedMap.mem_keys_insert

theorem mem_foldl_add {s : OrderedSet K} {l : List K} {a : K} :
    a ∈ (l.foldl add s).keys ↔ a ∈ s.keys ∨ a ∈ l := by
  induction l generalizing s with
  | nil => simp
  | cons k rest ih =>
      rw [List.foldl_cons, ih, mem_add, List.mem_cons, or_assoc, or_left_comm]

end OrderedSet

end RobustCache.Lib
