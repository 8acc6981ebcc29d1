import RobustCache.Lib.OrderedMap

/-! # Points on a circle

The keys of a linear order closed to a circle: going clockwise from a place
means going up, and from the top on to the least point again.
-/

namespace RobustCache.Lib

variable {K V : Type} [LinearOrder K]

/-- `p` is the first point of `s` met going clockwise from `h`, `h` included. -/
def IsNext (s : Set K) (h p : K) : Prop :=
  p ∈ s ∧ ((h ≤ p ∧ ∀ q ∈ s, h ≤ q → p ≤ q) ∨ ((∀ q ∈ s, q < h) ∧ ∀ q ∈ s, p ≤ q))

namespace IsNext

variable {s t : Set K} {h p q : K}

theorem unique (hp : IsNext s h p) (hq : IsNext s h q) : p = q := by
  obtain ⟨hps, ⟨hhp, hleast⟩ | ⟨hbelow, hleast⟩⟩ := hp
  · obtain ⟨hqs, ⟨hhq, hleast'⟩ | ⟨hbelow', -⟩⟩ := hq
    · exact le_antisymm (hleast q hqs hhq) (hleast' p hps hhp)
    · exact absurd (hbelow' p hps) (not_lt.mpr hhp)
  · obtain ⟨hqs, ⟨hhq, -⟩ | ⟨-, hleast'⟩⟩ := hq
    · exact absurd (hbelow q hqs) (not_lt.mpr hhq)
    · exact le_antisymm (hleast q hqs) (hleast' p hps)

theorem restrict (hp : IsNext s h p) (hsub : t ⊆ s) (hpt : p ∈ t) : IsNext t h p := by
  obtain ⟨-, ⟨hhp, hleast⟩ | ⟨hbelow, hleast⟩⟩ := hp
  · exact ⟨hpt, .inl ⟨hhp, fun q hq => hleast q (hsub hq)⟩⟩
  · exact ⟨hpt, .inr ⟨fun q hq => hbelow q (hsub hq), fun q hq => hleast q (hsub hq)⟩⟩

/-- Among points of `s`, the way from `h` and the way from the first point of
`s` after `h` meet the same point first. -/
theorem from_next (hp : IsNext s h p) (hsub : t ⊆ s) : IsNext t h q ↔ IsNext t p q := by
  obtain ⟨hps, ⟨hhp, hleast⟩ | ⟨hbelow, hleast⟩⟩ := hp
  · have hle : ∀ r ∈ t, h ≤ r ↔ p ≤ r := fun r hr =>
      ⟨hleast r (hsub hr), fun hpr => hhp.trans hpr⟩
    have hlt : ∀ r ∈ t, r < h ↔ r < p := fun r hr => by
      rw [← not_le, ← not_le, hle r hr]
    constructor
    · rintro ⟨hq, ⟨hhq, hfirst⟩ | ⟨hall, hfirst⟩⟩
      · exact ⟨hq, .inl ⟨(hle q hq).mp hhq, fun r hr hpr => hfirst r hr ((hle r hr).mpr hpr)⟩⟩
      · exact ⟨hq, .inr ⟨fun r hr => (hlt r hr).mp (hall r hr), hfirst⟩⟩
    · rintro ⟨hq, ⟨hpq, hfirst⟩ | ⟨hall, hfirst⟩⟩
      · exact ⟨hq, .inl ⟨(hle q hq).mpr hpq, fun r hr hhr => hfirst r hr ((hle r hr).mp hhr)⟩⟩
      · exact ⟨hq, .inr ⟨fun r hr => (hlt r hr).mpr (hall r hr), hfirst⟩⟩
  · -- both ways start below every point
    constructor
    · rintro ⟨hq, ⟨hhq, -⟩ | ⟨-, hfirst⟩⟩
      · exact absurd (hbelow q (hsub hq)) (not_lt.mpr hhq)
      · exact ⟨hq, .inl ⟨hleast q (hsub hq), fun r hr _ => hfirst r hr⟩⟩
    · rintro ⟨hq, ⟨-, hfirst⟩ | ⟨hall, -⟩⟩
      · exact ⟨hq, .inr ⟨fun r hr => hbelow r (hsub hr),
          fun r hr => hfirst r hr (hleast r (hsub hr))⟩⟩
      · exact absurd (hall q hq) (not_lt.mpr (hleast q (hsub hq)))

theorem of_below {first : K} {rest : List K} (hsorted : (first :: rest).Pairwise (· < ·))
    (hbelow : ∀ k ∈ first :: rest, k < h) : IsNext {k | k ∈ first :: rest} h first := by
  refine ⟨List.mem_cons_self, .inr ⟨hbelow, fun k hk => ?_⟩⟩
  rcases List.mem_cons.mp hk with rfl | hk
  · exact le_refl _
  · exact (List.rel_of_pairwise_cons hsorted hk).le

theorem of_split {front rest : List K} (hsorted : (front ++ q :: rest).Pairwise (· < ·))
    (hbelow : ∀ k ∈ front, k < h) (hq : h ≤ q) : IsNext {k | k ∈ front ++ q :: rest} h q := by
  refine ⟨List.mem_append_right front List.mem_cons_self, .inl ⟨hq, fun k hk hle => ?_⟩⟩
  rcases List.mem_append.mp hk with hk | hk
  · exact absurd (hbelow k hk) (not_lt.mpr hle)
  · rcases List.mem_cons.mp hk with rfl | hk
    · exact le_refl _
    · exact (List.rel_of_pairwise_cons (List.pairwise_append.mp hsorted).2.1 hk).le

end IsNext

namespace OrderedMap

variable {m : OrderedMap K V} {h p : K} {v : V}

def points (m : OrderedMap K V) : Set K := {k | ∃ v, m.find? k = some v}

/-- The entry with the least key at or after `h`, or else the one with the least
key. -/
def next (m : OrderedMap K V) (h : K) : Option (K × V) :=
  match m.lowerBound h with
  | some e => some e
  | none => m.first

theorem lowerBound_least {e : K × V} (hm : m.lowerBound h = some e) :
    e ∈ m.entries ∧ h ≤ e.1 ∧ ∀ e' ∈ m.entries, h ≤ e'.1 → e.1 ≤ e'.1 := by
  obtain ⟨l, hs⟩ := m
  simp only [lowerBound] at hm
  refine ⟨List.mem_of_find?_eq_some hm, by simpa using List.find?_some hm, ?_⟩
  obtain ⟨-, l₁, l₂, rfl, hnone⟩ := List.find?_eq_some_iff_append.mp hm
  intro e' he' hle
  rcases List.mem_append.mp he' with he' | he'
  · have := hnone e' he'
    simp [hle] at this
  · rcases List.mem_cons.mp he' with rfl | he'
    · exact le_refl _
    · rw [List.map_append, List.map_cons, List.pairwise_append, List.pairwise_cons] at hs
      exact (hs.2.1.1 e'.1 (List.mem_map.mpr ⟨e', he', rfl⟩)).le

theorem first_least {e : K × V} (hm : m.first = some e) :
    e ∈ m.entries ∧ ∀ e' ∈ m.entries, e.1 ≤ e'.1 := by
  obtain ⟨l, hs⟩ := m
  cases l with
  | nil => cases hm
  | cons first rest =>
      cases hm
      refine ⟨List.mem_cons_self, fun e' he' => ?_⟩
      rcases List.mem_cons.mp he' with rfl | he'
      · exact le_refl _
      · rw [List.map_cons, List.pairwise_cons] at hs
        exact (hs.1 e'.1 (List.mem_map.mpr ⟨e', he', rfl⟩)).le

theorem next_eq_none : m.next h = none ↔ m.isEmpty = true := by
  unfold next isEmpty lowerBound first
  rw [List.isEmpty_iff]
  cases hl : m.entries with
  | nil => simp
  | cons e rest =>
      cases (e :: rest).find? fun e => h ≤ e.1 with
      | none => simp
      | some _ => simp

/-- The lookup with wrap-around finds the next point and its value. -/
theorem next_isNext {e : K × V} (hm : m.next h = some e) :
    IsNext m.points h e.1 ∧ m.find? e.1 = some e.2 := by
  have hpoint : ∀ q ∈ m.points, ∃ e' ∈ m.entries, e'.1 = q := by
    rintro q ⟨w, hw⟩
    exact ⟨(q, w), find?_eq_some.mp hw, rfl⟩
  unfold next at hm
  cases hlb : m.lowerBound h with
  | some e' =>
      rw [hlb] at hm
      cases hm
      obtain ⟨hmem, hle, hleast⟩ := lowerBound_least hlb
      have hfind := find?_eq_some.mpr hmem
      refine ⟨⟨⟨e.2, hfind⟩, .inl ⟨hle, fun q hq hhq => ?_⟩⟩, hfind⟩
      obtain ⟨e', he', rfl⟩ := hpoint q hq
      exact hleast e' he' hhq
  | none =>
      rw [hlb] at hm
      obtain ⟨hmem, hleast⟩ := first_least hm
      have hfind := find?_eq_some.mpr hmem
      refine ⟨⟨⟨e.2, hfind⟩, .inr ⟨fun q hq => ?_, fun q hq => ?_⟩⟩, hfind⟩
      · obtain ⟨e', he', rfl⟩ := hpoint q hq
        have := List.find?_eq_none.mp hlb e' he'
        simpa using this
      · obtain ⟨e', he', rfl⟩ := hpoint q hq
        exact hleast e' he'

theorem next_eq_some : m.next h = some (p, v) ↔ IsNext m.points h p ∧ m.find? p = some v := by
  constructor
  · exact next_isNext
  · rintro ⟨hnext, hfind⟩
    cases hm : m.next h with
    | none =>
        rw [next_eq_none, isEmpty_iff] at hm
        rw [hm p] at hfind
        cases hfind
    | some e =>
        obtain ⟨hnext', hfind'⟩ := next_isNext hm
        have hp := hnext.unique hnext'
        subst hp
        rw [hfind, Option.some.injEq] at hfind'
        rw [hfind']

end OrderedMap

end RobustCache.Lib
