import Mathlib.Data.Nat.ModEq
import Mathlib.Tactic

/-! # Circular probing

The search loop of an open-addressing table over `n` slots: start at a home
slot, step to the next slot with wrap-around, stop at the first slot that
satisfies a test. The loop has no bound of its own; the fuel given to `scan` is
the number of slots, since after one full turn the same slots come again.
-/

namespace RobustCache.Lib.Probe

/-- Probe from `pos`, wrapping to slot zero after slot `n - 1`. -/
def scan (n : Nat) (stop : Nat → Bool) : Nat → Nat → Option Nat
  | 0, _ => none
  | fuel + 1, pos =>
      if stop pos then some pos
      else scan n stop fuel (if n ≤ pos + 1 then 0 else pos + 1)

/-- Slot `i` lies on the probe path of `start`, and no slot before it on that
path is free. -/
def Reaches (n : Nat) (free : Nat → Prop) (start i : Nat) : Prop :=
  ∃ d < n, (start + d) % n = i ∧ ∀ e < d, ¬ free ((start + e) % n)

theorem next_eq_mod {n pos : Nat} (h : pos < n) :
    (if n ≤ pos + 1 then 0 else pos + 1) = (pos + 1) % n := by
  split
  · have : pos + 1 = n := by omega
    simp [this]
  · rw [Nat.mod_eq_of_lt (by omega)]

theorem mod_add_shift (n pos e : Nat) : ((pos + 1) % n + e) % n = (pos + (e + 1)) % n := by
  rw [Nat.mod_add_mod, Nat.add_right_comm, Nat.add_assoc]

theorem scan_some {n : Nat} {stop : Nat → Bool} {fuel pos p : Nat} (hpos : pos < n)
    (h : scan n stop fuel pos = some p) :
    ∃ d < fuel, (pos + d) % n = p ∧ stop p = true ∧
      ∀ e < d, stop ((pos + e) % n) = false := by
  induction fuel generalizing pos with
  | zero => simp [scan] at h
  | succ fuel ih =>
      rw [scan] at h
      by_cases hs : stop pos = true
      · rw [if_pos hs, Option.some.injEq] at h
        subst h
        exact ⟨0, by omega, by simp [Nat.mod_eq_of_lt hpos], hs, by omega⟩
      · rw [if_neg hs, next_eq_mod hpos] at h
        obtain ⟨d, hd, hp, hstop, hbefore⟩ := ih (Nat.mod_lt _ (by omega)) h
        rw [mod_add_shift] at hp
        refine ⟨d + 1, by omega, hp, hstop, ?_⟩
        intro e he
        cases e with
        | zero => simpa [Nat.mod_eq_of_lt hpos] using hs
        | succ e =>
            rw [← mod_add_shift]
            exact hbefore e (by omega)

theorem scan_none {n : Nat} {stop : Nat → Bool} {fuel pos : Nat} (hpos : pos < n)
    (h : scan n stop fuel pos = none) : ∀ d < fuel, stop ((pos + d) % n) = false := by
  induction fuel generalizing pos with
  | zero => intro d hd; omega
  | succ fuel ih =>
      rw [scan] at h
      by_cases hs : stop pos = true
      · simp [hs] at h
      · rw [if_neg hs, next_eq_mod hpos] at h
        intro d hd
        cases d with
        | zero => simpa [Nat.mod_eq_of_lt hpos] using hs
        | succ d =>
            rw [← mod_add_shift]
            exact ih (Nat.mod_lt _ (by omega)) h d (by omega)

theorem exists_offset {n start i : Nat} (hstart : start < n) (hi : i < n) :
    ∃ d < n, (start + d) % n = i := by
  by_cases h : start ≤ i
  · exact ⟨i - start, by omega, by rw [Nat.add_sub_cancel' h, Nat.mod_eq_of_lt hi]⟩
  · refine ⟨n + i - start, by omega, ?_⟩
    have : start + (n + i - start) = i + n := by omega
    rw [this, Nat.add_mod_right, Nat.mod_eq_of_lt hi]

/-- One full turn finds a stopping slot if there is one. -/
theorem scan_isSome {n start i : Nat} {stop : Nat → Bool} (hstart : start < n) (hi : i < n)
    (hstop : stop i = true) : ∃ p, scan n stop n start = some p := by
  cases h : scan n stop n start with
  | some p => exact ⟨p, rfl⟩
  | none =>
      obtain ⟨d, hd, rfl⟩ := exists_offset hstart hi
      simp [scan_none hstart h d hd] at hstop

theorem scan_lt {n start p : Nat} {stop : Nat → Bool} (hstart : start < n)
    (h : scan n stop n start = some p) : p < n := by
  obtain ⟨d, _, rfl, _, _⟩ := scan_some hstart h
  exact Nat.mod_lt _ (by omega)

theorem scan_stop {n start p : Nat} {stop : Nat → Bool} (hstart : start < n)
    (h : scan n stop n start = some p) : stop p = true := by
  obtain ⟨_, _, _, hs, _⟩ := scan_some hstart h
  exact hs

theorem scan_reaches {n start p : Nat} {stop : Nat → Bool} {free : Nat → Prop}
    (hstart : start < n) (hfree : ∀ j, free j → stop j = true)
    (h : scan n stop n start = some p) : Reaches n free start p := by
  obtain ⟨d, hd, hp, _, hbefore⟩ := scan_some hstart h
  refine ⟨d, hd, hp, ?_⟩
  intro e he hf
  have hstop := hfree _ hf
  rw [hbefore e he] at hstop
  cases hstop

/-- A scan stops no later than at a slot that is reached and passes the test: it
ends there, or at an earlier slot, which is then not free. -/
theorem scan_upto {n start p i : Nat} {stop : Nat → Bool} {free : Nat → Prop}
    (hstart : start < n) (h : scan n stop n start = some p)
    (hreach : Reaches n free start i) (hi : stop i = true) : p = i ∨ ¬ free p := by
  obtain ⟨d, hd, hp, _, hbefore⟩ := scan_some hstart h
  obtain ⟨d', hd', hp', hbefore'⟩ := hreach
  rcases Nat.lt_trichotomy d d' with hlt | heq | hgt
  · right
    rw [← hp]
    exact hbefore' d hlt
  · left
    rw [← hp, ← hp', heq]
  · have := hbefore d' hgt
    rw [hp', hi] at this
    cases this

theorem Reaches.mono {n start i : Nat} {free free' : Nat → Prop}
    (h : Reaches n free start i) (hsub : ∀ j, free' j → free j) :
    Reaches n free' start i := by
  obtain ⟨d, hd, hp, hbefore⟩ := h
  exact ⟨d, hd, hp, fun e he hf => hbefore e he (hsub _ hf)⟩

end RobustCache.Lib.Probe
