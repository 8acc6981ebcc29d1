import Mathlib.Tactic

/-! # Amortized costs of fallible runs

A run is a list of operations on a state, each of which may fail. An invariant
says that no operation does, and a potential of the states pays for the expensive
operations with what the cheap ones have been charged in advance.
-/

namespace RobustCache.Lib

variable {σ α β ε : Type}

theorem of_bind_eq_ok {x : Except ε α} {f : α → Except ε β} {b : β} (h : (x >>= f) = .ok b) :
    ∃ a, x = .ok a ∧ f a = .ok b := by
  cases x with
  | ok a => exact ⟨a, rfl, h⟩
  | error e => cases h

theorem of_map_eq_ok {x : Except ε α} {f : α → β} {b : β} (h : x.map f = .ok b) :
    ∃ a, x = .ok a ∧ f a = b := by
  cases x with
  | ok a => exact ⟨a, rfl, Except.ok.inj h⟩
  | error e => cases h

/-- The cost of a run, up to the first operation that fails. -/
def runCost (step : σ → α → Except ε σ) (cost : σ → α → Nat) : σ → List α → Nat
  | _, [] => 0
  | s, a :: rest =>
      cost s a + match step s a with
        | .ok s' => runCost step cost s' rest
        | .error _ => 0

/-- What one operation costs, and the potential it leaves, is covered by the
potential it found and its charge. -/
def Affords (potential : σ → Int) (s s' : σ) (cost charge : Nat) : Prop :=
  cost + potential s' ≤ potential s + charge

/-- A run in which every operation is afforded is afforded as a whole. -/
theorem runCost_affords {step : σ → α → Except ε σ} {cost : σ → α → Nat} {potential : σ → Int}
    {charge : α → Nat} {Inv : σ → Prop}
    (hstep : ∀ s a s', Inv s → step s a = .ok s' →
      Inv s' ∧ Affords potential s s' (cost s a) (charge a))
    {s s' : σ} (hs : Inv s) {ops : List α} (hrun : ops.foldlM step s = .ok s') :
    Inv s' ∧ Affords potential s s' (runCost step cost s ops) (ops.map charge).sum := by
  induction ops generalizing s with
  | nil =>
      cases hrun
      exact ⟨hs, by simp [Affords, runCost]⟩
  | cons a rest ih =>
      rw [List.foldlM_cons] at hrun
      obtain ⟨s₁, h₁, hrun⟩ := of_bind_eq_ok hrun
      obtain ⟨hs₁, hone⟩ := hstep s a s₁ hs h₁
      obtain ⟨hs', hrest⟩ := ih hs₁ hrun
      refine ⟨hs', ?_⟩
      unfold Affords at hone hrest ⊢
      simp only [runCost, h₁, List.map_cons, List.sum_cons]
      push_cast at hrest ⊢
      omega

end RobustCache.Lib
