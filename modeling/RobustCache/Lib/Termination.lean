import Mathlib.Algebra.Order.BigOperators.Group.Finset
import RobustCache.Lib.Trace

/-! # Systems that run out of work

Some steps of a system are work, the others idle. A measure that every step of
work lowers and no idle step raises bounds the work of every run; if work can be
done wherever something is left to do, the system can always be run until nothing
is.
-/

namespace RobustCache.Lib

open scoped BigOperators

variable {σ α ε : Type}

/-- Every admitted step keeps the invariant, and pays from the measure for the
work that it does. -/
def Spends (step : σ → α → Option σ) (guard : σ → α → Prop) (work : σ → α → Option ε)
    (Inv : σ → Prop) (measure : σ → Nat) : Prop :=
  ∀ s a s', Inv s → guard s a → step s a = some s' →
    Inv s' ∧ (work s a).toList.length + measure s' ≤ measure s

variable {step : σ → α → Option σ} {guard : σ → α → Prop} {work : σ → α → Option ε}
  {Inv : σ → Prop} {measure : σ → Nat}

/-- The measure bounds the work of every run. -/
theorem Spends.length_le (hspends : Spends step guard work Inv measure) {s t : σ} {log : List ε}
    (hs : Inv s) (h : Trace step guard work s t log) :
    Inv t ∧ log.length + measure t ≤ measure s := by
  induction h with
  | refl => exact ⟨hs, by simp⟩
  | tail _ hg hstep ih =>
      obtain ⟨hinv, hle⟩ := ih
      obtain ⟨hinv', hpaid⟩ := hspends _ _ _ hinv hg hstep
      refine ⟨hinv', ?_⟩
      rw [List.length_append]
      omega

variable {ι : Type} [DecidableEq ι] {parties : Finset ι} {f g : ι → Nat} {i : ι}

theorem sum_change (hi : i ∈ parties) (hother : ∀ j, j ≠ i → g j = f j) :
    ∑ j ∈ parties, g j + f i = ∑ j ∈ parties, f j + g i := by
  have hrest : ∑ j ∈ parties.erase i, g j = ∑ j ∈ parties.erase i, f j :=
    Finset.sum_congr rfl fun j hj => hother j (Finset.ne_of_mem_erase hj)
  rw [← Finset.add_sum_erase parties g hi, ← Finset.add_sum_erase parties f hi, hrest]
  omega

end RobustCache.Lib
