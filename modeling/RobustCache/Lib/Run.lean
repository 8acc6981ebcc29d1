import Mathlib.Logic.Relation

/-! # Guarded runs of a labelled transition system

A system is a partial step function over states and labelled actions. A run may
be restricted by a guard on the state before each step, so that a law about all
runs and a law about the runs that keep away from one behaviour are the same
kind of statement. Invariants are proved once here, from their step lemma.
-/

namespace RobustCache.Lib

/-- States reached from `start` by steps whose action the guard admits in the
state it is taken from. -/
inductive Reach {σ α : Type} (step : σ → α → Option σ) (guard : σ → α → Prop)
    (start : σ) : σ → Prop
  | refl : Reach step guard start start
  | tail {s s' : σ} {a : α} : Reach step guard start s → guard s a →
      step s a = some s' → Reach step guard start s'

def anyAction {σ α : Type} (_ : σ) (_ : α) : Prop := True

instance {σ α : Type} (s : σ) (a : α) : Decidable (anyAction s a) := isTrue trivial

namespace Reach

variable {σ α : Type} {step : σ → α → Option σ} {guard : σ → α → Prop}
  {start s t : σ}

/-- The induction rule of runs: a predicate that holds at the start and is kept
by every admitted step holds in every state reached. -/
theorem invariant {P : σ → Prop} (h : Reach step guard start s) (h0 : P start)
    (hstep : ∀ s a s', P s → guard s a → step s a = some s' → P s') : P s := by
  induction h with
  | refl => exact h0
  | tail _ hg hs ih => exact hstep _ _ _ ih hg hs

theorem trans (h : Reach step guard start s) (h' : Reach step guard s t) :
    Reach step guard start t := by
  induction h' with
  | refl => exact h
  | tail _ hg hs ih => exact .tail ih hg hs

theorem weaken {guard' : σ → α → Prop} (h : Reach step guard start s)
    (hguard : ∀ s a, guard s a → guard' s a) : Reach step guard' start s := by
  induction h with
  | refl => exact .refl
  | tail _ hg hs ih => exact .tail ih (hguard _ _ hg) hs

/-- A preorder respected by every admitted step relates the two ends of a run. -/
theorem relates {R : σ → σ → Prop} (h : Reach step guard start s) (hrefl : R start start)
    (htrans : ∀ a b c, R a b → R b c → R a c)
    (hstep : ∀ s a s', guard s a → step s a = some s' → R s s') : R start s := by
  induction h with
  | refl => exact hrefl
  | tail _ hg hs ih => exact htrans _ _ _ ih (hstep _ _ _ hg hs)

end Reach

/-- Perform a list of actions in turn, each of which the guard must admit. -/
def perform {σ α : Type} (step : σ → α → Option σ) (guard : σ → α → Prop)
    [∀ s a, Decidable (guard s a)] (s : σ) : List α → Option σ
  | [] => some s
  | a :: rest =>
      if guard s a then (step s a).bind fun s' => perform step guard s' rest else none

theorem reach_of_perform {σ α : Type} {step : σ → α → Option σ} {guard : σ → α → Prop}
    [∀ s a, Decidable (guard s a)] {s t : σ} {actions : List α}
    (h : perform step guard s actions = some t) : Reach step guard s t := by
  induction actions generalizing s with
  | nil =>
      simp only [perform, Option.some.injEq] at h
      exact h ▸ .refl
  | cons a rest ih =>
      simp only [perform] at h
      split at h
      · next hg =>
        obtain ⟨s', hs', hrest⟩ := Option.bind_eq_some_iff.mp h
        exact Reach.trans (.tail .refl hg hs') (ih hrest)
      · cases h

end RobustCache.Lib
