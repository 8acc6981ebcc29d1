import RobustCache.Lib.Run

/-! # Runs with a history

A run that writes down what can be seen of each step. The history is no part of
the state and restricts nothing: every run has one. A law about the order of
events is a law about every event of the history and the events in front of it.
-/

namespace RobustCache.Lib

variable {σ α ε : Type}

/-- `s` is reached from `start`, and `log` is what `label` has shown on the way. -/
inductive Trace (step : σ → α → Option σ) (guard : σ → α → Prop) (label : σ → α → Option ε)
    (start : σ) : σ → List ε → Prop
  | refl : Trace step guard label start start []
  | tail {s s' : σ} {a : α} {log : List ε} : Trace step guard label start s log → guard s a →
      step s a = some s' → Trace step guard label start s' (log ++ (label s a).toList)

namespace Trace

variable {step : σ → α → Option σ} {guard : σ → α → Prop} {label : σ → α → Option ε}
  {start s : σ} {log : List ε}

/-- The induction rule of runs with a history. -/
theorem invariant {P : σ → List ε → Prop} (h : Trace step guard label start s log)
    (h0 : P start [])
    (hstep : ∀ s a s' log, P s log → guard s a → step s a = some s' →
      P s' (log ++ (label s a).toList)) : P s log := by
  induction h with
  | refl => exact h0
  | tail _ hg hs ih => exact hstep _ _ _ _ ih hg hs

end Trace

theorem Reach.trace {step : σ → α → Option σ} {guard : σ → α → Prop} {start s : σ}
    (h : Reach step guard start s) (label : σ → α → Option ε) :
    ∃ log, Trace step guard label start s log := by
  induction h with
  | refl => exact ⟨[], .refl⟩
  | tail _ hg hs ih =>
      obtain ⟨log, hlog⟩ := ih
      exact ⟨_, .tail hlog hg hs⟩

/-! ## Events and what comes before them -/

/-- Every event is in order with the events in front of it. -/
def Ordered (good : List ε → ε → Prop) (log : List ε) : Prop :=
  ∀ before e after, log = before ++ e :: after → good before e

theorem ordered_nil (good : List ε → ε → Prop) : Ordered good [] := by
  intro before e after h
  simp at h

theorem Ordered.append {good : List ε → ε → Prop} {log : List ε} (h : Ordered good log)
    {e : ε} (he : good log e) : Ordered good (log ++ [e]) := by
  intro before e' after hsplit
  rcases List.eq_nil_or_concat after with rfl | ⟨front, last, rfl⟩
  · obtain ⟨rfl, hlast⟩ := List.append_inj' hsplit rfl
    cases hlast
    exact he
  · rw [List.concat_eq_append, ← List.cons_append, ← List.append_assoc] at hsplit
    exact h before e' front (List.append_inj' hsplit rfl).1

/-- The event of one step has only to be in order with the history so far. -/
theorem Ordered.extend {good : List ε → ε → Prop} {log : List ε} (h : Ordered good log)
    {shown : Option ε} (hshown : ∀ e, shown = some e → good log e) :
    Ordered good (log ++ shown.toList) := by
  cases shown with
  | none =>
      rw [Option.toList_none, List.append_nil]
      exact h
  | some e => exact h.append (hshown e rfl)

/-- Perform a list of actions and write down what can be seen of them. -/
def record (step : σ → α → Option σ) (guard : σ → α → Prop) [∀ s a, Decidable (guard s a)]
    (label : σ → α → Option ε) (s : σ) : List α → Option (σ × List ε)
  | [] => some (s, [])
  | a :: rest =>
      if guard s a then
        (step s a).bind fun s' =>
          (record step guard label s' rest).map fun r => (r.1, (label s a).toList ++ r.2)
      else none

theorem Trace.prepend {step : σ → α → Option σ} {guard : σ → α → Prop}
    {label : σ → α → Option ε} {s s' t : σ} {a : α} {log : List ε} (hg : guard s a)
    (hs : step s a = some s') (h : Trace step guard label s' t log) :
    Trace step guard label s t ((label s a).toList ++ log) := by
  induction h with
  | refl =>
      have hone : Trace step guard label s _ ([] ++ (label s a).toList) := .tail .refl hg hs
      simpa using hone
  | tail _ hg' hs' ih =>
      rw [← List.append_assoc]
      exact .tail ih hg' hs'

theorem trace_of_record {step : σ → α → Option σ} {guard : σ → α → Prop}
    [∀ s a, Decidable (guard s a)] {label : σ → α → Option ε} {s t : σ} {log : List ε}
    {actions : List α} (h : record step guard label s actions = some (t, log)) :
    Trace step guard label s t log := by
  induction actions generalizing s log with
  | nil =>
      cases h
      exact .refl
  | cons a rest ih =>
      simp only [record] at h
      split at h
      · next hg =>
        obtain ⟨s', hs', hrest⟩ := Option.bind_eq_some_iff.mp h
        obtain ⟨⟨t', log'⟩, hrec, heq⟩ := Option.map_eq_some_iff.mp hrest
        cases heq
        exact .prepend hg hs' (ih hrec)
      · cases h

end RobustCache.Lib
