import RobustCache.Server.Diffs

/-! # Runs under views of any ring

A section that looks up an empty ring ends in an exception. The runs here go on
from the state that it has left behind, so that what they keep holds whatever
views a server is given.
-/

namespace RobustCache

open Lib

namespace Handler

/-- The state that an operation leaves, also when its ring lookup throws:
`put` has then stored its entry, and `cleanHash` has done nothing. -/
def leave (h : Handler) (s : Step) : Except Fault Handler :=
  let h := { h with currentView := s.view }
  match s.op with
  | .serve (.put args) => do
      let h ← h.putEntry args.key args.value
      match getServer (irHash args.key) h.currentView.view with
      | .ok servers => return h.noteDiffs args.key servers
      | .error _ => return h
  | .serve r => (h.serve r).map Prod.fst
  | .cleanHash =>
      match h.cleanHash with
      | .error .emptyRing => .ok h
      | result => result

def leaveAll (h : Handler) : List Step → Except Fault Handler
  | [] => .ok h
  | s :: rest => do
      let h ← h.leave s
      h.leaveAll rest

theorem leaveAll_cons {h h' : Handler} {s : Step} (hrun : h.leave s = .ok h')
    (rest : List Step) : h.leaveAll (s :: rest) = h'.leaveAll rest := by
  simp only [leaveAll, hrun, bind, Except.bind]

theorem leave_of_perform {h h' : Handler} {s : Step} (hrun : h.perform s = .ok h') :
    h.leave s = .ok h' := by
  obtain ⟨view, op⟩ := s
  cases op with
  | cleanHash =>
      simp only [perform] at hrun
      simp only [leave, hrun]
  | serve r =>
      cases r with
      | put args =>
          simp only [perform, serve, putLocked] at hrun
          simp only [leave]
          cases hput : ({ h with currentView := view } : Handler).putEntry args.key args.value with
          | error e => simp [hput, bind, Except.bind, Except.map] at hrun
          | ok h₁ =>
              cases hring : getServer (irHash args.key) h₁.currentView.view with
              | error e => simp [hput, hring, bind, Except.bind, Except.map] at hrun
              | ok servers =>
                  simp only [hput, hring, bind, Except.bind, Except.map, pure, Except.pure]
                    at hrun ⊢
                  exact hrun
      | get args => exact hrun
      | antiEntropy query => exact hrun
      | reply peer reply => exact hrun

end Handler

def Lru.leave (fits : List Item → Prop) [DecidablePred fits] (server : Server) (items : List Item)
    (s : Step) : List Item :=
  match s.op with
  | .serve r => (serve fits server items r).1
  | .cleanHash => if s.view.view.NonEmpty then clean server s.view.view items else items

namespace Handler

variable {h : Handler} {items : List Item}

/-- Every operation returns, does what the abstract store does, and makes no
set of keys for its own server. -/
theorem leave_spec (hr : Represents h.toStore items) (s : Step) :
    ∃ h', h.leave s = .ok h' ∧
      Represents h'.toStore (Lru.leave FitsCounter h.server items s) ∧ h'.server = h.server ∧
      (h.diffs.find? h.server = none → h'.diffs.find? h.server = none) := by
  obtain ⟨view, op⟩ := s
  have hr' : Represents ({ h with currentView := view } : Handler).toStore items := hr
  cases op with
  | cleanHash =>
      by_cases hring : view.view.NonEmpty
      · obtain ⟨st, hrun, hrep, -⟩ := cleanHash_spec hr' hring
        simp only [Lru.leave, if_pos hring]
        refine ⟨_, leave_of_perform (s := ⟨view, .cleanHash⟩) hrun, hrep, rfl, fun hself => ?_⟩
        simp only [Lru.cleanDiffs_eq]
        exact find?_adjustAll_self hself _
      · simp only [Lru.leave, if_neg hring]
        refine ⟨{ h with currentView := view }, ?_, hr', rfl, id⟩
        simp only [leave]
        rw [cleanHash_of_empty hr' hring]
        by_cases hnil : items = []
        · simp only [if_pos hnil]
        · simp only [if_neg hnil]
  | serve r =>
      cases r with
      | put args =>
          obtain ⟨st, hput, hrep⟩ := putEntry_spec hr' args.key args.value
          simp only [leave, hput, bind, Except.bind]
          cases getServer (irHash args.key) view.view with
          | ok servers =>
              refine ⟨_, rfl, hrep, rfl, fun hself => ?_⟩
              rw [← hself]
              exact find?_noteDiffs_self { h with toStore := st, currentView := view } _ servers
          | error e => exact ⟨_, rfl, hrep, rfl, id⟩
      | get args =>
          obtain ⟨st, hrun, hrep⟩ := getLocked_spec hr' args
          refine ⟨{ h with toStore := st, currentView := view }, ?_, hrep, rfl, id⟩
          simp only [leave, serve, hrun, bind, Except.bind]
          rfl
      | antiEntropy query =>
          obtain ⟨st, hrun, hrep⟩ := antiEntropyLocked_spec hr' query
          refine ⟨{ h with toStore := st, currentView := view }, ?_, hrep, rfl, id⟩
          simp only [leave, serve, hrun, bind, Except.bind]
          rfl
      | reply peer reply =>
          simp only [Lru.leave, Lru.serve]
          by_cases hok : reply.status = .ok
          · obtain ⟨st, hrun, hrep⟩ := replyLocked_spec hr' peer hok
            rw [if_pos hok]
            refine ⟨{ h with toStore := st, currentView := view, diffs := h.diffs.erase peer }, ?_,
              hrep, rfl, fun hself => ?_⟩
            · simp only [leave, serve, hrun, bind, Except.bind]
              rfl
            · rw [OrderedMap.find?_erase, hself]
              split <;> rfl
          · rw [if_neg hok]
            refine ⟨{ h with currentView := view }, ?_, hr', rfl, id⟩
            simp only [leave, serve, replyLocked, if_neg hok, bind, Except.bind]
            rfl

/-- Every run returns and ends in a well-formed store, with no set of keys for
the server itself. -/
theorem leaveAll_spec (hr : Represents h.toStore items) (hself : h.diffs.find? h.server = none)
    (steps : List Step) :
    ∃ h' items', h.leaveAll steps = .ok h' ∧ Represents h'.toStore items' ∧
      h'.server = h.server ∧ h'.diffs.find? h'.server = none := by
  induction steps generalizing h items with
  | nil => exact ⟨h, items, rfl, hr, rfl, hself⟩
  | cons s rest ih =>
      obtain ⟨h₁, h₁run, hr₁, hs₁, hself₁⟩ := leave_spec hr s
      obtain ⟨h₂, items₂, h₂run, hr₂, hs₂, hself₂⟩ := ih hr₁ (hs₁ ▸ hself₁ hself)
      exact ⟨h₂, items₂, (leaveAll_cons h₁run rest).trans h₂run, hr₂,
        hs₂.trans hs₁, hself₂⟩

end Handler

end RobustCache
