import RobustCache.Cluster.Cluster

/-! # Exchanges and the messages they send

Where an exchange under way comes from after a step: from a snapshot, or from the
exchange it was before. The same for the messages on their way and for the queries
that a server is about to merge.
-/

namespace RobustCache

namespace Cluster

def Puts (c : Cluster) (a : Action) (s : Server) (args : PutArgs) : Prop :=
  ∃ b, a = .on s b ∧ (c.nodes s).Puts b args

theorem Puts.unique {c : Cluster} {a : Action} {s s' : Server} {args args' : PutArgs}
    (h : Puts c a s args) (h' : Puts c a s' args') : s = s' ∧ args = args' := by
  obtain ⟨b, rfl, -, htask⟩ := h
  obtain ⟨b', ha, -, htask'⟩ := h'
  cases ha
  rw [htask] at htask'
  cases htask'
  exact ⟨rfl, rfl⟩

theorem not_puts {c : Cluster} {a : Action} {s : Server} (ha : ∀ b, a ≠ .on s b)
    (args : PutArgs) : ¬ Puts c a s args := by
  intro hput
  obtain ⟨b, hb, -⟩ := hput
  exact ha b hb

/-! ## Exchanges -/

/-- How an exchange of `s` has come to be where it is after a step. -/
inductive Turns (c : Cluster) (a : Action) (c' : Cluster) (s : Server) : Exchange → Prop
  | same {e : Exchange} (hex : c.exchanges s = some e) (hno : ∀ args, ¬ Puts c a s args) :
      Turns c a c' s e
  | noted {e : Exchange} {args : PutArgs} (hex : c.exchanges s = some e)
      (hput : Puts c a s args) : Turns c a c' s { e with since := e.since ++ [args.key] }
  | begun {peer : Server} {args : AntiEntropyArgs} (ha : a = .on s .snapshot)
      (hsnap : (c.handlers s).snapshot = .ok (some (peer, args))) : Turns c a c' s { peer, args }
  | taken {e : Exchange} (hex : c.exchanges s = some e) (ha : a = .take s)
      (htask : c'.tasks e.peer = some (.merging (some s) e.args)) :
      Turns c a c' s { e with phase := .taken }
  | refused {e : Exchange} (hex : c.exchanges s = some e) (ha : a = .take s ∨ a = .fail s) :
      Turns c a c' s { e with phase := .replied { status := .wrongServer } }
  | answered {e : Exchange} {query : AntiEntropyArgs} {h : Handler} {reply : AntiEntropyReply}
      (hex : c.exchanges s = some e) (hphase : e.phase = .taken) (ha : a = .merge e.peer)
      (htask : c.tasks e.peer = some (.merging (some s) query))
      (hmerge : (c.handlers e.peer).antiEntropyLocked query = .ok (h, reply))
      (hhandler : c'.handlers e.peer = h) :
      Turns c a c' s { e with phase := .replied reply }

theorem turns_of_update {c c' : Cluster} {a : Action} {s t : Server} {e e' : Exchange}
    (hexchanges : c'.exchanges = Function.update c.exchanges t (some e'))
    (ha : ∀ b, a ≠ .on s b) (ht : s = t → Turns c a c' s e') (hex : c'.exchanges s = some e) :
    Turns c a c' s e := by
  rw [hexchanges] at hex
  by_cases hst : s = t
  · rw [hst, Function.update_self] at hex
    cases hex
    exact ht hst
  · rw [Function.update_of_ne hst] at hex
    exact .same hex (not_puts ha)

theorem turns_of_same {c c' : Cluster} {a : Action} {s : Server} {e : Exchange}
    (hexchanges : c'.exchanges = c.exchanges) (ha : ∀ b, a ≠ .on s b)
    (hex : c'.exchanges s = some e) : Turns c a c' s e := by
  rw [hexchanges] at hex
  exact .same hex (not_puts ha)

theorem Moves.turns {c c' : Cluster} {a : Action} (h : Moves c a c') {s : Server} {e : Exchange}
    (hex : c'.exchanges s = some e) : Turns c a c' s e := by
  cases h with
  | @on t b n hdoes =>
      rw [exchanges_set] at hex
      by_cases hst : s = t
      · subst hst
        rw [Function.update_self] at hex
        rcases hdoes.exchange hex with ⟨hold, hno⟩ | ⟨args, old, hputs, hold, rfl⟩ |
          ⟨peer, args, rfl, -, hsnap, rfl⟩
        · apply Turns.same hold
          intro args hput
          obtain ⟨b', hb', hputs⟩ := hput
          cases hb'
          exact hno args hputs
        · exact .noted hold ⟨b, rfl, hputs⟩
        · exact .begun rfl hsnap
      · rw [Function.update_of_ne hst] at hex
        exact .same hex (not_puts fun b' hb' => hst (Action.on.inj hb').1.symm)
  | @taken t old c' hold hphase hidle hnum hsame htasks hexchanges =>
      apply turns_of_update hexchanges (fun b hb => by cases hb) _ hex
      rintro rfl
      apply Turns.taken hold rfl
      rw [htasks, Function.update_self]
  | @refused t old c' hold hphase hsame htasks hexchanges =>
      apply turns_of_update hexchanges (fun b hb => by cases hb) _ hex
      rintro rfl
      exact .refused hold (.inl rfl)
  | strayTaken hmem hidle hnum hsame htasks hexchanges =>
      exact turns_of_same hexchanges (fun b hb => by cases hb) hex
  | strayRefused hsame htasks hexchanges =>
      exact turns_of_same hexchanges (fun b hb => by cases hb) hex
  | @merged p sender query h' reply c' htask hmerge hhandlers hpings htasks hexchanges =>
      rw [hexchanges] at hex
      split at hex
      · next hsender =>
        subst hsender
        obtain ⟨old, hold, rfl⟩ := Option.map_eq_some_iff.mp hex
        by_cases hwaits : old.phase = .taken ∧ old.peer = p
        · obtain ⟨hphase, rfl⟩ := hwaits
          rw [Exchange.answer, if_pos ⟨hphase, rfl⟩]
          apply Turns.answered hold hphase rfl htask hmerge
          rw [hhandlers, Function.update_self]
        · rw [Exchange.answer, if_neg hwaits]
          exact .same hold (not_puts fun b hb => by cases hb)
      · exact .same hex (not_puts fun b hb => by cases hb)
  | mergeThrew htask hsame htasks hexchanges =>
      exact turns_of_same hexchanges (fun b hb => by cases hb) hex
  | @failed t old c' hold hsame htasks hexchanges =>
      apply turns_of_update hexchanges (fun b hb => by cases hb) _ hex
      rintro rfl
      exact .refused hold (.inr rfl)

/-- What an exchange offers was offered before, or its snapshot has just been
taken; the keys put since then are remembered. -/
theorem Turns.offer {c c' : Cluster} {a : Action} {s : Server} {e : Exchange}
    (h : Turns c a c' s e) :
    (∃ old, c.exchanges s = some old ∧ e.peer = old.peer ∧ e.args = old.args ∧
      (∀ key ∈ old.since, key ∈ e.since) ∧ ∀ args, Puts c a s args → args.key ∈ e.since) ∨
      (a = .on s .snapshot ∧ (c.handlers s).snapshot = .ok (some (e.peer, e.args))) := by
  cases h with
  | same hex hno =>
      exact .inl ⟨e, hex, rfl, rfl, fun key hkey => hkey, fun args hput => absurd hput (hno args)⟩
  | @noted old args hex hput =>
      refine .inl ⟨old, hex, rfl, rfl, fun key hkey => List.mem_append_left _ hkey, ?_⟩
      intro args' hput'
      rw [(hput'.unique hput).2]
      exact List.mem_append_right _ (List.mem_singleton.mpr rfl)
  | begun ha hsnap => exact .inr ⟨ha, hsnap⟩
  | @taken old hex ha htask =>
      refine .inl ⟨old, hex, rfl, rfl, fun key hkey => hkey, fun args hput => ?_⟩
      exact absurd hput (not_puts (fun b hb => by rw [ha] at hb; cases hb) args)
  | @refused old hex ha =>
      refine .inl ⟨old, hex, rfl, rfl, fun key hkey => hkey, fun args hput => ?_⟩
      refine absurd hput (not_puts (fun b hb => ?_) args)
      rw [hb] at ha
      simp at ha
  | @answered old query h reply hex hphase ha htask hmerge hhandler =>
      refine .inl ⟨old, hex, rfl, rfl, fun key hkey => hkey, fun args hput => ?_⟩
      exact absurd hput (not_puts (fun b hb => by rw [ha] at hb; cases hb) args)

/-! ## Messages -/

def Message (c : Cluster) (peer : Server) (args : AntiEntropyArgs) : Prop :=
  (∃ s e, c.exchanges s = some e ∧ e.phase = .sent ∧ e.peer = peer ∧ e.args = args) ∨
    (peer, args) ∈ c.stray

theorem Moves.stray {c c' : Cluster} {a : Action} (h : Moves c a c') {peer : Server}
    {args : AntiEntropyArgs} (hm : (peer, args) ∈ c'.stray) : c.Message peer args := by
  cases h with
  | on hdoes => exact .inr hm
  | taken hex hphase hidle hnum hsame htasks hexchanges hstray =>
      rw [hstray] at hm
      exact .inr hm
  | refused hex hphase hsame htasks hexchanges hstray =>
      rw [hstray] at hm
      exact .inr hm
  | strayTaken hmem hidle hnum hsame htasks hexchanges hstray =>
      rw [hstray] at hm
      exact .inr (List.mem_of_mem_erase hm)
  | strayRefused hsame htasks hexchanges hstray =>
      rw [hstray] at hm
      exact .inr (List.mem_of_mem_erase hm)
  | merged htask hmerge hhandlers hpings htasks hexchanges hstray =>
      rw [hstray] at hm
      exact .inr hm
  | mergeThrew htask hsame htasks hexchanges hstray =>
      rw [hstray] at hm
      exact .inr hm
  | @failed s e c' hex hsame htasks hexchanges hstray =>
      rw [hstray] at hm
      split at hm
      · next hsent =>
        cases List.mem_cons.mp hm with
        | inl hnew =>
            cases hnew
            exact .inl ⟨s, e, hex, hsent, rfl, rfl⟩
        | inr hold => exact .inr hold
      · exact .inr hm

theorem Moves.message {c c' : Cluster} {a : Action} (h : Moves c a c') {peer : Server}
    {args : AntiEntropyArgs} (hm : c'.Message peer args) :
    c.Message peer args ∨
      ∃ s, a = .on s .snapshot ∧ (c.handlers s).snapshot = .ok (some (peer, args)) := by
  cases hm with
  | inl hm =>
      obtain ⟨s, e, hex, hsent, rfl, rfl⟩ := hm
      cases h.turns hex with
      | same hbefore hno => exact .inl (.inl ⟨s, _, hbefore, hsent, rfl, rfl⟩)
      | noted hbefore hput => exact .inl (.inl ⟨s, _, hbefore, hsent, rfl, rfl⟩)
      | begun ha hsnap => exact .inr ⟨s, ha, hsnap⟩
      | taken hbefore ha htask => cases hsent
      | refused hbefore ha => cases hsent
      | answered hbefore hphase ha htask hmerge hhandler => cases hsent
  | inr hm => exact .inl (h.stray hm)

/-- A merge begins with a message that names the current view, and that of an
exchange when its sender is known. -/
theorem Moves.merging {c c' : Cluster} {a : Action} (h : Moves c a c') (hs : Sound c)
    {t : Server} {sender : Option Server} {query : AntiEntropyArgs}
    (ht : c'.tasks t = some (.merging sender query)) :
    c.tasks t = some (.merging sender query) ∨
      (c.Message t query ∧ (c.handlers t).currentView.viewNum = query.viewNum ∧
        ∀ s, sender = some s → ∃ e, c.exchanges s = some e ∧ e.phase = .sent) := by
  cases h with
  | on hdoes =>
      rw [tasks_set] at ht
      rcases update_cases ht with ⟨rfl, hnew⟩ | ⟨-, hold⟩
      · cases hdoes.begins (hs.represents t) hnew with
        | inl hold => exact .inl hold
        | inr hbegins => cases hbegins
      · exact .inl hold
  | @taken s e c' hex hphase hidle hnum hsame htasks =>
      rw [htasks] at ht
      rcases update_cases ht with ⟨rfl, hnew⟩ | ⟨-, hold⟩
      · cases hnew
        refine .inr ⟨.inl ⟨s, e, hex, hphase, rfl, rfl⟩, hnum, fun s' hs' => ?_⟩
        cases hs'
        exact ⟨e, hex, hphase⟩
      · exact .inl hold
  | refused hex hphase hsame htasks => rw [htasks] at ht; exact .inl ht
  | strayTaken hmem hidle hnum hsame htasks =>
      rw [htasks] at ht
      rcases update_cases ht with ⟨rfl, hnew⟩ | ⟨-, hold⟩
      · cases hnew
        exact .inr ⟨.inr hmem, hnum, fun s hs => by cases hs⟩
      · exact .inl hold
  | strayRefused hsame htasks => rw [htasks] at ht; exact .inl ht
  | merged htask hmerge hhandlers hpings htasks =>
      rw [htasks] at ht
      rcases update_cases ht with ⟨-, hnew⟩ | ⟨-, hold⟩
      · cases hnew
      · exact .inl hold
  | mergeThrew htask hsame htasks =>
      rw [htasks] at ht
      rcases update_cases ht with ⟨-, hnew⟩ | ⟨-, hold⟩
      · cases hnew
      · exact .inl hold
  | failed hex hsame htasks => rw [htasks] at ht; exact .inl ht

end Cluster

end RobustCache
