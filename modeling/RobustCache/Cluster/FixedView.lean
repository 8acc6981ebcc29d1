import RobustCache.Cluster.Copies

/-! # Runs under one view

Every server starts with the same view, and the view service answers with that
view only. Nothing is ever cleaned then, and the keys noted for a peer are keys
of the peer.
-/

namespace RobustCache

open Lib

/-- The view service answers with `v`, if the step asks it. -/
def Action.inView (v : GetServersReply) (a : Action) : Bool :=
  a.view?.all fun w => decide (w = v)

theorem Action.view_eq {v w : GetServersReply} {a : Action} (h : a.inView v = true)
    (hw : a.view? = some w) : w = v := by
  simp only [Action.inView, hw, Option.all_some, decide_eq_true_eq] at h
  exact h

namespace Cluster

/-- Every server has adopted `v` and holds nothing. -/
def start (v : GetServersReply) : Cluster where
  nodes s := { handler := { Handler.initial s with currentView := v } }

def pairView (s t : Server) : GetServersReply := { view := View.single [s, t], viewNum := 2 }

structure InView (v : GetServersReply) (c : Cluster) : Prop where
  sound : Sound c
  views : ∀ s w, (c.nodes s).HoldsView w → w = v
  pings : ∀ s, c.pings s ≠ some .cleaning
  tasks : ∀ s call w, c.tasks s ≠ some (.cleaning call w)
  serving : ∀ s call, c.tasks s = some (.serving call) → s ∈ group call.key v.view
  /-- The peer of an exchange works on the message of that exchange. -/
  queries : ∀ s e query, c.exchanges s = some e → e.phase = .taken →
    c.tasks e.peer = some (.merging (some s) query) → query = e.args
  noted : ∀ s p key, key ∈ Handler.noted (c.handlers s).diffs p → p ∈ group key v.view

theorem InView.currentView {v : GetServersReply} {c : Cluster} (h : InView v c) (s : Server) :
    (c.handlers s).currentView = v :=
  h.views s _ (.current rfl)

theorem start_inView (v : GetServersReply) : (start v).InView v := by
  constructor
  · constructor
    · intro s
      exact initial_sound.represents s
    · intro s
      rfl
  · intro s w hw
    cases hw with
    | current hcur => exact hcur.symm
    | assigning htask => cases htask
    | cleaning htask => cases htask
    | pinged hping => cases hping
  · intro s hping
    cases hping
  · intro s call w htask
    cases htask
  · intro s call htask
    cases htask
  · intro s e query hex
    cases hex
  · intro s p key hkey
    cases hkey

theorem InView.not_cleans {v : GetServersReply} {c : Cluster} (h : InView v c) {s : Server}
    {b : Local} {n : Node} (hdoes : (c.nodes s).Does b n) : ¬ (b = .clean ∨ b = .pingClean) := by
  intro hb
  rcases hdoes.cleans hb with ⟨call, view, htask⟩ | hping
  · exact h.tasks s call view htask
  · exact h.pings s hping

theorem Moves.not_cleans {v : GetServersReply} {c c' : Cluster} {a : Action} (h : Moves c a c')
    (hv : InView v c) {s : Server} : ¬ (a = .on s .clean ∨ a = .on s .pingClean) := by
  intro ha
  cases h with
  | on hdoes =>
      cases ha with
      | inl ha =>
          cases ha
          exact hv.not_cleans hdoes (.inl rfl)
      | inr ha =>
          cases ha
          exact hv.not_cleans hdoes (.inr rfl)
  | _ => simp at ha

theorem Moves.diffs {v : GetServersReply} {c c' : Cluster} {a : Action} (h : Moves c a c')
    (hv : InView v c) (s : Server) :
    ((c'.handlers s).diffs = (c.handlers s).diffs ∧ ∀ args, ¬ Puts c a s args) ∨
      (∃ args, Puts c a s args ∧ (c'.handlers s).diffs =
        ((c.handlers s).noteDiffs args.key (group args.key v.view)).diffs) ∨
      ∃ e reply, a = .on s .finish ∧ c.exchanges s = some e ∧ e.phase = .replied reply ∧
        reply.status = .ok ∧ (c'.handlers s).diffs = (c.handlers s).diffs.erase e.peer := by
  have hsame : ∀ {c' : Cluster}, SameServers c c' → (∀ b, a ≠ .on s b) →
      (c'.handlers s).diffs = (c.handlers s).diffs ∧ ∀ args, ¬ Puts c a s args := by
    intro c' hsame ha
    rw [hsame.1]
    exact ⟨rfl, not_puts ha⟩
  cases h with
  | @on t b n hdoes =>
      by_cases hst : s = t
      · subst hst
        rw [handlers_set, Function.update_self]
        obtain ⟨heff, -⟩ := hdoes.effect_items (hv.sound.represents s)
        have hview : (c.nodes s).handler.currentView = v := hv.currentView s
        have hno : (∀ args, ¬ (c.nodes s).Puts b args) → ∀ args, ¬ Puts c (.on s b) s args := by
          intro hno args hput
          obtain ⟨b', hb', hputs⟩ := hput
          cases hb'
          exact hno args hputs
        rcases heff.diffs with ⟨heq, hnot⟩ | ⟨args, hputs, heq⟩ |
          ⟨e, reply, rfl, hex, hphase, hok, heq⟩ | hclean
        · exact .inl ⟨heq, hno hnot⟩
        · rw [hview] at heq
          exact .inr (.inl ⟨args, ⟨b, rfl, hputs⟩, heq⟩)
        · exact .inr (.inr ⟨e, reply, rfl, hex, hphase, hok, heq⟩)
        · exact absurd hclean (hv.not_cleans hdoes)
      · rw [handlers_set, Function.update_of_ne hst]
        exact .inl ⟨rfl, not_puts fun b' hb' => hst (Action.on.inj hb').1.symm⟩
  | taken hex hphase hidle hnum hsame' => exact .inl (hsame hsame' fun b hb => by cases hb)
  | refused hex hphase hsame' => exact .inl (hsame hsame' fun b hb => by cases hb)
  | strayTaken hmem hidle hnum hsame' => exact .inl (hsame hsame' fun b hb => by cases hb)
  | strayRefused hsame' => exact .inl (hsame hsame' fun b hb => by cases hb)
  | @merged p sender query h' reply c' htask hmerge hhandlers =>
      left
      refine ⟨?_, not_puts fun b hb => by cases hb⟩
      rw [hhandlers]
      by_cases hsp : s = p
      · subst hsp
        rw [Function.update_self, (merge_items (hv.sound.represents s) hmerge).1]
      · rw [Function.update_of_ne hsp]
  | mergeThrew htask hsame' => exact .inl (hsame hsame' fun b hb => by cases hb)
  | failed hex hsame' => exact .inl (hsame hsame' fun b hb => by cases hb)

theorem Moves.noted {v : GetServersReply} {c c' : Cluster} {a : Action} (h : Moves c a c')
    (hv : InView v c) {s p : Server} {key : Bytes}
    (hkey : key ∈ Handler.noted (c'.handlers s).diffs p) : p ∈ group key v.view := by
  rcases h.diffs hv s with ⟨heq, -⟩ | ⟨args, -, heq⟩ | ⟨e, reply, -, -, -, -, heq⟩
  · rw [heq] at hkey
    exact hv.noted s p key hkey
  · rw [heq, Handler.mem_noted_noteDiffs] at hkey
    rcases hkey with ⟨hmem, -, rfl⟩ | hold
    · exact hmem
    · exact hv.noted s p key hold
  · rw [heq, Handler.mem_noted_erase] at hkey
    exact hv.noted s p key hkey.2

theorem Moves.queries {c c' : Cluster} {a : Action} (h : Moves c a c') (hs : Sound c)
    (hinv : ∀ s e query, c.exchanges s = some e → e.phase = .taken →
      c.tasks e.peer = some (.merging (some s) query) → query = e.args)
    {s : Server} {e : Exchange} {query : AntiEntropyArgs} (hex : c'.exchanges s = some e)
    (hphase : e.phase = .taken) (htask : c'.tasks e.peer = some (.merging (some s) query)) :
    query = e.args := by
  have hold : ∀ {old : Exchange}, c.exchanges s = some old → old.phase = .taken →
      c'.tasks old.peer = some (.merging (some s) query) → query = old.args := by
    intro old hold hphase htask
    rcases h.merging hs htask with hbefore | ⟨-, -, hsender⟩
    · exact hinv s old query hold hphase hbefore
    · -- a message that has been taken is not taken again
      obtain ⟨e', hex', hsent⟩ := hsender s rfl
      rw [hold] at hex'
      cases hex'
      rw [hphase] at hsent
      cases hsent
  cases h.turns hex with
  | same hbefore hno => exact hold hbefore hphase htask
  | noted hbefore hput =>
      have heq := hold hbefore hphase htask
      exact heq
  | begun ha hsnap => cases hphase
  | taken hbefore ha htaken =>
      rw [htaken] at htask
      cases htask
      rfl
  | refused hbefore ha => cases hphase
  | answered hbefore hwait ha hmerging hmerge hhandler => cases hphase

theorem Moves.inView {v : GetServersReply} {c c' : Cluster} {a : Action} (h : Moves c a c')
    (hv : InView v c) (ha : a.inView v = true) : InView v c' := by
  have hnum : ∀ s w, (c.nodes s).HoldsView w →
      (c.handlers s).currentView.viewNum = w.viewNum := by
    intro s w hw
    rw [hv.currentView s, hv.views s w hw]
  constructor
  · exact h.sound hv.sound
  · intro s w hw
    cases h.holdsView hv.sound hw with
    | inl hold => exact hv.views s w hold
    | inr hnew => exact Action.view_eq ha hnew
  · intro s hping
    cases h.on_or_frame hv.sound with
    | inl hon =>
        obtain ⟨t, b, n, rfl, rfl, hdoes⟩ := hon
        rw [pings_set] at hping
        rcases update_cases hping with ⟨rfl, hnew⟩ | ⟨-, hold⟩
        · rcases hdoes.ping hnew with hold | ⟨w, -, hw⟩ | ⟨w, hassign, hne, -⟩
          · exact hv.pings s hold
          · cases hw
          · exact hne (hnum s w (.pinged hassign))
        · exact hv.pings s hold
    | inr hframe =>
        rw [hframe.pings] at hping
        exact hv.pings s hping
  · intro s call w htask
    cases h.on_or_frame hv.sound with
    | inl hon =>
        obtain ⟨t, b, n, rfl, rfl, hdoes⟩ := hon
        rw [tasks_set] at htask
        rcases update_cases htask with ⟨rfl, hnew⟩ | ⟨-, hold⟩
        · cases hdoes.begins (hv.sound.represents s) hnew with
          | inl hold => exact hv.tasks s call w hold
          | inr hbegins =>
              cases hbegins with
              | cleaning hassign hview hne => exact hne (hnum s w (.assigning hassign))
        · exact hv.tasks s call w hold
    | inr hframe =>
        rcases hframe.tasks s _ htask with hold | ⟨sender, query, he⟩
        · exact hv.tasks s call w hold
        · cases he
  · intro s call htask
    rcases h.serving hv.sound htask with hold | ⟨w, hw, -, hown⟩
    · exact hv.serving s call hold
    · rw [hv.views s w hw] at hown
      exact hown
  · intro s e query hex hphase htask
    exact h.queries hv.sound hv.queries hex hphase htask
  · intro s p key hkey
    exact h.noted hv hkey

end Cluster

end RobustCache
