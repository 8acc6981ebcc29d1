import RobustCache.Cluster.Drain

/-! # Peers that wait behind one that does not answer

The anti-entropy thread sends to the first peer of `diffs` that has a set, and the
set is erased only when that peer answers. As long as it does not, and the view
stays, the thread comes back to the same peer each time; the peers after it in the
order of the map get nothing.
-/

namespace RobustCache

open Lib

namespace Cluster

/-- `s` does not get an answer from `p`, and does not clean its table for another view. -/
def unanswered (s p : Server) (c : Cluster) : Action → Bool
  | .on t .clean => decide (t ≠ s)
  | .on t .pingClean => decide (t ≠ s)
  | .on t .finish =>
      decide (t ≠ s) || !(c.exchanges t).any fun e => decide (e.peer = p) && hopeful e
  | _ => true

section Step

variable {c c' : Cluster} {a : Action} {s p : Server}

/-- Without an answer from `p`, no key noted for it or a later peer is forgotten, as long
as the thread does not get past `p`. -/
theorem Moves.noted_kept (h : Moves c a c') (hs : Sound c) (ha : unanswered s p c a = true)
    (hpeers : ∀ e, c.exchanges s = some e → e.peer ≤ p) {q : Server} (hq : p ≤ q) {key : Bytes}
    (hkey : key ∈ Handler.noted (c.handlers s).diffs q) :
    key ∈ Handler.noted (c'.handlers s).diffs q := by
  have hsame : ∀ {c' : Cluster}, SameServers c c' →
      key ∈ Handler.noted (c'.handlers s).diffs q := by
    intro c' hsame
    rw [hsame.1]
    exact hkey
  cases h with
  | @on t b n hdoes =>
      by_cases hst : s = t
      · subst hst
        rw [handlers_set, Function.update_self]
        obtain ⟨heff, -⟩ := hdoes.effect_items (hs.represents s)
        rcases heff.diffs with ⟨heq, -⟩ | ⟨args, -, heq⟩ | ⟨e, reply, rfl, hex, hphase, hok, heq⟩ |
          rfl | rfl
        · rw [heq]
          exact hkey
        · rw [heq]
          exact Handler.mem_noted_noteDiffs.mpr (.inr hkey)
        · -- the peer that has answered comes before `p`
          have hex' : c.exchanges s = some e := hex
          have hne : e.peer ≠ p := by simpa [unanswered, hex', hopeful, hphase, hok] using ha
          have hlt : e.peer < q := lt_of_lt_of_le (lt_of_le_of_ne (hpeers e hex') hne) hq
          rw [heq, Handler.mem_noted_erase]
          exact ⟨hlt.ne', hkey⟩
        · simp [unanswered] at ha
        · simp [unanswered] at ha
      · rw [handlers_set, Function.update_of_ne hst]
        exact hkey
  | taken hex hphase hidle hnum hsame' => exact hsame hsame'
  | refused hex hphase hsame' => exact hsame hsame'
  | strayTaken hmem hidle hnum hsame' => exact hsame hsame'
  | strayRefused hsame' => exact hsame hsame'
  | @merged t sender query h' reply c' htask hmerge hhandlers =>
      rw [hhandlers]
      by_cases hst : s = t
      · subst hst
        rw [Function.update_self, (merge_items (hs.represents s) hmerge).1]
        exact hkey
      · rw [Function.update_of_ne hst]
        exact hkey
  | mergeThrew htask hsame' => exact hsame hsame'
  | failed hex hsame' => exact hsame hsame'

theorem Moves.peer_le (h : Moves c a c') (hs : Sound c)
    (hp : Handler.noted (c.handlers s).diffs p ≠ [])
    (hbefore : ∀ e, c.exchanges s = some e → e.peer ≤ p) {e : Exchange}
    (hex : c'.exchanges s = some e) : e.peer ≤ p := by
  rcases (h.turns hex).offer with ⟨old, hold, hpeer, -⟩ | ⟨-, hsnap⟩
  · rw [hpeer]
    exact hbefore old hold
  · rw [Handler.snapshot_spec (hs.represents s), Except.ok.injEq,
      Option.map_eq_some_iff] at hsnap
    obtain ⟨next, hnext, hsent⟩ := hsnap
    rw [← (Prod.mk.inj hsent).1]
    cases hset : (c.handlers s).diffs.find? p with
    | none => simp [Handler.noted, hset] at hp
    | some keys =>
        have hne : (!keys.isEmpty) = true := by
          cases hkeys : keys.isEmpty with
          | false => rfl
          | true =>
              rw [OrderedMap.isEmpty, List.isEmpty_iff] at hkeys
              simp [Handler.noted, hset, OrderedMap.keys, hkeys] at hp
        exact OrderedMap.least_of_find? hnext (OrderedMap.find?_eq_some.mp hset) hne

end Step

/-- From a state in which `s` has a set for the peer `p` on, and for as long as `p` gives
it no answer and it adopts no other view, `s` sends to no peer after `p`, and every key
noted for `p` or for a later peer stays noted. Earlier peers may answer. -/
theorem later_peers_starve {c c' : Cluster} {s p : Server} (hc : Reach step anyAction initial c)
    (hp : Handler.noted (c.handlers s).diffs p ≠ []) (hidle : c.exchanges s = none)
    (h : Reach step (fun c a => unanswered s p c a = true) c c') :
    (∀ e, c'.exchanges s = some e → e.peer ≤ p) ∧
      ∀ q, p ≤ q → ∀ key ∈ Handler.noted (c.handlers s).diffs q,
        key ∈ Handler.noted (c'.handlers s).diffs q := by
  have hsound : Sound c := hc.invariant initial_sound fun _ _ _ hs _ hstep =>
    (step_moves hstep).sound hs
  have hall : Sound c' ∧ (∀ e, c'.exchanges s = some e → e.peer ≤ p) ∧
      ∀ q, p ≤ q → ∀ key ∈ Handler.noted (c.handlers s).diffs q,
        key ∈ Handler.noted (c'.handlers s).diffs q := by
    apply h.invariant
    · refine ⟨hsound, fun e hex => ?_, fun q _ key hkey => hkey⟩
      rw [hidle] at hex
      cases hex
    · intro c₁ a c₂ hinv ha hstep
      obtain ⟨hs, hpeers, hkept⟩ := hinv
      have hmoves := step_moves hstep
      have hstill : Handler.noted (c₁.handlers s).diffs p ≠ [] := by
        obtain ⟨key, hkey⟩ := List.exists_mem_of_ne_nil _ hp
        exact List.ne_nil_of_mem (hkept p le_rfl key hkey)
      refine ⟨hmoves.sound hs, fun e hex => hmoves.peer_le hs hstill hpeers hex, ?_⟩
      intro q hq key hkey
      exact hmoves.noted_kept hs ha hpeers hq (hkept q hq key hkey)
  exact hall.2

/-- A put at the first of four servers under their common view, which the second one has
adopted too. -/
def putForThree (s t u w : Server) : List Action :=
  let view : GetServersReply := { view := View.single [s, t, u, w], viewNum := 1 }
  [.on t (.ping view), .on t .pingAssign, .on t .pingClean,
    .on s (.ping view), .on s .pingAssign, .on s .pingClean] ++ putAt s ⟨[1], [7], 1⟩

/-- The second server answers. The connection to the third one fails, and the thread
tries again. -/
def answeredThenFailed (s t : Server) : List Action :=
  exchangeWith s t ++ [.on s .snapshot, .fail s, .on s .finish, .on s .snapshot]

theorem later_peers_starve_putForThree : ∃ c c' : Cluster,
    Reach step (fun c a => unanswered ⟨[1], 1⟩ ⟨[3], 3⟩ c a = true) c c' ∧
    Handler.noted (c.handlers ⟨[1], 1⟩).diffs ⟨[2], 2⟩ = [[1]] ∧
    Handler.noted (c'.handlers ⟨[1], 1⟩).diffs ⟨[2], 2⟩ = [] ∧
    Handler.noted (c.handlers ⟨[1], 1⟩).diffs ⟨[4], 4⟩ = [[1]] ∧
    [1] ∈ Handler.noted (c'.handlers ⟨[1], 1⟩).diffs ⟨[4], 4⟩ ∧
    ∃ e, c'.exchanges ⟨[1], 1⟩ = some e ∧ e.peer ≤ ⟨[3], 3⟩ := by
  have hrun : ((perform step anyAction initial
      (putForThree ⟨[1], 1⟩ ⟨[2], 2⟩ ⟨[3], 3⟩ ⟨[4], 4⟩)).bind fun c =>
        (perform step (fun c a => unanswered ⟨[1], 1⟩ ⟨[3], 3⟩ c a = true) c
          (answeredThenFailed ⟨[1], 1⟩ ⟨[2], 2⟩)).map fun c' =>
            (((c.exchanges ⟨[1], 1⟩).isNone, (c'.exchanges ⟨[1], 1⟩).isSome),
              Handler.noted (c'.handlers ⟨[1], 1⟩).diffs ⟨[2], 2⟩,
              [⟨[2], 2⟩, ⟨[3], 3⟩, ⟨[4], 4⟩].map (Handler.noted (c.handlers ⟨[1], 1⟩).diffs))) =
      some ((true, true), [], [[[1]], [[1]], [[1]]]) := by
    decide +kernel
  obtain ⟨c, hc, hrest⟩ := Option.bind_eq_some_iff.mp hrun
  obtain ⟨c', hc', hend⟩ := Option.map_eq_some_iff.mp hrest
  obtain ⟨hphases, hend⟩ := Prod.mk.inj hend
  obtain ⟨hidle, hbusy⟩ := Prod.mk.inj hphases
  obtain ⟨hanswered, hnoted⟩ := Prod.mk.inj hend
  simp only [List.map_cons, List.map_nil, List.cons.injEq, and_true] at hnoted
  obtain ⟨hsecond, hthird, hfourth⟩ := hnoted
  have hreach := reach_of_perform hc'
  have hp : Handler.noted (c.handlers ⟨[1], 1⟩).diffs ⟨[3], 3⟩ ≠ [] := by
    intro hnil
    rw [hthird] at hnil
    cases hnil
  obtain ⟨hpeers, hkept⟩ := later_peers_starve (reach_of_perform hc) hp
    (Option.isNone_iff_eq_none.mp hidle) hreach
  obtain ⟨e, hex⟩ := Option.isSome_iff_exists.mp hbusy
  have hkey : [1] ∈ Handler.noted (c.handlers ⟨[1], 1⟩).diffs ⟨[4], 4⟩ := by
    rw [hfourth]
    exact List.mem_singleton.mpr rfl
  exact ⟨c, c', hreach, hsecond, hanswered, hfourth, hkept _ (by decide) _ hkey, e, hex,
    hpeers e hex⟩

end Cluster

end RobustCache
