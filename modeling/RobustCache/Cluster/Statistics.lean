import RobustCache.Cluster.Provenance
import RobustCache.Server.Statistics

/-! # Statistics against the history

The counters of each server, whatever the threads of the cluster do in between, are
the numbers of the puts and of the replies to gets in the history of the run.
-/

namespace RobustCache

open Lib

namespace CallEvent

def putsAt (s : Server) : CallEvent → Bool
  | .wrote t _ => decide (t = s)
  | _ => false

def getsAt (s : Server) (status : Status) : CallEvent → Bool
  | .read t _ reply => decide (t = s) && decide (reply.status = status)
  | _ => false

end CallEvent

/-- The counters of `s` are raised by as much as the events show. -/
structure Records (s : Server) (seen : List CallEvent) (st st' : Store) : Prop where
  puts : st'.books.puts = st.books.puts + seen.countP (CallEvent.putsAt s)
  goodGets : st'.books.goodGets = st.books.goodGets + seen.countP (CallEvent.getsAt s .ok)
  failedGets : st'.books.failedGets =
    st.books.failedGets + seen.countP (CallEvent.getsAt s .noKey)

def CallEvent.Elsewhere (s : Server) : CallEvent → Prop
  | .asked _ _ => True
  | .wrote t _ => t ≠ s
  | .read t _ _ => t ≠ s

theorem records_of_drifts {s : Server} {seen : Option CallEvent} {st st' : Store} {k : Nat}
    (hd : Store.Drifts k st st') (hseen : ∀ e, seen = some e → e.Elsewhere s) :
    Records s seen.toList st st' := by
  have hnone : ∀ {p : CallEvent → Bool}, (∀ e, e.Elsewhere s → p e = false) →
      seen.toList.countP p = 0 := by
    intro p hp
    rw [List.countP_eq_zero]
    intro e he
    rw [hp e (hseen e (Option.mem_toList.mp he))]
    exact Bool.false_ne_true
  have hput : seen.toList.countP (CallEvent.putsAt s) = 0 := by
    apply hnone
    intro e he
    cases e with
    | wrote t args => exact decide_eq_false he
    | _ => rfl
  have hget : ∀ status, seen.toList.countP (CallEvent.getsAt s status) = 0 := by
    intro status
    apply hnone
    intro e he
    cases e with
    | read t args reply =>
        have hne : t ≠ s := he
        simp [CallEvent.getsAt, hne]
    | _ => rfl
  constructor
  · rw [hd.puts, hput, Nat.cast_zero, add_zero]
  · rw [hd.goodGets, hget, Nat.cast_zero, add_zero]
  · rw [hd.failedGets, hget, Nat.cast_zero, add_zero]

theorem records_of_put {s : Server} {args : PutArgs} {st st' : Store}
    (h : st'.books = { st.books with puts := st.books.puts + 1 }) :
    Records s [.wrote s args] st st' := by
  constructor
  · simp [h, CallEvent.putsAt]
  · simp [h, CallEvent.getsAt]
  · simp [h, CallEvent.getsAt]

theorem records_of_get {s : Server} {args : GetArgs} {h : Handler} {r : Handler × GetReply}
    (hrun : h.getLocked args = .ok r) : Records s [.read s args r.2] h.toStore r.1.toStore := by
  rcases Handler.getLocked_books hrun with ⟨hstatus, hbooks⟩ | ⟨hstatus, hbooks⟩
  · constructor
    · simp [hbooks, CallEvent.putsAt]
    · simp [hbooks, CallEvent.getsAt, hstatus]
    · simp [hbooks, CallEvent.getsAt, hstatus]
  · constructor
    · simp [hbooks, CallEvent.putsAt]
    · simp [hbooks, CallEvent.getsAt, hstatus]
    · simp [hbooks, CallEvent.getsAt, hstatus]

theorem Records.append {s : Server} {seen seen' : List CallEvent} {st st' st'' : Store}
    (h : Records s seen st st') (h' : Records s seen' st' st'') :
    Records s (seen ++ seen') st st'' := by
  constructor
  · rw [h'.puts, h.puts, List.countP_append]
    push_cast
    ring
  · rw [h'.goodGets, h.goodGets, List.countP_append]
    push_cast
    ring
  · rw [h'.failedGets, h.failedGets, List.countP_append]
    push_cast
    ring

theorem Locked.getSection_cases {p : Process} {items : List Item}
    (hr : Represents p.handler.toStore items) (query : GetArgs) :
    getSection query p = .stuck ∨
      ∃ r p', p.handler.getLocked query = .ok r ∧ getSection query p = .returns r.2 p' ∧
        p'.handler = r.1 := by
  obtain ⟨h, hash, view⟩ := p
  obtain ⟨st, hget, -⟩ := Handler.getLocked_spec hr query
  cases hash with
  | true => exact .inl rfl
  | false =>
      have hbody : within (fun h => h.getLocked query) ⟨h, true, view⟩ = _ := within_ok hget
      exact .inr ⟨_, _, hget, (bind_returns rfl).trans (bind_returns hbody), rfl⟩

namespace Node

variable {n n' : Node}

theorem Does.drifts {b : Local} (h : Does n b n') (hb : b ≠ .serve) :
    ∃ k, Store.Drifts k n.handler.toStore n'.handler.toStore := by
  have hsame : ∀ {h : Handler}, h.toStore = n.handler.toStore →
      ∃ k, Store.Drifts k n.handler.toStore h.toStore :=
    fun heq => ⟨0, Store.drifts_of_eq (by rw [heq])⟩
  cases h with
  | decided hp hidle => exact hsame (by rw [hp])
  | ahead hp hidle hnum => exact hsame (by rw [hp])
  | refreshed htask => exact hsame rfl
  | assigned htask hp => exact hsame (by rw [hp])
  | cleaned htask hp => exact ⟨0, Store.drifts_of_eq (Handler.cleanLoop_books hp)⟩
  | cleanThrew htask hp => exact hsame (by rw [hp])
  | put htask hput hget hp => exact absurd rfl hb
  | putThrew htask hp => exact absurd rfl hb
  | get htask hp => exact absurd rfl hb
  | received hidle => exact hsame rfl
  | pingAssigned hping hp => exact hsame (by rw [hp])
  | pingCleaned hping hp =>
      cases hp with
      | inl hp => exact hsame (by rw [hp])
      | inr hp => exact ⟨0, Store.drifts_of_eq (Handler.cleanLoop_books hp)⟩
  | quiet hp => exact hsame (by rw [hp])
  | sent hidle hsnap hp => exact hsame (by rw [hp])
  | finished hex hphase hp =>
      cases hp with
      | inl hp => exact ⟨_, Handler.replyLocked_drifts hp⟩
      | inr hfault => exact hsame (by rw [hfault.2])

/-- The locked section of a put counts it, also when the ring lookup throws. -/
theorem Does.put_books (h : Does n .serve n')
    (hr : Represents n.handler.toStore n.handler.items) {args : PutArgs}
    (htask : n.task = some (.serving (.put args))) :
    n'.handler.books = { n.handler.books with puts := n.handler.books.puts + 1 } := by
  cases h with
  | @put args' p h₁ servers htask' hput hget hp =>
      rw [htask] at htask'
      cases htask'
      have hbooks := Handler.putEntry_books hput
      show p.handler.books = _
      rw [hp]
      exact hbooks
  | @putThrew args' p htask' hp =>
      rw [htask] at htask'
      cases htask'
      cases hp with
      | inl hfault =>
          obtain ⟨st, hrun, -⟩ := Handler.putEntry_spec hr args.key args.value
          rw [hrun] at hfault
          cases hfault.1
      | inr hwrote => exact Handler.putEntry_books hwrote.1
  | get htask' hp =>
      rw [htask] at htask'
      cases htask'

theorem serve_get {args : GetArgs} (h : n.serve = some n')
    (hr : Represents n.handler.toStore n.handler.items)
    (htask : n.task = some (.serving (.get args))) :
    ∃ r, n.handler.getLocked args = .ok r ∧ n'.handler = r.1 := by
  simp only [serve, htask, run] at h
  rcases Locked.getSection_cases hr args with hstuck | ⟨r, p, hget, hrun, hp⟩
  · rw [hstuck] at h
    cases h
  · rw [hrun] at h
    cases h
    exact ⟨r, hget, hp⟩

end Node

namespace Cluster

variable {c c' : Cluster} {a : Action}

/-- A step of one server raises its counters as its event tells. -/
theorem on_records {s : Server} {b : Local} {n : Node} (h : (c.nodes s).step b = some n)
    (hs : Sound c) :
    Records s (c.observe (.on s b)).toList (c.handlers s).toStore n.handler.toStore := by
  have hr := hs.represents s
  by_cases hb : b = .serve
  · subst hb
    obtain ⟨call, htask⟩ : ∃ call, c.tasks s = some (.serving call) := by
      cases Node.step_does h with
      | put htask hput hget hp => exact ⟨_, htask⟩
      | putThrew htask hp => exact ⟨_, htask⟩
      | get htask hp => exact ⟨_, htask⟩
    cases call with
    | put args =>
        have hobserve : c.observe (.on s .serve) = some (.wrote s args) := by
          simp only [observe, htask]
        rw [hobserve]
        exact records_of_put ((Node.step_does h).put_books hr htask)
    | get args =>
        obtain ⟨r, hget, hhandler⟩ := Node.serve_get h hr htask
        have hget' : (c.handlers s).getLocked args = .ok r := hget
        have hobserve : c.observe (.on s .serve) = some (.read s args r.2) := by
          simp only [observe, htask, hget']
          rfl
        rw [hobserve, hhandler]
        exact records_of_get hget'
  · obtain ⟨k, hdrifts⟩ := (Node.step_does h).drifts hb
    apply records_of_drifts hdrifts
    intro e he
    cases b with
    | request call =>
        cases he
        trivial
    | serve => exact absurd rfl hb
    | _ => cases he

theorem observe_elsewhere {s t : Server} (hst : s ≠ t) {b : Local} {e : CallEvent}
    (he : c.observe (.on t b) = some e) : e.Elsewhere s := by
  unfold observe at he
  split at he
  · cases he
    trivial
  · next u hserve =>
    have hu : t = u := (Action.on.inj hserve).1
    split at he
    · cases he
      exact fun heq => hst (heq.symm.trans hu.symm)
    · obtain ⟨r, -, hr⟩ := Option.map_eq_some_iff.mp he
      cases hr
      exact fun heq => hst (heq.symm.trans hu.symm)
    · cases he
  · cases he

theorem step_records (h : c.step a = some c') (hs : Sound c) (s : Server) :
    Records s (c.observe a).toList (c.handlers s).toStore (c'.handlers s).toStore := by
  have hsame : c'.handlers = c.handlers → (∀ e, c.observe a = some e → e.Elsewhere s) →
      Records s (c.observe a).toList (c.handlers s).toStore (c'.handlers s).toStore := by
    intro heq hseen
    have hdrifts : Store.Drifts 0 (c.handlers s).toStore (c'.handlers s).toStore :=
      Store.drifts_of_eq (by rw [heq])
    exact records_of_drifts hdrifts hseen
  cases step_moves h with
  | @on t b n hdoes =>
      obtain ⟨n', hn', hset⟩ := Option.map_eq_some_iff.mp h
      rw [← hset, handlers_set]
      by_cases hst : s = t
      · subst hst
        rw [Function.update_self]
        exact on_records hn' hs
      · rw [Function.update_of_ne hst]
        exact records_of_drifts (.refl _) fun e he => observe_elsewhere hst he
  | taken hex hphase hidle hnum hsame' => exact hsame hsame'.1 fun e he => by cases he
  | refused hex hphase hsame' => exact hsame hsame'.1 fun e he => by cases he
  | strayTaken hmem hidle hnum hsame' => exact hsame hsame'.1 fun e he => by cases he
  | strayRefused hsame' => exact hsame hsame'.1 fun e he => by cases he
  | @merged t sender query h' reply c' htask hmerge hhandlers =>
      rw [hhandlers]
      by_cases hst : s = t
      · subst hst
        rw [Function.update_self]
        exact records_of_drifts (Handler.antiEntropyLocked_drifts hmerge) fun e he => by cases he
      · rw [Function.update_of_ne hst]
        exact records_of_drifts (.refl _) fun e he => by cases he
  | mergeThrew htask hsame' => exact hsame hsame'.1 fun e he => by cases he
  | failed hex hsame' => exact hsame hsame'.1 fun e he => by cases he

theorem trace_records {log : List CallEvent} (hs : Sound c)
    (h : Trace step anyAction observe c c' log) (s : Server) :
    Sound c' ∧ Records s log (c.handlers s).toStore (c'.handlers s).toStore := by
  apply h.invariant (P := fun c' log =>
    Sound c' ∧ Records s log (c.handlers s).toStore (c'.handlers s).toStore)
  · refine ⟨hs, ?_⟩
    have hstart : Records s (none : Option CallEvent).toList _ _ :=
      records_of_drifts (.refl (c.handlers s).toStore) fun e he => by cases he
    exact hstart
  · rintro c₁ a c₂ log ⟨hs₁, hrecords⟩ - hstep
    exact ⟨(step_moves hstep).sound hs₁, hrecords.append (step_records hstep hs₁ s)⟩

/-- In every run, the counters of a server are the puts it has carried out, the gets it
has answered with a value and the gets it has answered without one. -/
theorem calls_counted {log : List CallEvent} (h : Trace step anyAction observe initial c log)
    (s : Server) :
    (c.handlers s).statistics.numInsertions + (c.handlers s).statistics.numUpdates =
        log.countP (CallEvent.putsAt s) ∧
      (c.handlers s).statistics.numGoodGets = log.countP (CallEvent.getsAt s .ok) ∧
      (c.handlers s).statistics.numFailedGets = log.countP (CallEvent.getsAt s .noKey) := by
  obtain ⟨-, hputs, hgood, hfailed⟩ := trace_records initial_sound h s
  have hstart : (initial.handlers s).toStore = ({} : Store) := rfl
  rw [hstart] at hputs hgood hfailed
  simp only [Store.books, zero_add] at hputs hgood hfailed
  exact ⟨hputs, hgood, hfailed⟩

theorem calls_counted_readAtPeer :
    ∃ c log, Trace step anyAction observe initial c log ∧
      (c.handlers ⟨[1], 1⟩).statistics.numInsertions +
        (c.handlers ⟨[1], 1⟩).statistics.numUpdates = 1 ∧
      (c.handlers ⟨[2], 2⟩).statistics.numGoodGets = 1 ∧
      (c.handlers ⟨[2], 2⟩).statistics.numFailedGets = 1 := by
  have hrun : ((record step anyAction observe initial (readAtPeer ⟨[1], 1⟩ ⟨[2], 2⟩)).map fun r =>
      (r.2.countP (CallEvent.putsAt ⟨[1], 1⟩), r.2.countP (CallEvent.getsAt ⟨[2], 2⟩ .ok),
        r.2.countP (CallEvent.getsAt ⟨[2], 2⟩ .noKey))) = some (1, 1, 1) := by
    decide +kernel
  obtain ⟨⟨c, log⟩, hrec, hend⟩ := Option.map_eq_some_iff.mp hrun
  obtain ⟨hputs, hend⟩ := Prod.mk.inj hend
  obtain ⟨hgood, hfailed⟩ := Prod.mk.inj hend
  have htrace := trace_of_record hrec
  refine ⟨c, log, htrace, ?_, ?_, ?_⟩
  · rw [(calls_counted htrace _).1, hputs]
    rfl
  · rw [(calls_counted htrace _).2.1, hgood]
    rfl
  · rw [(calls_counted htrace _).2.2, hfailed]
    rfl

end Cluster

end RobustCache
