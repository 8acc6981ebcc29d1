import RobustCache.Lib.Trace
import RobustCache.Cluster.Copies

/-! # Where values come from

The history of a run is what its clients can see: the calls they make, the puts
that are carried out and the replies to gets. Views may change, messages may be
late or lost and stores may evict, yet no value appears that no client has put
under its key, and no counter of a version outruns the puts of its server.
-/

namespace RobustCache

open Lib

deriving instance DecidableEq for ClientCall

/-- What the clients of a cluster can see of a step. -/
inductive CallEvent where
  /-- The call has reached `s`. -/
  | asked (s : Server) (call : ClientCall)
  /-- The locked section of a put at `s`. -/
  | wrote (s : Server) (args : PutArgs)
  /-- The locked section of a get at `s`, with its reply. -/
  | read (s : Server) (args : GetArgs) (reply : GetReply)
deriving DecidableEq

namespace CallEvent

def writesAt (s : Server) (key : Bytes) : CallEvent → Bool
  | .wrote t args => decide (t = s) && decide (args.key = key)
  | _ => false

/-- A put or a get follows its call, and a value that is read has been put under
the key before. -/
def Justified (before : List CallEvent) : CallEvent → Prop
  | .asked _ _ => True
  | .wrote s args => .asked s (.put args) ∈ before
  | .read s args reply =>
      .asked s (.get args) ∈ before ∧
        (reply = { status := .noKey } ∨
          reply.status = .ok ∧ ∃ t args', .wrote t args' ∈ before ∧ args'.key = args.key ∧
            args'.value = reply.value)

end CallEvent

def writes (s : Server) (key : Bytes) (log : List CallEvent) : Nat :=
  log.countP (CallEvent.writesAt s key)

theorem writes_append (s : Server) (key : Bytes) (log log' : List CallEvent) :
    writes s key (log ++ log') = writes s key log + writes s key log' :=
  List.countP_append

def Task.call? : Task → Option ClientCall
  | .refreshing call => some call
  | .assigning call _ => some call
  | .cleaning call _ => some call
  | .serving call => some call
  | .merging _ _ => none

theorem Node.Does.call {n n' : Node} {a : Local} (h : n.Does a n') {t : Task}
    (ht : n'.task = some t) {call : ClientCall} (hcall : t.call? = some call) :
    a = .request call ∨ ∃ t', n.task = some t' ∧ t'.call? = some call := by
  have hverdict : ∀ {server : Server} {call' : ClientCall} {view : GetServersReply},
      Node.verdict server call' view = some t → call' = call := by
    intro server call' view hv
    obtain ⟨rfl, -⟩ := Node.verdict_some hv
    exact Option.some.inj hcall
  cases h with
  | decided hp hidle =>
      cases hverdict ht
      exact .inl rfl
  | ahead hp hidle hnum =>
      cases ht
      cases hcall
      exact .inl rfl
  | refreshed htask =>
      cases ht
      exact .inr ⟨_, htask, hcall⟩
  | assigned htask hp =>
      refine .inr ⟨_, htask, ?_⟩
      simp only at ht
      split at ht
      · cases ht
        exact hcall
      · cases hverdict ht
        rfl
  | cleaned htask hp =>
      refine .inr ⟨_, htask, ?_⟩
      cases hverdict ht
      rfl
  | cleanThrew htask hp => cases ht
  | put htask hput hget hp => cases ht
  | putThrew htask hp => cases ht
  | get htask hp => cases ht
  | received hidle => exact .inr ⟨t, ht, hcall⟩
  | pingAssigned hping hp => exact .inr ⟨t, ht, hcall⟩
  | pingCleaned hping hp => exact .inr ⟨t, ht, hcall⟩
  | quiet hp => exact .inr ⟨t, ht, hcall⟩
  | sent hidle hsnap hp => exact .inr ⟨t, ht, hcall⟩
  | finished hex hphase hp => exact .inr ⟨t, ht, hcall⟩

namespace Cluster

variable {c c' : Cluster} {a : Action}

/-! ## Events -/

def observe (c : Cluster) : Action → Option CallEvent
  | .on s (.request call) => some (.asked s call)
  | .on s .serve =>
      match c.tasks s with
      | some (.serving (.put args)) => some (.wrote s args)
      | some (.serving (.get args)) =>
          ((c.handlers s).getLocked args).toOption.map fun r => .read s args r.2
      | _ => none
  | _ => none

/-- The steps that the clients can see. -/
inductive Observes (c : Cluster) : Action → CallEvent → Prop
  | asked {s : Server} {call : ClientCall} : Observes c (.on s (.request call)) (.asked s call)
  | wrote {a : Action} {s : Server} {args : PutArgs} (hput : Puts c a s args) :
      Observes c a (.wrote s args)
  | read {s : Server} {args : GetArgs} (htask : c.tasks s = some (.serving (.get args))) :
      Observes c (.on s .serve) (.read s args (Lru.get args.key (c.items s)).2)

theorem observes_of_observe {c : Cluster} (hs : Sound c) {a : Action} {e : CallEvent}
    (h : c.observe a = some e) : Observes c a e := by
  unfold observe at h
  split at h
  · cases h
    exact .asked
  · next s =>
    split at h
    · next args htask =>
      cases h
      exact .wrote ⟨.serve, rfl, rfl, htask⟩
    · next args htask =>
      obtain ⟨st, hget, -⟩ := Handler.getLocked_spec (hs.represents s) args
      rw [hget] at h
      cases h
      exact .read htask
    · cases h
  · cases h

theorem observe_of_puts {c : Cluster} {a : Action} {s : Server} {args : PutArgs}
    (h : Puts c a s args) : c.observe a = some (.wrote s args) := by
  obtain ⟨b, rfl, rfl, htask⟩ := h
  have htask' : c.tasks s = some (.serving (.put args)) := htask
  simp only [observe, htask']

/-- The call that `s` is in has been asked of it. -/
def Asked (c : Cluster) (log : List CallEvent) : Prop :=
  ∀ s t call, c.tasks s = some t → t.call? = some call → .asked s call ∈ log

theorem Moves.asked (h : Moves c a c') (hs : Sound c) {log : List CallEvent}
    (hasked : c.Asked log) : c'.Asked (log ++ (c.observe a).toList) := by
  intro s t call ht hcall
  cases h.on_or_frame hs with
  | inl hon =>
      obtain ⟨s', b, n, rfl, rfl, hdoes⟩ := hon
      rw [tasks_set] at ht
      rcases update_cases ht with ⟨rfl, hnew⟩ | ⟨-, hold⟩
      · rcases hdoes.call hnew hcall with rfl | ⟨t', ht', hcall'⟩
        · exact List.mem_append_right _ (List.mem_singleton.mpr rfl)
        · exact List.mem_append_left _ (hasked s t' call ht' hcall')
      · exact List.mem_append_left _ (hasked s t call hold hcall)
  | inr hframe =>
      rcases hframe.tasks s t ht with hold | ⟨sender, query, rfl⟩
      · exact List.mem_append_left _ (hasked s t call hold hcall)
      · cases hcall

/-! ## Values -/

/-- A copy after a step is the item just put, or it has the value of a copy before
and some of its counters. -/
theorem Moves.descends (h : Moves c a c') (hs : Sound c) {it : Item} (hit : c'.Copy it) :
    (∃ s args, Puts c a s args ∧ it = (c.handlers s).putItem args) ∨
      ∃ old, c.Copy old ∧ old.key = it.key ∧ old.value = it.value ∧
        it.version ⊆ old.version := by
  have hsame : c.Copy it → ∃ old, c.Copy old ∧ old.key = it.key ∧ old.value = it.value ∧
      it.version ⊆ old.version := fun hold => ⟨it, hold, rfl, rfl, List.Subset.refl _⟩
  cases hit with
  | inl hit =>
      obtain ⟨t, hit⟩ := hit
      cases h.source hs hit with
      | old hold hkept => exact .inr (hsame (.inl ⟨t, hold⟩))
      | put hput hit => exact .inl ⟨t, _, hput, hit⟩
      | merged ha htask he hit => exact .inr (hsame (.inr (.inr ⟨t, _, _, _, htask, he, hit⟩)))
      | @blanked sender query st e old ha htask hvisit hold hkey hvalue hnle hnge hit =>
          -- the entry that was merged has the same key and value
          have he : e ∈ query.entries := Store.mem_of_visits hvisit
          refine .inr ⟨e.item, .inr (.inr ⟨t, _, _, e, htask, he, rfl⟩), ?_⟩
          subst hit
          exact ⟨hkey.symm, hvalue, List.nil_subset _⟩
      | @trimmed old ha hold hown hit =>
          subst hit
          exact .inr ⟨old, .inl ⟨t, hold⟩, rfl, rfl, List.filter_subset_self _⟩
  | inr hit =>
      right
      rcases h.inFlight hs hit with hold | ⟨s, -, hheld⟩
      · exact hsame (.inr hold)
      · exact hsame (.inl ⟨s, hheld⟩)

def Written (c : Cluster) (log : List CallEvent) : Prop :=
  ∀ it, c.Copy it → ∃ s args, .wrote s args ∈ log ∧ args.key = it.key ∧ args.value = it.value

theorem Moves.written (h : Moves c a c') (hs : Sound c) {log : List CallEvent}
    (hwritten : c.Written log) : c'.Written (log ++ (c.observe a).toList) := by
  intro it hit
  rcases h.descends hs hit with ⟨s, args, hput, rfl⟩ | ⟨old, hold, hkey, hvalue, -⟩
  · rw [observe_of_puts hput]
    exact ⟨s, args, List.mem_append_right _ (List.mem_singleton.mpr rfl), rfl, rfl⟩
  · obtain ⟨s, args, hmem, hk, hv⟩ := hwritten old hold
    exact ⟨s, args, List.mem_append_left _ hmem, hk.trans hkey, hv.trans hvalue⟩

theorem Observes.justified {e : CallEvent} (h : Observes c a e) (hs : Sound c)
    {log : List CallEvent} (hasked : c.Asked log) (hwritten : c.Written log) :
    e.Justified log := by
  cases h with
  | asked => trivial
  | wrote hput =>
      obtain ⟨b, -, -, htask⟩ := hput
      exact hasked _ _ _ htask rfl
  | @read s args htask =>
      refine ⟨hasked _ _ _ htask rfl, ?_⟩
      unfold Lru.get
      cases hlook : Lru.lookup args.key (c.items s) with
      | none => exact .inl rfl
      | some it =>
          obtain ⟨hmem, hkey⟩ := (Recency.lookup_some (hs.represents s).distinct).mp hlook
          obtain ⟨t, args', hlog, hk, hv⟩ := hwritten it (.inl ⟨s, hmem⟩)
          exact .inr ⟨rfl, t, args', hlog, hk.trans hkey, hv⟩

/-- In every run, whatever is stored or on its way has been put by a client under
its key; a put or a get follows its call; and a get that finds the key returns a
value that had been put under it before. -/
theorem values_were_put {log : List CallEvent} (h : Trace step anyAction observe initial c log) :
    c.Written log ∧ Ordered CallEvent.Justified log := by
  have hinv : Sound c ∧ c.Asked log ∧ c.Written log ∧ Ordered CallEvent.Justified log := by
    apply h.invariant (P := fun c log => Sound c ∧ c.Asked log ∧ c.Written log ∧
      Ordered CallEvent.Justified log)
    · refine ⟨initial_sound, (fun s t call ht => by cases ht), fun it hit => ?_, ordered_nil _⟩
      exact absurd hit (not_copy_of_idle (fun s => rfl) (fun s => rfl) (fun s => rfl) rfl it)
    · rintro c a c' log ⟨hs, hasked, hwritten, hordered⟩ - hstep
      have hmoves := step_moves hstep
      refine ⟨hmoves.sound hs, hmoves.asked hs hasked, hmoves.written hs hwritten, ?_⟩
      apply hordered.extend
      intro e he
      exact (observes_of_observe hs he).justified hs hasked hwritten
  exact hinv.2.2

/-- The handler thread of `s` takes a call that names a newer view, and serves it
under the answer of the view service. -/
def refreshedCall (s : Server) (call : ClientCall) (view : GetServersReply) : List Action :=
  [.on s (.request call), .on s (.refresh view), .on s .assign, .on s .clean, .on s .serve]

/-- A put at `s` that `t` serves when it has been sent there, and not before. -/
def readAtPeer (s t : Server) : List Action :=
  let view : GetServersReply := { view := View.single [s, t], viewNum := 2 }
  refreshedCall s (.put ⟨[1], [7], 2⟩) view ++ refreshedCall t (.get ⟨[1], 2⟩) view ++
    exchangeWith s t ++ [.on t (.request (.get ⟨[1], 2⟩)), .on t .serve]

theorem values_were_put_readAtPeer :
    ∃ c log, Trace step anyAction observe initial c log ∧
      log = [.asked ⟨[1], 1⟩ (.put ⟨[1], [7], 2⟩), .wrote ⟨[1], 1⟩ ⟨[1], [7], 2⟩,
        .asked ⟨[2], 2⟩ (.get ⟨[1], 2⟩), .read ⟨[2], 2⟩ ⟨[1], 2⟩ { status := .noKey },
        .asked ⟨[2], 2⟩ (.get ⟨[1], 2⟩),
        .read ⟨[2], 2⟩ ⟨[1], 2⟩ { status := .ok, value := [7] }] ∧
      c.Written log ∧ Ordered CallEvent.Justified log := by
  have hrun : ((record step anyAction observe initial (readAtPeer ⟨[1], 1⟩ ⟨[2], 2⟩)).map
      Prod.snd) = some [.asked ⟨[1], 1⟩ (.put ⟨[1], [7], 2⟩), .wrote ⟨[1], 1⟩ ⟨[1], [7], 2⟩,
        .asked ⟨[2], 2⟩ (.get ⟨[1], 2⟩), .read ⟨[2], 2⟩ ⟨[1], 2⟩ { status := .noKey },
        .asked ⟨[2], 2⟩ (.get ⟨[1], 2⟩),
        .read ⟨[2], 2⟩ ⟨[1], 2⟩ { status := .ok, value := [7] }] := by
    decide +kernel
  obtain ⟨⟨c, log⟩, hrec, hlog⟩ := Option.map_eq_some_iff.mp hrun
  have htrace := trace_of_record hrec
  obtain ⟨hwritten, hordered⟩ := values_were_put htrace
  exact ⟨c, log, htrace, hlog, hwritten, hordered⟩

/-! ## Counters -/

/-- No counter of a copy outruns the puts of its server. -/
def Counted (c : Cluster) (log : List CallEvent) : Prop :=
  ∀ it, c.Copy it → ∀ p ∈ it.version, 1 ≤ p.2 ∧ p.2 ≤ writes p.1 it.key log

theorem counter_cases (server : Server) (v : Version) :
    counter server v = 0 ∨ (server, counter server v) ∈ v := by
  induction v with
  | nil => exact .inl rfl
  | cons p rest ih =>
      by_cases hp : p.1 = server
      · subst hp
        exact .inr (by simp [counter])
      · simp only [counter, if_neg hp]
        exact ih.imp_right (List.mem_cons_of_mem p)

theorem Sound.versionOf_kept (hs : Sound c) (s : Server) (key : Bytes) :
    Lru.versionOf key (c.handlers s).kept = [] ∨
      ∃ it ∈ c.items s, it.key = key ∧ Lru.versionOf key (c.handlers s).kept = it.version := by
  have hinit : Recency.shrink FitsCounter (c.items s) <+: c.items s :=
    Recency.shrink_prefix (c.items s)
  have hkept : (c.handlers s).kept = Recency.shrink FitsCounter (c.items s) :=
    (hs.represents s).kept_eq
  rw [hkept]
  rcases Lru.versionOf_cases ((hs.represents s).distinct.sublist hinit.sublist) key with
    hnil | ⟨it, hmem, hkey, hver⟩
  · exact .inl hnil
  · exact .inr ⟨it, hinit.subset hmem, hkey, hver⟩

theorem Moves.counters (h : Moves c a c') (hs : Sound c) {log : List CallEvent}
    (hcounted : c.Counted log) : c'.Counted (log ++ (c.observe a).toList) := by
  intro it hit p hp
  rw [writes_append]
  rcases h.descends hs hit with ⟨s, args, hput, rfl⟩ | ⟨old, hold, hkey, -, hsub⟩
  · have hone : writes s args.key (c.observe a).toList = 1 := by
      rw [observe_of_puts hput]
      simp [writes, CallEvent.writesAt]
    -- every pair of the old vector is within bounds
    have hbound : ∀ q ∈ Lru.versionOf args.key (c.handlers s).kept,
        1 ≤ q.2 ∧ q.2 ≤ writes q.1 args.key log := by
      intro q hq
      rcases hs.versionOf_kept s args.key with hnil | ⟨it, hmem, hkey, hver⟩
      · rw [hnil] at hq
        cases hq
      · rw [hver] at hq
        rw [← hkey]
        exact hcounted it (.inl ⟨s, hmem⟩) q hq
    rw [Handler.putItem, hs.server s] at hp
    show 1 ≤ p.2 ∧ p.2 ≤ ((writes p.1 args.key log + writes p.1 args.key _ : Nat) : Int)
    cases mem_incrementVersion hp with
    | inl hnew =>
        subst hnew
        simp only
        rw [hone]
        cases counter_cases s (Lru.versionOf args.key (c.handlers s).kept) with
        | inl hzero => omega
        | inr hmem =>
            have hbounds := hbound _ hmem
            simp only at hbounds
            omega
    | inr hold =>
        have hbounds := hbound p hold
        omega
  · have hbounds := hcounted old hold p (hsub hp)
    rw [hkey] at hbounds
    omega

/-- In every run a counter of a stored or sent version is at least one and at most
the number of puts of the key that its server has carried out. -/
theorem counters_within_puts {log : List CallEvent}
    (h : Trace step anyAction observe initial c log) : c.Counted log := by
  have hinv : Sound c ∧ c.Counted log := by
    apply h.invariant (P := fun c log => Sound c ∧ c.Counted log)
    · refine ⟨initial_sound, fun it hit => ?_⟩
      exact absurd hit (not_copy_of_idle (fun s => rfl) (fun s => rfl) (fun s => rfl) rfl it)
    · rintro c a c' log ⟨hs, hcounted⟩ - hstep
      have hmoves := step_moves hstep
      exact ⟨hmoves.sound hs, hmoves.counters hs hcounted⟩
  exact hinv.2

theorem counters_within_puts_readAtPeer :
    ∃ c log, Trace step anyAction observe initial c log ∧ writes ⟨[1], 1⟩ [1] log = 1 ∧
      c.items ⟨[2], 2⟩ = [⟨[1], [7], [(⟨[1], 1⟩, 1)]⟩] ∧ c.Counted log := by
  have hrun : ((record step anyAction observe initial (readAtPeer ⟨[1], 1⟩ ⟨[2], 2⟩)).map
      fun r => (writes ⟨[1], 1⟩ [1] r.2, r.1.items ⟨[2], 2⟩)) =
        some (1, [⟨[1], [7], [(⟨[1], 1⟩, 1)]⟩]) := by
    decide +kernel
  obtain ⟨⟨c, log⟩, hrec, hend⟩ := Option.map_eq_some_iff.mp hrun
  obtain ⟨hwrites, hitems⟩ := Prod.mk.inj hend
  have htrace := trace_of_record hrec
  exact ⟨c, log, htrace, hwrites, hitems, counters_within_puts htrace⟩

end Cluster

end RobustCache
