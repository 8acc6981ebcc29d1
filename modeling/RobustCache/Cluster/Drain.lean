import RobustCache.Lib.Termination
import RobustCache.Cluster.FixedView
import RobustCache.Cluster.Progress
import RobustCache.Server.Diffs

/-! # Replication runs out of work

What is left of anti-entropy under one view when the clients have stopped and no
connection fails. Every exchange then ends with the set of its peer erased and no set
ever grows, so a bounded number of steps is left in every run, in whatever order the
servers take them; and until no set is left some server can take one of them.
-/

namespace RobustCache

open Lib

def View.members (v : View) : Finset Server :=
  (v.hashToServer.entries.flatMap Prod.snd).toFinset

theorem View.mem_members {v : View} {key : Bytes} {s : Server} (h : s ∈ group key v) :
    s ∈ v.members := by
  unfold View.members
  rw [List.mem_toFinset, List.mem_flatMap]
  unfold group getServer at h
  split at h
  · next servers hget =>
    split at hget
    · cases hget
    · split at hget
      · cases hget
        cases hfirst : v.hashToServer.first with
        | none => simp [hfirst] at h
        | some e =>
            rw [hfirst] at h
            exact ⟨e, List.mem_of_mem_head? hfirst, h⟩
      · next e hbound =>
        cases hget
        exact ⟨e, List.mem_of_find?_eq_some hbound, h⟩
  · cases h

namespace Handler

theorem mem_keys_noteDiffs {h : Handler} {key : Bytes} {servers : List Server} {p : Server}
    (hp : p ∈ (h.noteDiffs key servers).diffs.keys) :
    p ∈ h.diffs.keys ∨ (p ∈ servers ∧ p ≠ h.server) := by
  unfold noteDiffs at hp
  generalize h.diffs = diffs at hp ⊢
  induction servers generalizing diffs with
  | nil => exact .inl hp
  | cons s rest ih =>
      simp only [List.foldl_cons] at ih hp
      rcases ih _ hp with hold | ⟨hmem, hne⟩
      · by_cases hs : s = h.server
        · rw [if_pos hs] at hold
          exact .inl hold
        · rw [if_neg hs, OrderedMap.mem_keys, find?_insertDiff] at hold
          by_cases hps : p = s
          · exact .inr ⟨List.mem_cons.mpr (.inl hps), hps ▸ hs⟩
          · rw [if_neg hps, ← OrderedMap.mem_keys] at hold
            exact .inl hold
      · exact .inr ⟨List.mem_cons_of_mem s hmem, hne⟩

end Handler

namespace Cluster

/-- What holds of the sets, the exchanges and the messages in every run under one
view. -/
structure Tracked (v : GetServersReply) (c : Cluster) : Prop where
  inView : InView v c
  unlocked : Unlocked c
  stocked : ∀ s p, p ∈ (c.handlers s).diffs.keys → Handler.noted (c.handlers s).diffs p ≠ []
  noting : ∀ s p, p ∈ (c.handlers s).diffs.keys → s ∈ v.view.members
  exchanging : ∀ s e, c.exchanges s = some e → s ∈ v.view.members ∧ e.peer ∈ v.view.members ∧
    e.args.viewNum = v.viewNum
  /-- A message that has been taken is being worked on. -/
  waiting : ∀ s e, c.exchanges s = some e → e.phase = .taken →
    ∃ query, c.tasks e.peer = some (.merging (some s) query)
  merging : ∀ s sender query, c.tasks s = some (.merging sender query) → s ∈ v.view.members
  stray : ∀ peer args, (peer, args) ∈ c.stray → peer ∈ v.view.members

theorem start_tracked {v : GetServersReply} (hv : v.view.NonEmpty) : Tracked v (start v) := by
  have hidle : ∀ s p, p ∉ ((start v).handlers s).diffs.keys := by
    intro s p hp
    cases hp
  constructor
  · exact start_inView v
  · constructor
    · exact (start_inView v).sound
    · intro s
      exact Call.idle_free _
    · intro s w hw
      cases hw with
      | assigning h => cases h
      | pinged h => cases h
    · intro s _
      exact hv
  · intro s p hp
    exact absurd hp (hidle s p)
  · intro s p hp
    exact absurd hp (hidle s p)
  · intro s e hex
    cases hex
  · intro s e hex
    cases hex
  · intro s sender query htask
    cases htask
  · intro peer args hmem
    cases hmem

section Step

variable {v : GetServersReply} {c c' : Cluster} {a : Action}

theorem Moves.stocked (h : Moves c a c') (ht : Tracked v c) {s p : Server}
    (hp : p ∈ (c'.handlers s).diffs.keys) : Handler.noted (c'.handlers s).diffs p ≠ [] := by
  rcases h.diffs ht.inView s with ⟨heq, -⟩ | ⟨args, -, heq⟩ | ⟨e, reply, -, -, -, -, heq⟩
  · rw [heq] at hp ⊢
    exact ht.stocked s p hp
  · rw [heq] at hp ⊢
    rcases Handler.mem_keys_noteDiffs hp with hold | ⟨hmem, hne⟩
    · obtain ⟨k, hk⟩ := List.exists_mem_of_ne_nil _ (ht.stocked s p hold)
      exact List.ne_nil_of_mem (Handler.mem_noted_noteDiffs.mpr (.inr hk))
    · exact List.ne_nil_of_mem (Handler.mem_noted_noteDiffs.mpr (.inl ⟨hmem, hne, rfl⟩))
  · rw [heq] at hp ⊢
    obtain ⟨keys, hkeys⟩ := OrderedMap.mem_keys.mp hp
    rw [OrderedMap.find?_erase] at hkeys
    split at hkeys
    · cases hkeys
    · next hne =>
      have hold : p ∈ (c.handlers s).diffs.keys := OrderedMap.mem_keys.mpr ⟨keys, hkeys⟩
      obtain ⟨k, hk⟩ := List.exists_mem_of_ne_nil _ (ht.stocked s p hold)
      exact List.ne_nil_of_mem (Handler.mem_noted_erase.mpr ⟨hne, hk⟩)

theorem Moves.noting (h : Moves c a c') (ht : Tracked v c) {s p : Server}
    (hp : p ∈ (c'.handlers s).diffs.keys) : s ∈ v.view.members := by
  rcases h.diffs ht.inView s with ⟨heq, -⟩ | ⟨args, ⟨b, -, -, htask⟩, -⟩ |
    ⟨e, reply, -, hex, -, -, -⟩
  · rw [heq] at hp
    exact ht.noting s p hp
  · exact View.mem_members (ht.inView.serving s (.put args) htask)
  · exact (ht.exchanging s e hex).1

theorem Moves.exchanging (h : Moves c a c') (ht : Tracked v c) {s : Server} {e : Exchange}
    (hex : c'.exchanges s = some e) :
    s ∈ v.view.members ∧ e.peer ∈ v.view.members ∧ e.args.viewNum = v.viewNum := by
  rcases (h.turns hex).offer with ⟨old, hold, hpeer, hargs, -, -⟩ | ⟨-, hsnap⟩
  · rw [hpeer, hargs]
    exact ht.exchanging s old hold
  · rw [Handler.snapshot_spec (ht.inView.sound.represents s), Except.ok.injEq,
      Option.map_eq_some_iff] at hsnap
    obtain ⟨⟨p, keys⟩, hnext, hsent⟩ := hsnap
    obtain ⟨rfl, hargs⟩ := Prod.mk.inj hsent
    have hmem : (e.peer, keys) ∈ (c.handlers s).diffs.entries := List.mem_of_find?_eq_some hnext
    have hkey : e.peer ∈ (c.handlers s).diffs.keys := List.mem_map.mpr ⟨_, hmem, rfl⟩
    obtain ⟨k, hk⟩ := List.exists_mem_of_ne_nil _ (ht.stocked s e.peer hkey)
    refine ⟨ht.noting s e.peer hkey, View.mem_members (ht.inView.noted s e.peer k hk), ?_⟩
    rw [← hargs, ht.inView.currentView s]

theorem Tracked.message (ht : Tracked v c) {peer : Server} {args : AntiEntropyArgs}
    (hm : c.Message peer args) : peer ∈ v.view.members := by
  cases hm with
  | inl hm =>
      obtain ⟨s, e, hex, -, rfl, -⟩ := hm
      exact (ht.exchanging s e hex).2.1
  | inr hm => exact ht.stray peer args hm

theorem merge_answers {s t : Server} (h : c.step (.merge s) = some c') (ht : Tracked v c)
    {e : Exchange} {query : AntiEntropyArgs} (htask : c.tasks s = some (.merging (some t) query))
    (hex : c.exchanges t = some e) (hphase : e.phase = .taken) (hpeer : e.peer = s) :
    ∃ reply, c'.exchanges t = some { e with phase := .replied reply } := by
  obtain ⟨h', reply, -, hmerge⟩ := merge_free ht.inView.sound ht.unlocked.free htask
  rw [step, hmerge] at h
  cases h
  refine ⟨reply, ?_⟩
  obtain ⟨-, -, -, hexchanges⟩ := handBack_fields
    (c.set s { c.nodes s with toProcess := .idle h', task := none }) (some t) s reply
  rw [hexchanges, if_pos rfl, exchanges_set]
  show Option.map _ (Function.update c.exchanges s (c.exchanges s) t) = _
  rw [Function.update_eq_self, hex]
  simp [Exchange.answer, hphase, hpeer]

theorem waiting_step (h : c.step a = some c') (ht : Tracked v c) {s : Server} {e : Exchange}
    (hex : c'.exchanges s = some e) (hphase : e.phase = .taken) :
    ∃ query, c'.tasks e.peer = some (.merging (some s) query) := by
  have hmoves := step_moves h
  have hkept : ∀ {old : Exchange}, c.exchanges s = some old → old.phase = .taken →
      old.peer = e.peer → ∃ query, c'.tasks e.peer = some (.merging (some s) query) := by
    intro old hold hwait hpeer
    obtain ⟨query, htask⟩ := ht.waiting s old hold hwait
    rw [hpeer] at htask
    refine ⟨query, hmoves.task_kept htask fun hadv => ?_⟩
    obtain ⟨b, -, hb⟩ | ⟨rfl, -⟩ := hadv.own_step
    · exact hb.elim
    -- the merge of the peer would have answered
    obtain ⟨reply, hanswer⟩ := merge_answers h ht htask hold hwait hpeer
    rw [hex] at hanswer
    cases hanswer
    cases hphase
  cases hmoves.turns hex with
  | same hbefore hno => exact hkept hbefore hphase rfl
  | noted hbefore hput => exact hkept hbefore hphase rfl
  | begun ha hsnap => cases hphase
  | taken hbefore ha htask => exact ⟨_, htask⟩
  | refused hbefore ha => cases hphase
  | answered hbefore hwait ha htask hmerge hhandler => cases hphase

theorem step_tracked (h : c.step a = some c') (ht : Tracked v c) (hv : v.view.NonEmpty)
    (ha : a.inView v = true) : Tracked v c' := by
  have hmoves := step_moves h
  have hringed : a.ringed = true := by
    unfold Action.ringed
    rw [Option.all_eq_true]
    intro w hw
    rw [Action.view_eq ha hw]
    exact decide_eq_true hv
  constructor
  · exact hmoves.inView ht.inView ha
  · exact step_unlocked h ht.unlocked hringed
  · intro s p hp
    exact hmoves.stocked ht hp
  · intro s p hp
    exact hmoves.noting ht hp
  · intro s e hex
    exact hmoves.exchanging ht hex
  · intro s e hex hphase
    exact waiting_step h ht hex hphase
  · intro s sender query htask
    rcases hmoves.merging ht.inView.sound htask with hold | ⟨hm, -, -⟩
    · exact ht.merging s sender query hold
    · exact ht.message hm
  · intro peer args hmem
    exact ht.message (hmoves.stray hmem)

end Step

/-! ## The work that is left -/

/-- The set of the peer is erased at the end of the exchange. -/
def hopeful (e : Exchange) : Bool :=
  match e.phase with
  | .replied reply => decide (reply.status = .ok)
  | _ => true

/-- What the rest of an exchange takes, the merge of the peer included. -/
def remaining (e : Exchange) : Nat :=
  match e.phase with
  | .sent => 4
  | .taken => 2
  | .replied _ => 1

/-- What a server has still to send: a set takes five steps, and the set of the
exchange under way is counted with the exchange. -/
def backlog (diffs : OrderedMap Server (OrderedSet Bytes)) : Option Exchange → Nat
  | none => 5 * diffs.entries.length
  | some e => 5 * (if hopeful e then diffs.erase e.peer else diffs).entries.length + remaining e

def duty : Option Task → Nat
  | some (.merging _ _) => 1
  | _ => 0

theorem duty_none : duty none = 0 := rfl

theorem duty_merging (sender : Option Server) (query : AntiEntropyArgs) :
    duty (some (.merging sender query)) = 1 := rfl

/-- What is left to do when no client calls. -/
def load (v : View) (c : Cluster) : Nat :=
  ∑ s ∈ v.members, backlog (c.handlers s).diffs (c.exchanges s) +
    ∑ s ∈ v.members, duty (c.tasks s) + 2 * c.stray.length

/-- No client calls, no connection fails and the view stays as it is. -/
def settling (v : GetServersReply) (a : Action) : Bool :=
  a.inView v && match a with
    | .on _ (.request _) => false
    | .fail _ => false
    | _ => true

/-- Pings, and looks at `diffs` that find nothing to send, are no work. -/
def works (c : Cluster) : Action → Option Action
  | .on _ (.ping _) => none
  | .on _ .pingAssign => none
  | .on s .snapshot => if (c.handlers s).nextPeer.isSome then some (.on s .snapshot) else none
  | a => some a

def Calm (c : Cluster) : Prop :=
  ∀ s k, c.tasks s = some k → ∃ sender query, k = .merging sender query

section Load

variable {e : Exchange} {diffs : OrderedMap Server (OrderedSet Bytes)}

theorem backlog_begun (args : AntiEntropyArgs) {p : Server} (hp : p ∈ diffs.keys) :
    backlog diffs (some { peer := p, args }) + 1 = backlog diffs none := by
  have herase := OrderedMap.length_erase hp
  simp only [backlog, hopeful, remaining, if_true]
  omega

variable (diffs)

theorem backlog_taken (hphase : e.phase = .sent) :
    backlog diffs (some { e with phase := .taken }) + 2 = backlog diffs (some e) := by
  simp [backlog, hopeful, remaining, hphase]

theorem backlog_answer (p : Server) {reply : AntiEntropyReply} (hok : reply.status = .ok) :
    backlog diffs (some (e.answer p reply)) ≤ backlog diffs (some e) := by
  unfold Exchange.answer
  split
  · next hwait => simp [backlog, hopeful, remaining, hwait.1, hok]
  · exact le_refl _

theorem backlog_finished {reply : AntiEntropyReply} (hphase : e.phase = .replied reply)
    (hok : reply.status = .ok) :
    backlog (diffs.erase e.peer) none + 1 = backlog diffs (some e) := by
  simp [backlog, hopeful, remaining, hphase, hok]

theorem backlog_dropped {reply : AntiEntropyReply} (hphase : e.phase = .replied reply)
    (hno : reply.status ≠ .ok) : backlog diffs none + 1 = backlog diffs (some e) := by
  simp [backlog, hopeful, remaining, hphase, hno]

variable {v : View} {c c' : Cluster} {s : Server}

theorem load_of_same (hdiffs : ∀ t, (c'.handlers t).diffs = (c.handlers t).diffs)
    (hexchanges : c'.exchanges = c.exchanges) (htasks : c'.tasks = c.tasks)
    (hstray : c'.stray = c.stray) : load v c' = load v c := by
  simp only [load, hdiffs, hexchanges, htasks, hstray]

theorem load_backlog (hs : s ∈ v.members)
    (hdiffs : ∀ t, t ≠ s → (c'.handlers t).diffs = (c.handlers t).diffs)
    (hexchanges : ∀ t, t ≠ s → c'.exchanges t = c.exchanges t) (htasks : c'.tasks = c.tasks)
    (hstray : c'.stray = c.stray) :
    load v c' + backlog (c.handlers s).diffs (c.exchanges s) =
      load v c + backlog (c'.handlers s).diffs (c'.exchanges s) := by
  have hsum := sum_change (f := fun t => backlog (c.handlers t).diffs (c.exchanges t))
    (g := fun t => backlog (c'.handlers t).diffs (c'.exchanges t)) hs
    fun t ht => by rw [hdiffs t ht, hexchanges t ht]
  simp only [load, htasks, hstray] at hsum ⊢
  omega

theorem duty_update {k : Option Task} (hs : s ∈ v.members)
    (htasks : c'.tasks = Function.update c.tasks s k) :
    ∑ t ∈ v.members, duty (c'.tasks t) + duty (c.tasks s) =
      ∑ t ∈ v.members, duty (c.tasks t) + duty k := by
  have hsum := sum_change (f := fun t => duty (c.tasks t)) (g := fun t => duty (c'.tasks t)) hs
    fun t ht => by rw [htasks, Function.update_of_ne ht]
  simp only [htasks, Function.update_self] at hsum ⊢
  exact hsum

end Load

end Cluster

namespace Node

/-- What the threads of a server do while no client calls and the view stays. -/
inductive Tends (n : Node) : Local → Node → Prop
  | pinged {b : Local} {n' : Node} (hb : (∃ v, b = .ping v) ∨ b = .pingAssign)
      (hdiffs : n'.handler.diffs = n.handler.diffs) (hex : n'.exchange = n.exchange)
      (htask : n'.task = n.task) : Tends n b n'
  | quiet {n' : Node} (hidle : n.exchange = none) (hnext : n.handler.nextPeer = none)
      (hdiffs : n'.handler.diffs = n.handler.diffs) (hex : n'.exchange = none)
      (htask : n'.task = n.task) : Tends n .snapshot n'
  | sent {n' : Node} {p : Server} {args : AntiEntropyArgs} (hidle : n.exchange = none)
      (hp : p ∈ n.handler.diffs.keys) (hdiffs : n'.handler.diffs = n.handler.diffs)
      (hex : n'.exchange = some { peer := p, args }) (htask : n'.task = n.task) :
      Tends n .snapshot n'
  | finished {n' : Node} {e : Exchange} {reply : AntiEntropyReply} (hex : n.exchange = some e)
      (hphase : e.phase = .replied reply) (hnone : n'.exchange = none)
      (hdiffs : n'.handler.diffs =
        if reply.status = .ok then n.handler.diffs.erase e.peer else n.handler.diffs)
      (htask : n'.task = n.task) : Tends n .finish n'

theorem Tends.task {n n' : Node} {b : Local} (h : Tends n b n') : n'.task = n.task := by
  cases h with
  | pinged hb hdiffs hex htask => exact htask
  | quiet hidle hnext hdiffs hex htask => exact htask
  | sent hidle hp hdiffs hex htask => exact htask
  | finished hex hphase hnone hdiffs htask => exact htask

theorem snapshot_tends {n n' : Node} (hr : Represents n.handler.toStore n.handler.items)
    (hfree : n.toProcess.Free) (h : n.snapshot = some n') : Tends n .snapshot n' := by
  unfold snapshot at h
  split at h
  · cases h
  · next hbusy =>
    have hidle : n.exchange = none := by simpa using hbusy
    obtain ⟨sent, hbegin, hsnap⟩ := Locked.beginExchange_idle hr
    rw [Handler.snapshot_spec hr] at hsnap
    unfold run at h
    rw [Process.eq_idle hfree, hbegin] at h
    cases hsnap
    cases h
    cases hnext : n.handler.nextPeer with
    | none => exact .quiet hidle hnext rfl rfl rfl
    | some next =>
        have hmem : next ∈ n.handler.diffs.entries := List.mem_of_find?_eq_some hnext
        exact .sent hidle (List.mem_map.mpr ⟨next, hmem, rfl⟩) rfl rfl rfl

theorem Does.finish_tends {n n' : Node} (h : Does n .finish n')
    (hr : Represents n.handler.toStore n.handler.items) : Tends n .finish n' := by
  cases h with
  | @finished e reply p hex hphase hp =>
      have hdiffs : p.handler.diffs =
          if reply.status = .ok then n.handler.diffs.erase e.peer else n.handler.diffs := by
        split
        · next hok => exact (Does.finished_ok (.finished hex hphase hp) hr hex hphase hok).1
        · next hno =>
          cases hp with
          | inl hdone =>
              rw [Handler.replyLocked, if_neg hno] at hdone
              rw [← Except.ok.inj hdone]
          | inr hfault =>
              rw [Handler.replyLocked, if_neg hno] at hfault
              cases hfault.1
      exact .finished hex hphase rfl hdiffs rfl

/-- Without a client and a new view, a server only pings and sends. -/
theorem tends_of_step {n n' : Node} {b : Local} (h : n.step b = some n')
    (hr : Represents n.handler.toStore n.handler.items) (hfree : n.toProcess.Free)
    (hcalm : ∀ k, n.task = some k → ∃ sender query, k = .merging sender query)
    (hrequest : ∀ call, b ≠ .request call) (hping : n.ping ≠ some .cleaning) : Tends n b n' := by
  have hno : ∀ {k : Task}, n.task = some k → (∀ sender query, k ≠ .merging sender query) →
      Tends n b n' := by
    intro k hk hne
    obtain ⟨sender, query, he⟩ := hcalm k hk
    exact absurd he (hne sender query)
  cases step_does h with
  | decided hp hidle => exact absurd rfl (hrequest _)
  | ahead hp hidle hnum => exact absurd rfl (hrequest _)
  | refreshed htask => exact hno htask fun _ _ he => by cases he
  | assigned htask hp => exact hno htask fun _ _ he => by cases he
  | cleaned htask hp => exact hno htask fun _ _ he => by cases he
  | cleanThrew htask hp => exact hno htask fun _ _ he => by cases he
  | put htask hput hget hp => exact hno htask fun _ _ he => by cases he
  | putThrew htask hp => exact hno htask fun _ _ he => by cases he
  | get htask hp => exact hno htask fun _ _ he => by cases he
  | received hidle => exact .pinged (.inl ⟨_, rfl⟩) rfl rfl rfl
  | pingAssigned hassign hp => exact .pinged (.inr rfl) (by rw [hp]) rfl rfl
  | pingCleaned hclean hp => exact absurd hclean hping
  | quiet hp => exact snapshot_tends hr hfree h
  | sent hidle hsnap hp => exact snapshot_tends hr hfree h
  | finished hex hphase hp => exact Does.finish_tends (step_does h) hr

end Node

namespace Cluster

section Settle

variable {v : GetServersReply} {c c' : Cluster} {a : Action}

theorem Tracked.tends (ht : Tracked v c) (hcalm : Calm c) {s : Server} {b : Local} {n : Node}
    (ha : settling v (.on s b) = true) (h : (c.nodes s).step b = some n) :
    (c.nodes s).Tends b n := by
  refine Node.tends_of_step h (ht.inView.sound.represents s) (ht.unlocked.free s) (hcalm s) ?_
    (ht.inView.pings s)
  rintro call rfl
  simp [settling] at ha

theorem step_calm (h : c.step a = some c') (ht : Tracked v c) (hcalm : Calm c)
    (ha : settling v a = true) : Calm c' := by
  intro t k hk
  rcases (step_moves h).on_or_frame ht.inView.sound with ⟨s, b, n', rfl, -, -⟩ | hframe
  · obtain ⟨n, hn, rfl⟩ := Option.map_eq_some_iff.mp h
    rw [tasks_set, (ht.tends hcalm ha hn).task] at hk
    rcases update_cases hk with ⟨rfl, hsame⟩ | ⟨-, hold⟩
    · exact hcalm t k hsame
    · exact hcalm t k hold
  · rcases hframe.tasks t k hk with hold | hnew
    · exact hcalm t k hold
    · exact hnew

/-- A step of one server pays for itself with its own backlog. -/
theorem on_spends {s : Server} {b : Local} {n : Node} (ht : Tracked v c)
    (htends : (c.nodes s).Tends b n) :
    (works c (.on s b)).toList.length + load v.view (c.set s n) ≤ load v.view c := by
  have htasks : (c.set s n).tasks = c.tasks := by
    rw [tasks_set, htends.task]
    exact Function.update_eq_self s c.tasks
  have hhandlers : ∀ t, t ≠ s → (c.set s n).handlers t = c.handlers t := fun t hts => by
    rw [handlers_set, Function.update_of_ne hts]
  have hexchanges : ∀ t, t ≠ s → (c.set s n).exchanges t = c.exchanges t := fun t hts => by
    rw [exchanges_set, Function.update_of_ne hts]
  have hself : (c.set s n).handlers s = n.handler ∧ (c.set s n).exchanges s = n.exchange := by
    rw [handlers_set, exchanges_set, Function.update_self, Function.update_self]
    exact ⟨rfl, rfl⟩
  have hidle : n.handler.diffs = (c.handlers s).diffs → n.exchange = c.exchanges s →
      load v.view (c.set s n) = load v.view c := by
    intro hdiffs hex
    apply load_of_same
    · intro t
      by_cases hts : t = s
      · rw [hts, hself.1, hdiffs]
      · rw [hhandlers t hts]
    · funext t
      by_cases hts : t = s
      · rw [hts, hself.2, hex]
      · rw [hexchanges t hts]
    · exact htasks
    · rfl
  have hchange : s ∈ v.view.members →
      load v.view (c.set s n) + backlog (c.handlers s).diffs (c.exchanges s) =
        load v.view c + backlog n.handler.diffs n.exchange := by
    intro hs
    have hdiffs : ∀ t, t ≠ s → ((c.set s n).handlers t).diffs = (c.handlers t).diffs :=
      fun t hts => by rw [hhandlers t hts]
    have hload := load_backlog hs hdiffs hexchanges htasks rfl
    rw [hself.1, hself.2] at hload
    exact hload
  cases htends with
  | pinged hb hdiffs hex htask =>
      rw [hidle hdiffs hex]
      rcases hb with ⟨w, rfl⟩ | rfl
      · simp [works]
      · simp [works]
  | quiet hnone hnext hdiffs hex htask =>
      have hnext' : (c.handlers s).nextPeer = none := hnext
      rw [hidle hdiffs (hex.trans hnone.symm)]
      simp [works, hnext']
  | @sent _ p args hnone hp hdiffs hex htask =>
      have hload := hchange (ht.noting s p hp)
      have hbegun := backlog_begun args hp
      rw [show c.exchanges s = none from hnone, hex, hdiffs] at hload
      have hwork : (works c (.on s .snapshot)).toList.length ≤ 1 := Option.length_toList_le
      have hsame : (c.handlers s).diffs = (c.nodes s).handler.diffs := rfl
      rw [hsame] at hload
      omega
  | @finished _ e reply hex hphase hnone hdiffs htask =>
      have hload := hchange (ht.exchanging s e hex).1
      rw [show c.exchanges s = some e from hex, hnone, hdiffs] at hload
      have hsame : (c.handlers s).diffs = (c.nodes s).handler.diffs := rfl
      rw [hsame] at hload
      have hwork : (works c (.on s .finish)).toList.length = 1 := rfl
      by_cases hok : reply.status = .ok
      · have hdone := backlog_finished (c.nodes s).handler.diffs hphase hok
        rw [if_pos hok] at hload
        omega
      · have hdone := backlog_dropped (c.nodes s).handler.diffs hphase hok
        rw [if_neg hok] at hload
        omega

/-- A message of the current view that meets an idle server is never refused. -/
theorem take_merging {s : Server} (h : c.step (.take s) = some c') (ht : Tracked v c)
    {e : Exchange} (hex : c.exchanges s = some e) (hphase : e.phase = .sent) :
    c'.tasks e.peer = some (.merging (some s) e.args) := by
  have hnum : (c.handlers e.peer).currentView.viewNum = e.args.viewNum := by
    rw [ht.inView.currentView, (ht.exchanging s e hex).2.2]
  obtain ⟨peer, args, phase, since⟩ := e
  simp only at hphase hnum
  subst hphase
  have hex' : (c.nodes s).exchange = some ⟨peer, args, .sent, since⟩ := hex
  simp only [step, take, hex'] at h
  obtain ⟨n, harrive, rfl⟩ := Option.map_eq_some_iff.mp h
  have htask : n.task = some (.merging (some s) args) := by
    have hidle := (arrive_cases harrive).1
    simp only [Node.arrive, hidle, Option.isSome_none, Bool.false_eq_true, if_false, Node.run]
      at harrive
    rw [Process.eq_idle (ht.unlocked.free peer)] at harrive
    have hread : Locked.readView (.idle (c.nodes peer).handler) =
        .returns (c.handlers peer).currentView (.idle (c.nodes peer).handler) := rfl
    rw [hread] at harrive
    simp only [hnum, if_true, Option.some.injEq] at harrive
    rw [← harrive]
  rw [advance_tasks, tasks_set, Function.update_self, htask]

theorem take_spends {s : Server} (h : c.step (.take s) = some c') (ht : Tracked v c) :
    1 + load v.view c' ≤ load v.view c := by
  cases step_moves h with
  | @taken _ e _ hex hphase hidle hnum hsame htasks hexchanges hstray =>
      obtain ⟨hs, hpeer, -⟩ := ht.exchanging s e hex
      have hsum := sum_change (f := fun t => backlog (c.handlers t).diffs (c.exchanges t))
        (g := fun t => backlog (c'.handlers t).diffs (c'.exchanges t)) hs
        fun t hts => by rw [hsame.1, hexchanges, Function.update_of_ne hts]
      have hduty := duty_update hpeer htasks
      have htaken := backlog_taken (c.handlers s).diffs hphase
      simp only [hsame.1, hexchanges, Function.update_self, hex] at hsum
      rw [hidle, duty_none, duty_merging] at hduty
      simp only [load, hsame.1, hexchanges, hstray]
      omega
  | @refused _ e _ hex hphase hsame htasks =>
      obtain ⟨e', hex', -, hidle⟩ := due_of_moves h
      rw [hex] at hex'
      cases hex'
      have htask := take_merging h ht hex hphase
      rw [htasks, hidle] at htask
      cases htask

theorem takeStray_spends {peer : Server} {args : AntiEntropyArgs}
    (h : c.step (.takeStray peer args) = some c') (ht : Tracked v c) :
    1 + load v.view c' ≤ load v.view c := by
  have hmem : (peer, args) ∈ c.stray := (due_of_moves h).1
  have hpos : 0 < c.stray.length := List.length_pos_of_mem hmem
  have hlength : (c.stray.erase (peer, args)).length = c.stray.length - 1 :=
    List.length_erase_of_mem hmem
  cases step_moves h with
  | strayTaken hmem' hidle hnum hsame htasks hexchanges hstray =>
      have hduty := duty_update (ht.stray peer args hmem) htasks
      rw [hidle, duty_none, duty_merging] at hduty
      simp only [load, hsame.1, hexchanges, hstray, hlength]
      omega
  | strayRefused hsame htasks hexchanges hstray =>
      simp only [load, hsame.1, htasks, hexchanges, hstray, hlength]
      omega

theorem merge_spends {s : Server} (h : c.step (.merge s) = some c') (ht : Tracked v c) :
    1 + load v.view c' ≤ load v.view c := by
  cases step_moves h with
  | @merged _ sender query h' reply _ htask hmerge hhandlers hpings htasks hexchanges hstray =>
      obtain ⟨hh, -, -, hreply⟩ := merge_items (ht.inView.sound.represents s) hmerge
      have hduty := duty_update (ht.merging s sender query htask) htasks
      rw [htask, duty_none, duty_merging] at hduty
      have hdiffs : ∀ t, (c'.handlers t).diffs = (c.handlers t).diffs := by
        intro t
        rw [hhandlers]
        by_cases hts : t = s
        · rw [hts, Function.update_self, hh]
        · rw [Function.update_of_ne hts]
      have hbacklog : ∀ t, backlog (c'.handlers t).diffs (c'.exchanges t) ≤
          backlog (c.handlers t).diffs (c.exchanges t) := by
        intro t
        rw [hdiffs, hexchanges]
        split
        · cases c.exchanges t with
          | none => exact le_refl _
          | some e => exact backlog_answer _ s (by rw [hreply])
        · exact le_refl _
      have hsum := Finset.sum_le_sum fun t (_ : t ∈ v.view.members) => hbacklog t
      simp only [load, hstray]
      omega
  | @mergeThrew _ sender query _ htask hsame htasks hexchanges hstray =>
      have hduty := duty_update (ht.merging s sender query htask) htasks
      rw [htask, duty_none, duty_merging] at hduty
      simp only [load, hsame.1, hexchanges, hstray]
      omega

/-- Every step that settles something lowers the load. -/
theorem settling_spends (hv : v.view.NonEmpty) :
    Spends step (fun _ a => settling v a = true) works (fun c => Tracked v c ∧ Calm c)
      (load v.view) := by
  intro c a c' hc ha h
  obtain ⟨ht, hcalm⟩ := hc
  have hview : a.inView v = true := (Bool.and_eq_true_iff.mp ha).1
  refine ⟨⟨step_tracked h ht hv hview, step_calm h ht hcalm ha⟩, ?_⟩
  cases a with
  | on s b =>
      obtain ⟨n, hn, rfl⟩ := Option.map_eq_some_iff.mp h
      exact on_spends ht (ht.tends hcalm ha hn)
  | take s => exact take_spends h ht
  | takeStray peer args => exact takeStray_spends h ht
  | merge s => exact merge_spends h ht
  | fail s => simp [settling] at ha

theorem tracked_of_reach (hv : v.view.NonEmpty)
    (h : Reach step (fun _ a => a.inView v = true) (start v) c) : Tracked v c :=
  h.invariant (start_tracked hv) fun _ _ _ ht ha hstep => step_tracked hstep ht hv ha

end Settle

/-- When the clients of a run under one view have stopped and no connection fails, the
servers take at most `load` more steps to replicate, in whatever order they take them. -/
theorem replication_bounded {v : GetServersReply} (hv : v.view.NonEmpty) {c c' : Cluster}
    (hc : Reach step (fun _ a => a.inView v = true) (start v) c) (hcalm : Calm c)
    {log : List Action} (h : Trace step (fun _ a => settling v a = true) works c c' log) :
    log.length + load v.view c' ≤ load v.view c :=
  ((settling_spends hv).length_le ⟨tracked_of_reach hv hc, hcalm⟩ h).2

def onlyAt (v : GetServersReply) (s : Server) : Action → Bool
  | .on t b => decide (t = s) && (Action.on t b).inView v
  | _ => false

theorem calm_of_onlyAt {v : GetServersReply} {s : Server} {c : Cluster}
    (h : Reach step (fun _ a => onlyAt v s a = true) (start v) c) (hs : c.tasks s = none) :
    Calm c := by
  have hothers : ∀ t, t ≠ s → c.tasks t = none := by
    apply h.invariant
    · intro t _
      rfl
    · intro c a c' hc ha hstep t hts
      cases a with
      | on u b =>
          obtain ⟨n, -, rfl⟩ := Option.map_eq_some_iff.mp hstep
          have hu : u = s := of_decide_eq_true (Bool.and_eq_true_iff.mp ha).1
          rw [tasks_set, Function.update_of_ne (hu ▸ hts)]
          exact hc t hts
      | _ => cases ha
  intro t k hk
  by_cases hts : t = s
  · rw [hts, hs] at hk
    cases hk
  · rw [hothers t hts] at hk
    cases hk

theorem calm_afterPut : ∃ c log, ∃ c' : Cluster,
    Reach step (fun _ a => a.inView (pairView ⟨[1], 1⟩ ⟨[2], 2⟩) = true)
      (start (pairView ⟨[1], 1⟩ ⟨[2], 2⟩)) c ∧ Calm c ∧
    Trace step (fun _ a => settling (pairView ⟨[1], 1⟩ ⟨[2], 2⟩) a = true) works c c' log ∧
    log.length = 4 ∧ load (pairView ⟨[1], 1⟩ ⟨[2], 2⟩).view c = 5 := by
  have hrun : ((perform step (fun _ a => onlyAt (pairView ⟨[1], 1⟩ ⟨[2], 2⟩) ⟨[1], 1⟩ a = true)
      (start (pairView ⟨[1], 1⟩ ⟨[2], 2⟩)) (putAt ⟨[1], 1⟩ ⟨[1], [7], 2⟩)).bind fun c =>
        (record step (fun _ a => settling (pairView ⟨[1], 1⟩ ⟨[2], 2⟩) a = true) works c
          (exchangeWith ⟨[1], 1⟩ ⟨[2], 2⟩)).map fun r =>
            ((c.tasks ⟨[1], 1⟩).isNone, r.2.length,
              load (pairView ⟨[1], 1⟩ ⟨[2], 2⟩).view c)) = some (true, 4, 5) := by
    decide +kernel
  obtain ⟨c, hc, hrec⟩ := Option.bind_eq_some_iff.mp hrun
  obtain ⟨⟨c', log⟩, htrace, hend⟩ := Option.map_eq_some_iff.mp hrec
  obtain ⟨hidle, hrest⟩ := Prod.mk.inj hend
  obtain ⟨hlength, hload⟩ := Prod.mk.inj hrest
  have hreach := reach_of_perform hc
  refine ⟨c, log, c', hreach.weaken ?_, ?_, trace_of_record htrace, hlength, hload⟩
  · intro c a ha
    cases a with
    | on t b => exact (Bool.and_eq_true_iff.mp ha).2
    | _ => cases ha
  · exact calm_of_onlyAt hreach (Option.isNone_iff_eq_none.mp hidle)

theorem replication_bounded_afterPut : ∃ c c' : Cluster, ∃ log,
    Calm c ∧ load (pairView ⟨[1], 1⟩ ⟨[2], 2⟩).view c = 5 ∧
    Trace step (fun _ a => settling (pairView ⟨[1], 1⟩ ⟨[2], 2⟩) a = true) works c c' log ∧
    log.length = 4 ∧ load (pairView ⟨[1], 1⟩ ⟨[2], 2⟩).view c' ≤ 1 := by
  obtain ⟨c, log, c', hc, hcalm, htrace, hlength, hload⟩ := calm_afterPut
  have hle := replication_bounded (by decide) hc hcalm htrace
  exact ⟨c, c', log, hcalm, hload, htrace, hlength, by omega⟩

end Cluster

end RobustCache
