import RobustCache.Cluster.Node

/-! # Servers that exchange entries

Any number of servers. A message of the anti-entropy thread travels with its
exchange; when the sender's connection fails, the message may still arrive later
although nobody waits for the reply.
-/

namespace RobustCache

open Lib

def Exchange.answer (e : Exchange) (peer : Server) (reply : AntiEntropyReply) : Exchange :=
  if e.phase = .taken ∧ e.peer = peer then { e with phase := .replied reply } else e

namespace Node

/-- `antiEntropy` up to its test of the view number. -/
def arrive (n : Node) (sender : Option Server) (query : AntiEntropyArgs) : Option Node :=
  if n.task.isSome then none
  else n.run Locked.readView
    (fun n view =>
      if view.viewNum = query.viewNum then { n with task := some (.merging sender query) }
      else n.endCall)
    endCall

def advance (n : Node) (phase : Phase) : Node :=
  { n with exchange := n.exchange.map fun e => { e with phase } }

/-- The reply of `peer` reaches a sender that waits for it. -/
def answer (n : Node) (peer : Server) (reply : AntiEntropyReply) : Node :=
  { n with exchange := n.exchange.map fun e => e.answer peer reply }

end Node

structure Cluster where
  nodes : Server → Node
  /-- Messages whose senders have given up. -/
  stray : List (Server × AntiEntropyArgs) := []

inductive Action where
  | on (s : Server) (a : Local)
  /-- The peer takes the message of `s`. -/
  | take (s : Server)
  | takeStray (peer : Server) (args : AntiEntropyArgs)
  /-- The locked section of `antiEntropy` at `s`. -/
  | merge (s : Server)
  /-- The connection of the exchange of `s` fails. -/
  | fail (s : Server)

def Action.view? : Action → Option GetServersReply
  | .on _ (.refresh view) => some view
  | .on _ (.ping view) => some view
  | _ => none

namespace Cluster

def initial : Cluster := { nodes := Node.initial }

def set (c : Cluster) (s : Server) (n : Node) : Cluster :=
  { c with nodes := Function.update c.nodes s n }

def modify (c : Cluster) (s : Server) (f : Node → Node) : Cluster := c.set s (f (c.nodes s))

def take (c : Cluster) (s : Server) : Option Cluster :=
  match (c.nodes s).exchange with
  | some ⟨peer, args, .sent, _⟩ =>
      ((c.nodes peer).arrive (some s) args).map fun n =>
        (c.set peer n).modify s fun n' =>
          n'.advance (if n.task.isSome then .taken else .replied { status := .wrongServer })
  | _ => none

def takeStray (c : Cluster) (peer : Server) (args : AntiEntropyArgs) : Option Cluster :=
  if (peer, args) ∈ c.stray then
    ((c.nodes peer).arrive none args).map fun n =>
      { c.set peer n with stray := c.stray.erase (peer, args) }
  else none

/-- Hand a reply of `s` to its sender, if that is known. -/
def handBack (c : Cluster) (sender : Option Server) (s : Server) (reply : AntiEntropyReply) :
    Cluster :=
  match sender with
  | some t => c.modify t fun n => n.answer s reply
  | none => c

def merge (c : Cluster) (s : Server) : Option Cluster :=
  match (c.nodes s).task with
  | some (.merging sender query) =>
      match Locked.mergeSection query (c.nodes s).toProcess with
      | .returns reply p =>
          some ((c.set s { c.nodes s with toProcess := p, task := none }).handBack sender s reply)
      | .throws p => some (c.set s { c.nodes s with toProcess := p, task := none })
      | .stuck => none
  | _ => none

/-- The sender goes on as if the reply were `WRONG_SERVER`. -/
def fail (c : Cluster) (s : Server) : Option Cluster :=
  match (c.nodes s).exchange with
  | some e =>
      some { c.modify s fun n => n.advance (.replied { status := .wrongServer }) with
        stray := if e.phase = .sent then (e.peer, e.args) :: c.stray else c.stray }
  | none => none

def step (c : Cluster) : Action → Option Cluster
  | .on s a => ((c.nodes s).step a).map fun n => c.set s n
  | .take s => c.take s
  | .takeStray peer args => c.takeStray peer args
  | .merge s => c.merge s
  | .fail s => c.fail s

/-! ## What a step can do -/

theorem update_cases {β : Type} {f : Server → β} {s t : Server} {x y : β}
    (h : Function.update f s x t = y) : (t = s ∧ x = y) ∨ (t ≠ s ∧ f t = y) := by
  by_cases hts : t = s
  · rw [hts, Function.update_self] at h
    exact .inl ⟨hts, h⟩
  · rw [Function.update_of_ne hts] at h
    exact .inr ⟨hts, h⟩

def handlers (c : Cluster) (s : Server) : Handler := (c.nodes s).handler

def tasks (c : Cluster) (s : Server) : Option Task := (c.nodes s).task

def pings (c : Cluster) (s : Server) : Option Ping := (c.nodes s).ping

def exchanges (c : Cluster) (s : Server) : Option Exchange := (c.nodes s).exchange

theorem handlers_set (c : Cluster) (s : Server) (n : Node) :
    (c.set s n).handlers = Function.update c.handlers s n.handler :=
  Function.comp_update (fun n : Node => n.handler) c.nodes s n

theorem tasks_set (c : Cluster) (s : Server) (n : Node) :
    (c.set s n).tasks = Function.update c.tasks s n.task :=
  Function.comp_update Node.task c.nodes s n

theorem pings_set (c : Cluster) (s : Server) (n : Node) :
    (c.set s n).pings = Function.update c.pings s n.ping :=
  Function.comp_update Node.ping c.nodes s n

theorem exchanges_set (c : Cluster) (s : Server) (n : Node) :
    (c.set s n).exchanges = Function.update c.exchanges s n.exchange :=
  Function.comp_update Node.exchange c.nodes s n

/-- Handlers and pings are as before. -/
def SameServers (c c' : Cluster) : Prop := c'.handlers = c.handlers ∧ c'.pings = c.pings

/-- The steps of the cluster, with what each one changes. -/
inductive Moves (c : Cluster) : Action → Cluster → Prop
  | on {s : Server} {a : Local} {n : Node} (hdoes : (c.nodes s).Does a n) :
      Moves c (.on s a) (c.set s n)
  | taken {s : Server} {e : Exchange} {c' : Cluster} (hex : c.exchanges s = some e)
      (hphase : e.phase = .sent) (hidle : c.tasks e.peer = none)
      (hnum : (c.handlers e.peer).currentView.viewNum = e.args.viewNum) (hsame : SameServers c c')
      (htasks : c'.tasks = Function.update c.tasks e.peer (some (.merging (some s) e.args)))
      (hexchanges : c'.exchanges = Function.update c.exchanges s (some { e with phase := .taken }))
      (hstray : c'.stray = c.stray) : Moves c (.take s) c'
  | refused {s : Server} {e : Exchange} {c' : Cluster} (hex : c.exchanges s = some e)
      (hphase : e.phase = .sent) (hsame : SameServers c c') (htasks : c'.tasks = c.tasks)
      (hexchanges : c'.exchanges = Function.update c.exchanges s
        (some { e with phase := .replied { status := .wrongServer } }))
      (hstray : c'.stray = c.stray) : Moves c (.take s) c'
  | strayTaken {peer : Server} {args : AntiEntropyArgs} {c' : Cluster}
      (hmem : (peer, args) ∈ c.stray) (hidle : c.tasks peer = none)
      (hnum : (c.handlers peer).currentView.viewNum = args.viewNum) (hsame : SameServers c c')
      (htasks : c'.tasks = Function.update c.tasks peer (some (.merging none args)))
      (hexchanges : c'.exchanges = c.exchanges)
      (hstray : c'.stray = c.stray.erase (peer, args)) : Moves c (.takeStray peer args) c'
  | strayRefused {peer : Server} {args : AntiEntropyArgs} {c' : Cluster}
      (hsame : SameServers c c') (htasks : c'.tasks = c.tasks)
      (hexchanges : c'.exchanges = c.exchanges)
      (hstray : c'.stray = c.stray.erase (peer, args)) : Moves c (.takeStray peer args) c'
  | merged {s : Server} {sender : Option Server} {query : AntiEntropyArgs} {h : Handler}
      {reply : AntiEntropyReply} {c' : Cluster} (htask : c.tasks s = some (.merging sender query))
      (hmerge : (c.handlers s).antiEntropyLocked query = .ok (h, reply))
      (hhandlers : c'.handlers = Function.update c.handlers s h) (hpings : c'.pings = c.pings)
      (htasks : c'.tasks = Function.update c.tasks s none)
      (hexchanges : ∀ t, c'.exchanges t = if sender = some t then
        (c.exchanges t).map fun e => e.answer s reply else c.exchanges t)
      (hstray : c'.stray = c.stray) : Moves c (.merge s) c'
  | mergeThrew {s : Server} {sender : Option Server} {query : AntiEntropyArgs} {c' : Cluster}
      (htask : c.tasks s = some (.merging sender query)) (hsame : SameServers c c')
      (htasks : c'.tasks = Function.update c.tasks s none) (hexchanges : c'.exchanges = c.exchanges)
      (hstray : c'.stray = c.stray) : Moves c (.merge s) c'
  | failed {s : Server} {e : Exchange} {c' : Cluster} (hex : c.exchanges s = some e)
      (hsame : SameServers c c') (htasks : c'.tasks = c.tasks)
      (hexchanges : c'.exchanges = Function.update c.exchanges s
        (some { e with phase := .replied { status := .wrongServer } }))
      (hstray : c'.stray = if e.phase = .sent then (e.peer, e.args) :: c.stray else c.stray) :
      Moves c (.fail s) c'

theorem arrive_cases {n n' : Node} {sender : Option Server} {query : AntiEntropyArgs}
    (h : n.arrive sender query = some n') :
    n.task = none ∧ n'.handler = n.handler ∧ n'.ping = n.ping ∧ n'.exchange = n.exchange ∧
      (n'.task = none ∨
        (n'.task = some (.merging sender query) ∧
          n.handler.currentView.viewNum = query.viewNum)) := by
  unfold Node.arrive at h
  split at h
  · cases h
  · next hbusy =>
    have hidle : n.task = none := by simpa using hbusy
    cases Node.run_cases (Locked.readView_ends n.toProcess (fun _ => False)) h with
    | inl hret =>
        obtain ⟨view, p, ⟨rfl, hp⟩, rfl⟩ := hret
        by_cases hnum : n.handler.currentView.viewNum = query.viewNum
        · rw [if_pos hnum]
          exact ⟨hidle, hp, rfl, rfl, .inr ⟨rfl, hnum⟩⟩
        · rw [if_neg hnum]
          exact ⟨hidle, hp, rfl, rfl, .inl rfl⟩
    | inr hthrow =>
        obtain ⟨p, hfalse, -⟩ := hthrow
        exact hfalse.elim

theorem set_sameServers {c : Cluster} {s : Server} {n : Node}
    (hhandler : n.handler = c.handlers s) (hping : n.ping = c.pings s) :
    SameServers c (c.set s n) := by
  constructor
  · rw [handlers_set, hhandler, Function.update_eq_self]
  · rw [pings_set, hping, Function.update_eq_self]

theorem SameServers.trans {c c' c'' : Cluster} (h : SameServers c c') (h' : SameServers c' c'') :
    SameServers c c'' := ⟨h'.1.trans h.1, h'.2.trans h.2⟩

theorem advance_sameServers (c : Cluster) (s : Server) (phase : Phase) :
    SameServers c (c.modify s fun n => n.advance phase) := set_sameServers rfl rfl

theorem advance_tasks (c : Cluster) (s : Server) (phase : Phase) :
    (c.modify s fun n => n.advance phase).tasks = c.tasks := by
  rw [modify, tasks_set]
  exact Function.update_eq_self s c.tasks

theorem advance_exchanges {c : Cluster} {s : Server} {e : Exchange} (hex : c.exchanges s = some e)
    (phase : Phase) :
    (c.modify s fun n => n.advance phase).exchanges =
      Function.update c.exchanges s (some { e with phase }) := by
  rw [modify, exchanges_set]
  show Function.update c.exchanges s ((c.exchanges s).map _) = _
  rw [hex]
  rfl

theorem arrive_set {c : Cluster} {peer : Server} {sender : Option Server}
    {query : AntiEntropyArgs} {n : Node} (h : (c.nodes peer).arrive sender query = some n) :
    SameServers c (c.set peer n) ∧ (c.set peer n).exchanges = c.exchanges ∧
      ((n.task = none ∧ (c.set peer n).tasks = c.tasks) ∨
        (n.task = some (.merging sender query) ∧ c.tasks peer = none ∧
          (c.handlers peer).currentView.viewNum = query.viewNum ∧
          (c.set peer n).tasks = Function.update c.tasks peer (some (.merging sender query)))) := by
  obtain ⟨hidle, hhandler, hping, hexchange, htask⟩ := arrive_cases h
  refine ⟨set_sameServers hhandler hping, ?_, ?_⟩
  · rw [exchanges_set, hexchange]
    exact Function.update_eq_self peer c.exchanges
  · cases htask with
    | inl hnone =>
        refine .inl ⟨hnone, ?_⟩
        rw [tasks_set, hnone, ← hidle]
        exact Function.update_eq_self peer c.tasks
    | inr hmerging =>
        refine .inr ⟨hmerging.1, hidle, hmerging.2, ?_⟩
        rw [tasks_set, hmerging.1]

theorem take_moves {c c' : Cluster} {s : Server} (h : c.take s = some c') :
    Moves c (.take s) c' := by
  unfold take at h
  split at h
  · next peer args since hex =>
    obtain ⟨n, harrive, rfl⟩ := Option.map_eq_some_iff.mp h
    obtain ⟨hset, hexset, hcases⟩ := arrive_set harrive
    have hex' : (c.set peer n).exchanges s = some ⟨peer, args, .sent, since⟩ := by
      rw [hexset]
      exact hex
    rcases hcases with ⟨hnone, htasks⟩ | ⟨hsome, hidle, hnum, htasks⟩
    · rw [hnone]
      apply Moves.refused hex rfl
      · exact hset.trans (advance_sameServers _ _ _)
      · rw [advance_tasks, htasks]
      · rw [advance_exchanges hex', hexset]
        rfl
      · rfl
    · rw [hsome]
      apply Moves.taken hex rfl hidle hnum
      · exact hset.trans (advance_sameServers _ _ _)
      · rw [advance_tasks, htasks]
      · rw [advance_exchanges hex', hexset]
        rfl
      · rfl
  · cases h

theorem takeStray_moves {c c' : Cluster} {peer : Server} {args : AntiEntropyArgs}
    (h : c.takeStray peer args = some c') : Moves c (.takeStray peer args) c' := by
  unfold takeStray at h
  split at h
  · next hmem =>
    obtain ⟨n, harrive, rfl⟩ := Option.map_eq_some_iff.mp h
    obtain ⟨hset, hexset, hcases⟩ := arrive_set harrive
    rcases hcases with ⟨-, htasks⟩ | ⟨-, hidle, hnum, htasks⟩
    · exact .strayRefused hset htasks hexset rfl
    · exact .strayTaken hmem hidle hnum hset htasks hexset rfl
  · cases h

theorem handBack_fields (c : Cluster) (sender : Option Server) (s : Server)
    (reply : AntiEntropyReply) :
    SameServers c (c.handBack sender s reply) ∧ (c.handBack sender s reply).tasks = c.tasks ∧
      (c.handBack sender s reply).stray = c.stray ∧
      ∀ t, (c.handBack sender s reply).exchanges t = if sender = some t then
        (c.exchanges t).map fun e => e.answer s reply else c.exchanges t := by
  cases sender with
  | none => exact ⟨⟨rfl, rfl⟩, rfl, rfl, fun t => rfl⟩
  | some t =>
      have htasks : (c.handBack (some t) s reply).tasks = c.tasks := by
        simp only [handBack, modify, tasks_set]
        exact Function.update_eq_self t c.tasks
      refine ⟨set_sameServers rfl rfl, htasks, rfl, fun u => ?_⟩
      simp only [handBack, modify, exchanges_set]
      by_cases hu : u = t
      · subst hu
        rw [Function.update_self, if_pos rfl]
        rfl
      · rw [Function.update_of_ne hu, if_neg fun he => hu (Option.some.inj he).symm]

theorem merge_moves {c c' : Cluster} {s : Server} (h : c.merge s = some c') :
    Moves c (.merge s) c' := by
  unfold merge at h
  split at h
  · next sender query htask =>
    have hends := Locked.mergeSection_ends query (c.nodes s).toProcess
    cases hrun : Locked.mergeSection query (c.nodes s).toProcess with
    | returns reply p =>
        rw [hrun] at h hends
        cases h
        let c₁ := c.set s { c.nodes s with toProcess := p, task := none }
        obtain ⟨hsame, htasks, hstray, hexchanges⟩ := handBack_fields c₁ sender s reply
        have hex : c₁.exchanges = c.exchanges := by
          rw [exchanges_set]
          exact Function.update_eq_self s c.exchanges
        have hpings : c₁.pings = c.pings := by
          rw [pings_set]
          exact Function.update_eq_self s c.pings
        apply Moves.merged htask hends
        · rw [hsame.1, handlers_set]
        · rw [hsame.2, hpings]
        · rw [htasks, tasks_set]
        · intro t
          rw [hexchanges, hex]
        · exact hstray
    | throws p =>
        rw [hrun] at h hends
        cases h
        have hex : (c.set s { c.nodes s with toProcess := p, task := none }).exchanges =
            c.exchanges := by
          rw [exchanges_set]
          exact Function.update_eq_self s c.exchanges
        exact .mergeThrew htask (set_sameServers hends rfl) (tasks_set _ _ _) hex rfl
    | stuck =>
        rw [hrun] at h
        cases h
  · cases h

theorem fail_moves {c c' : Cluster} {s : Server} (h : c.fail s = some c') :
    Moves c (.fail s) c' := by
  unfold fail at h
  split at h
  · next e hex =>
    cases h
    have hsame := advance_sameServers c s (.replied { status := .wrongServer })
    exact .failed hex ⟨hsame.1, hsame.2⟩ (advance_tasks c s _) (advance_exchanges hex _) rfl
  · cases h

theorem step_moves {c c' : Cluster} {a : Action} (h : c.step a = some c') : Moves c a c' := by
  cases a with
  | on s a =>
      obtain ⟨n, hn, rfl⟩ := Option.map_eq_some_iff.mp h
      exact .on (Node.step_does hn)
  | take s => exact take_moves h
  | takeStray peer args => exact takeStray_moves h
  | merge s => exact merge_moves h
  | fail s => exact fail_moves h

/-! ## The stores stay well formed -/

def items (c : Cluster) (s : Server) : List Item := (c.handlers s).items

structure Sound (c : Cluster) : Prop where
  represents : ∀ s, Represents (c.handlers s).toStore (c.items s)
  server : ∀ s, (c.handlers s).server = s

theorem initial_sound : initial.Sound := by
  constructor
  · intro s
    have hr : Represents (Handler.initial s).toStore [] := Represents.initial
    show Represents (Handler.initial s).toStore (Handler.initial s).items
    rw [hr.items_eq]
    exact hr
  · intro s
    rfl

theorem merge_items {h h' : Handler} {query : AntiEntropyArgs} {reply : AntiEntropyReply}
    (hr : Represents h.toStore h.items) (hmerge : h.antiEntropyLocked query = .ok (h', reply)) :
    h' = { h with toStore := h'.toStore } ∧
      h'.items = (Lru.propagateAll FitsCounter query.entries h.items).1 ∧
      Represents h'.toStore h'.items ∧
      reply = { status := .ok
                invalidatedEntries := (Lru.propagateAll FitsCounter query.entries h.items).2 } := by
  obtain ⟨st, hrun, hrep⟩ := Handler.antiEntropyLocked_spec hr query
  rw [hrun] at hmerge
  cases hmerge
  have hitems := hrep.items_eq
  refine ⟨rfl, hitems, ?_, rfl⟩
  show Represents st st.items
  rw [hitems]
  exact hrep

theorem Sound.update {c c' : Cluster} (hs : Sound c) {s : Server} {h : Handler}
    (hhandlers : c'.handlers = Function.update c.handlers s h)
    (hrep : Represents h.toStore h.items) (hserver : h.server = s) : Sound c' := by
  constructor
  · unfold items
    rw [hhandlers, Function.forall_update_iff c.handlers
      (fun _ (h : Handler) => Represents h.toStore h.items)]
    exact ⟨hrep, fun t _ => hs.represents t⟩
  · rw [hhandlers, Function.forall_update_iff c.handlers fun t (h : Handler) => h.server = t]
    exact ⟨hserver, fun t _ => hs.server t⟩

theorem Sound.same {c c' : Cluster} (hs : Sound c) (hsame : SameServers c c') : Sound c' := by
  constructor
  · intro t
    unfold items
    rw [hsame.1]
    exact hs.represents t
  · intro t
    rw [hsame.1]
    exact hs.server t

theorem Moves.sound {c c' : Cluster} {a : Action} (h : Moves c a c') (hs : Sound c) :
    Sound c' := by
  cases h with
  | on hdoes =>
      obtain ⟨heff, hrep⟩ := hdoes.effect_items (hs.represents _)
      exact hs.update (handlers_set _ _ _) hrep (heff.server.trans (hs.server _))
  | taken hex hphase hidle hnum hsame => exact hs.same hsame
  | refused hex hphase hsame => exact hs.same hsame
  | strayTaken hmem hidle hnum hsame => exact hs.same hsame
  | strayRefused hsame => exact hs.same hsame
  | merged htask hmerge hhandlers =>
      obtain ⟨hh, -, hrep, -⟩ := merge_items (hs.represents _) hmerge
      apply hs.update hhandlers hrep
      rw [hh]
      exact hs.server _
  | mergeThrew htask hsame => exact hs.same hsame
  | failed hex hsame => exact hs.same hsame

/-! ## Tasks and views -/

/-- Views are as before, and the only new tasks are merges. -/
structure Frame (c c' : Cluster) : Prop where
  currentView : ∀ s, (c'.handlers s).currentView = (c.handlers s).currentView
  pings : c'.pings = c.pings
  tasks : ∀ s t, c'.tasks s = some t →
    c.tasks s = some t ∨ ∃ sender query, t = .merging sender query

theorem frame_of_same {c c' : Cluster} (hsame : SameServers c c') (htasks : c'.tasks = c.tasks) :
    Frame c c' := by
  constructor
  · intro s
    rw [hsame.1]
  · exact hsame.2
  · intro s t ht
    rw [htasks] at ht
    exact .inl ht

theorem frame_of_update {c c' : Cluster} {p : Server} {k : Option Task} (hsame : SameServers c c')
    (htasks : c'.tasks = Function.update c.tasks p k)
    (hk : ∀ t, k = some t → ∃ sender query, t = .merging sender query) : Frame c c' := by
  constructor
  · intro s
    rw [hsame.1]
  · exact hsame.2
  · intro s t ht
    rw [htasks] at ht
    rcases update_cases ht with ⟨-, hnew⟩ | ⟨-, hold⟩
    · exact .inr (hk t hnew)
    · exact .inl hold

/-- A step is one of a single server, or it leaves the views alone. -/
theorem Moves.on_or_frame {c c' : Cluster} {a : Action} (h : Moves c a c') (hs : Sound c) :
    (∃ s b n, a = .on s b ∧ c' = c.set s n ∧ (c.nodes s).Does b n) ∨ Frame c c' := by
  cases h with
  | on hdoes => exact .inl ⟨_, _, _, rfl, rfl, hdoes⟩
  | taken hex hphase hidle hnum hsame htasks =>
      exact .inr (frame_of_update hsame htasks fun t ht => ⟨_, _, (Option.some.inj ht).symm⟩)
  | refused hex hphase hsame htasks => exact .inr (frame_of_same hsame htasks)
  | strayTaken hmem hidle hnum hsame htasks =>
      exact .inr (frame_of_update hsame htasks fun t ht => ⟨_, _, (Option.some.inj ht).symm⟩)
  | strayRefused hsame htasks => exact .inr (frame_of_same hsame htasks)
  | @merged s sender query h' reply c' htask hmerge hhandlers hpings htasks =>
      refine .inr ⟨?_, hpings, fun t k hk => ?_⟩
      · rw [hhandlers, Function.forall_update_iff c.handlers
          fun t (h : Handler) => h.currentView = (c.handlers t).currentView]
        refine ⟨?_, fun t _ => rfl⟩
        rw [(merge_items (hs.represents _) hmerge).1]
      · rw [htasks] at hk
        rcases update_cases hk with ⟨-, hnew⟩ | ⟨-, hold⟩
        · cases hnew
        · exact .inl hold
  | mergeThrew htask hsame htasks =>
      exact .inr (frame_of_update hsame htasks fun t ht => by cases ht)
  | failed hex hsame htasks => exact .inr (frame_of_same hsame htasks)

/-- The step runs the section that the handler thread of `s` has come to with `k`. -/
def Advances (s : Server) (k : Task) : Action → Prop
  | .on t b => t = s ∧ k.AdvancedBy b
  | .merge t => t = s ∧ ∃ sender query, k = .merging sender query
  | _ => False

theorem Advances.own_step {s : Server} {k : Task} {a : Action} (h : Advances s k a) :
    (∃ b, a = .on s b ∧ k.AdvancedBy b) ∨
      (a = .merge s ∧ ∃ sender query, k = .merging sender query) := by
  cases a with
  | on t b =>
      obtain ⟨rfl, hb⟩ := h
      exact .inl ⟨b, rfl, hb⟩
  | merge t =>
      obtain ⟨rfl, hmerging⟩ := h
      exact .inr ⟨rfl, hmerging⟩
  | take t | takeStray peer args | fail t => exact h.elim

theorem Moves.task_kept {c c' : Cluster} {a : Action} (h : Moves c a c') {s : Server} {k : Task}
    (hk : c.tasks s = some k) (ha : ¬ Advances s k a) : c'.tasks s = some k := by
  have hidle : ∀ {t : Server} {k' : Option Task}, c.tasks t = none →
      Function.update c.tasks t k' s = some k := by
    intro t k' hnone
    rw [Function.update_of_ne, hk]
    rintro rfl
    rw [hk] at hnone
    cases hnone
  have hmerging : ∀ {t : Server} {sender : Option Server} {query : AntiEntropyArgs},
      c.tasks t = some (.merging sender query) → a = .merge t →
      Function.update c.tasks t none s = some k := by
    intro t sender query htask hmerge
    rw [Function.update_of_ne, hk]
    rintro rfl
    rw [hk] at htask
    cases htask
    exact ha (hmerge ▸ ⟨rfl, _, _, rfl⟩)
  cases h with
  | @on t b n hdoes =>
      rw [tasks_set]
      by_cases hst : s = t
      · subst hst
        rw [Function.update_self]
        exact hdoes.task_kept hk fun hb => ha ⟨rfl, hb⟩
      · rw [Function.update_of_ne hst]
        exact hk
  | taken hex hphase hnone hnum hsame htasks => rw [htasks, hidle hnone]
  | refused hex hphase hsame htasks => rw [htasks, hk]
  | strayTaken hmem hnone hnum hsame htasks => rw [htasks, hidle hnone]
  | strayRefused hsame htasks => rw [htasks, hk]
  | merged htask hmerge hhandlers hpings htasks => rw [htasks, hmerging htask rfl]
  | mergeThrew htask hsame htasks => rw [htasks, hmerging htask rfl]
  | failed hex hsame htasks => rw [htasks, hk]

theorem Moves.holdsView {c c' : Cluster} {a : Action} (h : Moves c a c') (hs : Sound c)
    {t : Server} {v : GetServersReply} (hv : (c'.nodes t).HoldsView v) :
    (c.nodes t).HoldsView v ∨ a.view? = some v := by
  cases h.on_or_frame hs with
  | inl hon =>
      obtain ⟨s, b, n, rfl, rfl, hdoes⟩ := hon
      by_cases ht : t = s
      · subst ht
        have hnode : (c.set t n).nodes t = n := Function.update_self _ _ _
        rw [hnode] at hv
        cases hdoes.holdsView (hs.represents t) hv with
        | inl hold => exact .inl hold
        | inr hnew =>
            right
            cases hnew with
            | inl hb => rw [hb]; rfl
            | inr hb => rw [hb]; rfl
      · have hnode : (c.set s n).nodes t = c.nodes t := Function.update_of_ne ht _ _
        rw [hnode] at hv
        exact .inl hv
  | inr hframe =>
      left
      cases hv with
      | current hcur => exact .current ((hframe.currentView t).symm.trans hcur)
      | assigning htask =>
          cases hframe.tasks t _ htask with
          | inl hold => exact .assigning hold
          | inr hnew =>
              obtain ⟨sender, query, he⟩ := hnew
              cases he
      | cleaning htask =>
          cases hframe.tasks t _ htask with
          | inl hold => exact .cleaning hold
          | inr hnew =>
              obtain ⟨sender, query, he⟩ := hnew
              cases he
      | pinged hping => exact .pinged ((congrFun hframe.pings t).symm.trans hping)

theorem Moves.serving {c c' : Cluster} {a : Action} (h : Moves c a c') (hs : Sound c)
    {t : Server} {call : ClientCall} (ht : c'.tasks t = some (.serving call)) :
    c.tasks t = some (.serving call) ∨ ∃ v, (c.nodes t).HoldsView v ∧
      call.viewNum = v.viewNum ∧ t ∈ group call.key v.view := by
  cases h.on_or_frame hs with
  | inl hon =>
      obtain ⟨s, b, n, rfl, rfl, hdoes⟩ := hon
      rw [tasks_set] at ht
      rcases update_cases ht with ⟨rfl, hnew⟩ | ⟨-, hold⟩
      · have hserving := hdoes.serving (hs.represents t) hnew
        rw [show (c.nodes t).handler.server = t from hs.server t] at hserving
        exact hserving
      · exact .inl hold
  | inr hframe =>
      cases hframe.tasks t _ ht with
      | inl hold => exact .inl hold
      | inr hnew =>
          obtain ⟨sender, query, he⟩ := hnew
          cases he

end Cluster

end RobustCache
