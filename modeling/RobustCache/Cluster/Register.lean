import RobustCache.Cluster.Provenance
import RobustCache.Cluster.Agreement

/-! # A key with one owner is a register

Under one view, a key whose group has a single member is never sent anywhere. A
get of the key then returns the value of the last put of it, or misses because
the entry has been evicted; as long as nothing is evicted, the key is an atomic
register.
-/

namespace RobustCache

open Lib

def CallEvent.puts (key : Bytes) : CallEvent → Option Bytes
  | .wrote _ args => if args.key = key then some args.value else none
  | _ => none

def lastPut (key : Bytes) (log : List CallEvent) : Option Bytes :=
  (log.filterMap (CallEvent.puts key)).getLast?

/-- What a register with this history returns for `key`. -/
def registerReply (key : Bytes) (log : List CallEvent) : GetReply :=
  match lastPut key log with
  | some value => { status := .ok, value }
  | none => { status := .noKey }

/-- Every get of `key` is served by `s`, with a reply that fits what came before. -/
def ReadsOf (key : Bytes) (s : Server) (fits : List CallEvent → GetReply → Prop)
    (before : List CallEvent) (e : CallEvent) : Prop :=
  ∀ t args reply, e = .read t args reply → args.key = key → t = s ∧ fits before reply

theorem lastPut_append_none {key : Bytes} (log : List CallEvent) {shown : Option CallEvent}
    (h : ∀ e, shown = some e → e.puts key = none) :
    lastPut key (log ++ shown.toList) = lastPut key log := by
  cases shown with
  | none => simp
  | some e => simp [lastPut, h e rfl]

theorem lastPut_append_some {key value : Bytes} (log : List CallEvent) {e : CallEvent}
    (h : e.puts key = some value) : lastPut key (log ++ [e]) = some value := by
  simp [lastPut, h]

namespace Lru

theorem mem_merge_of_ne {items : List Item} (hdis : Recency.Distinct Item.key items) {e : Entry}
    {it : Item} (hit : it ∈ items) (hne : it.key ≠ e.key) : it ∈ (merge e items).1 := by
  cases hlook : lookup e.key items with
  | none =>
      rw [merge_absent hlook]
      exact List.mem_cons_of_mem _ hit
  | some old => exact (mem_merge_iff hdis hlook).mpr (.inr ⟨hit, hne⟩)

end Lru

namespace Cluster

section Step

variable {v : GetServersReply} {key : Bytes} {s : Server} {c c' : Cluster} {a : Action}

/-- The key is stored at `s` only, and nobody is about to send or to remove it. -/
structure Private (v : GetServersReply) (key : Bytes) (s : Server) (c : Cluster) : Prop where
  inView : InView v c
  unnoted : ∀ t p, key ∉ Handler.noted (c.handlers t).diffs p
  unsent : ∀ it, c.InFlight it → it.key ≠ key
  held : ∀ t it, it ∈ c.items t → it.key = key → t = s
  kept : ∀ t e reply, c.exchanges t = some e → e.phase = .replied reply →
    key ∉ reply.invalidatedEntries

theorem start_private (v : GetServersReply) (key : Bytes) (s : Server) :
    Private v key s (start v) := by
  have hnone : ∀ it, ¬ (start v).Copy it :=
    not_copy_of_idle (fun s => rfl) (fun s => rfl) (fun s => rfl) rfl
  constructor
  · exact start_inView v
  · intro t p hkey
    cases hkey
  · intro it hit
    exact absurd (.inr hit) (hnone it)
  · intro t it hit
    exact absurd (.inl ⟨t, hit⟩) (hnone it)
  · intro t e reply hex
    cases hex

theorem Private.puts_at (hp : Private v key s c) (hsole : ∀ p ∈ group key v.view, p = s)
    {t : Server} {args : PutArgs} (hput : Puts c a t args) (hkey : args.key = key) : t = s := by
  obtain ⟨b, -, -, htask⟩ := hput
  have hown := hp.inView.serving t (.put args) htask
  subst hkey
  exact hsole t hown

theorem Moves.private_unnoted (h : Moves c a c') (hp : Private v key s c)
    (hsole : ∀ p ∈ group key v.view, p = s) (t p : Server) :
    key ∉ Handler.noted (c'.handlers t).diffs p := by
  intro hkey
  rcases h.diffs hp.inView t with ⟨heq, -⟩ | ⟨args, hput, heq⟩ | ⟨e, reply, -, -, -, -, heq⟩
  · rw [heq] at hkey
    exact hp.unnoted t p hkey
  · rw [heq, Handler.mem_noted_noteDiffs] at hkey
    rcases hkey with ⟨hmem, hother, hargs⟩ | hold
    · -- a put notes the key for the other members of its group, and there is none
      have ht : t = s := hp.puts_at hsole hput hargs.symm
      rw [← hargs] at hmem
      rw [hp.inView.sound.server t, ht] at hother
      exact hother (hsole p hmem)
    · exact hp.unnoted t p hold
  · rw [heq, Handler.mem_noted_erase] at hkey
    exact hp.unnoted t p hkey.2

theorem Moves.private_unsent (h : Moves c a c') (hp : Private v key s c) {it : Item}
    (hit : c'.InFlight it) : it.key ≠ key := by
  cases hit with
  | inl hit =>
      obtain ⟨peer, args, e, hm, he, rfl⟩ := hit
      cases h.message hm with
      | inl hold => exact hp.unsent _ (.inl ⟨peer, args, e, hold, he, rfl⟩)
      | inr hnew =>
          obtain ⟨t, rfl, hsnap⟩ := hnew
          obtain ⟨held, -, hnoted, rfl⟩ := (mem_snapshot hp.inView.sound hsnap).mp he
          rw [Item.item_entry]
          rintro rfl
          exact hp.unnoted t peer hnoted
  | inr hit =>
      obtain ⟨t, sender, query, e, htask, he, rfl⟩ := hit
      cases h.merging hp.inView.sound htask with
      | inl hold => exact hp.unsent _ (.inr ⟨t, sender, query, e, hold, he, rfl⟩)
      | inr hnew => exact hp.unsent _ (.inl ⟨t, query, e, hnew.1, he, rfl⟩)

theorem Moves.private_source (h : Moves c a c') (hp : Private v key s c) {t : Server} {it : Item}
    (hit : it ∈ c'.items t) (hkey : it.key = key) :
    (∃ args, Puts c a t args ∧ args.key = key ∧ it.value = args.value) ∨
      (it ∈ c.items t ∧ ∀ args, Puts c a t args → args.key ≠ key) := by
  cases h.source hp.inView.sound hit with
  | old hold hkept =>
      rw [hkey] at hkept
      exact .inr ⟨hold, fun args hput he => hkept args hput he.symm⟩
  | put hput hnew =>
      subst hnew
      exact .inl ⟨_, hput, hkey, rfl⟩
  | merged ha htask he hnew =>
      subst hnew
      exact absurd hkey (hp.unsent _ (.inr ⟨t, _, _, _, htask, he, rfl⟩))
  | blanked ha htask hvisit hold hsame hvalue hnle hnge hnew =>
      subst hnew
      have he := Store.mem_of_visits hvisit
      exact absurd (hsame.symm.trans hkey) (hp.unsent _ (.inr ⟨t, _, _, _, htask, he, rfl⟩))
  | trimmed ha hold hown hnew => exact absurd ha (h.not_cleans hp.inView)

theorem Moves.private_kept (h : Moves c a c') (hp : Private v key s c) {t : Server} {e : Exchange}
    {reply : AntiEntropyReply} (hex : c'.exchanges t = some e) (hphase : e.phase = .replied reply) :
    key ∉ reply.invalidatedEntries := by
  cases h.turns hex with
  | same hold hno => exact hp.kept t _ reply hold hphase
  | @noted old args hold hput =>
      have hkept := hp.kept t old reply hold hphase
      exact hkept
  | begun ha hsnap => cases hphase
  | taken hold ha htask => cases hphase
  | refused hold ha =>
      cases hphase
      exact List.not_mem_nil
  | answered hold hwait ha htask hmerge hhandler =>
      cases hphase
      rw [(merge_items (hp.inView.sound.represents _) hmerge).2.2.2]
      intro hkey
      obtain ⟨q, hq, hqkey⟩ := Lru.mem_propagateAll_snd hkey
      exact hp.unsent _ (.inr ⟨_, _, _, q, htask, hq, rfl⟩) hqkey

theorem Moves.private (h : Moves c a c') (hp : Private v key s c)
    (hsole : ∀ p ∈ group key v.view, p = s) (ha : a.inView v = true) : Private v key s c' := by
  constructor
  · exact h.inView hp.inView ha
  · exact h.private_unnoted hp hsole
  · intro it hit
    exact h.private_unsent hp hit
  · intro t it hit hkey
    rcases h.private_source hp hit hkey with ⟨args, hput, hargs, -⟩ | ⟨hold, -⟩
    · exact hp.puts_at hsole hput hargs
    · exact hp.held t it hold hkey
  · intro t e reply hex hphase
    exact h.private_kept hp hex hphase

/-! ## The stored value -/

/-- What is stored under the key is the last value put under it. -/
def StoresLast (key : Bytes) (s : Server) (c : Cluster) (log : List CallEvent) : Prop :=
  ∀ it ∈ c.items s, it.key = key → lastPut key log = some it.value

def StoresPut (key : Bytes) (s : Server) (c : Cluster) (log : List CallEvent) : Prop :=
  ∀ value, lastPut key log = some value → ∃ it ∈ c.items s, it.key = key

theorem lastPut_of_not_puts (hs : Sound c)
    (hno : ∀ t args, Puts c a t args → args.key ≠ key) (log : List CallEvent) :
    lastPut key (log ++ (c.observe a).toList) = lastPut key log := by
  apply lastPut_append_none
  intro e he
  cases observes_of_observe hs he with
  | asked => rfl
  | wrote hput => exact if_neg (hno _ _ hput)
  | read htask => rfl

theorem lastPut_of_puts {t : Server} {args : PutArgs} (hput : Puts c a t args)
    (hkey : args.key = key) (log : List CallEvent) :
    lastPut key (log ++ (c.observe a).toList) = some args.value := by
  rw [observe_of_puts hput]
  exact lastPut_append_some log (if_pos hkey)

theorem Moves.storesLast (h : Moves c a c') (hp : Private v key s c)
    (hsole : ∀ p ∈ group key v.view, p = s) {log : List CallEvent}
    (hlast : StoresLast key s c log) : StoresLast key s c' (log ++ (c.observe a).toList) := by
  intro it hit hkey
  rcases h.private_source hp hit hkey with ⟨args, hput, hargs, hvalue⟩ | ⟨hold, hno⟩
  · rw [lastPut_of_puts hput hargs, hvalue]
  · rw [lastPut_of_not_puts hp.inView.sound]
    · exact hlast it hold hkey
    · intro t args hput hargs
      have ht := hp.puts_at hsole hput hargs
      subst ht
      exact hno args hput hargs

/-- An item of another key than the step's outlives a step of its server that
evicts nothing. -/
theorem stays_of_effect (hp : Private v key s c) {b : Local} {h : Handler} {items' : List Item}
    (heff : (c.nodes s).Effect (c.items s) b h items')
    (hfits : ∀ args, (c.nodes s).Puts b args → (c.handlers s).getUsedMemory ≤ memoryLimit)
    (hclean : ¬ (b = .clean ∨ b = .pingClean))
    (hno : ∀ args, (c.nodes s).Puts b args → args.key ≠ key) {it : Item} (hit : it ∈ c.items s)
    (hkey : it.key = key) : it ∈ items' := by
  have hrep := hp.inView.sound.represents s
  cases heff with
  | still hno' => exact hit
  | assigned htask => exact hit
  | pingAssigned hping => exact hit
  | cleaned ha => exact absurd ha hclean
  | @put args st htask =>
      have hkept := hrep.kept_eq_of_fits (hfits args ⟨rfl, htask⟩)
      rw [hrep.kept_eq] at hkept
      rw [Lru.mem_put, hkept, hkey]
      exact .inr ⟨hit, (hno args ⟨rfl, htask⟩).symm⟩
  | get htask => exact (Lru.mem_get hrep.distinct).mpr hit
  | @replied e reply st hex hphase hok =>
      rw [Lru.mem_invalidateAll, hkey]
      exact ⟨hit, hp.kept s e reply hex hphase⟩

theorem Moves.private_stays (h : Moves c a c') (hp : Private v key s c)
    (hlimit : c.withinLimit v a = true) (hno : ∀ args, Puts c a s args → args.key ≠ key)
    {it : Item} (hit : it ∈ c.items s) (hkey : it.key = key) : it ∈ c'.items s := by
  have hrep := hp.inView.sound.represents s
  have hsame : SameServers c c' → it ∈ c'.items s := by
    intro hsame
    unfold items
    rw [hsame.1]
    exact hit
  cases h with
  | @on t b n hdoes =>
      unfold items
      rw [handlers_set]
      by_cases hst : s = t
      · subst hst
        rw [Function.update_self]
        obtain ⟨heff, -⟩ := hdoes.effect_items hrep
        exact stays_of_effect hp heff (fun args hputs => withinLimit_put hlimit ⟨b, rfl, hputs⟩)
          (hp.inView.not_cleans hdoes) (fun args hputs => hno args ⟨b, rfl, hputs⟩) hit hkey
      · rw [Function.update_of_ne hst]
        exact hit
  | taken hex hphase hidle hnum hsame' => exact hsame hsame'
  | refused hex hphase hsame' => exact hsame hsame'
  | strayTaken hmem hidle hnum hsame' => exact hsame hsame'
  | strayRefused hsame' => exact hsame hsame'
  | @merged t sender query h' reply c' htask hmerge hhandlers =>
      unfold items
      rw [hhandlers]
      by_cases hst : s = t
      · subst hst
        rw [Function.update_self, (merge_items hrep hmerge).2.1]
        apply hrep.propagateAll_rule (P := fun items => it ∈ items) hit
        intro st' items' e hvisit hrep' hmem
        rw [hrep'.kept_eq_of_fits (withinLimit_merge hlimit htask _ hvisit)]
        apply Lru.mem_merge_of_ne hrep'.distinct hmem
        rw [hkey]
        have hquery := Store.mem_of_visits hvisit
        exact (hp.unsent e.item (.inr ⟨s, sender, query, e, htask, hquery, rfl⟩)).symm
      · rw [Function.update_of_ne hst]
        exact hit
  | mergeThrew htask hsame' => exact hsame hsame'
  | failed hex hsame' => exact hsame hsame'

theorem Moves.storesPut (h : Moves c a c') (hp : Private v key s c)
    (hsole : ∀ p ∈ group key v.view, p = s) (hlimit : c.withinLimit v a = true)
    {log : List CallEvent} (hstored : StoresPut key s c log) :
    StoresPut key s c' (log ++ (c.observe a).toList) := by
  intro value hvalue
  by_cases hput : ∃ t args, Puts c a t args ∧ args.key = key
  · obtain ⟨t, args, hput, hkey⟩ := hput
    have ht := hp.puts_at hsole hput hkey
    subst ht
    exact ⟨_, h.putItem_mem hp.inView.sound hput, hkey⟩
  · have hno : ∀ t args, Puts c a t args → args.key ≠ key := fun t args hputs hkey =>
      hput ⟨t, args, hputs, hkey⟩
    rw [lastPut_of_not_puts hp.inView.sound hno] at hvalue
    obtain ⟨it, hit, hkey⟩ := hstored value hvalue
    exact ⟨it, h.private_stays hp hlimit (hno s) hit hkey, hkey⟩

/-! ## Replies -/

theorem Observes.readsOf {e : CallEvent} (h : Observes c a e) (hp : Private v key s c)
    (hsole : ∀ p ∈ group key v.view, p = s) {log : List CallEvent}
    {fits : List CallEvent → GetReply → Prop} (hreply : fits log (Lru.get key (c.items s)).2) :
    ReadsOf key s fits log e := by
  rintro t args reply rfl hkey
  cases h with
  | read htask =>
      have hown := hp.inView.serving t (.get args) htask
      subst hkey
      have ht := hsole t hown
      subst ht
      exact ⟨rfl, hreply⟩

theorem get_of_storesLast (hs : Sound c) {log : List CallEvent} (hlast : StoresLast key s c log) :
    (Lru.get key (c.items s)).2 = { status := .noKey } ∨
      (Lru.get key (c.items s)).2 = registerReply key log := by
  unfold Lru.get
  cases hlook : Lru.lookup key (c.items s) with
  | none => exact .inl rfl
  | some it =>
      obtain ⟨hmem, hkey⟩ := (Recency.lookup_some (hs.represents s).distinct).mp hlook
      right
      rw [registerReply, hlast it hmem hkey]

theorem get_of_storesPut (hs : Sound c) {log : List CallEvent} (hlast : StoresLast key s c log)
    (hstored : StoresPut key s c log) :
    (Lru.get key (c.items s)).2 = registerReply key log := by
  rcases get_of_storesLast hs hlast with hmiss | hreply
  · rw [hmiss]
    cases hput : lastPut key log with
    | none => rw [registerReply, hput]
    | some value =>
        -- a stored key is found
        obtain ⟨it, hmem, hkey⟩ := hstored value hput
        have hlook := (Recency.lookup_some (hs.represents s).distinct).mpr ⟨hmem, hkey⟩
        unfold Lru.get Lru.lookup at hmiss
        rw [hlook] at hmiss
        cases hmiss
  · exact hreply

end Step

/-- Under one view, the gets of a key with a single owner are served by the owner and
return the last value put under the key, or miss. When nothing is evicted, they
return what a register returns. -/
theorem sole_owner_register {v : GetServersReply} {key : Bytes} {s : Server}
    (hsole : ∀ p ∈ group key v.view, p = s) :
    (∀ c log, Trace step (fun _ a => a.inView v = true) observe (start v) c log →
      Ordered (ReadsOf key s fun before reply =>
        reply = { status := .noKey } ∨ reply = registerReply key before) log) ∧
      ∀ c log, Trace step (fun c a => c.withinLimit v a = true) observe (start v) c log →
        Ordered (ReadsOf key s fun before reply => reply = registerReply key before) log := by
  have hempty : ∀ it, it ∉ (start v).items s := fun it hit =>
    absurd (.inl ⟨s, hit⟩) (not_copy_of_idle (fun s => rfl) (fun s => rfl) (fun s => rfl) rfl it)
  constructor
  · intro c log h
    suffices hinv : Private v key s c ∧ StoresLast key s c log ∧
        Ordered (ReadsOf key s fun before reply =>
          reply = { status := .noKey } ∨ reply = registerReply key before) log from hinv.2.2
    apply h.invariant (P := fun c log => Private v key s c ∧ StoresLast key s c log ∧
      Ordered (ReadsOf key s fun before reply =>
        reply = { status := .noKey } ∨ reply = registerReply key before) log)
    · exact ⟨start_private v key s, fun it hit => absurd hit (hempty it), ordered_nil _⟩
    · rintro c a c' log ⟨hp, hlast, hordered⟩ hview hstep
      have hmoves := step_moves hstep
      refine ⟨hmoves.private hp hsole hview, hmoves.storesLast hp hsole hlast, ?_⟩
      apply hordered.extend
      intro e he
      exact (observes_of_observe hp.inView.sound he).readsOf hp hsole
        (get_of_storesLast hp.inView.sound hlast)
  · intro c log h
    suffices hinv : Private v key s c ∧ StoresLast key s c log ∧ StoresPut key s c log ∧
        Ordered (ReadsOf key s fun before reply => reply = registerReply key before) log from
      hinv.2.2.2
    apply h.invariant (P := fun c log => Private v key s c ∧ StoresLast key s c log ∧
      StoresPut key s c log ∧
      Ordered (ReadsOf key s fun before reply => reply = registerReply key before) log)
    · exact ⟨start_private v key s, fun it hit => absurd hit (hempty it),
        (fun value hvalue => by cases hvalue), ordered_nil _⟩
    · rintro c a c' log ⟨hp, hlast, hstored, hordered⟩ hlimit hstep
      have hmoves := step_moves hstep
      have hview : a.inView v = true := (Bool.and_eq_true_iff.mp hlimit).1
      refine ⟨hmoves.private hp hsole hview, hmoves.storesLast hp hsole hlast,
        hmoves.storesPut hp hsole hlimit hstored, ?_⟩
      apply hordered.extend
      intro e he
      exact (observes_of_observe hp.inView.sound he).readsOf hp hsole
        (get_of_storesPut hp.inView.sound hlast hstored)

def soleView (s : Server) : GetServersReply := { view := View.single [s], viewNum := 1 }

/-- A get before the first put, and one after the second. -/
def readAfterPuts (s : Server) : List Action :=
  [.on s (.request (.get ⟨[1], 1⟩)), .on s .serve] ++ putAt s ⟨[1], [7], 1⟩ ++
    putAt s ⟨[1], [8], 1⟩ ++ [.on s (.request (.get ⟨[1], 1⟩)), .on s .serve]

theorem sole_owner_register_readAfterPuts :
    ∃ c log, Trace step (fun c a => c.withinLimit (soleView ⟨[1], 1⟩) a = true) observe
        (start (soleView ⟨[1], 1⟩)) c log ∧
      .read ⟨[1], 1⟩ ⟨[1], 1⟩ { status := .noKey } ∈ log ∧
      .read ⟨[1], 1⟩ ⟨[1], 1⟩ { status := .ok, value := [8] } ∈ log ∧
      Ordered (ReadsOf [1] ⟨[1], 1⟩ fun before reply => reply = registerReply [1] before) log := by
  have hrun : ((record step (fun c a => c.withinLimit (soleView ⟨[1], 1⟩) a = true) observe
      (start (soleView ⟨[1], 1⟩)) (readAfterPuts ⟨[1], 1⟩)).map fun r =>
        (decide (.read ⟨[1], 1⟩ ⟨[1], 1⟩ { status := .noKey } ∈ r.2),
          decide (.read ⟨[1], 1⟩ ⟨[1], 1⟩ { status := .ok, value := [8] } ∈ r.2))) =
      some (true, true) := by
    decide +kernel
  obtain ⟨⟨c, log⟩, hrec, hend⟩ := Option.map_eq_some_iff.mp hrun
  obtain ⟨hmiss, hhit⟩ := Prod.mk.inj hend
  have htrace := trace_of_record hrec
  have hsole : ∀ p ∈ group [1] (soleView ⟨[1], 1⟩).view, p = ⟨[1], 1⟩ := by decide +kernel
  exact ⟨c, log, htrace, of_decide_eq_true hmiss, of_decide_eq_true hhit,
    (sole_owner_register hsole).2 c log htrace⟩

end Cluster

end RobustCache
