import RobustCache.Cluster.FixedView
import RobustCache.Cluster.Identity
import RobustCache.Cluster.Versions

/-! # Agreement of the replicas

Under one view and without evictions. Every copy of an entry either has reached a
member of its group or is owed to it by some other member, which has noted the key
and will send it. When nobody owes anything, the members agree. This holds as long
as no put falls into the window of an exchange that forgets it and no two versions
are concurrent.
-/

namespace RobustCache

open Lib

namespace Cluster

/-- The view is `v`, and nothing is evicted. -/
def withinLimit (v : GetServersReply) (c : Cluster) (a : Action) : Bool :=
  a.inView v && match a with
    | .on s .serve => decide ((c.handlers s).getUsedMemory ≤ memoryLimit)
    | .merge s =>
        match c.tasks s with
        | some (.merging _ query) =>
            ((c.handlers s).visits query.entries).all fun visit =>
              decide (visit.1.getUsedMemory ≤ memoryLimit)
        | _ => true
    | _ => true

/-- A reply is processed only if no key of the peer was put in its window, and no
entry meets a concurrent version. -/
def undisturbed (c : Cluster) : Action → Bool
  | .on s .finish =>
      match c.exchanges s with
      | some ⟨peer, _, .replied reply, since⟩ =>
          decide (reply.status = .ok →
            ∀ key ∈ since, peer ∉ group key (c.handlers s).currentView.view)
      | _ => true
  | .merge s =>
      match c.tasks s with
      | some (.merging _ query) =>
          ((c.handlers s).visits query.entries).all fun visit =>
            visit.1.kept.all fun it =>
              decide (it.key = visit.2.key → Lru.comparable visit.2 it = true)
      | _ => true
  | _ => true

/-- The member `s` holds an item at least as new and will send it to `p`: the key
is noted, and an exchange under way carries it or has another one after it. -/
structure Owes (v : GetServersReply) (c : Cluster) (s p : Server) (it : Item) : Prop where
  member : s ∈ group it.key v.view
  covers : Lru.Covers (c.items s) it
  noted : it.key ∈ Handler.noted (c.handlers s).diffs p
  pending : ∀ e, c.exchanges s = some e → e.peer = p →
    it.key ∈ e.since ∨
      ∃ q ∈ e.args.entries, q.key = it.key ∧ atMost it.version (ofEntries q.version) = true

structure Replicates (v : GetServersReply) (c : Cluster) : Prop where
  inView : InView v c
  identified : c.Identified
  distinct : ∀ it, c.Copy it → it.version.Distinct
  /-- A server has counted at least as many of its own writes as any copy. -/
  counted : ∀ it, c.Copy it → ∀ t n, (t, n) ∈ it.version →
    ∃ held ∈ c.items t, held.key = it.key ∧ ∃ m, (t, m) ∈ held.version ∧ n ≤ m
  covered : ∀ it, c.Copy it → ∀ p ∈ group it.key v.view,
    Lru.Covers (c.items p) it ∨ ∃ s, Owes v c s p it
  answered : ∀ s e reply, c.exchanges s = some e → e.phase = .replied reply →
    reply.invalidatedEntries = [] ∧
      (reply.status = .ok → ∀ q ∈ e.args.entries, Lru.Covers (c.items e.peer) q.item)

section Step

variable {v : GetServersReply} {c c' : Cluster} {a : Action}

/-! ## What the guards say -/

theorem withinLimit_put (h : c.withinLimit v a = true) {s : Server} {args : PutArgs}
    (hput : Puts c a s args) : (c.handlers s).getUsedMemory ≤ memoryLimit := by
  obtain ⟨b, rfl, rfl, -⟩ := hput
  exact of_decide_eq_true (Bool.and_eq_true_iff.mp h).2

theorem withinLimit_merge {s : Server} (h : c.withinLimit v (.merge s) = true)
    {sender : Option Server} {query : AntiEntropyArgs}
    (htask : c.tasks s = some (.merging sender query)) :
    ∀ visit ∈ (c.handlers s).visits query.entries, visit.1.getUsedMemory ≤ memoryLimit := by
  simp only [withinLimit, htask, Bool.and_eq_true, List.all_eq_true, decide_eq_true_eq] at h
  exact h.2

theorem undisturbed_merge {s : Server} (h : c.undisturbed (.merge s) = true)
    {sender : Option Server} {query : AntiEntropyArgs}
    (htask : c.tasks s = some (.merging sender query)) :
    ∀ visit ∈ (c.handlers s).visits query.entries, ∀ it ∈ visit.1.kept, it.key = visit.2.key →
      Lru.comparable visit.2 it = true := by
  simp only [undisturbed, htask, List.all_eq_true, decide_eq_true_eq] at h
  exact h

theorem undisturbed_finish {s : Server} (h : c.undisturbed (.on s .finish) = true) {e : Exchange}
    {reply : AntiEntropyReply} (hex : c.exchanges s = some e) (hphase : e.phase = .replied reply)
    (hok : reply.status = .ok) :
    ∀ key ∈ e.since, e.peer ∉ group key (c.handlers s).currentView.view := by
  obtain ⟨peer, args, phase, since⟩ := e
  cases hphase
  simp only [undisturbed, hex, decide_eq_true_eq] at h
  exact h hok

/-! ## Nothing held is lost -/

theorem Replicates.distinct_held (hr : Replicates v c) {s : Server} {it : Item}
    (hit : it ∈ c.items s) : it.version.Distinct :=
  hr.distinct it (.inl ⟨s, hit⟩)

theorem Replicates.kept_eq (hr : Replicates v c) {s : Server}
    (hfits : (c.handlers s).getUsedMemory ≤ memoryLimit) : (c.handlers s).kept = c.items s :=
  (hr.inView.sound.represents s).kept_eq_of_fits hfits

theorem grows_of_effect (hr : Replicates v c) {s : Server} {b : Local} {h : Handler}
    {items' : List Item} (heff : (c.nodes s).Effect (c.items s) b h items')
    (hfits : ∀ args, (c.nodes s).Puts b args → (c.handlers s).getUsedMemory ≤ memoryLimit)
    (hclean : ¬ (b = .clean ∨ b = .pingClean)) {it : Item} (hit : it ∈ c.items s) :
    Lru.Covers items' it := by
  have hver := hr.distinct_held hit
  have hrep := hr.inView.sound.represents s
  cases heff with
  | still hno => exact Lru.covers_of_mem hit hver
  | assigned htask => exact Lru.covers_of_mem hit hver
  | pingAssigned hping => exact Lru.covers_of_mem hit hver
  | cleaned ha => exact absurd ha hclean
  | @put args st htask =>
      have hkept := hr.kept_eq (hfits args ⟨rfl, htask⟩)
      rw [hrep.kept_eq] at hkept
      by_cases hkey : it.key = args.key
      · refine ⟨_, Lru.mem_put.mpr (.inl rfl), hkey.symm, ?_⟩
        rw [hkept, ← hkey, Lru.versionOf_of_mem hrep.distinct hit]
        exact atMost_incrementVersion hver
      · apply Lru.covers_of_mem _ hver
        apply Lru.mem_put.mpr
        rw [hkept]
        exact .inr ⟨hit, hkey⟩
  | get htask => exact Lru.covers_of_mem ((Lru.mem_get hrep.distinct).mpr hit) hver
  | @replied e reply st hex hphase hok =>
      rw [(hr.answered s e reply hex hphase).1]
      exact Lru.covers_of_mem hit hver

theorem merge_covers (hr : Replicates v c) {s : Server} (hlimit : c.withinLimit v (.merge s) = true)
    (hcalm : c.undisturbed (.merge s) = true) {sender : Option Server} {query : AntiEntropyArgs}
    (htask : c.tasks s = some (.merging sender query)) :
    (∀ it ∈ c.items s, Lru.Covers (Lru.propagateAll FitsCounter query.entries (c.items s)).1 it) ∧
      (∀ q ∈ query.entries,
        Lru.Covers (Lru.propagateAll FitsCounter query.entries (c.items s)).1 q.item) ∧
      (Lru.propagateAll FitsCounter query.entries (c.items s)).2 = [] := by
  apply (hr.inView.sound.represents s).propagateAll_covers
  · exact withinLimit_merge hlimit htask
  · exact undisturbed_merge hcalm htask
  · intro it hit
    exact hr.distinct_held hit
  · intro q hq
    exact hr.distinct q.item (.inr (.inr ⟨s, sender, query, q, htask, hq, rfl⟩))

theorem Moves.grows (h : Moves c a c') (hr : Replicates v c) (hlimit : c.withinLimit v a = true)
    (hcalm : c.undisturbed a = true) {s : Server} {it : Item} (hit : it ∈ c.items s) :
    Lru.Covers (c'.items s) it := by
  have hver := hr.distinct_held hit
  have hsame : SameServers c c' → Lru.Covers (c'.items s) it := by
    intro hsame
    unfold items
    rw [hsame.1]
    exact Lru.covers_of_mem hit hver
  have hother : ∀ {t : Server} {h' : Handler}, c'.handlers = Function.update c.handlers t h' →
      (s = t → Lru.Covers h'.items it) → Lru.Covers (c'.items s) it := by
    intro t h' hhandlers hown
    unfold items
    rw [hhandlers]
    by_cases hst : s = t
    · subst hst
      rw [Function.update_self]
      exact hown rfl
    · rw [Function.update_of_ne hst]
      exact Lru.covers_of_mem hit hver
  cases h with
  | @on t b n hdoes =>
      apply hother (handlers_set _ _ _)
      rintro rfl
      obtain ⟨heff, -⟩ := hdoes.effect_items (hr.inView.sound.represents s)
      apply grows_of_effect hr heff _ (hr.inView.not_cleans hdoes) hit
      intro args hputs
      exact withinLimit_put hlimit ⟨b, rfl, hputs⟩
  | taken hex hphase hidle hnum hsame' => exact hsame hsame'
  | refused hex hphase hsame' => exact hsame hsame'
  | strayTaken hmem hidle hnum hsame' => exact hsame hsame'
  | strayRefused hsame' => exact hsame hsame'
  | merged htask hmerge hhandlers =>
      apply hother hhandlers
      rintro rfl
      rw [(merge_items (hr.inView.sound.represents s) hmerge).2.1]
      exact (merge_covers hr hlimit hcalm htask).1 it hit
  | mergeThrew htask hsame' => exact hsame hsame'
  | failed hex hsame' => exact hsame hsame'

/-! ## Puts count past every copy -/

theorem Replicates.fresh (hr : Replicates v c) {s : Server}
    (hfits : (c.handlers s).getUsedMemory ≤ memoryLimit) (key : Bytes) : c.Fresh s key := by
  intro it helse hkey n hn
  obtain ⟨held, hheld, hsame, m, hm, hle⟩ := hr.counted it helse.copy s n hn
  have hdis := (hr.inView.sound.represents s).distinct
  rw [hr.kept_eq hfits, ← hkey, ← hsame, Lru.versionOf_of_mem hdis hheld,
    counter_of_mem (hr.distinct_held hheld) hm]
  exact hle

theorem Moves.distinguishes (h : Moves c a c') (hr : Replicates v c)
    (hlimit : c.withinLimit v a = true) (hcalm : c.undisturbed a = true) :
    c.Distinguishes a := by
  cases a with
  | on s b =>
      cases b with
      | serve =>
          intro args htask
          exact hr.fresh (withinLimit_put hlimit ⟨.serve, rfl, rfl, htask⟩) args.key
      | clean => exact absurd (.inl rfl) (h.not_cleans hr.inView)
      | pingClean => exact absurd (.inr rfl) (h.not_cleans hr.inView)
      | _ => trivial
  | merge s =>
      intro sender query htask visit hvisit it hit hkey hvalue
      have hcomp := undisturbed_merge hcalm htask visit hvisit it hit hkey
      rw [Lru.comparable, Bool.or_eq_true] at hcomp
      exact hcomp
  | _ => trivial

theorem Moves.counted (h : Moves c a c') (hr : Replicates v c)
    (hlimit : c.withinLimit v a = true) (hcalm : c.undisturbed a = true) {it : Item}
    (hit : c'.Copy it) {t : Server} {n : Int} (hn : (t, n) ∈ it.version) :
    ∃ held ∈ c'.items t, held.key = it.key ∧ ∃ m, (t, m) ∈ held.version ∧ n ≤ m := by
  have hs := hr.inView.sound
  -- a counter that was accounted for still is, since nothing held is lost
  have hold : ∀ {it : Item}, c.Copy it → (t, n) ∈ it.version →
      ∃ held ∈ c'.items t, held.key = it.key ∧ ∃ m, (t, m) ∈ held.version ∧ n ≤ m := by
    intro it hcopy hn
    obtain ⟨held, hheld, hkey, m, hm, hle⟩ := hr.counted it hcopy t n hn
    obtain ⟨held', hheld', hkey', hatMost⟩ := h.grows hr hlimit hcalm hheld
    obtain ⟨hcounters, hservers⟩ := atMost_iff.mp hatMost
    obtain ⟨⟨t', m'⟩, hm', rfl⟩ := hservers _ hm
    exact ⟨held', hheld', hkey'.trans hkey, m', hm', hle.trans (hcounters _ hm _ hm' rfl)⟩
  rcases h.copy hs (h.distinguishes hr hlimit hcalm) hit with ⟨s, args, hput, rfl⟩ | ⟨hcopy, -⟩
  · rcases mem_incrementVersion hn with hown | hbefore
    · rw [hs.server s] at hown
      obtain ⟨rfl, -⟩ := Prod.mk.inj hown
      exact ⟨_, h.putItem_mem hs hput, rfl, n, hn, le_refl n⟩
    · rw [hr.kept_eq (withinLimit_put hlimit hput)] at hbefore
      rcases Lru.versionOf_cases (hs.represents s).distinct args.key with
        hnil | ⟨held, hheld, hkey, hversion⟩
      · rw [hnil] at hbefore
        cases hbefore
      · rw [hversion] at hbefore
        obtain ⟨held', hheld', hkey', hm⟩ := hold (.inl ⟨s, hheld⟩) hbefore
        exact ⟨held', hheld', hkey'.trans hkey, hm⟩
  · exact hold hcopy hn

/-! ## What is owed -/

theorem Moves.answered (h : Moves c a c') (hr : Replicates v c)
    (hlimit : c.withinLimit v a = true) (hcalm : c.undisturbed a = true) {s : Server}
    {e : Exchange} {reply : AntiEntropyReply} (hex : c'.exchanges s = some e)
    (hphase : e.phase = .replied reply) :
    reply.invalidatedEntries = [] ∧
      (reply.status = .ok → ∀ q ∈ e.args.entries, Lru.Covers (c'.items e.peer) q.item) := by
  have hold : ∀ {old : Exchange}, c.exchanges s = some old → old.phase = .replied reply →
      reply.invalidatedEntries = [] ∧
        (reply.status = .ok → ∀ q ∈ old.args.entries, Lru.Covers (c'.items old.peer) q.item) := by
    intro old hex hphase
    obtain ⟨hnone, hcovers⟩ := hr.answered s old reply hex hphase
    refine ⟨hnone, fun hok q hq => (hcovers hok q hq).trans fun held hheld => ?_⟩
    exact h.grows hr hlimit hcalm hheld
  cases h.turns hex with
  | same hbefore hno => exact hold hbefore hphase
  | noted hbefore hput =>
      have hboth := hold hbefore hphase
      exact hboth
  | begun ha hsnap => cases hphase
  | taken hbefore ha htask => cases hphase
  | refused hbefore ha =>
      cases hphase
      exact ⟨rfl, fun hok => by cases hok⟩
  | answered hbefore hwait ha htask hmerge hhandler =>
      cases hphase
      subst ha
      obtain ⟨-, hitems, -, hreply⟩ := merge_items (hr.inView.sound.represents _) hmerge
      obtain ⟨-, hentries, hnone⟩ := merge_covers hr hlimit hcalm htask
      rw [hr.inView.queries s _ _ hbefore hwait htask] at hreply hitems hentries hnone
      rw [hreply]
      refine ⟨hnone, fun _ q hq => ?_⟩
      have hcovers := hentries q hq
      unfold items
      rw [hhandler, hitems]
      exact hcovers

theorem Moves.owes (h : Moves c a c') (hr : Replicates v c) (hlimit : c.withinLimit v a = true)
    (hcalm : c.undisturbed a = true) {s p : Server} {it : Item} (howes : Owes v c s p it)
    (hnoted : it.key ∈ Handler.noted (c'.handlers s).diffs p) : Owes v c' s p it := by
  refine ⟨howes.member, howes.covers.trans fun held hheld => h.grows hr hlimit hcalm hheld,
    hnoted, fun e hex hpeer => ?_⟩
  rcases (h.turns hex).offer with ⟨old, hold, hpeer', hargs, hsince, -⟩ | ⟨-, hsnap⟩
  · rw [hargs]
    exact (howes.pending old hold (hpeer'.symm.trans hpeer)).imp_left (hsince _)
  · -- a new exchange carries what is noted
    obtain ⟨held, hheld, hkey, hle⟩ := howes.covers
    have hmem := howes.noted
    rw [← hpeer, ← hkey] at hmem
    refine .inr ⟨held.entry, ?_, hkey, ?_⟩
    · exact (mem_snapshot hr.inView.sound hsnap).mpr ⟨held, hheld, hmem, rfl⟩
    · rw [show ofEntries held.entry.version = held.version from
        congrArg Item.version held.item_entry]
      exact hle

theorem Moves.covered (h : Moves c a c') (hr : Replicates v c)
    (hlimit : c.withinLimit v a = true) (hcalm : c.undisturbed a = true) {it : Item}
    (hit : c'.Copy it) {p : Server} (hp : p ∈ group it.key v.view) :
    Lru.Covers (c'.items p) it ∨ ∃ s, Owes v c' s p it := by
  have hs := hr.inView.sound
  have hgrow : ∀ {q : Server} {it : Item}, Lru.Covers (c.items q) it →
      Lru.Covers (c'.items q) it := by
    intro q it hcovers
    exact hcovers.trans fun held hheld => h.grows hr hlimit hcalm hheld
  have hver := h.distinct hr.inView.sound hr.distinct hit
  rcases h.copy hs (h.distinguishes hr hlimit hcalm) hit with ⟨s, args, hput, rfl⟩ | ⟨hold, -⟩
  · have hself : Lru.Covers (c'.items s) ((c.handlers s).putItem args) :=
      Lru.covers_of_mem (h.putItem_mem hs hput) hver
    by_cases hps : p = s
    · rw [hps]
      exact .inl hself
    · refine .inr ⟨s, ?_, hself, ?_, fun e hex hpeer => ?_⟩
      · obtain ⟨b, -, -, htask⟩ := hput
        exact hr.inView.serving s (.put args) htask
      · rcases h.diffs hr.inView s with ⟨-, hno⟩ | ⟨args', hput', heq⟩ | ⟨e, reply, ha, -⟩
        · exact absurd hput (hno args)
        · rw [heq, Handler.mem_noted_noteDiffs, hs.server s, (hput'.unique hput).2]
          exact .inl ⟨hp, hps, rfl⟩
        · obtain ⟨b, hb, hserve, -⟩ := hput
          rw [hb, hserve] at ha
          cases ha
      · rcases (h.turns hex).offer with ⟨old, -, -, -, -, hsince⟩ | ⟨ha, -⟩
        · exact .inl (hsince args hput)
        · obtain ⟨b, hb, hserve, -⟩ := hput
          rw [hb, hserve] at ha
          cases ha
  · rcases hr.covered it hold p hp with hcovers | ⟨s, howes⟩
    · exact .inl (hgrow hcovers)
    · rcases h.diffs hr.inView s with ⟨heq, -⟩ | ⟨args, -, heq⟩ |
        ⟨e, reply, rfl, hex, hphase, hok, heq⟩
      · refine .inr ⟨s, h.owes hr hlimit hcalm howes ?_⟩
        rw [heq]
        exact howes.noted
      · refine .inr ⟨s, h.owes hr hlimit hcalm howes ?_⟩
        rw [heq, Handler.mem_noted_noteDiffs]
        exact .inr howes.noted
      · by_cases hpe : p = e.peer
        · -- the set of `p` is erased, and what it stood for has arrived
          left
          subst hpe
          have hnone := undisturbed_finish hcalm hex hphase hok
          rw [hr.inView.currentView s] at hnone
          rcases howes.pending e hex rfl with hsince | ⟨q, hq, hkey, hle⟩
          · exact absurd hp (hnone _ hsince)
          · obtain ⟨held, hheld, hkey', hle'⟩ := (hr.answered s e reply hex hphase).2 hok q hq
            exact hgrow ⟨held, hheld, hkey'.trans hkey, atMost_trans hle hle'⟩
        · refine .inr ⟨s, h.owes hr hlimit hcalm howes ?_⟩
          rw [heq, Handler.mem_noted_erase]
          exact ⟨hpe, howes.noted⟩

theorem Moves.replicates (h : Moves c a c') (hr : Replicates v c)
    (hlimit : c.withinLimit v a = true) (hcalm : c.undisturbed a = true) : Replicates v c' := by
  constructor
  · exact h.inView hr.inView (Bool.and_eq_true_iff.mp hlimit).1
  · exact h.identified hr.inView.sound (h.distinguishes hr hlimit hcalm) hr.identified
  · intro it hit
    exact h.distinct hr.inView.sound hr.distinct hit
  · intro it hit t n hn
    exact h.counted hr hlimit hcalm hit hn
  · intro it hit p hp
    exact h.covered hr hlimit hcalm hit hp
  · intro s e reply hex hphase
    exact h.answered hr hlimit hcalm hex hphase

end Step

theorem start_replicates (v : GetServersReply) : Replicates v (start v) := by
  have hnone : ∀ it, ¬ (start v).Copy it :=
    not_copy_of_idle (fun s => rfl) (fun s => rfl) (fun s => rfl) rfl
  constructor
  · exact start_inView v
  · intro it it' hit
    exact absurd hit (hnone it)
  · intro it hit
    exact absurd hit (hnone it)
  · intro it hit
    exact absurd hit (hnone it)
  · intro it hit
    exact absurd hit (hnone it)
  · intro s e reply hex
    cases hex

/-- When nothing is noted at the members of a group, each of them covers what the
others hold. -/
theorem Replicates.atMost_of_quiet {v : GetServersReply} {c : Cluster} (hr : Replicates v c)
    {s t : Server} {it it' : Item} (hit : it ∈ c.items s) (hit' : it' ∈ c.items t)
    (hkey : it.key = it'.key) (ht : t ∈ group it.key v.view)
    (hquiet : ∀ u ∈ group it.key v.view, (c.handlers u).diffs.isEmpty = true) :
    atMost it.version it'.version = true := by
  rcases hr.covered it (.inl ⟨s, hit⟩) t ht with ⟨held, hheld, hsame, hle⟩ | ⟨u, howes⟩
  · have hdis := (hr.inView.sound.represents t).distinct
    rw [hdis.eq_of_key hheld hit' (hsame.trans hkey)] at hle
    exact hle
  · have hnone := OrderedMap.isEmpty_iff.mp (hquiet u howes.member) t
    have hnoted := howes.noted
    rw [Handler.noted, hnone] at hnoted
    cases hnoted

/-- In every run under one view in which nothing is evicted and nothing disturbs an
exchange, whenever the members of a group have no key noted, those of them that
hold a key of the group hold the same value for it. -/
theorem quiescent_agreement {v : GetServersReply} {c : Cluster}
    (h : Reach step (fun c a => c.withinLimit v a = true ∧ c.undisturbed a = true) (start v) c)
    {s t : Server} {it it' : Item} (hit : it ∈ c.items s) (hit' : it' ∈ c.items t)
    (hkey : it.key = it'.key) (hs : s ∈ group it.key v.view) (ht : t ∈ group it.key v.view)
    (hquiet : ∀ u ∈ group it.key v.view, (c.handlers u).diffs.isEmpty = true) :
    it.value = it'.value := by
  have hr : Replicates v c := by
    apply h.invariant (start_replicates v)
    intro c a c' hc hg hstep
    exact (step_moves hstep).replicates hc hg.1 hg.2
  have hle : atMost it.version it'.version = true := hr.atMost_of_quiet hit hit' hkey ht hquiet
  have hge : atMost it'.version it.version = true := by
    rw [hkey] at hs hquiet
    exact hr.atMost_of_quiet hit' hit hkey.symm hs hquiet
  exact hr.identified it it' (.inl ⟨s, hit⟩) (.inl ⟨t, hit'⟩) hkey hle hge

/-- The first server puts twice and brings the second one up to date. -/
def twoPutsSent (s t : Server) : List Action :=
  putAt s ⟨[1], [7], 2⟩ ++ putAt s ⟨[1], [8], 2⟩ ++ exchangeWith s t

theorem quiescent_agreement_twoPutsSent :
    ∃ c : Cluster,
      Reach step (fun c a => c.withinLimit (pairView ⟨[1], 1⟩ ⟨[2], 2⟩) a = true ∧
        c.undisturbed a = true) (start (pairView ⟨[1], 1⟩ ⟨[2], 2⟩)) c ∧
      ⟨[1], [8], [(⟨[1], 1⟩, 2)]⟩ ∈ c.items ⟨[1], 1⟩ ∧
      (∀ u ∈ group [1] (pairView ⟨[1], 1⟩ ⟨[2], 2⟩).view,
        (c.handlers u).diffs.isEmpty = true) ∧
      ∀ it ∈ c.items ⟨[2], 2⟩, it.key = [1] → it.value = [8] := by
  have hrun : ((perform step (fun c a => c.withinLimit (pairView ⟨[1], 1⟩ ⟨[2], 2⟩) a = true ∧
      c.undisturbed a = true) (start (pairView ⟨[1], 1⟩ ⟨[2], 2⟩))
        (twoPutsSent ⟨[1], 1⟩ ⟨[2], 2⟩)).map fun c =>
          (decide (⟨[1], [8], [(⟨[1], 1⟩, 2)]⟩ ∈ c.items ⟨[1], 1⟩),
            decide (∀ u ∈ group [1] (pairView ⟨[1], 1⟩ ⟨[2], 2⟩).view,
              (c.handlers u).diffs.isEmpty = true))) = some (true, true) := by
    decide +kernel
  obtain ⟨c, hc, hend⟩ := Option.map_eq_some_iff.mp hrun
  obtain ⟨hfirst, hquiet⟩ := Prod.mk.inj hend
  have hreach := reach_of_perform hc
  have hmem := of_decide_eq_true hfirst
  have hempty := of_decide_eq_true hquiet
  refine ⟨c, hreach, hmem, hempty, fun it hit hkey => ?_⟩
  have hequal := quiescent_agreement hreach hmem hit hkey.symm (by decide) (by decide) hempty
  exact hequal.symm

/-- The second put of the first server falls into the window of its exchange. -/
def putWhileSending (s t : Server) : List Action :=
  putAt s ⟨[1], [7], 2⟩ ++ .on s .snapshot :: putAt s ⟨[1], [8], 2⟩ ++ deliver s t ++
    [.on s .finish]

theorem quiescent_disagreement :
    ∃ c : Cluster,
      Reach step (fun c a => c.withinLimit (pairView ⟨[1], 1⟩ ⟨[2], 2⟩) a = true)
        (start (pairView ⟨[1], 1⟩ ⟨[2], 2⟩)) c ∧
      (∀ u ∈ group [1] (pairView ⟨[1], 1⟩ ⟨[2], 2⟩).view,
        (c.handlers u).diffs.isEmpty = true ∧ (c.exchanges u).isNone = true ∧
          (c.tasks u).isNone = true) ∧ c.stray = [] ∧
      ∃ it ∈ c.items ⟨[1], 1⟩, ∃ it' ∈ c.items ⟨[2], 2⟩, it.key = [1] ∧ it'.key = [1] ∧
        it.value ≠ it'.value := by
  have hrun : ((perform step (fun c a => c.withinLimit (pairView ⟨[1], 1⟩ ⟨[2], 2⟩) a = true)
      (start (pairView ⟨[1], 1⟩ ⟨[2], 2⟩)) (putWhileSending ⟨[1], 1⟩ ⟨[2], 2⟩)).map fun c =>
        (decide (∀ u ∈ group [1] (pairView ⟨[1], 1⟩ ⟨[2], 2⟩).view,
          (c.handlers u).diffs.isEmpty = true ∧ (c.exchanges u).isNone = true ∧
            (c.tasks u).isNone = true),
          c.stray.isEmpty,
          decide (∃ it ∈ c.items ⟨[1], 1⟩, ∃ it' ∈ c.items ⟨[2], 2⟩, it.key = [1] ∧
            it'.key = [1] ∧ it.value ≠ it'.value))) = some (true, true, true) := by
    decide +kernel
  obtain ⟨c, hc, hend⟩ := Option.map_eq_some_iff.mp hrun
  obtain ⟨hquiet, hend⟩ := Prod.mk.inj hend
  obtain ⟨hstray, hdiffer⟩ := Prod.mk.inj hend
  exact ⟨c, reach_of_perform hc, of_decide_eq_true hquiet, List.isEmpty_iff.mp hstray,
    of_decide_eq_true hdiffer⟩

end Cluster

end RobustCache
