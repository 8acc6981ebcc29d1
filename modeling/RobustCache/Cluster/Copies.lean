import RobustCache.Cluster.Exchanges
import RobustCache.Server.Entries

/-! # Copies of an entry

An entry lives on in several places: in the stores that hold it, in messages on
their way and in queries that wait to be merged. All of these are its copies.
Every copy after a step comes from one before it, or from a put.
-/

namespace RobustCache

open Lib

def Handler.putItem (h : Handler) (args : PutArgs) : Item :=
  ⟨args.key, args.value, incrementVersion h.server (Lru.versionOf args.key h.kept)⟩

namespace Cluster

/-! ## Copies -/

/-- Some server has sent the item, and its receiver has not merged it. -/
def InFlight (c : Cluster) (it : Item) : Prop :=
  (∃ peer args e, c.Message peer args ∧ e ∈ args.entries ∧ e.item = it) ∨
    ∃ t sender query e, c.tasks t = some (.merging sender query) ∧ e ∈ query.entries ∧ e.item = it

def Copy (c : Cluster) (it : Item) : Prop := (∃ s, it ∈ c.items s) ∨ c.InFlight it

def Elsewhere (c : Cluster) (s : Server) (it : Item) : Prop :=
  (∃ t, t ≠ s ∧ it ∈ c.items t) ∨ c.InFlight it

theorem Elsewhere.copy {c : Cluster} {s : Server} {it : Item} (h : c.Elsewhere s it) :
    c.Copy it := by
  cases h with
  | inl h =>
      obtain ⟨t, -, hit⟩ := h
      exact .inl ⟨t, hit⟩
  | inr h => exact .inr h

theorem not_copy_of_idle {c : Cluster} (hitems : ∀ s, c.items s = [])
    (htasks : ∀ s, c.tasks s = none) (hexchanges : ∀ s, c.exchanges s = none)
    (hstray : c.stray = []) (it : Item) : ¬ c.Copy it := by
  intro h
  rcases h with ⟨s, hit⟩ | ⟨peer, args, e, hm, -⟩ | ⟨t, sender, query, e, htask, -⟩
  · rw [hitems s] at hit
    cases hit
  · rcases hm with ⟨s, e', hex, -⟩ | hm
    · rw [hexchanges s] at hex
      cases hex
    · rw [hstray] at hm
      cases hm
  · rw [htasks t] at htask
    cases htask

theorem mem_snapshot {c : Cluster} (hs : Sound c) {s peer : Server} {args : AntiEntropyArgs}
    (hsnap : (c.handlers s).snapshot = .ok (some (peer, args))) {q : Entry} :
    q ∈ args.entries ↔
      ∃ it ∈ c.items s, it.key ∈ Handler.noted (c.handlers s).diffs peer ∧ q = it.entry := by
  rw [Handler.snapshot_spec (hs.represents s)] at hsnap
  obtain ⟨⟨p, keys⟩, hnext, hsent⟩ := Option.map_eq_some_iff.mp (Except.ok.inj hsnap)
  cases hsent
  rw [Handler.noted_nextPeer hnext]
  exact Lru.mem_entriesFor (hs.represents s).distinct

/-! ## Where the copies come from -/

/-- Where an item comes from that `t` holds after a step. -/
inductive Source (c : Cluster) (a : Action) (t : Server) (it : Item) : Prop
  | old (hold : it ∈ c.items t) (hkept : ∀ args, Puts c a t args → it.key ≠ args.key)
  | put {args : PutArgs} (hput : Puts c a t args) (hit : it = (c.handlers t).putItem args)
  | merged {sender : Option Server} {query : AntiEntropyArgs} {e : Entry} (ha : a = .merge t)
      (htask : c.tasks t = some (.merging sender query)) (he : e ∈ query.entries)
      (hit : e.item = it)
  /-- Two concurrent versions of one value have been merged. -/
  | blanked {sender : Option Server} {query : AntiEntropyArgs} {st : Store} {e : Entry}
      {old : Item} (ha : a = .merge t) (htask : c.tasks t = some (.merging sender query))
      (hvisit : (st, e) ∈ (c.handlers t).visits query.entries) (hold : old ∈ st.kept)
      (hkey : old.key = e.key) (hvalue : e.value = old.value)
      (hnle : ¬ atMost (ofEntries e.version) old.version = true)
      (hnge : ¬ atMost old.version (ofEntries e.version) = true)
      (hit : it = { old with version := [] })
  /-- `adjustVersion` has gone over the item. -/
  | trimmed {old : Item} (ha : a = .on t .clean ∨ a = .on t .pingClean) (hold : old ∈ c.items t)
      (hown : t ∈ group old.key (c.handlers t).currentView.view)
      (hit : it = { old with
        version := Handler.trimVersion old.version
          (group old.key (c.handlers t).currentView.view) })

theorem source_of_same {c c' : Cluster} {a : Action} (hsame : SameServers c c') {t : Server}
    (ha : ∀ b, a ≠ .on t b) {it : Item} (hit : it ∈ c'.items t) : Source c a t it := by
  unfold items at hit
  rw [hsame.1] at hit
  exact .old hit fun args hput => absurd hput (not_puts ha args)

theorem source_of_effect {c : Cluster} (hs : Sound c) {t : Server} {b : Local} {h : Handler}
    {items' : List Item} (heff : (c.nodes t).Effect (c.items t) b h items') {it : Item}
    (hit : it ∈ items') : Source c (.on t b) t it := by
  have hserver : (c.nodes t).handler.server = t := hs.server t
  have hdis := (hs.represents t).distinct
  -- every other item was there before
  have hold : ∀ {it : Item}, (∀ args, ¬ (c.nodes t).Puts b args) → it ∈ c.items t →
      Source c (.on t b) t it := by
    intro it hno hit
    apply Source.old hit
    intro args hput
    obtain ⟨b', hb', hputs⟩ := hput
    cases hb'
    exact absurd hputs (hno args)
  cases heff with
  | still hno => exact hold hno hit
  | assigned htask => exact hold (fun args hputs => by cases hputs.1) hit
  | pingAssigned hping => exact hold (fun args hputs => by cases hputs.1) hit
  | cleaned ha =>
      rw [hserver] at hit
      obtain ⟨old, hmem, hcase⟩ := Lru.mem_clean hit
      cases hcase with
      | inl he =>
          subst he
          apply hold _ hmem
          intro args hputs
          rw [hputs.1] at ha
          simp at ha
      | inr htrim =>
          apply Source.trimmed _ hmem htrim.1 htrim.2
          cases ha with
          | inl hb => exact .inl (by rw [hb])
          | inr hb => exact .inr (by rw [hb])
  | @put args st htask =>
      have hput : Puts c (.on t .serve) t args := ⟨.serve, rfl, rfl, htask⟩
      have hkept : (c.handlers t).kept = Recency.shrink FitsCounter (c.items t) :=
        (hs.represents t).kept_eq
      cases Lru.mem_put.mp hit with
      | inl hnew =>
          rw [← hkept] at hnew
          exact .put hput hnew
      | inr hrest =>
          apply Source.old ((Recency.shrink_prefix _).subset hrest.1)
          intro args' hput'
          rw [← (hput.unique hput').2]
          exact hrest.2
  | get htask =>
      apply hold _ ((Lru.mem_get hdis).mp hit)
      intro args hputs
      cases htask.symm.trans hputs.2
  | replied hex hphase hok =>
      exact hold (fun args hputs => by cases hputs.1) (Lru.mem_invalidateAll.mp hit).1

theorem source_of_merge {c : Cluster} (hs : Sound c) {t : Server} {sender : Option Server}
    {query : AntiEntropyArgs} (htask : c.tasks t = some (.merging sender query)) {it : Item}
    (hit : it ∈ (Lru.propagateAll FitsCounter query.entries (c.items t)).1) :
    Source c (.merge t) t it := by
  revert it
  apply (hs.represents t).propagateAll_rule
    (P := fun items => ∀ {it : Item}, it ∈ items → Source c (.merge t) t it)
  · intro it hit
    exact .old hit fun args hput => absurd hput (not_puts (fun b hb => by cases hb) args)
  · intro st items' e hvisit hr ih it hit
    have hsub : st.kept.Sublist items' := by
      rw [hr.kept_eq]
      exact (Recency.shrink_prefix _).sublist
    rcases Lru.mem_merge (hr.distinct.sublist hsub) hit with hold | rfl |
      ⟨old, hold, hkey, hvalue, hnle, hnge, rfl⟩
    · exact ih (hsub.subset hold)
    · exact .merged rfl htask (Store.mem_of_visits hvisit) rfl
    · exact .blanked rfl htask hvisit hold hkey hvalue hnle hnge rfl

theorem Moves.source {c c' : Cluster} {a : Action} (h : Moves c a c') (hs : Sound c) {t : Server}
    {it : Item} (hit : it ∈ c'.items t) : Source c a t it := by
  have hother : ∀ {s : Server} {h' : Handler}, c'.handlers = Function.update c.handlers s h' →
      t ≠ s → (∀ b, a ≠ .on t b) → Source c a t it := by
    intro s h' hhandlers hts ha
    unfold items at hit
    rw [hhandlers, Function.update_of_ne hts] at hit
    exact .old hit fun args hput => absurd hput (not_puts ha args)
  cases h with
  | @on s b n hdoes =>
      by_cases hts : t = s
      · subst hts
        obtain ⟨heff, -⟩ := hdoes.effect_items (hs.represents t)
        unfold items at hit
        rw [handlers_set, Function.update_self] at hit
        exact source_of_effect hs heff hit
      · exact hother (handlers_set _ _ _) hts fun b' hb' => hts (Action.on.inj hb').1.symm
  | taken hex hphase hidle hnum hsame => exact source_of_same hsame (fun b hb => by cases hb) hit
  | refused hex hphase hsame => exact source_of_same hsame (fun b hb => by cases hb) hit
  | strayTaken hmem hidle hnum hsame => exact source_of_same hsame (fun b hb => by cases hb) hit
  | strayRefused hsame => exact source_of_same hsame (fun b hb => by cases hb) hit
  | @merged s sender query h' reply c' htask hmerge hhandlers =>
      by_cases hts : t = s
      · subst hts
        obtain ⟨-, hitems, -, -⟩ := merge_items (hs.represents t) hmerge
        unfold items at hit
        rw [hhandlers, Function.update_self, hitems] at hit
        exact source_of_merge hs htask hit
      · exact hother hhandlers hts fun b hb => by cases hb
  | mergeThrew htask hsame => exact source_of_same hsame (fun b hb => by cases hb) hit
  | failed hex hsame => exact source_of_same hsame (fun b hb => by cases hb) hit

theorem Moves.putItem_mem {c c' : Cluster} {a : Action} (h : Moves c a c') (hs : Sound c)
    {s : Server} {args : PutArgs} (hput : Puts c a s args) :
    (c.handlers s).putItem args ∈ c'.items s := by
  obtain ⟨b, rfl, hputs⟩ := hput
  cases h with
  | on hdoes =>
      obtain ⟨heff, -⟩ := hdoes.effect_items (hs.represents s)
      have hkept : (c.handlers s).kept = Recency.shrink FitsCounter (c.items s) :=
        (hs.represents s).kept_eq
      unfold items
      rw [handlers_set, Function.update_self, heff.items_of_puts hputs, Lru.mem_put,
        Handler.putItem, hkept]
      exact .inl rfl

/-- What is in flight was so before, or has just been taken from a store. -/
theorem Moves.inFlight {c c' : Cluster} {a : Action} (h : Moves c a c') (hs : Sound c)
    {it : Item} (hit : c'.InFlight it) :
    c.InFlight it ∨ ∃ s, a = .on s .snapshot ∧ it ∈ c.items s := by
  cases hit with
  | inl hit =>
      obtain ⟨peer, args, e, hm, he, rfl⟩ := hit
      cases h.message hm with
      | inl hold => exact .inl (.inl ⟨peer, args, e, hold, he, rfl⟩)
      | inr hnew =>
          obtain ⟨s, rfl, hsnap⟩ := hnew
          obtain ⟨held, hheld, -, rfl⟩ := (mem_snapshot hs hsnap).mp he
          rw [Item.item_entry]
          exact .inr ⟨s, rfl, hheld⟩
  | inr hit =>
      obtain ⟨t, sender, query, e, htask, he, rfl⟩ := hit
      left
      cases h.merging hs htask with
      | inl hold => exact .inr ⟨t, sender, query, e, hold, he, rfl⟩
      | inr hnew => exact .inl ⟨t, query, e, hnew.1, he, rfl⟩

/-! ## Whole calls -/

def putAt (s : Server) (args : PutArgs) : List Action :=
  [.on s (.request (.put args)), .on s .serve]

/-- The message of an exchange of `s` reaches the peer `t`, which merges it. -/
def deliver (s t : Server) : List Action := [.take s, .merge t]

def exchangeWith (s t : Server) : List Action :=
  .on s .snapshot :: deliver s t ++ [.on s .finish]

end Cluster

end RobustCache
