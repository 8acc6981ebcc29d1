import RobustCache.Cluster.Identity
import RobustCache.Server.Merge

/-! # Version vectors in a run

Every copy of an entry has a vector that lists no server twice. A put raises one
counter or adds one for its server, a merge takes over a vector that was sent or
leaves the empty one, and a view change drops counters. On such vectors the
comparison of the server is an order.
-/

namespace RobustCache

open Lib

theorem Handler.trimVersion_distinct {v : Version} (h : v.Distinct) (servers : List Server) :
    (trimVersion v servers).Distinct :=
  List.Nodup.sublist (List.filter_sublist.map Prod.fst) h

theorem Handler.atMost_trimVersion {v w : Version} (h : atMost v w = true)
    (servers : List Server) : atMost (trimVersion v servers) (trimVersion w servers) = true :=
  atMost_filter (fun s => decide (s ∈ servers)) h

theorem Lru.versionOf_distinct {items : List Item} (hdis : Recency.Distinct Item.key items)
    (h : ∀ it ∈ items, it.version.Distinct) (key : Bytes) : (versionOf key items).Distinct := by
  rcases versionOf_cases hdis key with hnil | ⟨it, hit, -, hversion⟩
  · rw [hnil]
    exact List.nodup_nil
  · rw [hversion]
    exact h it hit

def AntiEntropyArgs.Distinct (args : AntiEntropyArgs) : Prop :=
  ∀ e ∈ args.entries, (ofEntries e.version).Distinct

namespace Cluster

variable {c c' : Cluster} {a : Action}

/-! ## Steps -/

theorem Moves.distinct (h : Moves c a c') (hs : Sound c)
    (hc : ∀ it, c.Copy it → it.version.Distinct) {it : Item} (hit : c'.Copy it) :
    it.version.Distinct := by
  have hheld : ∀ s, ∀ it ∈ c.items s, it.version.Distinct := fun s it hit =>
    hc it (.inl ⟨s, hit⟩)
  cases hit with
  | inl hit =>
      obtain ⟨t, hit⟩ := hit
      cases h.source hs hit with
      | old hold hkept => exact hheld t it hold
      | put hput hit =>
          rw [hit]
          apply incrementVersion_distinct
          have hkept : (c.handlers t).kept.Sublist (c.items t) := by
            unfold items
            rw [(hs.represents t).kept_eq]
            exact (Recency.shrink_prefix _).sublist
          apply Lru.versionOf_distinct ((hs.represents t).distinct.sublist hkept)
          intro held hmem
          exact hheld t held (hkept.subset hmem)
      | @merged sender query e ha htask he hit =>
          exact hc it (.inr (.inr ⟨t, sender, query, e, htask, he, hit⟩))
      | blanked ha htask hvisit hold hkey hvalue hnle hnge hit =>
          rw [hit]
          exact List.nodup_nil
      | @trimmed old ha hold hown hit =>
          rw [hit]
          exact Handler.trimVersion_distinct (hheld t old hold) _
  | inr hit =>
      cases h.inFlight hs hit with
      | inl hold => exact hc it (.inr hold)
      | inr hnew =>
          obtain ⟨s, -, hit⟩ := hnew
          exact hheld s it hit

theorem Moves.offers_distinct (h : Moves c a c') (hs : Sound c)
    (hc : ∀ it, c.Copy it → it.version.Distinct)
    (hsent : ∀ s e, c.exchanges s = some e → e.args.Distinct) {s : Server} {e : Exchange}
    (hex : c'.exchanges s = some e) : e.args.Distinct := by
  rcases (h.turns hex).offer with ⟨old, hold, -, hargs, -⟩ | ⟨-, hsnap⟩
  · rw [hargs]
    exact hsent s old hold
  · intro q hq
    obtain ⟨it, hit, -, rfl⟩ := (mem_snapshot hs hsnap).mp hq
    have hver : it.entry.item.version.Distinct := by
      rw [Item.item_entry]
      exact hc it (.inl ⟨s, hit⟩)
    exact hver

/-! ## Runs -/

/-- No vector that is stored, sent or about to be merged lists a server twice. -/
structure Versioned (c : Cluster) : Prop where
  stored : ∀ s it, (c.handlers s).HoldsItem it → it.version.Distinct
  sent : ∀ s e, c.exchanges s = some e → e.args.Distinct
  stray : ∀ peer args, (peer, args) ∈ c.stray → args.Distinct
  merging : ∀ s sender query, c.tasks s = some (.merging sender query) → query.Distinct

theorem versioned_of_copies (hs : Sound c) (hc : ∀ it, c.Copy it → it.version.Distinct)
    (hsent : ∀ s e, c.exchanges s = some e → e.args.Distinct) : c.Versioned := by
  constructor
  · intro s it hit
    exact hc it (.inl ⟨s, (hs.represents s).mem_iff.mpr hit⟩)
  · exact hsent
  · intro peer args hm e he
    exact hc e.item (.inr (.inl ⟨peer, args, e, .inr hm, he, rfl⟩))
  · intro s sender query htask e he
    exact hc e.item (.inr (.inr ⟨s, sender, query, e, htask, he, rfl⟩))

theorem reach_versioned (h : Reach step anyAction initial c) : c.Versioned := by
  have hinv : Sound c ∧ (∀ it, c.Copy it → it.version.Distinct) ∧
      ∀ s e, c.exchanges s = some e → e.args.Distinct := by
    apply h.invariant (P := fun c => Sound c ∧ (∀ it, c.Copy it → it.version.Distinct) ∧
      ∀ s e, c.exchanges s = some e → e.args.Distinct)
    · refine ⟨initial_sound, fun it hit => ?_, fun s e hex => by cases hex⟩
      exact absurd hit (not_copy_of_idle (fun s => rfl) (fun s => rfl) (fun s => rfl) rfl it)
    · rintro c a c' ⟨hs, hc, hsent⟩ - hstep
      have hmoves := step_moves hstep
      exact ⟨hmoves.sound hs, fun it => hmoves.distinct hs hc,
        fun s e => hmoves.offers_distinct hs hc hsent⟩
  exact versioned_of_copies hinv.1 hinv.2.1 hinv.2.2

/-- In every run no vector lists a server twice. On vectors that do not, `atMost` is
the pointwise order, up to reordering, and `adjustVersion` is monotone. -/
theorem versions_ordered {c : Cluster} (h : Reach step anyAction initial c) :
    c.Versioned ∧
      (∀ v w : Version, v.Distinct → w.Distinct →
        (atMost v w = true ↔ ∀ a ∈ v, ∃ b ∈ w, b.1 = a.1 ∧ a.2 ≤ b.2)) ∧
      (∀ v : Version, v.Distinct → atMost v v = true) ∧
      (∀ u v w : Version, atMost u v = true → atMost v w = true → atMost u w = true) ∧
      (∀ v w : Version, v.Distinct → w.Distinct → atMost v w = true → atMost w v = true →
        v.Perm w) ∧
      ∀ (v w : Version) (servers : List Server), atMost v w = true →
        atMost (Handler.trimVersion v servers) (Handler.trimVersion w servers) = true := by
  refine ⟨reach_versioned h, ?_, ?_, ?_, ?_, ?_⟩
  · intro v w _ hw
    exact atMost_iff_of_distinct hw
  · intro v hv
    exact atMost_refl hv
  · intro u v w huv hvw
    exact atMost_trans huv hvw
  · intro v w hv hw hle hge
    exact perm_of_atMost hv hw hle hge
  · intro v w servers hle
    exact Handler.atMost_trimVersion hle servers

/-- The second server writes over what the first one has sent to it, and sends it
on. -/
def writtenOver (s t : Server) : List Action :=
  let view : GetServersReply := { view := View.single [s, t], viewNum := 2 }
  adoptView s view ++ adoptView t view ++ putAt s ⟨[1], [7], 2⟩ ++ exchangeWith s t ++
    putAt t ⟨[1], [8], 2⟩ ++ [.on t .snapshot]

theorem versions_ordered_writtenOver :
    ∃ c : Cluster, Reach step anyAction initial c ∧
      ⟨[1], [8], [(⟨[1], 1⟩, 1), (⟨[2], 2⟩, 1)]⟩ ∈ c.items ⟨[2], 2⟩ ∧
      (c.exchanges ⟨[2], 2⟩).isSome = true ∧ c.Versioned ∧
      atMost [(⟨[2], 2⟩, 1)] (Handler.trimVersion [(⟨[1], 1⟩, 1), (⟨[2], 2⟩, 1)] [⟨[2], 2⟩]) =
        true := by
  have hrun : ((perform step anyAction initial (writtenOver ⟨[1], 1⟩ ⟨[2], 2⟩)).map fun c =>
      (c.items ⟨[2], 2⟩, (c.exchanges ⟨[2], 2⟩).isSome)) =
        some ([⟨[1], [8], [(⟨[1], 1⟩, 1), (⟨[2], 2⟩, 1)]⟩], true) := by
    decide +kernel
  obtain ⟨c, hc, hend⟩ := Option.map_eq_some_iff.mp hrun
  obtain ⟨hitems, hsent⟩ := Prod.mk.inj hend
  obtain ⟨hversioned, -, -, -, -, htrim⟩ := versions_ordered (reach_of_perform hc)
  refine ⟨c, reach_of_perform hc, ?_, hsent, hversioned, ?_⟩
  · rw [hitems]
    exact List.mem_singleton.mpr rfl
  · exact htrim [(⟨[2], 2⟩, 1)] [(⟨[1], 1⟩, 1), (⟨[2], 2⟩, 1)] [⟨[2], 2⟩] (by decide)

end Cluster

end RobustCache
