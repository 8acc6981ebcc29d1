import RobustCache.Cluster.Copies

/-! # What a version vector identifies

Two copies of one key whose vectors are at most each other should have the same
value. A put is what can break this: it must count past every copy elsewhere. A
merge of concurrent versions and a view change can break it by dropping counters.
-/

namespace RobustCache

open Lib

namespace Cluster

/-- Copies of one key with the same vector have the same value. -/
def Identified (c : Cluster) : Prop :=
  ∀ it it', c.Copy it → c.Copy it' → it.key = it'.key →
    atMost it.version it'.version = true → atMost it'.version it.version = true →
    it.value = it'.value

/-! ## Steps that keep values identified -/

/-- No copy outside `s` counts more writes of `s` than the entry that the put is
going to raise. -/
def Fresh (c : Cluster) (s : Server) (key : Bytes) : Prop :=
  ∀ it, c.Elsewhere s it → it.key = key →
    ∀ n, (s, n) ∈ it.version → n ≤ counter s (Lru.versionOf key (c.handlers s).kept)

/-- A put counts past every copy elsewhere; a merge does not meet concurrent
versions of one value; cleaning drops no counter. -/
def Distinguishes (c : Cluster) : Action → Prop
  | .on s .serve =>
      ∀ args, c.tasks s = some (.serving (.put args)) → c.Fresh s args.key
  | .merge s =>
      ∀ sender query, c.tasks s = some (.merging sender query) →
        ∀ visit ∈ (c.handlers s).visits query.entries, ∀ it ∈ visit.1.kept,
          it.key = visit.2.key → visit.2.value = it.value →
            atMost (ofEntries visit.2.version) it.version = true ∨
              atMost it.version (ofEntries visit.2.version) = true
  | .on s .clean | .on s .pingClean =>
      ∀ it ∈ c.items s, s ∈ group it.key (c.handlers s).currentView.view →
        Handler.trimVersion it.version (group it.key (c.handlers s).currentView.view) = it.version
  | _ => True

/-- A copy after such a step is the item just put, or it was a copy before, and
then not the one that the put has replaced. -/
theorem Moves.copy {c c' : Cluster} {a : Action} (h : Moves c a c') (hs : Sound c)
    (hd : c.Distinguishes a) {it : Item} (hit : c'.Copy it) :
    (∃ s args, Puts c a s args ∧ it = (c.handlers s).putItem args) ∨
      (c.Copy it ∧ ∀ s args, Puts c a s args → it.key = args.key → c.Elsewhere s it) := by
  cases hit with
  | inl hit =>
      obtain ⟨t, hit⟩ := hit
      cases h.source hs hit with
      | old hold hkept =>
          right
          refine ⟨.inl ⟨t, hold⟩, fun s args hput hkey => .inl ⟨t, ?_, hold⟩⟩
          rintro rfl
          exact hkept args hput hkey
      | put hput hit => exact .inl ⟨t, _, hput, hit⟩
      | merged ha htask he hit =>
          have hflight : c.InFlight it := .inr ⟨t, _, _, _, htask, he, hit⟩
          exact .inr ⟨.inr hflight, fun s args hput hkey => .inr hflight⟩
      | blanked ha htask hvisit hold hkey hvalue hnle hnge hit =>
          subst ha
          cases hd _ _ htask _ hvisit _ hold hkey hvalue with
          | inl hle => exact absurd hle hnle
          | inr hge => exact absurd hge hnge
      | @trimmed old ha hold hown hit =>
          have hsame : it = old := by
            cases ha with
            | inl ha => subst ha; rw [hit, hd old hold hown]
            | inr ha => subst ha; rw [hit, hd old hold hown]
          subst hsame
          refine .inr ⟨.inl ⟨t, hold⟩, fun s args hput hkey => ?_⟩
          obtain ⟨b, rfl, hserve, -⟩ := hput
          subst hserve
          simp at ha
  | inr hit =>
      right
      cases h.inFlight hs hit with
      | inl hold => exact ⟨.inr hold, fun s args hput hkey => .inr hold⟩
      | inr hsnap =>
          obtain ⟨t, rfl, hheld⟩ := hsnap
          refine ⟨.inl ⟨t, hheld⟩, fun s args hput hkey => ?_⟩
          obtain ⟨b, hb, hserve, -⟩ := hput
          cases hb
          cases hserve

/-- The vector of a fresh put is not at most that of any copy elsewhere. -/
theorem Fresh.not_atMost {c : Cluster} (hs : Sound c) {s : Server} {args : PutArgs}
    (h : c.Fresh s args.key) {it : Item} (hit : c.Elsewhere s it) (hkey : it.key = args.key) :
    ¬ atMost ((c.handlers s).putItem args).version it.version = true := by
  intro hle
  have hmem := mem_incrementVersion_self s (Lru.versionOf args.key (c.handlers s).kept)
  rw [Handler.putItem, hs.server s] at hle
  obtain ⟨hcounters, hservers⟩ := atMost_iff.mp hle
  obtain ⟨⟨t, n⟩, hn, rfl⟩ := hservers _ hmem
  have hraised := hcounters _ hmem _ hn rfl
  have hbound := h it hit hkey n hn
  simp only at hraised
  omega

theorem Moves.identified {c c' : Cluster} {a : Action} (h : Moves c a c') (hs : Sound c)
    (hd : c.Distinguishes a) (hi : c.Identified) : c'.Identified := by
  intro it it' hit hit' hkey hle hge
  have hfresh : ∀ {s args}, Puts c a s args → c.Fresh s args.key := by
    intro s args hput
    obtain ⟨b, rfl, rfl, htask⟩ := hput
    exact hd args htask
  rcases h.copy hs hd hit with ⟨s, args, hput, rfl⟩ | ⟨hold, helse⟩
  · rcases h.copy hs hd hit' with ⟨s', args', hput', rfl⟩ | ⟨-, helse'⟩
    · obtain ⟨rfl, rfl⟩ := hput.unique hput'
      rfl
    · exact absurd hle
        ((hfresh hput).not_atMost hs (helse' s args hput hkey.symm) hkey.symm)
  · rcases h.copy hs hd hit' with ⟨s', args', hput', rfl⟩ | ⟨hold', -⟩
    · exact absurd hge ((hfresh hput').not_atMost hs (helse s' args' hput' hkey) hkey)
    · exact hi it it' hold hold' hkey hle hge

/-- In every run of such steps, two members that hold one key with vectors at most
each other hold the same value for it. -/
theorem value_eq_of_distinguishes {c : Cluster} (h : Reach step Distinguishes initial c)
    {s t : Server} {it it' : Item} (hit : it ∈ c.items s) (hit' : it' ∈ c.items t)
    (hkey : it.key = it'.key) (hle : atMost it.version it'.version = true)
    (hge : atMost it'.version it.version = true) : it.value = it'.value := by
  have hboth : Sound c ∧ c.Identified := by
    apply h.invariant (P := fun c => Sound c ∧ c.Identified)
    · refine ⟨initial_sound, fun it it' hcopy => absurd hcopy ?_⟩
      exact not_copy_of_idle (fun s => rfl) (fun s => rfl) (fun s => rfl) rfl it
    · intro c a c' hc hd hstep
      have hmoves := step_moves hstep
      exact ⟨hmoves.sound hc.1, hmoves.identified hc.1 hd hc.2⟩
  exact hboth.2 it it' (.inl ⟨s, hit⟩) (.inl ⟨t, hit'⟩) hkey hle hge

/-! ## Runs with one put -/

def distinguishesApart (c : Cluster) : Action → Bool
  | .on s .serve =>
      match c.tasks s with
      | some (.serving (.put _)) => false
      | _ => true
  | .merge s =>
      match c.tasks s with
      | some (.merging _ query) =>
          ((c.handlers s).visits query.entries).all fun visit => visit.1.kept.all fun it =>
            decide (it.key = visit.2.key → visit.2.value = it.value →
              atMost (ofEntries visit.2.version) it.version = true ∨
                atMost it.version (ofEntries visit.2.version) = true)
      | _ => true
  | .on s .clean | .on s .pingClean =>
      (c.items s).all fun it =>
        decide (s ∈ group it.key (c.handlers s).currentView.view →
          Handler.trimVersion it.version (group it.key (c.handlers s).currentView.view) =
            it.version)
  | _ => true

theorem distinguishes_of_apart {c : Cluster} {a : Action} (h : c.distinguishesApart a = true) :
    c.Distinguishes a := by
  cases a with
  | take s | takeStray peer args | fail s => trivial
  | merge s =>
      intro sender query htask visit hvisit it hit
      simp only [distinguishesApart, htask, List.all_eq_true, decide_eq_true_eq] at h
      exact h visit hvisit it hit
  | on s b =>
      cases b with
      | serve =>
          intro args htask
          simp [distinguishesApart, htask] at h
      | clean | pingClean =>
          simp only [distinguishesApart, List.all_eq_true, decide_eq_true_eq] at h
          exact h
      | request call | refresh view | assign | ping view | pingAssign | snapshot | finish =>
          trivial

theorem not_puts_of_apart {c : Cluster} {a : Action} (h : c.distinguishesApart a = true)
    (s : Server) (args : PutArgs) : ¬ Puts c a s args := by
  rintro ⟨b, rfl, rfl, htask⟩
  have htask' : c.tasks s = some (.serving (.put args)) := htask
  simp [distinguishesApart, htask'] at h

theorem no_copy_of_apart {c : Cluster}
    (h : Reach step (fun c a => c.distinguishesApart a = true) initial c) (it : Item) :
    ¬ c.Copy it := by
  have hboth : Sound c ∧ ∀ it, ¬ c.Copy it := by
    apply h.invariant (P := fun c => Sound c ∧ ∀ it, ¬ c.Copy it)
    · exact ⟨initial_sound,
        not_copy_of_idle (fun s => rfl) (fun s => rfl) (fun s => rfl) rfl⟩
    · intro c a c' hc ha hstep
      have hmoves := step_moves hstep
      refine ⟨hmoves.sound hc.1, fun it hit => ?_⟩
      rcases hmoves.copy hc.1 (distinguishes_of_apart ha) hit with ⟨s, args, hput, -⟩ | ⟨hold, -⟩
      · exact not_puts_of_apart ha s args hput
      · exact hc.2 it hold
  exact hboth.2 it

def adoptView (s : Server) (view : GetServersReply) : List Action :=
  [.on s (.ping view), .on s .pingAssign, .on s .pingClean]

/-- Both servers adopt the view, and the first one has accepted a put. -/
def acceptedPut (s t : Server) : List Action :=
  let view : GetServersReply := { view := View.single [s, t], viewNum := 2 }
  adoptView s view ++ adoptView t view ++ [.on s (.request (.put ⟨[1], [7], 2⟩))]

theorem value_eq_of_distinguishes_sent :
    ∃ (c : Cluster) (it it' : Item), Reach step Distinguishes initial c ∧
      it ∈ c.items ⟨[1], 1⟩ ∧ it' ∈ c.items ⟨[2], 2⟩ ∧ it.key = it'.key ∧
      it.version = [(⟨[1], 1⟩, 1)] ∧ it'.version = [(⟨[1], 1⟩, 1)] ∧ it.value = it'.value := by
  have hrun : ((perform step (fun c a => c.distinguishesApart a = true) initial
      (acceptedPut ⟨[1], 1⟩ ⟨[2], 2⟩)).bind fun c₀ =>
        (c₀.step (.on ⟨[1], 1⟩ .serve)).bind fun c₁ =>
          (perform step (fun c a => c.distinguishesApart a = true) c₁
            (exchangeWith ⟨[1], 1⟩ ⟨[2], 2⟩)).map fun c =>
              (c.items ⟨[1], 1⟩, c.items ⟨[2], 2⟩)) =
      some ([⟨[1], [7], [(⟨[1], 1⟩, 1)]⟩], [⟨[1], [7], [(⟨[1], 1⟩, 1)]⟩]) := by
    decide +kernel
  obtain ⟨c₀, hc₀, hrest⟩ := Option.bind_eq_some_iff.mp hrun
  obtain ⟨c₁, hput, hrest⟩ := Option.bind_eq_some_iff.mp hrest
  obtain ⟨c, hc, hend⟩ := Option.map_eq_some_iff.mp hrest
  obtain ⟨hfirst, hsecond⟩ := Prod.mk.inj hend
  have hbefore := reach_of_perform hc₀
  -- nothing has been put elsewhere, so the put counts past every copy
  have hserve : c₀.Distinguishes (.on ⟨[1], 1⟩ .serve) := fun args htask it helse =>
    absurd helse.copy (no_copy_of_apart hbefore it)
  have hweaken : ∀ {c c' : Cluster},
      Reach step (fun c a => c.distinguishesApart a = true) c c' → Reach step Distinguishes c c' :=
    fun h => h.weaken fun _ _ => distinguishes_of_apart
  have hreach : Reach step Distinguishes initial c :=
    (Reach.tail (hweaken hbefore) hserve hput).trans (hweaken (reach_of_perform hc))
  have hit : (⟨[1], [7], [(⟨[1], 1⟩, 1)]⟩ : Item) ∈ c.items ⟨[1], 1⟩ := by
    rw [hfirst]
    exact List.mem_singleton.mpr rfl
  have hit' : (⟨[1], [7], [(⟨[1], 1⟩, 1)]⟩ : Item) ∈ c.items ⟨[2], 2⟩ := by
    rw [hsecond]
    exact List.mem_singleton.mpr rfl
  exact ⟨c, _, _, hreach, hit, hit', rfl, rfl, rfl,
    value_eq_of_distinguishes hreach hit hit' rfl (by decide) (by decide)⟩

/-! ## A vector that starts again -/

/-- The third server keeps the first put. The second put of the first server is
invalidated by a concurrent one, and the third put counts from one again. -/
def restartedPut (s t u : Server) : List Action :=
  let view : GetServersReply := { view := View.single [s, t, u], viewNum := 3 }
  adoptView s view ++ adoptView t view ++ adoptView u view ++
    putAt s ⟨[1], [7], 3⟩ ++ exchangeWith s t ++ exchangeWith s u ++
    putAt s ⟨[1], [8], 3⟩ ++ putAt t ⟨[1], [9], 3⟩ ++ exchangeWith s t ++
    putAt s ⟨[1], [5], 3⟩

theorem restartedPut_confuses :
    ∃ c : Cluster, Reach step anyAction initial c ∧
      ∃ it ∈ c.items ⟨[1], 1⟩, ∃ it' ∈ c.items ⟨[3], 3⟩, it.key = it'.key ∧
        atMost it.version it'.version = true ∧ atMost it'.version it.version = true ∧
        it.value ≠ it'.value := by
  have hrun : ((perform step anyAction initial (restartedPut ⟨[1], 1⟩ ⟨[2], 2⟩ ⟨[3], 3⟩)).map
      fun c => (c.items ⟨[1], 1⟩, c.items ⟨[3], 3⟩)) =
        some ([⟨[1], [5], [(⟨[1], 1⟩, 1)]⟩], [⟨[1], [7], [(⟨[1], 1⟩, 1)]⟩]) := by
    decide +kernel
  obtain ⟨c, hc, hend⟩ := Option.map_eq_some_iff.mp hrun
  obtain ⟨hfirst, hthird⟩ := Prod.mk.inj hend
  refine ⟨c, reach_of_perform hc, ?_⟩
  rw [hfirst, hthird]
  decide

end Cluster

end RobustCache
