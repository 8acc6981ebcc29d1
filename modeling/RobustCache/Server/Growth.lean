import RobustCache.Lib.Amortized
import RobustCache.Server.Arrivals

/-! # What the table costs

`rehash` allocates a whole new table, and `put` and `propagate` may rehash twice
before they touch their own entry. Over a run this comes to a constant number of
slots for each entry that is put or merged, and the table never has more slots
than eight for each key that has ever been stored.
-/

namespace RobustCache

open Lib

namespace Store

/-! ## The slots that `normalizeTable` allocates -/

/-- The slots of the new table that `growIfLoaded` makes. -/
def growthCost (st : Store) : Nat :=
  if 4 * st.numEntries > st.hashTable.size then 2 * st.hashTable.size else 0

/-- The slots of the new table that `rehashIfFull` makes. -/
def fullCost (st : Store) : Nat :=
  if 2 * (st.numEntries + st.numDeadEntries) > st.hashTable.size then st.hashTable.size else 0

def normalizeCost (st : Store) : Nat :=
  match evictLoop (st.hashTable.size + 1) st with
  | .error _ => 0
  | .ok st =>
      st.growthCost + match st.growIfLoaded with
        | .error _ => 0
        | .ok st => st.fullCost

/-! ## Slots, entries and tombstones -/

variable {st st' st'' : Store} {pos : Int}

/-- The table keeps its slots, and no more than its entries turn into tombstones. -/
structure Settles (st st' : Store) : Prop where
  size : st'.hashTable.size = st.hashTable.size
  entries : st'.numEntries ≤ st.numEntries
  used : st'.numEntries + st'.numDeadEntries = st.numEntries + st.numDeadEntries

/-- One more slot is in use. -/
structure Adds (st st' : Store) : Prop where
  size : st'.hashTable.size = st.hashTable.size
  entries : st'.numEntries = st.numEntries + 1
  dead : st'.numDeadEntries = st.numDeadEntries

theorem Settles.refl (st : Store) : Settles st st := ⟨rfl, le_refl _, rfl⟩

theorem Settles.trans (h : Settles st st') (h' : Settles st' st'') : Settles st st'' :=
  ⟨h'.size.trans h.size, h'.entries.trans h.entries, h'.used.trans h.used⟩

theorem Relinked.settles (h : Relinked st st') : Settles st st' :=
  ⟨h.same.size, h.entries.le, by rw [h.entries, h.dead]⟩

theorem modify_settles (st : Store) (i : Int) (f : Record → Record) : Settles st (st.modify i f) :=
  ⟨size_setRecord _ _ _, le_refl _, rfl⟩

theorem setValue_settles (st : Store) (pos : Int) (value : Bytes) :
    Settles st (st.setValue pos value) :=
  ⟨size_setRecord _ _ _, le_refl _, rfl⟩

theorem setVersion_settles (st : Store) (pos : Int) (version : Version) :
    Settles st (st.setVersion pos version) :=
  modify_settles st pos _

theorem tally_settles (st : Store) (f : GetStatisticsReply → GetStatisticsReply) :
    Settles st (st.tally f) :=
  ⟨rfl, le_refl _, rfl⟩

theorem removeFromList_relinked (h : st.removeFromList pos = .ok st') : Relinked st st' := by
  obtain ⟨_, -, h⟩ := of_bind_eq_ok h
  cases h
  exact (linkNext_relinked st _ _).trans (linkPrev_relinked _ _ _)

theorem addToFront_relinked (h : st.addToFront pos = .ok st') : Relinked st st' := by
  -- the branches differ in the links and the list ends that they write
  have hite : ∀ {p : Prop} [Decidable p] {a b : Store}, Relinked st a → Relinked st b →
      Relinked st (if p then a else b) := by
    intro p _ a b ha hb
    split
    · exact ha
    · exact hb
  obtain ⟨_, -, h⟩ := of_bind_eq_ok h
  cases h
  have hfront : Relinked st (st.modify pos fun r => { r with prev := -1, next := st.listHead }) :=
    relinked_modify rfl
  have hlinked := hite (p := st.listHead ≠ -1)
    (hfront.trans (relinked_modify (i := st.listHead) (f := fun r => { r with prev := pos }) rfl))
    hfront
  exact hite ⟨hlinked.same, hlinked.statistics, hlinked.total, hlinked.entries, hlinked.dead⟩
    ⟨hlinked.same, hlinked.statistics, hlinked.total, hlinked.entries, hlinked.dead⟩

theorem accessEntry_settles (h : st.accessEntry pos = .ok st') : Settles st st' := by
  obtain ⟨_, -, h⟩ := of_bind_eq_ok h
  obtain ⟨st₁, h₁, h₂⟩ := of_bind_eq_ok h
  exact ((removeFromList_relinked h₁).trans (addToFront_relinked h₂)).settles

theorem addEntry_adds {key value : Bytes} {version : Version}
    (h : st.addEntry pos key value version = .ok st') : Adds st st' := by
  obtain ⟨_, -, h⟩ := of_bind_eq_ok h
  obtain ⟨st₁, h₁, h⟩ := of_bind_eq_ok h
  cases h
  have hrel := addToFront_relinked h₁
  exact ⟨hrel.same.size.trans (size_setRecord _ _ _), congrArg (· + 1) hrel.entries, hrel.dead⟩

theorem removeEntry_settles (h : st.removeEntry pos = .ok st') : Settles st st' := by
  obtain ⟨st₁, h₁, h⟩ := of_bind_eq_ok h
  cases h
  have hrel := removeFromList_relinked h₁
  have hentries := hrel.entries
  have hdead := hrel.dead
  refine ⟨(size_setRecord _ _ _).trans hrel.same.size, ?_, ?_⟩
  · show st₁.numEntries - 1 ≤ st.numEntries
    omega
  · show st₁.numEntries - 1 + (st₁.numDeadEntries + 1) = _
    omega

theorem evictLoop_settles {fuel : Nat} (h : evictLoop fuel st = .ok st') : Settles st st' := by
  induction fuel generalizing st with
  | zero => cases h
  | succ fuel ih =>
      rw [evictLoop] at h
      split at h
      · obtain ⟨st₁, h₁, h⟩ := of_bind_eq_ok h
        obtain ⟨_, -, h₁⟩ := of_bind_eq_ok h₁
        obtain ⟨st₂, h₂, h₁⟩ := of_bind_eq_ok h₁
        cases h₁
        have hone := removeEntry_settles h₂
        refine Settles.trans ?_ (ih h)
        exact ⟨hone.size, hone.entries, hone.used⟩
      · cases h
        exact .refl _

theorem size_of_cases (h : Settles st st' ∨ Adds st st') :
    st'.hashTable.size = st.hashTable.size := by
  cases h with
  | inl hsettles => exact hsettles.size
  | inr hadds => exact hadds.size

theorem invalidateAll_settles {keys : List Bytes} (h : st.invalidateAll keys = .ok st') :
    Settles st st' := by
  induction keys generalizing st with
  | nil =>
      cases h
      exact .refl _
  | cons key rest ih =>
      obtain ⟨st₁, h₁, h⟩ := of_bind_eq_ok h
      refine Settles.trans ?_ (ih h)
      obtain ⟨pos, -, h₁⟩ := of_bind_eq_ok h₁
      split at h₁
      · exact removeEntry_settles h₁
      · cases h₁
        exact .refl _

theorem propagate_cases {entry : Entry} {invalidated : List Bytes} {r : Store × List Bytes}
    (h : st.propagate entry invalidated = .ok r) :
    ∃ st₁, st.normalizeTable = .ok st₁ ∧ (Settles st₁ r.1 ∨ Adds st₁ r.1) := by
  obtain ⟨st₁, h₁, h⟩ := of_bind_eq_ok h
  obtain ⟨pos, -, h⟩ := of_bind_eq_ok h
  refine ⟨st₁, h₁, ?_⟩
  split at h
  · left
    dsimp only at h
    split at h
    · cases h
      exact .refl st₁
    · split at h
      · obtain ⟨st₂, h₂, h⟩ := of_bind_eq_ok h
        cases h
        exact ((setValue_settles _ _ _).trans (accessEntry_settles h₂)).trans
          (setVersion_settles st₂ pos _)
      · split at h
        · cases h
          exact setVersion_settles st₁ pos _
        · obtain ⟨st₂, h₂, h⟩ := of_bind_eq_ok h
          cases h
          exact removeEntry_settles h₂
  · obtain ⟨st₂, h₂, h⟩ := of_bind_eq_ok h
    cases h
    exact .inr (addEntry_adds h₂)

/-! ## The potential -/

/-- Four for every slot in use, and two for every slot that the table would lack
if an eighth of it were alive. The first part pays for the tombstones, the second
for the next doubling. -/
def credit (st : Store) : Int :=
  4 * (st.numEntries + st.numDeadEntries) + 2 * max 0 (8 * st.numEntries - st.hashTable.size)

theorem Settles.credit (h : Settles st st') : st'.credit ≤ st.credit := by
  obtain ⟨hsize, hentries, hused⟩ := h
  unfold Store.credit
  rw [hsize]
  omega

theorem Adds.credit (h : Adds st st') : st'.credit ≤ st.credit + 20 := by
  obtain ⟨hsize, hentries, hdead⟩ := h
  unfold Store.credit
  rw [hsize, hentries, hdead]
  omega

end Store

namespace Represents

variable {st st' : Store} {items : List Item}

theorem credit_nonneg (h : Represents st items) : 0 ≤ st.credit := by
  obtain ⟨-, -, hentries, hdead⟩ := h.bounds
  unfold Store.credit
  omega

/-- Doubling the table takes the credit for its slots. -/
theorem growIfLoaded_affords (h : Represents st items) :
    ∃ st', st.growIfLoaded = .ok st' ∧ Represents st' items ∧
      4 * st'.numEntries ≤ st'.hashTable.size ∧
      Affords Store.credit st st' st.growthCost 0 := by
  have hb := h.bounds
  unfold Store.growIfLoaded Store.growthCost Affords
  by_cases hbig : 4 * st.numEntries > st.hashTable.size
  · obtain ⟨st', hrun, hrep, -, hsize, hent, hdead⟩ :=
      h.rehash (2 * st.hashTable.size) (by omega) (by omega)
    rw [if_pos hbig, if_pos hbig]
    refine ⟨st', hrun, hrep, by omega, ?_⟩
    simp only [Store.credit, hsize, hent, hdead]
    push_cast
    omega
  · rw [if_neg hbig, if_neg hbig]
    exact ⟨st, rfl, h, by omega, by simp⟩

/-- Rehashing in place takes the credit of the tombstones. -/
theorem rehashIfFull_affords (h : Represents st items)
    (hload : 4 * st.numEntries ≤ st.hashTable.size) (hrun : st.rehashIfFull = .ok st') :
    Affords Store.credit st st' st.fullCost 0 ∧ st'.hashTable.size = st.hashTable.size := by
  have hb := h.bounds
  unfold Store.rehashIfFull at hrun
  unfold Store.fullCost Affords
  by_cases hfull : 2 * (st.numEntries + st.numDeadEntries) > st.hashTable.size
  · obtain ⟨st₁, h₁, -, -, hsize, hent, hdead⟩ := h.rehash st.hashTable.size hb.1 (by omega)
    rw [if_pos hfull, h₁] at hrun
    cases hrun
    rw [if_pos hfull]
    refine ⟨?_, hsize⟩
    simp only [Store.credit, hsize, hent, hdead]
    omega
  · rw [if_neg hfull] at hrun
    cases hrun
    rw [if_neg hfull]
    exact ⟨by simp, rfl⟩

/-- `normalizeTable` pays for its new tables out of the credit. -/
theorem normalize_affords (h : Represents st items) (hrun : st.normalizeTable = .ok st') :
    Affords Store.credit st st' st.normalizeCost 0 := by
  obtain ⟨st₁, h₁, hrep₁, -⟩ := h.evictLoop (Nat.lt_succ_of_le h.length_le)
  obtain ⟨st₂, h₂, hrep₂, hload₂, hgrown⟩ := hrep₁.growIfLoaded_affords
  obtain ⟨st₁', h₁', hrun⟩ := of_bind_eq_ok hrun
  obtain ⟨st₂', h₂', h₃⟩ := of_bind_eq_ok hrun
  rw [h₁] at h₁'
  cases h₁'
  rw [h₂] at h₂'
  cases h₂'
  have hevicted := (Store.evictLoop_settles h₁).credit
  obtain ⟨hfull, -⟩ := hrep₂.rehashIfFull_affords hload₂ h₃
  have hcost : st.normalizeCost = st₁.growthCost + st₂.fullCost := by
    simp only [Store.normalizeCost, h₁, h₂]
  unfold Affords at hgrown hfull ⊢
  rw [hcost]
  push_cast
  omega

theorem affords_of_cases {st₁ : Store} (h : Represents st items)
    (hrun : st.normalizeTable = .ok st₁) (hcases : Store.Settles st₁ st' ∨ Store.Adds st₁ st') :
    Affords Store.credit st st' st.normalizeCost 20 := by
  have hnormal := h.normalize_affords hrun
  have hcredit : st'.credit ≤ st₁.credit + 20 := by
    cases hcases with
    | inl hsettles =>
        have hle := hsettles.credit
        omega
    | inr hadds => exact hadds.credit
  unfold Affords at hnormal ⊢
  omega

end Represents

namespace Handler

variable {h h' : Handler} {items : List Item}

theorem putEntry_cases {key value : Bytes} (hrun : h.putEntry key value = .ok h') :
    ∃ st₁, h.normalizeTable = .ok st₁ ∧
      (Store.Settles st₁ h'.toStore ∨ Store.Adds st₁ h'.toStore) := by
  obtain ⟨st₁, h₁, hrun⟩ := of_bind_eq_ok hrun
  obtain ⟨pos, -, hrun⟩ := of_bind_eq_ok hrun
  refine ⟨st₁, h₁, ?_⟩
  split at hrun
  · obtain ⟨st₂, h₂, hrun⟩ := of_bind_eq_ok hrun
    cases hrun
    refine .inl (Store.Settles.trans ?_ (Store.accessEntry_settles h₂))
    exact ((Store.setValue_settles _ _ _).trans (Store.setVersion_settles _ _ _)).trans
      (Store.tally_settles _ _)
  · obtain ⟨st₂, h₂, hrun⟩ := of_bind_eq_ok hrun
    cases hrun
    have hadds := Store.addEntry_adds h₂
    exact .inr ⟨hadds.size, hadds.entries, hadds.dead⟩

theorem getLocked_settles {args : GetArgs} {r : Handler × GetReply}
    (hrun : h.getLocked args = .ok r) : Store.Settles h.toStore r.1.toStore := by
  obtain ⟨pos, -, hrun⟩ := of_bind_eq_ok hrun
  split at hrun
  · obtain ⟨st₁, h₁, hrun⟩ := of_bind_eq_ok hrun
    cases hrun
    exact (Store.tally_settles _ _).trans (Store.accessEntry_settles h₁)
  · cases hrun
    exact Store.tally_settles h.toStore fun s => { s with numFailedGets := s.numFailedGets + 1 }

theorem cleanLoop_settles {fuel : Nat} {pos : Int} (hrun : cleanLoop fuel h pos = .ok h') :
    Store.Settles h.toStore h'.toStore := by
  induction fuel generalizing h pos with
  | zero => cases hrun
  | succ fuel ih =>
      rw [cleanLoop] at hrun
      split at hrun
      · cases hrun
        exact .refl _
      · obtain ⟨servers, -, hrun⟩ := of_bind_eq_ok hrun
        split at hrun
        · refine Store.Settles.trans ?_ (ih hrun)
          exact Store.setVersion_settles h.toStore pos _
        · obtain ⟨st₁, h₁, hrun⟩ := of_bind_eq_ok hrun
          refine Store.Settles.trans ?_ (ih hrun)
          exact (Store.removeEntry_settles h₁).trans
            (Store.tally_settles st₁ fun s => { s with numPurges := s.numPurges + 1 })

/-! ## Runs -/

def mergeCost (st : Store) (entries : List Entry) : Nat :=
  runCost (fun r entry => r.1.propagate entry r.2) (fun r _ => r.1.normalizeCost) (st, []) entries

def leaveCost (h : Handler) (s : Step) : Nat :=
  match s.op with
  | .serve (.put _) => h.normalizeCost
  | .serve (.antiEntropy query) => mergeCost h.toStore query.entries
  | _ => 0

end Handler

theorem Store.propagateAll_eq_foldlM (st : Store) (entries : List Entry)
    (invalidated : List Bytes) :
    st.propagateAll entries invalidated =
      entries.foldlM (fun r entry => r.1.propagate entry r.2) (st, invalidated) := by
  induction entries generalizing st invalidated with
  | nil => rfl
  | cons entry rest ih =>
      rw [List.foldlM_cons, Store.propagateAll]
      congr 1
      funext r
      exact ih r.1 r.2

theorem Handler.leaveAll_eq_foldlM (h : Handler) (steps : List Step) :
    h.leaveAll steps = steps.foldlM Handler.leave h := by
  induction steps generalizing h with
  | nil => rfl
  | cons s rest ih =>
      rw [List.foldlM_cons, Handler.leaveAll]
      congr 1
      funext h'
      exact ih h'

namespace Handler

variable {h h' : Handler} {items : List Item}

theorem leave_settles {s : Step} (hput : ∀ args, s.op ≠ .serve (.put args))
    (hmerge : ∀ query, s.op ≠ .serve (.antiEntropy query)) (hrun : h.leave s = .ok h') :
    Store.Settles h.toStore h'.toStore := by
  obtain ⟨view, op⟩ := s
  cases op with
  | cleanHash =>
      simp only [leave] at hrun
      split at hrun
      · cases hrun
        exact .refl h.toStore
      · exact cleanLoop_settles (h := { h with currentView := view }) hrun
  | serve r =>
      cases r with
      | put args => exact absurd rfl (hput args)
      | antiEntropy query => exact absurd rfl (hmerge query)
      | get args =>
          obtain ⟨r, hserve, rfl⟩ := of_map_eq_ok hrun
          obtain ⟨r', hget, hr⟩ := of_bind_eq_ok hserve
          cases hr
          exact getLocked_settles (h := { h with currentView := view }) hget
      | reply peer reply =>
          obtain ⟨r, hserve, rfl⟩ := of_map_eq_ok hrun
          obtain ⟨h₁, hreply, hr⟩ := of_bind_eq_ok hserve
          cases hr
          unfold replyLocked at hreply
          split at hreply
          · obtain ⟨st₁, h₁, hreply⟩ := of_bind_eq_ok hreply
            cases hreply
            exact Store.invalidateAll_settles h₁
          · cases hreply
            exact .refl h.toStore

theorem leave_put_affords (hr : Represents h.toStore items) {view : GetServersReply}
    {args : PutArgs} (hrun : h.leave ⟨view, .serve (.put args)⟩ = .ok h') :
    Affords Store.credit h.toStore h'.toStore h.normalizeCost 20 := by
  obtain ⟨h₁, hput, hrun⟩ := of_bind_eq_ok hrun
  obtain ⟨st₁, hnormal, hcases⟩ := putEntry_cases hput
  have hstore : h'.toStore = h₁.toStore := by
    split at hrun
    · cases hrun
      rfl
    · cases hrun
      rfl
  rw [hstore]
  exact hr.affords_of_cases hnormal hcases

/-- A query allocates no more than twenty slots for each of its entries. -/
theorem propagateAll_affords {st : Store} (hr : Represents st items) {entries : List Entry}
    {r : Store × List Bytes} (hrun : st.propagateAll entries [] = .ok r) :
    Affords Store.credit st r.1 (mergeCost st entries) (20 * entries.length) := by
  rw [Store.propagateAll_eq_foldlM] at hrun
  have hcharge : (entries.map fun _ => 20).sum = 20 * entries.length := by
    simp [mul_comm]
  rw [← hcharge]
  have hstep : ∀ (r : Store × List Bytes) (entry : Entry) (r' : Store × List Bytes),
      (∃ items, Represents r.1 items) → r.1.propagate entry r.2 = .ok r' →
        (∃ items, Represents r'.1 items) ∧
          Affords (fun r : Store × List Bytes => r.1.credit) r r' r.1.normalizeCost 20 := by
    rintro r entry r' ⟨items, hrep⟩ hstep
    obtain ⟨st', hrun', hrep'⟩ := hrep.propagate entry r.2
    obtain ⟨st₁, hnormal, hcases⟩ := Store.propagate_cases hstep
    rw [hrun'] at hstep
    cases hstep
    exact ⟨⟨_, hrep'⟩, hrep.affords_of_cases hnormal hcases⟩
  have hstart : ∃ items, Represents (st, ([] : List Bytes)).1 items := ⟨items, hr⟩
  exact (runCost_affords hstep hstart hrun).2

theorem leave_affords (hr : Represents h.toStore items) {s : Step} (hrun : h.leave s = .ok h') :
    Affords (fun h : Handler => h.credit) h h' (h.leaveCost s) (20 * s.brings.length) := by
  have hfree : Store.Settles h.toStore h'.toStore →
      Affords (fun h : Handler => h.credit) h h' 0 0 := by
    intro hsettles
    have hcredit := hsettles.credit
    unfold Affords
    simpa using hcredit
  obtain ⟨view, op⟩ := s
  cases op with
  | cleanHash =>
      exact hfree
        (leave_settles (fun args hop => by cases hop) (fun query hop => by cases hop) hrun)
  | serve r =>
      cases r with
      | put args => exact leave_put_affords hr hrun
      | antiEntropy query =>
          obtain ⟨r, hserve, rfl⟩ := of_map_eq_ok hrun
          obtain ⟨r', hmerge, hr'⟩ := of_bind_eq_ok hserve
          cases hr'
          obtain ⟨merged, hall, hr'⟩ := of_bind_eq_ok hmerge
          cases hr'
          show Affords Store.credit h.toStore merged.1 (mergeCost h.toStore query.entries)
            (20 * (query.entries.map fun e => (e.key, e.value)).length)
          rw [List.length_map]
          exact propagateAll_affords hr hall
      | get args =>
          exact hfree
            (leave_settles (fun args hop => by cases hop) (fun query hop => by cases hop) hrun)
      | reply peer reply =>
          exact hfree
            (leave_settles (fun args hop => by cases hop) (fun query hop => by cases hop) hrun)

/-- In every run from the constructor, the tables that `rehash` makes have together at
most twenty slots for each entry that is put or merged. -/
theorem rehash_amortized (server : Server) (steps : List Step) :
    runCost leave leaveCost (initial server) steps ≤
      20 * (steps.map fun s => s.brings.length).sum := by
  have hr : Represents (initial server).toStore [] := Represents.initial
  obtain ⟨h', items', hrun, hr', -⟩ := leaveAll_spec hr rfl steps
  rw [leaveAll_eq_foldlM] at hrun
  have hstep : ∀ h s h', (∃ items, Represents h.toStore items) → leave h s = .ok h' →
      (∃ items, Represents h'.toStore items) ∧
        Affords (fun h : Handler => h.credit) h h' (leaveCost h s) (20 * s.brings.length) := by
    rintro h s h' ⟨items, hrep⟩ hstep
    obtain ⟨h₁, hrun₁, hrep₁, -⟩ := leave_spec hrep s
    have haffords := leave_affords hrep hstep
    rw [hrun₁] at hstep
    cases hstep
    exact ⟨⟨_, hrep₁⟩, haffords⟩
  have hpaid := (runCost_affords hstep ⟨[], hr⟩ hrun).2
  have hempty : ({} : Store).credit = 0 := by decide
  have hstart : (initial server).credit = 0 := hempty
  have hend := hr'.credit_nonneg
  have hcharge : (steps.map fun s => 20 * s.brings.length).sum =
      20 * (steps.map fun s => s.brings.length).sum :=
    List.sum_map_mul_left _ _ _
  simp only [Affords, hcharge, hstart] at hpaid
  omega

/-! ## The size of the table -/

/-- Ten slots doubled some number of times, and no more than eight for each key. -/
def Roomy (keys : Finset Bytes) (size : Nat) : Prop :=
  (∃ k, size = 10 * 2 ^ k) ∧ (size = 10 ∨ size < 8 * keys.card)

end Handler

namespace Represents

variable {st st' : Store} {items : List Item} {keys : Finset Bytes}

theorem numEntries_le (h : Represents st items) (hkeys : ∀ it ∈ items, it.key ∈ keys) :
    st.numEntries ≤ keys.card := by
  have hdis := h.distinct
  obtain ⟨l, hl, rfl⟩ := h
  have hlen : l.length = ((itemsAt st.hashTable l).map Item.key).toFinset.card := by
    rw [List.toFinset_card_of_nodup hdis, List.length_map, itemsAt, List.length_map]
  have hsub : ((itemsAt st.hashTable l).map Item.key).toFinset ⊆ keys := by
    intro key hkey
    obtain ⟨it, hit, rfl⟩ := List.mem_map.mp (List.mem_toFinset.mp hkey)
    exact hkeys it hit
  rw [hl.entries, hlen]
  exact_mod_cast Finset.card_le_card hsub

/-- `normalizeTable` doubles the table only when it holds enough keys. -/
theorem normalize_roomy (h : Represents st items) (hkeys : ∀ it ∈ items, it.key ∈ keys)
    (hroomy : Handler.Roomy keys st.hashTable.size) (hrun : st.normalizeTable = .ok st') :
    Handler.Roomy keys st'.hashTable.size := by
  obtain ⟨st₁, h₁, hrep₁, -⟩ := h.evictLoop (Nat.lt_succ_of_le h.length_le)
  have hsize₁ := (Store.evictLoop_settles h₁).size
  have hcard : st₁.numEntries ≤ keys.card := by
    apply hrep₁.numEntries_le
    intro it hit
    exact hkeys it ((Recency.shrink_prefix items).subset hit)
  obtain ⟨st₂, h₂, hrep₂, hload₂, -⟩ := hrep₁.growIfLoaded_affords
  have hroomy₂ : Handler.Roomy keys st₂.hashTable.size := by
    unfold Store.growIfLoaded at h₂
    split at h₂
    · next hbig =>
      have hb := hrep₁.bounds
      obtain ⟨st₃, h₃, -, -, hsize, -⟩ :=
        hrep₁.rehash (2 * st₁.hashTable.size) (by omega) (by omega)
      rw [h₃] at h₂
      cases h₂
      obtain ⟨⟨k, hk⟩, -⟩ := hroomy
      refine ⟨⟨k + 1, ?_⟩, .inr (by omega)⟩
      rw [hsize, hsize₁, hk]
      ring
    · cases h₂
      rw [hsize₁]
      exact hroomy
  obtain ⟨st₁', h₁', hrun⟩ := of_bind_eq_ok hrun
  obtain ⟨st₂', h₂', h₃⟩ := of_bind_eq_ok hrun
  rw [h₁] at h₁'
  cases h₁'
  rw [h₂] at h₂'
  cases h₂'
  rw [(hrep₂.rehashIfFull_affords hload₂ h₃).2]
  exact hroomy₂

end Represents

namespace Handler

variable {h h' : Handler} {items : List Item} {keys : Finset Bytes}

/-- The items have keys from the set, and the table is roomy for it. -/
def Holds (keys : Finset Bytes) (st : Store) : Prop :=
  ∃ items, Represents st items ∧ (∀ it ∈ items, it.key ∈ keys) ∧
    Roomy keys st.hashTable.size

theorem Holds.propagate {st : Store} (hst : Holds keys st) {entry : Entry}
    (hentry : entry.key ∈ keys) {invalidated : List Bytes} {r : Store × List Bytes}
    (hrun : st.propagate entry invalidated = .ok r) : Holds keys r.1 := by
  obtain ⟨items, hrep, hkeys, hroomy⟩ := hst
  obtain ⟨st₁, hnormal, hcases⟩ := Store.propagate_cases hrun
  obtain ⟨st', hrun', hrep'⟩ := hrep.propagate entry invalidated
  have hsize := Store.size_of_cases hcases
  rw [hrun'] at hrun
  cases hrun
  refine ⟨_, hrep', fun it hit => ?_, ?_⟩
  · rcases Lru.mem_propagate hrep.distinct hit with ⟨old, hold, hkey, -⟩ | hnew
    · rw [← hkey]
      exact hkeys old hold
    · rw [(Prod.mk.inj hnew).1]
      exact hentry
  · rw [hsize]
    exact hrep.normalize_roomy hkeys hroomy hnormal

theorem Holds.propagateAll {st : Store} (hst : Holds keys st) {entries : List Entry}
    (hentries : ∀ entry ∈ entries, entry.key ∈ keys) {invalidated : List Bytes}
    {r : Store × List Bytes} (hrun : st.propagateAll entries invalidated = .ok r) :
    Holds keys r.1 := by
  induction entries generalizing st invalidated with
  | nil =>
      cases hrun
      exact hst
  | cons entry rest ih =>
      obtain ⟨r₁, h₁, hrun⟩ := of_bind_eq_ok hrun
      have hst₁ := hst.propagate (hentries entry List.mem_cons_self) h₁
      exact ih hst₁ (fun e he => hentries e (List.mem_cons_of_mem _ he)) hrun

theorem Holds.roomy (hst : Holds keys h.toStore) {s : Step}
    (hbrings : ∀ p ∈ s.brings, p.1 ∈ keys) (hrun : h.leave s = .ok h') :
    Roomy keys h'.hashTable.size := by
  obtain ⟨items, hrep, hkeys, hroomy⟩ := hst
  have hsettled : Store.Settles h.toStore h'.toStore → Roomy keys h'.hashTable.size := by
    intro hsettles
    rw [hsettles.size]
    exact hroomy
  obtain ⟨view, op⟩ := s
  cases op with
  | cleanHash =>
      exact hsettled
        (leave_settles (fun args hop => by cases hop) (fun query hop => by cases hop) hrun)
  | serve r =>
      cases r with
      | put args =>
          obtain ⟨h₁, hput, hrun⟩ := of_bind_eq_ok hrun
          obtain ⟨st₁, hnormal, hcases⟩ := putEntry_cases hput
          have hsize : h'.hashTable.size = h₁.hashTable.size := by
            split at hrun
            · cases hrun
              rfl
            · cases hrun
              rfl
          rw [hsize, Store.size_of_cases hcases]
          exact hrep.normalize_roomy hkeys hroomy hnormal
      | antiEntropy query =>
          obtain ⟨r, hserve, rfl⟩ := of_map_eq_ok hrun
          obtain ⟨r', hmerge, hr'⟩ := of_bind_eq_ok hserve
          cases hr'
          obtain ⟨merged, hall, hr'⟩ := of_bind_eq_ok hmerge
          cases hr'
          have hst : Holds keys h.toStore := ⟨items, hrep, hkeys, hroomy⟩
          obtain ⟨-, -, -, hroomy'⟩ := hst.propagateAll (fun entry hentry =>
            hbrings (entry.key, entry.value) (List.mem_map.mpr ⟨entry, hentry, rfl⟩)) hall
          exact hroomy'
      | get args =>
          exact hsettled
            (leave_settles (fun args hop => by cases hop) (fun query hop => by cases hop) hrun)
      | reply peer reply =>
          exact hsettled
            (leave_settles (fun args hop => by cases hop) (fun query hop => by cases hop) hrun)

theorem Holds.leave (hst : Holds keys h.toStore) {s : Step}
    (hbrings : ∀ p ∈ s.brings, p.1 ∈ keys) (hrun : h.leave s = .ok h') :
    Holds keys h'.toStore := by
  have hroomy := hst.roomy hbrings hrun
  obtain ⟨items, hrep, hkeys, -⟩ := hst
  obtain ⟨h₁, hrun₁, hrep₁, -⟩ := leave_spec hrep s
  rw [hrun₁] at hrun
  cases hrun
  refine ⟨_, hrep₁, fun it hit => ?_, hroomy⟩
  rcases Lru.mem_leave hrep.distinct hit with ⟨old, hold, hkey, -⟩ | hnew
  · rw [← hkey]
    exact hkeys old hold
  · exact hbrings _ hnew

theorem Holds.leaveAll {steps : List Step} (hst : Holds keys h.toStore)
    (hbrings : ∀ s ∈ steps, ∀ p ∈ s.brings, p.1 ∈ keys)
    (hrun : h.leaveAll steps = .ok h') : Holds keys h'.toStore := by
  induction steps generalizing h with
  | nil =>
      cases hrun
      exact hst
  | cons s rest ih =>
      obtain ⟨h₁, h₁run, hrun⟩ := of_bind_eq_ok hrun
      have hst₁ := hst.leave (hbrings s List.mem_cons_self) h₁run
      exact ih hst₁ (fun s hs => hbrings s (List.mem_cons_of_mem _ hs)) hrun

def broughtKeys (steps : List Step) : Finset Bytes :=
  ((steps.flatMap Step.brings).map Prod.fst).toFinset

/-- After every run from the constructor, the table has ten slots doubled some number
of times, and if it has grown at all, fewer than eight for each key that was ever put
or merged. -/
theorem table_size_bounded (server : Server) (steps : List Step) :
    ∃ h, (initial server).leaveAll steps = .ok h ∧
      Roomy (broughtKeys steps) h.hashTable.size := by
  have hr : Represents (initial server).toStore [] := Represents.initial
  obtain ⟨h, -, hrun, -⟩ := leaveAll_spec hr rfl steps
  have hstart : Holds (broughtKeys steps) (initial server).toStore :=
    ⟨[], hr, (fun it hit => by cases hit), ⟨0, rfl⟩, .inl rfl⟩
  have hbrings : ∀ s ∈ steps, ∀ p ∈ s.brings, p.1 ∈ broughtKeys steps := by
    intro s hs p hp
    have hmem := List.mem_flatMap.mpr ⟨s, hs, hp⟩
    exact List.mem_toFinset.mpr (List.mem_map.mpr ⟨p, hmem, rfl⟩)
  obtain ⟨-, -, -, hroomy⟩ := hstart.leaveAll hbrings hrun
  exact ⟨h, hrun, hroomy⟩

end Handler

end RobustCache
