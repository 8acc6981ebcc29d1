import RobustCache.Server.Refinement

/-! # Which entries an operation leaves

Where each item of the abstract store comes from after an operation, and the
merge loop taken entry by entry: every entry of a query meets the store that the
entries before it have left.
-/

namespace RobustCache

open Lib

def Entry.item (e : Entry) : Item := ⟨e.key, e.value, ofEntries e.version⟩

def Item.entry (it : Item) : Entry := ⟨it.key, it.value, toEntries it.version⟩

@[simp] theorem Item.item_entry (it : Item) : it.entry.item = it := by
  simp [Item.entry, Entry.item]

namespace Lru

variable {fits : List Item → Prop} [DecidablePred fits] {items : List Item} {it : Item}

theorem versionOf_of_mem (hdis : Recency.Distinct Item.key items) (h : it ∈ items) :
    versionOf it.key items = it.version := by
  have hlook : lookup it.key items = some it := (Recency.lookup_some hdis).mpr ⟨h, rfl⟩
  rw [versionOf, hlook]
  rfl

theorem versionOf_cases (hdis : Recency.Distinct Item.key items) (key : Bytes) :
    versionOf key items = [] ∨ ∃ it ∈ items, it.key = key ∧ versionOf key items = it.version := by
  cases hlook : lookup key items with
  | none => exact .inl (by rw [versionOf, hlook]; rfl)
  | some it =>
      obtain ⟨hmem, rfl⟩ := (Recency.lookup_some hdis).mp hlook
      exact .inr ⟨it, hmem, rfl, versionOf_of_mem hdis hmem⟩

theorem mem_put {server : Server} {key value : Bytes} :
    it ∈ put fits server key value items ↔
      it = ⟨key, value, incrementVersion server (versionOf key (Recency.shrink fits items))⟩ ∨
        (it ∈ Recency.shrink fits items ∧ it.key ≠ key) :=
  Recency.mem_promote

theorem mem_get (hdis : Recency.Distinct Item.key items) {key : Bytes} :
    it ∈ (get key items).1 ↔ it ∈ items := by
  unfold get
  cases hlook : lookup key items with
  | none => rfl
  | some found =>
      have hfound := (Recency.lookup_some hdis).mp hlook
      show it ∈ Recency.promote Item.key found items ↔ _
      rw [Recency.mem_promote]
      constructor
      · intro h
        cases h with
        | inl h => rw [h]; exact hfound.1
        | inr h => exact h.1
      · intro h
        by_cases hkey : it.key = found.key
        · exact .inl (hdis.eq_of_key h hfound.1 hkey)
        · exact .inr ⟨h, hkey⟩

theorem mem_invalidateAll {keys : List Bytes} :
    it ∈ invalidateAll keys items ↔ it ∈ items ∧ it.key ∉ keys := by
  induction keys generalizing items with
  | nil => simp [invalidateAll]
  | cons key rest ih =>
      show it ∈ invalidateAll rest (invalidate key items) ↔ _
      rw [ih, invalidate, Recency.mem_remove, List.mem_cons]
      constructor
      · intro h
        exact ⟨h.1.1, fun hmem => hmem.elim h.1.2 h.2⟩
      · intro h
        exact ⟨⟨h.1, fun he => h.2 (.inl he)⟩, fun hmem => h.2 (.inr hmem)⟩

theorem mem_clean {server : Server} {v : View} (h : it ∈ clean server v items) :
    ∃ old ∈ items, it = old ∨ (server ∈ group old.key v ∧
      it = { old with version := Handler.trimVersion old.version (group old.key v) }) := by
  induction items with
  | nil => cases h
  | cons first rest ih =>
      by_cases hown : server ∈ group first.key v
      · simp only [clean, if_pos hown, List.mem_cons] at h
        cases h with
        | inl h => exact ⟨first, List.mem_cons_self, .inr ⟨hown, h⟩⟩
        | inr h =>
            obtain ⟨old, hold, hit⟩ := ih h
            exact ⟨old, List.mem_cons_of_mem _ hold, hit⟩
      · simp only [clean, if_neg hown] at h
        exact ⟨it, List.mem_cons_of_mem _ h, .inl rfl⟩

theorem mem_entriesFor (hdis : Recency.Distinct Item.key items) {keys : List Bytes} {e : Entry} :
    e ∈ entriesFor keys items ↔ ∃ it ∈ items, it.key ∈ keys ∧ e = it.entry := by
  simp only [entriesFor, List.mem_filterMap, Option.map_eq_some_iff]
  constructor
  · intro h
    obtain ⟨key, hkey, found, hlook, rfl⟩ := h
    have hfound := (Recency.lookup_some hdis).mp hlook
    exact ⟨found, hfound.1, hfound.2 ▸ hkey, rfl⟩
  · intro h
    obtain ⟨found, hmem, hkey, rfl⟩ := h
    exact ⟨found.key, hkey, found, (Recency.lookup_some hdis).mpr ⟨hmem, rfl⟩, rfl⟩

/-! ## One merge -/

/-- What a merge leaves of the item that it meets. Equal values written
concurrently lose their version. -/
def settle (e : Entry) (old : Item) : Option Item :=
  if atMost (ofEntries e.version) old.version then some old
  else if atMost old.version (ofEntries e.version) then some e.item
  else if e.value = old.value then some { old with version := [] }
  else none

theorem merge_absent {e : Entry} (hlook : lookup e.key items = none) :
    merge e items = (e.item :: items, []) := by
  unfold merge
  rw [hlook]
  rfl

theorem mem_merge_iff (hdis : Recency.Distinct Item.key items) {e : Entry} {old : Item}
    (hlook : lookup e.key items = some old) :
    it ∈ (merge e items).1 ↔ settle e old = some it ∨ (it ∈ items ∧ it.key ≠ e.key) := by
  have hold := (Recency.lookup_some hdis).mp hlook
  simp only [merge, hlook, settle]
  by_cases hskip : atMost (ofEntries e.version) old.version = true
  · rw [if_pos hskip, if_pos hskip, Option.some_inj]
    constructor
    · intro h
      by_cases hkey : it.key = e.key
      · exact .inl (hdis.eq_of_key hold.1 h (hold.2.trans hkey.symm))
      · exact .inr ⟨h, hkey⟩
    · intro h
      cases h with
      | inl h => exact h ▸ hold.1
      | inr h => exact h.1
  by_cases hnewer : atMost old.version (ofEntries e.version) = true
  · rw [if_neg hskip, if_pos hnewer, if_neg hskip, if_pos hnewer, Option.some_inj, eq_comm]
    exact Recency.mem_promote
  by_cases hsame : e.value = old.value
  · rw [if_neg hskip, if_neg hnewer, if_pos hsame, if_neg hskip, if_neg hnewer, if_pos hsame,
      Option.some_inj, maximumVersion_eq_nil]
    show it ∈ Recency.rewrite Item.key e.key _ items ↔ _
    rw [Recency.mem_rewrite, or_comm]
    refine or_congr ⟨fun h => ?_, fun h => ⟨old, hold.1, hold.2, h⟩⟩ Iff.rfl
    obtain ⟨-, -, -, h⟩ := h
    exact h
  · rw [if_neg hskip, if_neg hnewer, if_neg hsame, if_neg hskip, if_neg hnewer, if_neg hsame]
    show it ∈ Recency.remove Item.key e.key items ↔ _
    rw [Recency.mem_remove]
    simp

theorem merge_snd {e : Entry} {old : Item} (hlook : lookup e.key items = some old) :
    (merge e items).2 = if settle e old = none then [e.key] else [] := by
  simp only [merge, hlook, settle]
  split_ifs <;> simp_all

/-- The item that a merge of equal values leaves has lost its version. -/
theorem mem_merge (hdis : Recency.Distinct Item.key items) {e : Entry}
    (h : it ∈ (merge e items).1) :
    it ∈ items ∨ it = e.item ∨ ∃ old ∈ items, old.key = e.key ∧ e.value = old.value ∧
      ¬ atMost (ofEntries e.version) old.version = true ∧
      ¬ atMost old.version (ofEntries e.version) = true ∧ it = { old with version := [] } := by
  cases hlook : lookup e.key items with
  | none =>
      rw [merge_absent hlook] at h
      cases List.mem_cons.mp h with
      | inl h => exact .inr (.inl h)
      | inr h => exact .inl h
  | some old =>
      have hold := (Recency.lookup_some hdis).mp hlook
      rcases (mem_merge_iff hdis hlook).mp h with hleft | hother
      · unfold settle at hleft
        split_ifs at hleft with hskip hnewer hsame
        · exact .inl (Option.some.inj hleft ▸ hold.1)
        · exact .inr (.inl (Option.some.inj hleft).symm)
        · exact .inr (.inr ⟨old, hold.1, hold.2, hsame, hskip, hnewer,
            (Option.some.inj hleft).symm⟩)
      · exact .inl hother.1

theorem mem_merge_snd {e : Entry} {key : Bytes} (h : key ∈ (merge e items).2) : key = e.key := by
  cases hlook : lookup e.key items with
  | none =>
      rw [merge_absent hlook] at h
      cases h
  | some old =>
      rw [merge_snd hlook] at h
      split_ifs at h
      · exact List.mem_singleton.mp h
      · cases h

theorem mem_propagateAll_snd {entries : List Entry} {key : Bytes}
    (h : key ∈ (propagateAll fits entries items).2) : ∃ e ∈ entries, e.key = key := by
  induction entries generalizing items with
  | nil => cases h
  | cons e rest ih =>
      cases List.mem_append.mp h with
      | inl hfirst => exact ⟨e, List.mem_cons_self, (mem_merge_snd hfirst).symm⟩
      | inr hrest =>
          obtain ⟨e', he', hkey⟩ := ih hrest
          exact ⟨e', List.mem_cons_of_mem _ he', hkey⟩

/-! ## Items at least as new -/

/-- The list has an item of the same key that is at least as new. -/
def Covers (items : List Item) (it : Item) : Prop :=
  ∃ held ∈ items, held.key = it.key ∧ atMost it.version held.version = true

theorem covers_of_mem (h : it ∈ items) (hver : it.version.Distinct) : Covers items it :=
  ⟨it, h, rfl, atMost_refl hver⟩

theorem Covers.trans {items' : List Item} (h : Covers items it)
    (hgrow : ∀ held ∈ items, Covers items' held) : Covers items' it := by
  obtain ⟨held, hmem, hkey, hle⟩ := h
  obtain ⟨held', hmem', hkey', hle'⟩ := hgrow held hmem
  exact ⟨held', hmem', hkey'.trans hkey, atMost_trans hle hle'⟩

def comparable (e : Entry) (it : Item) : Bool :=
  atMost (ofEntries e.version) it.version || atMost it.version (ofEntries e.version)

/-- A merge without concurrent versions loses nothing and invalidates nothing. -/
theorem merge_covers (hdis : Recency.Distinct Item.key items) {e : Entry}
    (hcomp : ∀ it ∈ items, it.key = e.key → comparable e it = true)
    (hver : ∀ it ∈ items, it.version.Distinct) (hev : e.item.version.Distinct) :
    (∀ it ∈ items, Covers (merge e items).1 it) ∧ Covers (merge e items).1 e.item ∧
      (merge e items).2 = [] := by
  have hself : ∀ it ∈ items, Covers items it := fun it hit => covers_of_mem hit (hver it hit)
  unfold merge
  cases hlook : lookup e.key items with
  | none =>
      refine ⟨fun it hit => ?_, covers_of_mem List.mem_cons_self hev, rfl⟩
      exact covers_of_mem (List.mem_cons_of_mem _ hit) (hver it hit)
  | some old =>
      obtain ⟨hold, hkey⟩ := (Recency.lookup_some hdis).mp hlook
      simp only
      by_cases hskip : atMost (ofEntries e.version) old.version = true
      · rw [if_pos hskip]
        exact ⟨hself, ⟨old, hold, hkey, hskip⟩, rfl⟩
      · have hnewer : atMost old.version (ofEntries e.version) = true := by
          have hone := hcomp old hold hkey
          rw [comparable, Bool.or_eq_true] at hone
          exact hone.resolve_left hskip
        rw [if_neg hskip, if_pos hnewer]
        have hnew : e.item ∈ Recency.promote Item.key e.item items :=
          Recency.mem_promote.mpr (.inl rfl)
        refine ⟨fun it hit => ?_, covers_of_mem hnew hev, rfl⟩
        by_cases hsame : it.key = e.key
        · rw [hdis.eq_of_key hit hold (hsame.trans hkey.symm)]
          exact ⟨e.item, hnew, hkey.symm, hnewer⟩
        · exact covers_of_mem (Recency.mem_promote.mpr (.inr ⟨hit, hsame⟩)) (hver it hit)

end Lru

/-! ## The store that an entry meets -/

namespace Store

/-- The items left when `normalizeTable` has evicted. -/
def kept (st : Store) : List Item :=
  match st.normalizeTable with
  | .ok st => st.items
  | .error _ => []

/-- The stores in which the entries of a query are merged. -/
def visits (st : Store) : List Entry → List (Store × Entry)
  | [] => []
  | e :: rest =>
      (st, e) :: match st.propagate e [] with
        | .ok (st, _) => st.visits rest
        | .error _ => []

theorem mem_of_visits {st st' : Store} {entries : List Entry} {e : Entry}
    (h : (st', e) ∈ st.visits entries) : e ∈ entries := by
  induction entries generalizing st with
  | nil => cases h
  | cons first rest ih =>
      simp only [visits, List.mem_cons] at h
      cases h with
      | inl h => rw [(Prod.mk.inj h).2]; exact List.mem_cons_self
      | inr h =>
          cases hrun : st.propagate first [] with
          | ok r =>
              rw [hrun] at h
              exact List.mem_cons_of_mem _ (ih h)
          | error _ =>
              rw [hrun] at h
              cases h

end Store

namespace Represents

variable {st : Store} {items : List Item}

theorem kept_eq (h : Represents st items) : st.kept = Recency.shrink FitsCounter items := by
  obtain ⟨st', hrun, hrep, -⟩ := h.normalize
  simp only [Store.kept, hrun, hrep.items_eq]

theorem kept_eq_of_fits (h : Represents st items) (hfits : st.getUsedMemory ≤ memoryLimit) :
    st.kept = items := by
  rw [h.kept_eq]
  apply Recency.shrink_of_fits
  exact h.fits_iff.mp (not_lt.mpr hfits)

/-- The induction rule of the merge loop: a property of the items that every
visit keeps holds when the loop ends. -/
theorem propagateAll_rule {P : List Item → Prop} {entries : List Entry} (h : Represents st items)
    (h0 : P items)
    (hvisit : ∀ st' items' e, (st', e) ∈ st.visits entries → Represents st' items' → P items' →
      P (Lru.merge e st'.kept).1) : P (Lru.propagateAll FitsCounter entries items).1 := by
  induction entries generalizing st items with
  | nil => exact h0
  | cons e rest ih =>
      obtain ⟨st₁, hrun, hrep⟩ := h.propagate e []
      have hfirst : P (Lru.propagate FitsCounter e items).1 := by
        have hone := hvisit st items e List.mem_cons_self h h0
        rw [h.kept_eq] at hone
        exact hone
      show P (Lru.propagateAll FitsCounter rest (Lru.propagate FitsCounter e items).1).1
      apply ih hrep hfirst
      intro st' items' e' hmem hrep' hP
      apply hvisit st' items' e' _ hrep' hP
      simp only [Store.visits, hrun]
      exact List.mem_cons_of_mem _ hmem

/-- A merge loop that evicts nothing and meets no concurrent versions loses
nothing, and nothing of its query. -/
theorem propagateAll_covers {entries : List Entry} (h : Represents st items)
    (hfits : ∀ visit ∈ st.visits entries, visit.1.getUsedMemory ≤ memoryLimit)
    (hcomp : ∀ visit ∈ st.visits entries, ∀ it ∈ visit.1.kept, it.key = visit.2.key →
      Lru.comparable visit.2 it = true)
    (hver : ∀ it ∈ items, it.version.Distinct) (hev : ∀ e ∈ entries, e.item.version.Distinct) :
    (∀ it ∈ items, Lru.Covers (Lru.propagateAll FitsCounter entries items).1 it) ∧
      (∀ e ∈ entries, Lru.Covers (Lru.propagateAll FitsCounter entries items).1 e.item) ∧
      (Lru.propagateAll FitsCounter entries items).2 = [] := by
  induction entries generalizing st items with
  | nil =>
      refine ⟨fun it hit => Lru.covers_of_mem hit (hver it hit), fun e he => ?_, rfl⟩
      cases he
  | cons e rest ih =>
      obtain ⟨st₁, hrun, hrep⟩ := h.propagate e []
      have hkept : st.kept = items := h.kept_eq_of_fits (hfits _ List.mem_cons_self)
      have hfirst : Lru.propagate FitsCounter e items = Lru.merge e items := by
        rw [Lru.propagate, ← h.kept_eq, hkept]
      have hvisits : ∀ visit ∈ st₁.visits rest, visit ∈ st.visits (e :: rest) := by
        intro visit hvisit
        simp only [Store.visits, hrun]
        exact List.mem_cons_of_mem _ hvisit
      have hcomp₁ := hcomp _ List.mem_cons_self
      simp only [hkept] at hcomp₁
      obtain ⟨hgrow, hentry, hnone⟩ :=
        Lru.merge_covers h.distinct hcomp₁ hver (hev e List.mem_cons_self)
      have hver₁ : ∀ it ∈ (Lru.merge e items).1, it.version.Distinct := by
        intro it hit
        rcases Lru.mem_merge h.distinct hit with hold | rfl | ⟨old, -, -, -, -, -, rfl⟩
        · exact hver it hold
        · exact hev e List.mem_cons_self
        · exact List.nodup_nil
      rw [hfirst] at hrep
      obtain ⟨hgrow', hentries', hnone'⟩ := ih hrep (fun visit hv => hfits visit (hvisits visit hv))
        (fun visit hv => hcomp visit (hvisits visit hv)) hver₁
        (fun e' he' => hev e' (List.mem_cons_of_mem _ he'))
      simp only [Lru.propagateAll, hfirst]
      refine ⟨fun it hit => (hgrow it hit).trans hgrow', fun e' he' => ?_, ?_⟩
      · cases List.mem_cons.mp he' with
        | inl hsame =>
            rw [hsame]
            exact hentry.trans hgrow'
        | inr hrest => exact hentries' e' hrest
      · rw [hnone, hnone', List.nil_append]

end Represents

/-! ## The keys noted for a peer -/

namespace Handler

/-- `diffs[peer]`, empty when there is no set. -/
def noted (diffs : OrderedMap Server (OrderedSet Bytes)) (peer : Server) : List Bytes :=
  ((diffs.find? peer).map OrderedMap.keys).getD []

theorem mem_noted_insertDiff {diffs : OrderedMap Server (OrderedSet Bytes)} {s peer : Server}
    {key k : Bytes} :
    k ∈ noted (insertDiff diffs s key) peer ↔ (peer = s ∧ k = key) ∨ k ∈ noted diffs peer := by
  unfold noted insertDiff
  rw [OrderedMap.find?_alter]
  by_cases hp : peer = s
  · subst hp
    rw [if_pos rfl]
    show k ∈ (OrderedSet.add ((diffs.find? peer).getD OrderedMap.empty) key).keys ↔ _
    rw [OrderedSet.mem_add]
    cases diffs.find? peer with
    | none => simp [OrderedMap.keys, OrderedMap.empty]
    | some keys => simp
  · rw [if_neg hp]
    simp [hp]

theorem mem_noted_noteDiffs {h : Handler} {key k : Bytes} {servers : List Server}
    {peer : Server} :
    k ∈ noted (h.noteDiffs key servers).diffs peer ↔
      (peer ∈ servers ∧ peer ≠ h.server ∧ k = key) ∨ k ∈ noted h.diffs peer := by
  unfold noteDiffs
  generalize h.diffs = diffs
  induction servers generalizing diffs with
  | nil => simp
  | cons s rest ih =>
      simp only [List.foldl_cons] at ih ⊢
      rw [ih]
      by_cases hs : s = h.server
      · simp only [if_pos hs, List.mem_cons]
        constructor
        · intro hk
          exact hk.imp_left fun hnew => ⟨.inr hnew.1, hnew.2⟩
        · intro hk
          refine hk.imp_left fun hnew => ⟨hnew.1.resolve_left fun he => ?_, hnew.2⟩
          exact hnew.2.1 (he.trans hs)
      · simp only [if_neg hs, mem_noted_insertDiff, List.mem_cons]
        constructor
        · intro hk
          rcases hk with hnew | ⟨rfl, rfl⟩ | hold
          · exact .inl ⟨.inr hnew.1, hnew.2⟩
          · exact .inl ⟨.inl rfl, hs, rfl⟩
          · exact .inr hold
        · intro hk
          rcases hk with ⟨rfl | hmem, hne, rfl⟩ | hold
          · exact .inr (.inl ⟨rfl, rfl⟩)
          · exact .inl ⟨hmem, hne, rfl⟩
          · exact .inr (.inr hold)

theorem mem_noted_erase {diffs : OrderedMap Server (OrderedSet Bytes)} {s peer : Server}
    {k : Bytes} : k ∈ noted (diffs.erase s) peer ↔ peer ≠ s ∧ k ∈ noted diffs peer := by
  unfold noted
  rw [OrderedMap.find?_erase]
  by_cases hp : peer = s
  · simp [hp]
  · simp [hp]

theorem noted_nextPeer {h : Handler} {peer : Server} {keys : OrderedSet Bytes}
    (hnext : h.nextPeer = some (peer, keys)) : noted h.diffs peer = keys.keys := by
  have hmem : (peer, keys) ∈ h.diffs.entries := List.mem_of_find?_eq_some hnext
  rw [noted, OrderedMap.find?_eq_some.mpr hmem]
  rfl

end Handler

end RobustCache
