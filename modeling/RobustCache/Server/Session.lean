import RobustCache.Server.Accounting
import RobustCache.Server.Merge

/-! # A two-way session of two replicas

One exchange after the other, with nothing in between. While everything fits,
an exchange acts on every key by itself: what the receiver has afterwards
depends on what the two sides had for that key, and a conflict takes the key
away on both sides. So the session is settled key by key.
-/

namespace RobustCache

open Lib

/-! ## Lists drawn from a pool -/

/-- Every item has the key and the value of an item of the pool. -/
def Drawn (pool items : List Item) : Prop :=
  ∀ it ∈ items, ∃ o ∈ pool, o.key = it.key ∧ o.value = it.value

theorem totalSize_le_of_drawn {pool items : List Item} (hdis : Recency.Distinct Item.key items)
    (hdrawn : Drawn pool items) : totalSize items ≤ totalSize pool := by
  let data : Item → Bytes × Bytes := fun it => (it.key, it.value)
  let size : Bytes × Bytes → Int := fun d => d.1.length + d.2.length
  have htotal : ∀ l : List Item, totalSize l = ((l.map data).map size).sum := by
    intro l
    rw [List.map_map]
    rfl
  have hnodup : (items.map data).Nodup := by
    apply List.Nodup.of_map Prod.fst
    rw [List.map_map]
    exact hdis
  have hsub : items.map data ⊆ pool.map data := by
    intro d hd
    obtain ⟨it, hit, rfl⟩ := List.mem_map.mp hd
    obtain ⟨o, ho, hkey, hvalue⟩ := hdrawn it hit
    exact List.mem_map.mpr ⟨o, ho, Prod.ext hkey hvalue⟩
  obtain ⟨part, hperm, hpart⟩ := hnodup.subperm hsub
  rw [htotal, htotal, ← (hperm.map size).sum_eq]
  refine (hpart.map size).sum_le_sum fun n hn => ?_
  obtain ⟨d, -, rfl⟩ := List.mem_map.mp hn
  simp only [size]
  omega

theorem shrink_of_drawn {pool items : List Item} (hdis : Recency.Distinct Item.key items)
    (hdrawn : Drawn pool items) (hpool : totalSize pool ≤ memoryLimit) :
    Recency.shrink FitsCounter items = items := by
  have hle := totalSize_le_of_drawn hdis hdrawn
  have h0 := totalSize_nonneg items
  apply Recency.shrink_of_fits
  unfold FitsCounter
  unfold memoryLimit at hpool ⊢
  rw [toInt32_of_range (by omega) (by omega)]
  omega

/-! ## One key -/

namespace Lru

/-- What the receiver has for a key, after what was sent for it. -/
def receive : Option Entry → Option Item → Option Item
  | none, held => held
  | some e, none => some e.item
  | some e, some old => settle e old

/-- The merge removes the key and tells the sender to do so. -/
def conflicts : Option Entry → Option Item → Bool
  | some e, some old => (settle e old).isNone
  | _, _ => false

variable {items : List Item} {e : Entry} {it : Item} {key : Bytes}

theorem settle_key {old : Item} (hkey : old.key = e.key) (h : settle e old = some it) :
    it.key = e.key := by
  unfold settle at h
  split_ifs at h
  · rw [← Option.some.inj h, hkey]
  · rw [← Option.some.inj h]
    rfl
  · rw [← Option.some.inj h]
    exact hkey

theorem lookup_merge (hdis : Recency.Distinct Item.key items) :
    lookup e.key (merge e items).1 = receive (some e) (lookup e.key items) ∧
      (merge e items).2 = if conflicts (some e) (lookup e.key items) then [e.key] else [] := by
  have hdis' : Recency.Distinct Item.key (merge e items).1 := distinct_merge hdis
  cases hlook : lookup e.key items with
  | none =>
      rw [merge_absent hlook] at hdis' ⊢
      refine ⟨(Recency.lookup_some hdis').mpr ⟨List.mem_cons_self, rfl⟩, rfl⟩
  | some old =>
      have hold := (Recency.lookup_some hdis).mp hlook
      constructor
      · apply Option.ext
        intro it
        show Recency.lookup Item.key e.key (merge e items).1 = some it ↔ settle e old = some it
        rw [Recency.lookup_some hdis', mem_merge_iff hdis hlook]
        constructor
        · intro h
          exact h.1.resolve_right fun hother => hother.2 h.2
        · intro h
          exact ⟨.inl h, settle_key hold.2 h⟩
      · rw [merge_snd hlook]
        show _ = if (settle e old).isNone = true then _ else _
        cases settle e old <;> rfl

theorem lookup_merge_of_ne (hdis : Recency.Distinct Item.key items) (hne : key ≠ e.key) :
    lookup key (merge e items).1 = lookup key items := by
  apply Option.ext
  intro it
  show Recency.lookup Item.key key (merge e items).1 = some it ↔
    Recency.lookup Item.key key items = some it
  rw [Recency.lookup_some (distinct_merge hdis), Recency.lookup_some hdis]
  refine and_congr_left fun hkey => ?_
  have hother : it.key ≠ e.key := fun h => hne (hkey.symm.trans h)
  cases hlook : lookup e.key items with
  | none =>
      rw [merge_absent hlook, List.mem_cons]
      refine ⟨fun h => h.resolve_left fun he => hother ?_, .inr⟩
      rw [he]
      rfl
  | some old =>
      have hold := (Recency.lookup_some hdis).mp hlook
      rw [mem_merge_iff hdis hlook]
      constructor
      · intro h
        exact (h.resolve_left fun hleft => hother (settle_key hold.2 hleft)).1
      · intro h
        exact .inr ⟨h, hother⟩

theorem drawn_merge {pool : List Item} (hdis : Recency.Distinct Item.key items)
    (hdrawn : Drawn pool items) (he : Drawn pool [e.item]) : Drawn pool (merge e items).1 := by
  intro it hit
  rcases mem_merge hdis hit with hold | rfl | ⟨old, hold, -, -, -, -, rfl⟩
  · exact hdrawn it hold
  · exact he _ (List.mem_singleton.mpr rfl)
  · exact hdrawn old hold

/-- A list of entries with distinct keys is merged key by key. -/
theorem lookup_propagateAll {pool : List Item} (hpool : totalSize pool ≤ memoryLimit)
    {entries : List Entry} (hdis : Recency.Distinct Item.key items) (hdrawn : Drawn pool items)
    (hentries : ∀ e ∈ entries, Drawn pool [e.item]) (hkeys : (entries.map Entry.key).Nodup) :
    Drawn pool (propagateAll FitsCounter entries items).1 ∧ ∀ key,
      lookup key (propagateAll FitsCounter entries items).1 =
        receive (entries.find? fun e => e.key = key) (lookup key items) ∧
      (key ∈ (propagateAll FitsCounter entries items).2 ↔
        conflicts (entries.find? fun e => e.key = key) (lookup key items) = true) := by
  induction entries generalizing items with
  | nil => exact ⟨hdrawn, fun key => ⟨rfl, by simp [propagateAll, conflicts]⟩⟩
  | cons e rest ih =>
      obtain ⟨hfresh, hkeys'⟩ := List.nodup_cons.mp hkeys
      have hfirst : propagate FitsCounter e items = merge e items := by
        rw [propagate, shrink_of_drawn hdis hdrawn hpool]
      obtain ⟨hlook, hinv⟩ := lookup_merge (e := e) hdis
      obtain ⟨hdrawn', hrest⟩ := ih (distinct_merge hdis)
        (drawn_merge hdis hdrawn (hentries e List.mem_cons_self))
        (fun e' he' => hentries e' (List.mem_cons_of_mem _ he')) hkeys'
      simp only [propagateAll, hfirst]
      refine ⟨hdrawn', fun key => ?_⟩
      obtain ⟨hlook', hinv'⟩ := hrest key
      rw [hlook', List.mem_append, hinv', hinv]
      by_cases hkey : e.key = key
      · -- no later entry has this key
        have hnone : rest.find? (fun e' => e'.key = key) = none := by
          rw [List.find?_eq_none]
          intro e' he' hk
          refine hfresh (List.mem_map.mpr ⟨e', he', ?_⟩)
          rw [hkey]
          simpa using hk
        rw [hnone, List.find?_cons_of_pos (by simpa using hkey), ← hkey, hlook]
        refine ⟨rfl, ?_⟩
        cases conflicts (some e) (lookup e.key items) <;> simp [conflicts]
      · have hne : key ≠ e.key := fun h => hkey h.symm
        rw [List.find?_cons_of_neg (by simpa using hkey), lookup_merge_of_ne hdis hne]
        refine ⟨rfl, or_iff_right fun hmem => ?_⟩
        split_ifs at hmem
        · exact hne (List.mem_singleton.mp hmem)
        · cases hmem

/-! ## The message -/

theorem entriesFor_of_absent {k : Bytes} (hlook : lookup k items = none) (rest : List Bytes) :
    entriesFor (k :: rest) items = entriesFor rest items := by
  simp only [entriesFor, List.filterMap_cons, hlook, Option.map_none]

theorem entriesFor_of_held {k : Bytes} (hlook : lookup k items = some it) (rest : List Bytes) :
    entriesFor (k :: rest) items = it.entry :: entriesFor rest items := by
  simp only [entriesFor, List.filterMap_cons, hlook, Option.map_some]
  rfl

theorem find?_entriesFor (hdis : Recency.Distinct Item.key items) (keys : List Bytes)
    (key : Bytes) :
    (entriesFor keys items).find? (fun e => e.key = key) =
      if key ∈ keys then (lookup key items).map Item.entry else none := by
  induction keys with
  | nil => rfl
  | cons k rest ih =>
      have hkey : ∀ found, lookup k items = some found → found.entry.key = k := by
        intro found hlook
        exact ((Recency.lookup_some hdis).mp hlook).2
      by_cases hk : k = key
      · subst hk
        rw [if_pos List.mem_cons_self]
        cases hlook : lookup k items with
        | none =>
            rw [entriesFor_of_absent hlook, ih, hlook]
            split <;> rfl
        | some found =>
            rw [entriesFor_of_held hlook, List.find?_cons_of_pos (by simpa using hkey found hlook)]
            rfl
      · have hskip : (entriesFor (k :: rest) items).find? (fun e => e.key = key) =
            (entriesFor rest items).find? fun e => e.key = key := by
          cases hlook : lookup k items with
          | none => rw [entriesFor_of_absent hlook]
          | some found =>
              rw [entriesFor_of_held hlook, List.find?_cons_of_neg]
              rw [hkey found hlook]
              simpa using hk
        have hmem : key ∈ k :: rest ↔ key ∈ rest := by
          rw [List.mem_cons]
          exact or_iff_right fun h => hk h.symm
        rw [hskip, ih]
        simp only [hmem]

theorem nodup_entriesFor (hdis : Recency.Distinct Item.key items) {keys : List Bytes}
    (hkeys : keys.Nodup) : ((entriesFor keys items).map Entry.key).Nodup := by
  refine hkeys.sublist ?_
  clear hkeys
  induction keys with
  | nil => exact List.Sublist.refl _
  | cons k rest ih =>
      cases hlook : lookup k items with
      | none =>
          rw [entriesFor_of_absent hlook]
          exact ih.cons k
      | some found =>
          have hkey : found.entry.key = k := ((Recency.lookup_some hdis).mp hlook).2
          rw [entriesFor_of_held hlook, List.map_cons, hkey]
          exact ih.cons_cons k

theorem lookup_invalidateAll (hdis : Recency.Distinct Item.key items) (keys : List Bytes)
    (key : Bytes) :
    lookup key (invalidateAll keys items) = if key ∈ keys then none else lookup key items := by
  have hdis' : Recency.Distinct Item.key (invalidateAll keys items) :=
    hdis.sublist (invalidateAll_sublist keys items)
  apply Option.ext
  intro it
  show Recency.lookup Item.key key (invalidateAll keys items) = some it ↔ _
  rw [Recency.lookup_some hdis', mem_invalidateAll]
  by_cases hk : key ∈ keys
  · rw [if_pos hk]
    refine iff_of_false (fun h => h.1.2 (h.2 ▸ hk)) (by simp)
  · rw [if_neg hk]
    show _ ↔ Recency.lookup Item.key key items = some it
    rw [Recency.lookup_some hdis]
    exact ⟨fun h => ⟨h.1.1, h.2⟩, fun h => ⟨⟨h.1, h.2 ▸ hk⟩, h.2⟩⟩

end Lru

/-! ## The two exchanges of a key -/

namespace Lru

theorem settle_entry (i j : Item) :
    settle i.entry j = if atMost i.version j.version then some j
      else if atMost j.version i.version then some i
      else if i.value = j.value then some { j with version := [] } else none := by
  unfold settle
  rw [Item.item_entry]
  simp only [Item.entry, ofEntries_toEntries]
  rfl

/-- The receiver sends back `k` to a side that has `i`. If one bounds the other,
and `k` below `i` only with the same value, both end with one value. -/
theorem returned_agrees {i k : Item}
    (hvalue : atMost k.version i.version = true → i.value = k.value)
    (hcomp : atMost k.version i.version = true ∨ atMost i.version k.version = true) :
    (receive (some k.entry) (some i)).map Item.value =
      (if conflicts (some k.entry) (some i) then none else some k).map Item.value := by
  show (settle k.entry i).map Item.value =
    (if (settle k.entry i).isNone = true then none else some k).map Item.value
  rw [settle_entry]
  by_cases hle : atMost k.version i.version = true
  · rw [if_pos hle]
    exact congrArg some (hvalue hle)
  · rw [if_neg hle, if_pos (hcomp.resolve_left hle)]
    rfl

theorem values_agree_of_held {i j : Item} (hi : i.version.Distinct)
    (hsame : atMost i.version j.version = true → atMost j.version i.version = true →
      i.value = j.value) {x₁ y₁ : Option Item}
    (hy₁ : y₁ = settle i.entry j)
    (hx₁ : x₁ = if (settle i.entry j).isNone then none else some i) :
    (receive (y₁.map Item.entry) x₁).map Item.value =
      (if conflicts (y₁.map Item.entry) x₁ then none else y₁).map Item.value := by
  rw [settle_entry] at hy₁ hx₁
  by_cases hskip : atMost i.version j.version = true
  · -- the receiver keeps its item
    rw [if_pos hskip] at hy₁ hx₁
    subst hy₁ hx₁
    exact returned_agrees (hsame hskip) (.inr hskip)
  by_cases hnewer : atMost j.version i.version = true
  · rw [if_neg hskip, if_pos hnewer] at hy₁ hx₁
    subst hy₁ hx₁
    exact returned_agrees (fun _ => rfl) (.inl (atMost_refl hi))
  by_cases hvalue : i.value = j.value
  · -- the vector that is lost is below every other
    rw [if_neg hskip, if_neg hnewer, if_pos hvalue] at hy₁ hx₁
    subst hy₁ hx₁
    exact returned_agrees (fun _ => hvalue) (.inl rfl)
  · rw [if_neg hskip, if_neg hnewer, if_neg hvalue] at hy₁ hx₁
    subst hy₁ hx₁
    rfl

/-- One side has `x` and sends it to the other, which has `y` and, if it has
noted the key, then sends back what it has. Both end with the same value. -/
theorem values_agree {x y : Option Item} {returned : Prop} [Decidable returned]
    (hx : ∀ i ∈ x, i.version.Distinct)
    (hsame : ∀ i ∈ x, ∀ j ∈ y, atMost i.version j.version = true →
      atMost j.version i.version = true → i.value = j.value)
    (hreturned : ∀ j ∈ y, returned) {x₁ y₁ : Option Item} {back : Option Entry}
    (hy₁ : y₁ = receive (x.map Item.entry) y)
    (hx₁ : x₁ = if conflicts (x.map Item.entry) y then none else x)
    (hback : back = if returned then y₁.map Item.entry else none) :
    (receive back x₁).map Item.value =
      (if conflicts back x₁ then none else y₁).map Item.value := by
  cases x with
  | none =>
      -- the receiver is untouched and sends what it has
      have hx₁' : x₁ = none := hx₁
      have hy₁' : y₁ = y := hy₁
      subst hx₁' hy₁'
      cases y₁ with
      | none =>
          have hback' : back = none := by rw [hback]; split <;> rfl
          rw [hback']
          rfl
      | some j =>
          rw [if_pos (hreturned j rfl)] at hback
          rw [hback]
          show some j.entry.item.value = some j.value
          rw [Item.item_entry]
  | some i =>
      cases y with
      | none =>
          have hx₁' : x₁ = some i := hx₁
          have hy₁' : y₁ = some i := by rw [hy₁]; exact congrArg some (Item.item_entry i)
          subst hx₁' hy₁'
          rw [hback]
          split
          · exact returned_agrees (fun _ => rfl) (.inl (atMost_refl (hx i rfl)))
          · rfl
      | some j =>
          rw [if_pos (hreturned j rfl)] at hback
          rw [hback]
          exact values_agree_of_held (hx i rfl) (hsame i rfl j rfl) hy₁ hx₁

end Lru

/-! ## One exchange -/

namespace Handler

def messageFor (h : Handler) (peer : Server) : Except Fault AntiEntropyArgs := do
  let entries ← h.buildEntries (noted h.diffs peer)
  return { entries, viewNum := h.currentView.viewNum }

/-- The snapshot is the message for the peer that it chooses. -/
theorem messageFor_of_snapshot {h : Handler} {peer : Server} {args : AntiEntropyArgs}
    (hsnap : h.snapshot = .ok (some (peer, args))) : h.messageFor peer = .ok args := by
  unfold snapshot at hsnap
  cases hnext : h.diffs.entries.find? fun e => !e.2.isEmpty with
  | none => simp [hnext] at hsnap
  | some found =>
      obtain ⟨s, keys⟩ := found
      simp only [hnext] at hsnap
      cases hbuild : h.buildEntries keys.keys with
      | error e => simp [hbuild, bind, Except.bind] at hsnap
      | ok entries =>
          simp only [hbuild, bind, Except.bind, pure, Except.pure, Except.ok.injEq,
            Option.some.injEq, Prod.mk.injEq] at hsnap
          obtain ⟨rfl, rfl⟩ := hsnap
          simp only [messageFor, noted_nextPeer hnext, hbuild, bind, Except.bind]
          rfl

/-- `antiEntropy`: the view number decides whether the query is merged. -/
def antiEntropy (h : Handler) (query : AntiEntropyArgs) :
    Except Fault (Handler × AntiEntropyReply) :=
  if h.currentView.viewNum = query.viewNum then h.antiEntropyLocked query
  else .ok (h, { status := .wrongServer })

/-- A complete exchange, with the sender first: the message is merged at the
receiver, and the sender processes the reply. -/
def exchange (sender receiver : Handler) : Except Fault (Handler × Handler) := do
  let query ← sender.messageFor receiver.server
  let (receiver', reply) ← receiver.antiEntropy query
  let sender' ← sender.replyLocked receiver.server reply
  return (sender', receiver')

def sent (sender : Handler) (receiver : Server) (items : List Item) (key : Bytes) : Option Entry :=
  if key ∈ noted sender.diffs receiver then (Lru.lookup key items).map Item.entry else none

theorem nodup_noted (diffs : OrderedMap Server (OrderedSet Bytes)) (peer : Server) :
    (noted diffs peer).Nodup := by
  unfold noted
  cases diffs.find? peer with
  | none => exact List.nodup_nil
  | some keys => exact OrderedMap.nodup_keys keys

/-- An exchange of drawn lists returns and acts on every key by itself. -/
theorem exchange_spec {a b : Handler} {itemsA itemsB pool : List Item}
    (ha : Represents a.toStore itemsA) (hb : Represents b.toStore itemsB)
    (hview : a.currentView.viewNum = b.currentView.viewNum)
    (hpool : totalSize pool ≤ memoryLimit) (hA : Drawn pool itemsA) (hB : Drawn pool itemsB) :
    ∃ a' b' itemsA' itemsB', a.exchange b = .ok (a', b') ∧
      Represents a'.toStore itemsA' ∧ Represents b'.toStore itemsB' ∧
      Drawn pool itemsA' ∧ Drawn pool itemsB' ∧
      (a'.server = a.server ∧ a'.currentView = a.currentView) ∧
      (b'.currentView = b.currentView ∧ b'.diffs = b.diffs) ∧
      ∀ key, Lru.lookup key itemsB' =
          Lru.receive (a.sent b.server itemsA key) (Lru.lookup key itemsB) ∧
        Lru.lookup key itemsA' =
          if Lru.conflicts (a.sent b.server itemsA key) (Lru.lookup key itemsB) then none
          else Lru.lookup key itemsA := by
  let query : AntiEntropyArgs :=
    { entries := Lru.entriesFor (noted a.diffs b.server) itemsA
      viewNum := a.currentView.viewNum }
  have hquery : a.messageFor b.server = .ok query := by
    simp only [messageFor, ha.buildEntries, bind, Except.bind]
    rfl
  have hentries : ∀ e ∈ query.entries, Drawn pool [e.item] := by
    intro e he it hit
    obtain ⟨found, hfound, -, rfl⟩ := (Lru.mem_entriesFor ha.distinct).mp he
    rw [List.mem_singleton.mp hit, Item.item_entry]
    exact hA found hfound
  obtain ⟨hB', hkeys⟩ := Lru.lookup_propagateAll hpool hb.distinct hB hentries
    (Lru.nodup_entriesFor ha.distinct (nodup_noted a.diffs b.server))
  have hfind : ∀ key, query.entries.find? (fun e => e.key = key) = a.sent b.server itemsA key :=
    Lru.find?_entriesFor ha.distinct (noted a.diffs b.server)
  simp only [hfind] at hkeys
  obtain ⟨st, hmerge, hrep⟩ := antiEntropyLocked_spec hb query
  have hok : AntiEntropyReply.status
      ⟨.ok, (Lru.propagateAll FitsCounter query.entries itemsB).2⟩ = .ok := rfl
  obtain ⟨st', hreply, hrep'⟩ := replyLocked_spec ha b.server hok
  refine ⟨{ a with toStore := st', diffs := a.diffs.erase b.server }, { b with toStore := st },
    _, _, ?_, hrep', hrep, ?_, hB', ⟨rfl, rfl⟩, ⟨rfl, rfl⟩, fun key => ⟨(hkeys key).1, ?_⟩⟩
  · simp only [exchange, hquery, bind, Except.bind, antiEntropy, if_pos hview.symm, hmerge, hreply,
      query]
    rfl
  · intro it hit
    exact hA it (Lru.mem_invalidateAll.mp hit).1
  · rw [Lru.lookup_invalidateAll ha.distinct]
    simp only [(hkeys key).2]

/-! ## The session -/

/-- Two replicas that are about to exchange everything they have. -/
structure Prepared (a b : Handler) : Prop where
  view : a.currentView = b.currentView
  distinctA : ∀ it, a.HoldsItem it → it.version.Distinct
  distinctB : ∀ it, b.HoldsItem it → it.version.Distinct
  /-- Versions that bound each other belong to one value. -/
  sameValue : ∀ i j, a.HoldsItem i → b.HoldsItem j → i.key = j.key →
    atMost i.version j.version = true → atMost j.version i.version = true → i.value = j.value
  notedA : ∀ it, a.HoldsItem it → it.key ∈ noted a.diffs b.server
  notedB : ∀ it, b.HoldsItem it → it.key ∈ noted b.diffs a.server
  fits : a.aliveSize + b.aliveSize ≤ memoryLimit

/-- The replicas hold the same keys with the same values. -/
def Synchronised (a b : Handler) : Prop :=
  ∀ key value, (∃ version, a.HoldsItem ⟨key, value, version⟩) ↔
    ∃ version, b.HoldsItem ⟨key, value, version⟩

theorem holdsValue_iff {h : Handler} {items : List Item} (hr : Represents h.toStore items)
    {key value : Bytes} :
    (∃ version, h.HoldsItem ⟨key, value, version⟩) ↔
      (Lru.lookup key items).map Item.value = some value := by
  rw [Option.map_eq_some_iff]
  constructor
  · intro hheld
    obtain ⟨version, hheld⟩ := hheld
    exact ⟨_, (Recency.lookup_some hr.distinct).mpr ⟨hr.mem_iff.mpr hheld, rfl⟩, rfl⟩
  · intro hlook
    obtain ⟨it, hlook, rfl⟩ := hlook
    obtain ⟨hmem, rfl⟩ := (Recency.lookup_some hr.distinct).mp hlook
    exact ⟨it.version, hr.mem_iff.mp hmem⟩

/-- After an exchange in each direction the replicas are synchronised. -/
theorem session_synchronises {a b : Handler} {itemsA itemsB : List Item}
    (ha : Represents a.toStore itemsA) (hb : Represents b.toStore itemsB) (hprep : Prepared a b) :
    ∃ a₁ b₁ a₂ b₂, a.exchange b = .ok (a₁, b₁) ∧ b₁.exchange a₁ = .ok (b₂, a₂) ∧
      Synchronised a₂ b₂ := by
  let pool := itemsA ++ itemsB
  have hpool : totalSize pool ≤ memoryLimit := by
    have hfits := hprep.fits
    rw [ha.aliveSize_eq, hb.aliveSize_eq] at hfits
    simpa only [pool, totalSize, List.map_append, List.sum_append] using hfits
  have hA : Drawn pool itemsA := fun it hit => ⟨it, List.mem_append_left _ hit, rfl, rfl⟩
  have hB : Drawn pool itemsB := fun it hit => ⟨it, List.mem_append_right _ hit, rfl, rfl⟩
  obtain ⟨a₁, b₁, itemsA₁, itemsB₁, hrun₁, ha₁, hb₁, hA₁, hB₁, hkeptA, hkeptB, hkeys₁⟩ :=
    exchange_spec ha hb (congrArg _ hprep.view) hpool hA hB
  have hview₁ : b₁.currentView.viewNum = a₁.currentView.viewNum := by
    rw [hkeptB.1, hkeptA.2, hprep.view]
  obtain ⟨b₂, a₂, itemsB₂, itemsA₂, hrun₂, hb₂, ha₂, -, -, -, -, hkeys₂⟩ :=
    exchange_spec hb₁ ha₁ hview₁ hpool hB₁ hA₁
  refine ⟨a₁, b₁, a₂, b₂, hrun₁, hrun₂, fun key value => ?_⟩
  rw [holdsValue_iff ha₂, holdsValue_iff hb₂, (hkeys₂ key).1, (hkeys₂ key).2]
  -- what the first exchange sends is all that the sender has
  have hsent : a.sent b.server itemsA key = (Lru.lookup key itemsA).map Item.entry := by
    unfold sent
    cases hlook : Lru.lookup key itemsA with
    | none => split <;> rfl
    | some it =>
        obtain ⟨hmem, hkey⟩ := (Recency.lookup_some ha.distinct).mp hlook
        rw [if_pos (hkey ▸ hprep.notedA it (ha.mem_iff.mp hmem))]
  have hfirst := hkeys₁ key
  rw [hsent] at hfirst
  have hback : b₁.sent a₁.server itemsB₁ key =
      if key ∈ noted b.diffs a.server then (Lru.lookup key itemsB₁).map Item.entry else none := by
    unfold sent
    rw [hkeptB.2, hkeptA.1]
  have hheldA : ∀ i ∈ Lru.lookup key itemsA, a.HoldsItem i ∧ i.key = key := by
    intro i hi
    obtain ⟨hmem, hkey⟩ := (Recency.lookup_some ha.distinct).mp hi
    exact ⟨ha.mem_iff.mp hmem, hkey⟩
  have hheldB : ∀ j ∈ Lru.lookup key itemsB, b.HoldsItem j ∧ j.key = key := by
    intro j hj
    obtain ⟨hmem, hkey⟩ := (Recency.lookup_some hb.distinct).mp hj
    exact ⟨hb.mem_iff.mp hmem, hkey⟩
  rw [Lru.values_agree (fun i hi => hprep.distinctA i (hheldA i hi).1)
    (fun i hi j hj => hprep.sameValue i j (hheldA i hi).1 (hheldB j hj).1
      ((hheldA i hi).2.trans (hheldB j hj).2.symm))
    (fun j hj => (hheldB j hj).2 ▸ hprep.notedB j (hheldB j hj).1) hfirst.1 hfirst.2 hback]

def afterPut (s peer : Server) : Handler :=
  { toStore := onePut s
    server := s
    currentView := { view := View.single [⟨[1], 1⟩, ⟨[2], 2⟩], viewNum := 1 }
    diffs := insertDiff OrderedMap.empty peer [1] }

/-- Both servers have put the same value. -/
theorem session_synchronises_afterPut :
    Prepared (afterPut ⟨[1], 1⟩ ⟨[2], 2⟩) (afterPut ⟨[2], 2⟩ ⟨[1], 1⟩) ∧
      ∃ a₁ b₁ a₂ b₂,
        (afterPut ⟨[1], 1⟩ ⟨[2], 2⟩).exchange (afterPut ⟨[2], 2⟩ ⟨[1], 1⟩) = .ok (a₁, b₁) ∧
        b₁.exchange a₁ = .ok (b₂, a₂) ∧ Synchronised a₂ b₂ := by
  have hheld : ∀ s peer it, (afterPut s peer).HoldsItem it ↔ it = ⟨[1], [7], [(s, 1)]⟩ :=
    fun s _ => (onePut_ready s).2.2
  have hdistinct : ∀ s peer it, (afterPut s peer).HoldsItem it → it.version.Distinct := by
    intro s peer it hit
    rw [(hheld s peer it).mp hit]
    exact List.nodup_singleton s
  have hnoted : ∀ s peer it, (afterPut s peer).HoldsItem it →
      it.key ∈ noted (afterPut s peer).diffs peer := by
    intro s peer it hit
    rw [(hheld s peer it).mp hit]
    exact mem_noted_insertDiff.mpr (.inl ⟨rfl, rfl⟩)
  have hrep : ∀ s peer, Represents (afterPut s peer).toStore [⟨[1], [7], [(s, 1)]⟩] :=
    fun s _ => onePut_represents s
  have hprep : Prepared (afterPut ⟨[1], 1⟩ ⟨[2], 2⟩) (afterPut ⟨[2], 2⟩ ⟨[1], 1⟩) := by
    refine ⟨rfl, hdistinct _ _, hdistinct _ _, fun i j hi hj _ _ _ => ?_, hnoted _ _, hnoted _ _,
      ?_⟩
    · rw [(hheld _ _ i).mp hi, (hheld _ _ j).mp hj]
    · rw [(hrep _ _).aliveSize_eq, (hrep _ _).aliveSize_eq]
      decide
  exact ⟨hprep, session_synchronises (hrep _ _) (hrep _ _) hprep⟩

end Handler

end RobustCache
