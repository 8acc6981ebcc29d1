import RobustCache.Lib.Standing
import RobustCache.Server.Arrivals
import RobustCache.Server.Purge

/-! # The working set of a server

An entry that has been used stays for as long as it fits into the memory limit
together with the entries used after it. How much else the store holds, and what
was stored before, does not matter.
-/

namespace RobustCache

open Lib

/-- The keys that an operation uses. -/
def Step.uses (s : Step) : List Bytes :=
  match s.op with
  | .serve (.put args) => [args.key]
  | .serve (.get args) => [args.key]
  | .serve (.antiEntropy query) => query.entries.map Entry.key
  | _ => []

/-- The keys that an operation looks for. -/
def Step.finds (s : Step) : List Bytes :=
  match s.op with
  | .serve (.get args) => [args.key]
  | _ => []

/-- The operation neither uses the key nor invalidates it, and a view under which the
table is cleaned leaves the server in charge of it. -/
def Step.Spares (server : Server) (key : Bytes) (s : Step) : Prop :=
  key ∉ s.uses ∧ match s.op with
    | .serve (.reply _ reply) => key ∉ reply.invalidatedEntries
    | .cleanHash => s.view.view.NonEmpty → server ∈ group key s.view.view
    | _ => True

namespace Lru

/-- An item with a key from the set that is within the weight of its key. -/
def Light (weight : Bytes → Nat) (keys : Finset Bytes) (a : Item) : Prop :=
  a.key ∈ keys ∧ a.size ≤ weight a.key

/-- The value is held under the key, behind light items only. -/
structure Resident (weight : Bytes → Nat) (keys : Finset Bytes) (key value : Bytes)
    (items : List Item) : Prop where
  distinct : Recency.Distinct Item.key items
  stands : ∃ version, Recency.Stands (Light weight keys) ⟨key, value, version⟩ items

/-- The set has the key itself, and what it stands for fits into the memory limit. -/
structure Roomy (weight : Bytes → Nat) (keys : Finset Bytes) (key value : Bytes) : Prop where
  mem : key ∈ keys
  own : key.length + value.length ≤ weight key
  room : (∑ k ∈ keys, weight k : Nat) ≤ memoryLimit

variable {weight : Bytes → Nat} {keys : Finset Bytes} {key value : Bytes} {items : List Item}

theorem fitsCounter_of_le {items : List Item} (h : totalSize items ≤ memoryLimit) :
    FitsCounter items := by
  have h0 := totalSize_nonneg items
  unfold FitsCounter
  unfold memoryLimit at h ⊢
  rw [toInt32_of_range (by omega) (by omega)]
  exact h

/-- Eviction does not reach an item that fits with those in front of it. -/
theorem Resident.shrink (h : Resident weight keys key value items)
    (hroomy : Roomy weight keys key value) :
    Resident weight keys key value (Recency.shrink FitsCounter items) := by
  obtain ⟨version, hstands⟩ := h.stands
  have hinit : Recency.shrink FitsCounter items <+: items := Recency.shrink_prefix items
  refine ⟨h.distinct.sublist hinit.sublist, version, hstands.shrink ?_⟩
  intro front hfront hahead
  apply fitsCounter_of_le
  have hlight : ∀ a ∈ front ++ [⟨key, value, version⟩], Light weight keys a := by
    intro a ha
    rcases List.mem_append.mp ha with ha | ha
    · exact hahead a ha
    · rw [List.mem_singleton.mp ha]
      refine ⟨hroomy.mem, ?_⟩
      unfold Item.size
      exact_mod_cast hroomy.own
  have hsum : totalSize (front ++ [⟨key, value, version⟩]) ≤ ∑ k ∈ keys, (weight k : Int) :=
    Recency.sum_le_of_distinct (fun k => Int.natCast_nonneg _)
      (h.distinct.sublist hfront.sublist) (fun a ha => (hlight a ha).2) fun a ha => (hlight a ha).1
  have hroom := hroomy.room
  push_cast at hroom
  exact hsum.trans hroom

theorem Resident.promote (h : Resident weight keys key value items) {a : Item}
    (ha : Light weight keys a) (hne : key ≠ a.key) :
    Resident weight keys key value (Recency.promote Item.key a items) := by
  obtain ⟨version, hstands⟩ := h.stands
  exact ⟨h.distinct.promote a, version, hstands.promote ha hne⟩

theorem Resident.remove (h : Resident weight keys key value items) {k : Bytes} (hne : key ≠ k) :
    Resident weight keys key value (Recency.remove Item.key k items) := by
  obtain ⟨version, hstands⟩ := h.stands
  exact ⟨h.distinct.remove k, version, hstands.remove hne⟩

theorem Resident.merge (h : Resident weight keys key value items) {e : Entry}
    (he : Light weight keys e.item) (hne : key ≠ e.key) :
    Resident weight keys key value (merge e items).1 := by
  have hnew : Resident weight keys key value (Recency.promote Item.key e.item items) :=
    h.promote he hne
  unfold Lru.merge
  cases hlook : lookup e.key items with
  | none =>
      have hfront : Recency.promote Item.key e.item items = e.item :: items :=
        Recency.promote_of_lookup_none (by exact hlook)
      rw [hfront] at hnew
      exact hnew
  | some old =>
      obtain ⟨hold, hkey⟩ := (Recency.lookup_some h.distinct).mp hlook
      simp only
      split
      · exact h
      · split
        · exact hnew
        · split
          · -- the item in place keeps its key and its value
            obtain ⟨version, hstands⟩ := h.stands
            refine ⟨h.distinct.rewrite _ fun a ha => hkey.trans ha.symm, version,
              hstands.rewrite hne fun a ha hak hlight => ?_⟩
            rw [h.distinct.eq_of_key ha hold (hak.trans hkey.symm)] at hlight
            exact hlight
          · exact h.remove hne

theorem Resident.propagateAll (h : Resident weight keys key value items)
    (hroomy : Roomy weight keys key value) {entries : List Entry}
    (hentries : ∀ e ∈ entries, Light weight keys e.item ∧ key ≠ e.key) :
    Resident weight keys key value (propagateAll FitsCounter entries items).1 := by
  induction entries generalizing items with
  | nil => exact h
  | cons e rest ih =>
      obtain ⟨he, hne⟩ := hentries e List.mem_cons_self
      exact ih ((h.shrink hroomy).merge he hne)
        fun e' he' => hentries e' (List.mem_cons_of_mem _ he')

theorem Resident.invalidateAll (h : Resident weight keys key value items)
    {invalidated : List Bytes} (hkept : key ∉ invalidated) :
    Resident weight keys key value (invalidateAll invalidated items) := by
  induction invalidated generalizing items with
  | nil => exact h
  | cons k rest ih =>
      have hne : key ≠ k := fun he => hkept (he ▸ List.mem_cons_self)
      exact ih (h.remove hne) fun hmem => hkept (List.mem_cons_of_mem _ hmem)

/-- Cleaning trims the versions in front of an item that is kept, or removes one of the
items there and stops. -/
theorem stands_clean {server : Server} {v : View} (hown : server ∈ group key v)
    {version : Version}
    (h : Recency.Stands (Light weight keys) ⟨key, value, version⟩ items) :
    ∃ version', Recency.Stands (Light weight keys) ⟨key, value, version'⟩
      (clean server v items) := by
  obtain ⟨front, back, rfl, hfront⟩ := h
  induction front with
  | nil =>
      simp only [List.nil_append, clean, if_pos hown]
      exact ⟨_, Recency.stands_head _ _⟩
  | cons b front ih =>
      have hlight := hfront b List.mem_cons_self
      have hrest : ∀ c ∈ front, Light weight keys c := fun c hc =>
        hfront c (List.mem_cons_of_mem _ hc)
      by_cases hb : server ∈ group b.key v
      · obtain ⟨version', hstands⟩ := ih hrest
        simp only [List.cons_append, clean, if_pos hb]
        exact ⟨version', hstands.cons hlight⟩
      · simp only [List.cons_append, clean, if_neg hb]
        exact ⟨version, front, back, rfl, hrest⟩

theorem distinct_clean (server : Server) (v : View) (h : Recency.Distinct Item.key items) :
    Recency.Distinct Item.key (clean server v items) := by
  have hkeys := (content_clean_sublist server v items).map Prod.fst
  rw [List.map_map, List.map_map] at hkeys
  exact List.Nodup.sublist hkeys h

theorem Resident.leave (h : Resident weight keys key value items)
    (hroomy : Roomy weight keys key value) {server : Server} {s : Step}
    (hspares : s.Spares server key) (huses : ∀ k ∈ s.uses, k ∈ keys)
    (hfinds : ∀ a ∈ items, a.key ∈ s.finds → a.size ≤ weight a.key)
    (hsizes : ∀ p ∈ s.brings, p.1.length + p.2.length ≤ weight p.1) :
    Resident weight keys key value (leave FitsCounter server items s) := by
  obtain ⟨view, op⟩ := s
  obtain ⟨hunused, hkept⟩ := hspares
  cases op with
  | cleanHash =>
      simp only [Lru.leave]
      split
      · next hring =>
        obtain ⟨version, hstands⟩ := h.stands
        exact ⟨distinct_clean _ _ h.distinct, stands_clean (hkept hring) hstands⟩
      · exact h
  | serve r =>
      cases r with
      | put args =>
          have hne : key ≠ args.key := fun he => hunused (List.mem_singleton.mpr he)
          have hsize := hsizes (args.key, args.value) (List.mem_singleton.mpr rfl)
          refine (h.shrink hroomy).promote ⟨huses _ (List.mem_singleton.mpr rfl), ?_⟩ hne
          unfold Item.size
          exact_mod_cast hsize
      | get args =>
          have hne : key ≠ args.key := fun he => hunused (List.mem_singleton.mpr he)
          have hused := huses _ (List.mem_singleton.mpr rfl)
          simp only [Lru.leave, Lru.serve, Lru.get]
          cases hlook : lookup args.key items with
          | none => exact h
          | some found =>
              obtain ⟨hfound, hkey⟩ := (Recency.lookup_some h.distinct).mp hlook
              have hsize := hfinds found hfound (List.mem_singleton.mpr hkey)
              exact h.promote ⟨hkey ▸ hused, hsize⟩ (hkey ▸ hne)
      | antiEntropy query =>
          apply h.propagateAll hroomy
          intro e he
          have hmem : e.key ∈ query.entries.map Entry.key := List.mem_map.mpr ⟨e, he, rfl⟩
          have hsize := hsizes (e.key, e.value) (List.mem_map.mpr ⟨e, he, rfl⟩)
          refine ⟨⟨huses _ hmem, ?_⟩, fun heq => hunused (heq ▸ hmem)⟩
          unfold Item.size Entry.item
          exact_mod_cast hsize
      | reply peer reply =>
          simp only [Lru.leave, Lru.serve]
          split
          · exact h.invalidateAll hkept
          · exact h

end Lru

namespace Handler

variable {h h₁ : Handler} {items : List Item}

/-- What is held at the start and looked for later is light, and so is what is brought. -/
theorem leaveAll_resident {weight : Bytes → Nat} {keys : Finset Bytes} {key value : Bytes}
    {finds : List Bytes} (hr : Represents h.toStore items)
    (hres : Lru.Resident weight keys key value items) (hroomy : Lru.Roomy weight keys key value)
    (hheld : ∀ a ∈ items, a.key ∈ finds → a.size ≤ weight a.key) {steps : List Step}
    (hspares : ∀ s ∈ steps, s.Spares h.server key) (huses : ∀ s ∈ steps, ∀ k ∈ s.uses, k ∈ keys)
    (hfinds : ∀ s ∈ steps, ∀ k ∈ s.finds, k ∈ finds)
    (hsizes : ∀ s ∈ steps, ∀ p ∈ s.brings, p.1.length + p.2.length ≤ weight p.1) :
    ∃ h' items' version, h.leaveAll steps = .ok h' ∧ Represents h'.toStore items' ∧
      ⟨key, value, version⟩ ∈ items' := by
  induction steps generalizing h items with
  | nil =>
      obtain ⟨version, hstands⟩ := hres.stands
      exact ⟨h, items, version, rfl, hr, hstands.mem⟩
  | cons s rest ih =>
      obtain ⟨h₁, h₁run, hr₁, hserver, -⟩ := leave_spec hr s
      have hres₁ := hres.leave hroomy (hspares s List.mem_cons_self)
        (huses s List.mem_cons_self)
        (fun a ha hk => hheld a ha (hfinds s List.mem_cons_self _ hk))
        (hsizes s List.mem_cons_self)
      have hheld₁ : ∀ a ∈ Lru.leave FitsCounter h.server items s, a.key ∈ finds →
          a.size ≤ weight a.key := by
        intro a ha hk
        rcases Lru.mem_leave hr.distinct ha with ⟨old, hold, hkey, hvalue⟩ | hnew
        · have hsize := hheld old hold (hkey ▸ hk)
          unfold Item.size at hsize ⊢
          rwa [hkey, hvalue] at hsize
        · unfold Item.size
          exact_mod_cast hsizes s List.mem_cons_self _ hnew
      obtain ⟨h', items', version, hrun, hr', hmem⟩ := ih hr₁ hres₁ hheld₁
        (fun s hs => hserver ▸ hspares s (List.mem_cons_of_mem _ hs))
        (fun s hs => huses s (List.mem_cons_of_mem _ hs))
        (fun s hs => hfinds s (List.mem_cons_of_mem _ hs))
        (fun s hs => hsizes s (List.mem_cons_of_mem _ hs))
      exact ⟨h', items', version, (leaveAll_cons h₁run rest).trans hrun, hr', hmem⟩

def Accesses (h : Handler) (s : Step) (key value : Bytes) : Prop :=
  match s.op with
  | .serve (.put args) => args.key = key ∧ args.value = value
  | .serve (.get args) =>
      args.key = key ∧ ∃ h', h.getLocked args = .ok (h', { status := .ok, value })
  | _ => False

theorem Accesses.head (hr : Represents h.toStore items) {s : Step} {key value : Bytes}
    (haccess : h.Accesses s key value) :
    ∃ it rest, Lru.leave FitsCounter h.server items s = it :: rest ∧ it.key = key ∧
      it.value = value := by
  obtain ⟨view, op⟩ := s
  cases op with
  | cleanHash => exact haccess.elim
  | serve r =>
      cases r with
      | put args =>
          obtain ⟨hkey, hvalue⟩ := haccess
          exact ⟨_, _, rfl, hkey, hvalue⟩
      | get args =>
          obtain ⟨hkey, h', hget⟩ := haccess
          obtain ⟨st, hget', -⟩ := getLocked_spec hr args
          rw [hget'] at hget
          have hreply := (Prod.mk.inj (Except.ok.inj hget)).2
          simp only [Lru.leave, Lru.serve, Lru.get] at hreply ⊢
          cases hlook : Lru.lookup args.key items with
          | none =>
              rw [hlook] at hreply
              cases hreply
          | some found =>
              rw [hlook] at hreply
              cases hreply
              obtain ⟨-, hfound⟩ := (Recency.lookup_some hr.distinct).mp hlook
              exact ⟨found, _, rfl, hfound.trans hkey, rfl⟩
      | antiEntropy query => exact haccess.elim
      | reply peer reply => exact haccess.elim

/-- Take any run, an operation that puts or gets a key, and further operations that do not
touch the key, among them changes to views that leave the server in charge of it. If the
entries brought for the keys used by these, and those held and looked for, fit into the
memory limit together with that of the key itself, a get of the key still finds the value. -/
theorem working_set_hits {server : Server} {before after : List Step} {s : Step}
    {key value : Bytes} {weight : Bytes → Nat}
    (hbefore : (initial server).leaveAll before = .ok h) (haccess : h.Accesses s key value)
    (hrun : h.leave s = .ok h₁) (hspares : ∀ s' ∈ after, s'.Spares server key)
    (hown : key.length + value.length ≤ weight key)
    (hheld : ∀ it ∈ h₁.items, it.key ∈ after.flatMap Step.finds → it.size ≤ weight it.key)
    (hsizes : ∀ s' ∈ after, ∀ p ∈ s'.brings, p.1.length + p.2.length ≤ weight p.1)
    (hroom : (∑ k ∈ insert key (after.flatMap Step.uses).toFinset, weight k : Nat) ≤
      memoryLimit) :
    ∃ h', h₁.leaveAll after = .ok h' ∧ ∀ viewNum, ∃ h'',
      h'.getLocked ⟨key, viewNum⟩ = .ok (h'', { status := .ok, value }) := by
  have hr₀ : Represents (initial server).toStore [] := Represents.initial
  obtain ⟨h₀, items, hbefore', hr, hserver, -⟩ := leaveAll_spec hr₀ rfl before
  rw [hbefore] at hbefore'
  cases hbefore'
  obtain ⟨h₁', hrun', hr₁, hserver₁, -⟩ := leave_spec hr s
  rw [hrun] at hrun'
  cases hrun'
  obtain ⟨it, rest, hfront, rfl, rfl⟩ := haccess.head hr
  have hres : Lru.Resident weight (insert it.key (after.flatMap Step.uses).toFinset) it.key
      it.value (Lru.leave FitsCounter h.server items s) := by
    refine ⟨hr₁.distinct, it.version, ?_⟩
    rw [hfront]
    exact Recency.stands_head it rest
  rw [hr₁.items_eq] at hheld
  obtain ⟨h', items', version, hafter, hr', hmem⟩ := leaveAll_resident hr₁ hres
    ⟨Finset.mem_insert_self _ _, hown, hroom⟩ hheld
    (fun s' hs' => by rw [hserver₁, hserver]; exact hspares s' hs')
    (fun s' hs' k hk => Finset.mem_insert_of_mem
      (List.mem_toFinset.mpr (List.mem_flatMap.mpr ⟨s', hs', hk⟩)))
    (fun s' hs' k hk => List.mem_flatMap.mpr ⟨s', hs', hk⟩) hsizes
  refine ⟨h', hafter, fun viewNum => ?_⟩
  obtain ⟨st, hget, -⟩ := getLocked_spec hr' ⟨it.key, viewNum⟩
  have hlook : Lru.lookup it.key items' = some ⟨it.key, it.value, version⟩ :=
    (Recency.lookup_some hr'.distinct).mpr ⟨hmem, rfl⟩
  simp only [Lru.get, hlook] at hget
  exact ⟨_, hget⟩

/-- A put of a larger value under the same key, and one of another key. -/
def largerValue (s : Server) : List Step :=
  let view : GetServersReply := { view := View.single [s], viewNum := 1 }
  [⟨view, .serve (.put ⟨[1], [7, 7, 7], 1⟩)⟩, ⟨view, .serve (.put ⟨[2], [8], 1⟩)⟩]

/-- A put, a get and a change to a view in which the server has a second replica. -/
def otherKeys (s t : Server) : List Step :=
  let view : GetServersReply := { view := View.single [s, t], viewNum := 2 }
  [⟨view, .cleanHash⟩, ⟨view, .serve (.put ⟨[3], [9], 2⟩)⟩, ⟨view, .serve (.get ⟨[2], 2⟩)⟩]

theorem working_set_hits_otherKeys :
    ∃ h h₁ h', (initial ⟨[1], 1⟩).leaveAll (largerValue ⟨[1], 1⟩) = .ok h ∧
      h.leave ⟨{ view := View.single [⟨[1], 1⟩] }, .serve (.put ⟨[1], [5], 1⟩)⟩ = .ok h₁ ∧
      h₁.leaveAll (otherKeys ⟨[1], 1⟩ ⟨[2], 2⟩) = .ok h' ∧ ∀ viewNum, ∃ h'',
        h'.getLocked ⟨[1], viewNum⟩ = .ok (h'', { status := .ok, value := [5] }) := by
  let s : Step := ⟨{ view := View.single [⟨[1], 1⟩] }, .serve (.put ⟨[1], [5], 1⟩)⟩
  have hr : Represents (initial ⟨[1], 1⟩).toStore [] := Represents.initial
  obtain ⟨h, items, hbefore, hr', -, -⟩ := leaveAll_spec hr rfl (largerValue ⟨[1], 1⟩)
  obtain ⟨h₁, hrun, -, -, -⟩ := leave_spec hr' s
  have hitems : (((initial ⟨[1], 1⟩).leaveAll (largerValue ⟨[1], 1⟩)).bind fun h =>
      (h.leave s).map fun h₁ => h₁.items) =
      .ok [⟨[1], [5], [(⟨[1], 1⟩, 2)]⟩, ⟨[2], [8], [(⟨[1], 1⟩, 1)]⟩] := by
    decide +kernel
  rw [hbefore] at hitems
  simp only [Except.bind, hrun, Except.map, Except.ok.injEq] at hitems
  have hspares : ∀ s' ∈ otherKeys ⟨[1], 1⟩ ⟨[2], 2⟩, s'.Spares ⟨[1], 1⟩ [1] := by
    simp [otherKeys, Step.Spares, Step.uses, group_single]
  have hheld : ∀ it ∈ h₁.items,
      it.key ∈ (otherKeys ⟨[1], 1⟩ ⟨[2], 2⟩).flatMap Step.finds → it.size ≤ (2 : Nat) := by
    rw [hitems]
    decide
  have hsizes : ∀ s' ∈ otherKeys ⟨[1], 1⟩ ⟨[2], 2⟩, ∀ p ∈ s'.brings,
      p.1.length + p.2.length ≤ 2 := by
    simp [otherKeys, Step.brings]
  have hroom : (∑ k ∈ insert [1] ((otherKeys ⟨[1], 1⟩ ⟨[2], 2⟩).flatMap Step.uses).toFinset,
      2 : Nat) ≤ memoryLimit := by
    decide
  have haccess : h.Accesses s [1] [5] := ⟨rfl, rfl⟩
  obtain ⟨h', hafter, hget⟩ :=
    working_set_hits hbefore haccess hrun hspares (by decide) hheld hsizes hroom
  exact ⟨h, h₁, h', hbefore, hrun, hafter, hget⟩

end Handler

end RobustCache
