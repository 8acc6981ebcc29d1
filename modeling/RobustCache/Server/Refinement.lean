import RobustCache.Server.Clean

/-! # Runs of one store

Every run of the locked sections from the constructor's store returns, keeps the
representation invariant, and computes what the abstract store computes.
-/

namespace RobustCache

open Lib

/-- A locked section that works on the store. -/
inductive Request where
  | put (args : PutArgs)
  | get (args : GetArgs)
  | antiEntropy (query : AntiEntropyArgs)
  | reply (peer : Server) (reply : AntiEntropyReply)

inductive Answer where
  | put (reply : PutReply)
  | get (reply : GetReply)
  | antiEntropy (reply : AntiEntropyReply)
  | done
deriving DecidableEq

namespace Handler

def initial (server : Server) : Handler := { server }

def serve (h : Handler) : Request → Except Fault (Handler × Answer)
  | .put args => do
      let (h, reply) ← h.putLocked args
      return (h, .put reply)
  | .get args => do
      let (h, reply) ← h.getLocked args
      return (h, .get reply)
  | .antiEntropy query => do
      let (h, reply) ← h.antiEntropyLocked query
      return (h, .antiEntropy reply)
  | .reply peer reply => do
      let h ← h.replyLocked peer reply
      return (h, .done)

end Handler

namespace Lru

variable (fits : List Item → Prop) [DecidablePred fits]

/-- The abstract meaning of a section. -/
def serve (server : Server) (items : List Item) : Request → List Item × Answer
  | .put args => (put fits server args.key args.value items, .put { status := .ok })
  | .get args => ((get args.key items).1, .get (get args.key items).2)
  | .antiEntropy query =>
      let merged := propagateAll fits query.entries items
      (merged.1, .antiEntropy { status := .ok, invalidatedEntries := merged.2 })
  | .reply _ reply =>
      (if reply.status = .ok then invalidateAll reply.invalidatedEntries items else items, .done)

end Lru

/-- Every section returns and does what the abstract store does. -/
theorem Handler.serve_spec {h : Handler} {items : List Item} (hr : Represents h.toStore items)
    {r : Request} (hring : ∀ args, r = .put args → h.currentView.view.NonEmpty) :
    ∃ h', h.serve r = .ok (h', (Lru.serve FitsCounter h.server items r).2) ∧
      Represents h'.toStore (Lru.serve FitsCounter h.server items r).1 ∧
      h'.server = h.server := by
  cases r with
  | put args =>
      rcases putLocked_spec hr args (hring args rfl) with ⟨st, hrun, hrep⟩
      refine ⟨{ h with toStore := st }.noteDiffs args.key (group args.key h.currentView.view), ?_,
        hrep, rfl⟩
      simp only [serve, hrun, bind, Except.bind]
      rfl
  | get args =>
      rcases getLocked_spec hr args with ⟨st, hrun, hrep⟩
      refine ⟨{ h with toStore := st }, ?_, hrep, rfl⟩
      simp only [serve, hrun, bind, Except.bind]
      rfl
  | antiEntropy query =>
      rcases antiEntropyLocked_spec hr query with ⟨st, hrun, hrep⟩
      refine ⟨{ h with toStore := st }, ?_, hrep, rfl⟩
      simp only [serve, hrun, bind, Except.bind]
      rfl
  | reply peer reply =>
      by_cases hok : reply.status = .ok
      · rcases replyLocked_spec hr peer hok with ⟨st, hrun, hrep⟩
        refine ⟨{ h with toStore := st, diffs := h.diffs.erase peer }, ?_, ?_, rfl⟩
        · simp only [serve, hrun, bind, Except.bind]
          rfl
        · simp only [Lru.serve, if_pos hok]
          exact hrep
      · refine ⟨h, ?_, ?_, rfl⟩
        · simp only [serve, replyLocked, if_neg hok, bind, Except.bind]
          rfl
        · simp only [Lru.serve, if_neg hok]
          exact hr

/-! ## The representation invariant -/

/-- The invariant that ties the slots, the list and the counters together. -/
structure RepInv (st : Store) : Prop where
  /-- `next` leads from `listHead` through the walk to `listTail`, `prev` leads
  back, and both ends are `-1`. -/
  linked : Chain (-1) (fun i => (st.slot i).next) (fun i => (st.slot i).prev)
    st.listHead st.listTail st.order
  once : st.order.Nodup
  alive : ∀ i, i ∈ st.order ↔ (st.slot i).state = .alive
  numEntries : st.numEntries = (st.slotsIn .alive).card
  numDeadEntries : st.numDeadEntries = (st.slotsIn .dead).card
  keys : ∀ i j, (st.slot i).state = .alive → (st.slot j).state = .alive →
    (st.slot i).key = (st.slot j).key → i = j
  path : ∀ i, (st.slot i).state = .alive →
    Probe.Reaches st.hashTable.size (fun j => (st.slot j).state = .empty)
      (hash (st.slot i).key % st.hashTable.size) i.toNat
  empty : ∃ i : Nat, i < st.hashTable.size ∧ (st.slot i).state = .empty

theorem Arranged.repInv {st : Store} {l : List Int} (h : Arranged st l) : RepInv st := by
  have horder := h.table.order_eq
  refine ⟨?_, ?_, ?_, ?_, h.dead, ?_, ?_, h.empty⟩
  · rw [horder]
    exact h.table.chain
  · rw [horder]
    exact h.table.nodup
  · intro i
    rw [horder]
    exact h.table.alive i
  · rw [h.table.card_alive]
    exact h.entries
  · intro i j hi hj hk
    exact h.table.key_inj ((h.table.alive i).mpr hi) ((h.table.alive j).mpr hj) hk
  · intro i hi
    exact h.table.path i ((h.table.alive i).mpr hi)

theorem RepInv.arranged {st : Store} (h : RepInv st) : Arranged st st.order := by
  have htable : TableLayout st.hashTable st.listHead st.listTail st.order := by
    refine ⟨⟨h.once, h.alive, ?_, fun i hi => h.path i ((h.alive i).mp hi)⟩, h.linked⟩
    refine h.once.map_on fun i hi j hj hk => ?_
    exact h.keys i j ((h.alive i).mp hi) ((h.alive j).mp hj) hk
  refine ⟨htable, ?_, h.numDeadEntries, h.empty⟩
  rw [h.numEntries, htable.card_alive]

/-- An operation of the handler or of the ping thread. -/
inductive Op where
  | serve (r : Request)
  | cleanHash

/-- An operation with the view in force while it runs. -/
structure Step where
  view : GetServersReply
  op : Op

namespace Handler

def perform (h : Handler) (s : Step) : Except Fault Handler :=
  let h := { h with currentView := s.view }
  match s.op with
  | .serve r => (h.serve r).map Prod.fst
  | .cleanHash => h.cleanHash

def performAll (h : Handler) : List Step → Except Fault Handler
  | [] => .ok h
  | s :: rest => do
      let h ← h.perform s
      h.performAll rest

theorem perform_represents {h : Handler} {items : List Item} (hr : Represents h.toStore items)
    {s : Step} (hring : s.view.view.NonEmpty) :
    ∃ h' items', h.perform s = .ok h' ∧ Represents h'.toStore items' ∧ h'.server = h.server := by
  have hr' : Represents ({ h with currentView := s.view } : Handler).toStore items := hr
  unfold perform
  cases s.op with
  | serve r =>
      rcases serve_spec (r := r) hr' (fun _ _ => hring) with ⟨h', hrun, hrep, hserver⟩
      exact ⟨h', _, by simp only [hrun]; rfl, hrep, hserver⟩
  | cleanHash =>
      rcases cleanHash_spec hr' hring with ⟨st, hrun, hrep, -⟩
      exact ⟨_, Lru.clean h.server s.view.view items, hrun, hrep, rfl⟩

theorem performAll_represents {h : Handler} {items : List Item}
    (hr : Represents h.toStore items) {steps : List Step}
    (hring : ∀ s ∈ steps, s.view.view.NonEmpty) :
    ∃ h' items', h.performAll steps = .ok h' ∧ Represents h'.toStore items' ∧
      h'.server = h.server := by
  induction steps generalizing h items with
  | nil => exact ⟨h, items, rfl, hr, rfl⟩
  | cons s rest ih =>
      rcases perform_represents hr (hring s (by simp)) with ⟨h₁, items₁, h₁run, hr₁, hs₁⟩
      rcases ih hr₁ fun s hs => hring s (by simp [hs]) with ⟨h₂, items₂, h₂run, hr₂, hs₂⟩
      exact ⟨h₂, items₂, by simp only [performAll, h₁run, bind, Except.bind, h₂run], hr₂,
        hs₂.trans hs₁⟩

/-- Every run of operations from the constructor's store returns and keeps the
representation invariant. -/
theorem performAll_repInv (server : Server) (steps : List Step)
    (hring : ∀ s ∈ steps, s.view.view.NonEmpty) :
    ∃ h, (initial server).performAll steps = .ok h ∧ RepInv h.toStore := by
  rcases performAll_represents (h := initial server) Represents.initial hring with
    ⟨h, items, hrun, ⟨l, hl, -⟩, -⟩
  exact ⟨h, hrun, hl.arranged.repInv⟩

/-- Two puts, a merge, a get and a purge under a second view. -/
def sampleSteps (s t : Server) : List Step :=
  let view : GetServersReply := { view := View.single [s, t], viewNum := 2 }
  [⟨view, .serve (.put ⟨[1], [7], 2⟩)⟩, ⟨view, .serve (.put ⟨[2], [8], 2⟩)⟩,
    ⟨view, .serve (.antiEntropy ⟨[⟨[1], [9], [⟨t, 1⟩]⟩], 2⟩)⟩, ⟨view, .serve (.get ⟨[2], 2⟩)⟩,
    ⟨{ view := View.single [t], viewNum := 3 }, .cleanHash⟩]

theorem performAll_repInv_sample :
    (∀ s ∈ sampleSteps ⟨[1], 1⟩ ⟨[2], 2⟩, s.view.view.NonEmpty) ∧
      ∃ h, (initial ⟨[1], 1⟩).performAll (sampleSteps ⟨[1], 1⟩ ⟨[2], 2⟩) = .ok h ∧
        RepInv h.toStore :=
  have hring : ∀ s ∈ sampleSteps ⟨[1], 1⟩ ⟨[2], 2⟩, s.view.view.NonEmpty := by decide
  ⟨hring, performAll_repInv ⟨[1], 1⟩ _ hring⟩

end Handler

/-! ## Refinement of the abstract store -/

def Store.items (st : Store) : List Item := itemsAt st.hashTable st.order

theorem Represents.items_eq {st : Store} {items : List Item} (h : Represents st items) :
    st.items = items := by
  rcases h with ⟨l, hl, rfl⟩
  rw [Store.items, hl.table.order_eq]

/-- `MAX_FRAME_SIZE` of the Thrift server: a request in a larger frame never
reaches the handler. -/
def maxFrameSize : Int := 256 * 1024 * 1024

namespace Request

/-- The request came in one frame. -/
def FitsFrame : Request → Prop
  | .put args => args.key.length + args.value.length ≤ maxFrameSize
  | .antiEntropy query => ∀ e ∈ query.entries, e.key.length + e.value.length ≤ maxFrameSize
  | _ => True

/-- Every key and value of the request together have at most `B` bytes. -/
def Within (B : Int) : Request → Prop
  | .put args => args.key.length + args.value.length ≤ B
  | .antiEntropy query => ∀ e ∈ query.entries, e.key.length + e.value.length ≤ B
  | _ => True

theorem FitsFrame.within {r : Request} (h : r.FitsFrame) : r.Within maxFrameSize := by
  cases r <;> exact h

/-- The server is in charge of the key of a client's request. -/
def Owned (server : Server) (v : View) : Request → Prop
  | .put args => server ∈ group args.key v
  | .get args => server ∈ group args.key v
  | _ => True

end Request

def Lru.Fits (items : List Item) : Prop := totalSize items ≤ memoryLimit

instance : DecidablePred Lru.Fits := fun items =>
  inferInstanceAs (Decidable (totalSize items ≤ memoryLimit))

section Sizes

theorem Item.size_nonneg (it : Item) : 0 ≤ it.size := by
  unfold Item.size
  omega

theorem totalSize_cons (it : Item) (items : List Item) :
    totalSize (it :: items) = it.size + totalSize items := by
  simp [totalSize]

theorem totalSize_nonneg (items : List Item) : 0 ≤ totalSize items := by
  induction items with
  | nil => simp [totalSize]
  | cons it rest ih =>
      have := it.size_nonneg
      rw [totalSize_cons]
      omega

theorem totalSize_sublist {l l' : List Item} (h : l'.Sublist l) : totalSize l' ≤ totalSize l := by
  induction h with
  | slnil => exact le_refl _
  | cons it _ ih =>
      have := it.size_nonneg
      rw [totalSize_cons]
      omega
  | cons_cons it _ ih =>
      rw [totalSize_cons, totalSize_cons]
      omega

theorem totalSize_promote (it : Item) (items : List Item) :
    totalSize (Recency.promote Item.key it items) ≤ it.size + totalSize items := by
  have : totalSize (Recency.remove Item.key it.key items) ≤ totalSize items :=
    totalSize_sublist List.filter_sublist
  rw [Recency.promote, totalSize_cons]
  omega

theorem totalSize_promote_mem {it : Item} {items : List Item}
    (hdis : Recency.Distinct Item.key items) (hit : it ∈ items) :
    totalSize (Recency.promote Item.key it items) = totalSize items := by
  rcases List.append_of_mem hit with ⟨l₁, l₂, rfl⟩
  rw [Recency.promote, Recency.remove_split hdis]
  unfold totalSize
  exact (List.perm_middle.symm.map Item.size).sum_eq

theorem totalSize_rewrite {key : Bytes} {f : Item → Item} {items : List Item}
    (hf : ∀ it ∈ items, it.key = key → (f it).size = it.size) :
    totalSize (Recency.rewrite Item.key key f items) = totalSize items := by
  unfold totalSize Recency.rewrite
  rw [List.map_map]
  congr 1
  apply List.map_congr_left
  intro it hit
  by_cases hk : it.key = key
  · simp [hk, hf it hit hk]
  · simp [hk]

end Sizes

/-- The bound that keeps the size counter away from its 32-bit wrap. -/
def Lru.Bounded (items : List Item) : Prop := totalSize items ≤ memoryLimit + maxFrameSize

theorem toInt32_of_range {n : Int} (h0 : -2147483648 ≤ n) (h : n < 2147483648) : toInt32 n = n := by
  unfold toInt32
  omega

namespace Lru

/-- The items exceed the limit by at most `B` bytes. -/
def Within (B : Int) (items : List Item) : Prop := totalSize items ≤ memoryLimit + B

variable {items : List Item} {B : Int}

/-- Below the wrap the counter tells the size of every prefix. -/
theorem shrink_eq (hB : memoryLimit + B < 2147483648) (h : Within B items) :
    Recency.shrink FitsCounter items = Recency.shrink Fits items := by
  apply Recency.shrink_congr
  intro n
  have h0 := totalSize_nonneg (items.take n)
  have hle : totalSize (items.take n) ≤ totalSize items :=
    totalSize_sublist (List.take_sublist n items)
  unfold Within at h
  unfold FitsCounter Fits
  rw [toInt32_of_range (by omega) (by omega)]

theorem fits_kept (items : List Item) : totalSize (Recency.shrink Fits items) ≤ memoryLimit :=
  Recency.fits_shrink (by decide : Fits []) items

theorem within_put (server : Server) {key value : Bytes} (items : List Item)
    (hsize : (key.length : Int) + value.length ≤ B) :
    Within B (put Fits server key value items) := by
  have hkept := fits_kept items
  have hnew := totalSize_promote
    ⟨key, value, incrementVersion server (versionOf key (Recency.shrink Fits items))⟩
    (Recency.shrink Fits items)
  unfold Within put
  unfold Item.size at hnew
  simp only at hnew ⊢
  omega

theorem totalSize_merge (entry : Entry) {kept : List Item} (hdis : Recency.Distinct Item.key kept) :
    totalSize (merge entry kept).1 ≤ entry.key.length + entry.value.length + totalSize kept := by
  unfold merge
  cases hlook : lookup entry.key kept with
  | none => exact le_of_eq (totalSize_cons _ _)
  | some it =>
      simp only
      by_cases hskip : atMost (ofEntries entry.version) it.version = true
      · rw [if_pos hskip]
        show totalSize kept ≤ _
        omega
      by_cases hnewer : atMost it.version (ofEntries entry.version) = true
      · rw [if_neg hskip, if_pos hnewer]
        exact totalSize_promote _ _
      by_cases hsame : entry.value = it.value
      · rw [if_neg hskip, if_neg hnewer, if_pos hsame]
        show totalSize (Recency.rewrite Item.key entry.key _ kept) ≤ _
        rw [totalSize_rewrite]
        · omega
        · intro a ha hk
          have hit := (Recency.lookup_some hdis).mp hlook
          rw [hdis.eq_of_key ha hit.1 (hk.trans hit.2.symm)]
          rfl
      · rw [if_neg hskip, if_neg hnewer, if_neg hsame]
        have : totalSize (Recency.remove Item.key entry.key kept) ≤ totalSize kept :=
          totalSize_sublist List.filter_sublist
        show totalSize (Recency.remove Item.key entry.key kept) ≤ _
        omega

theorem distinct_merge {entry : Entry} {kept : List Item} (hdis : Recency.Distinct Item.key kept) :
    Recency.Distinct Item.key (merge entry kept).1 := by
  unfold merge
  cases hlook : lookup entry.key kept with
  | none =>
      have hnew : Recency.promote Item.key ⟨entry.key, entry.value, ofEntries entry.version⟩ kept =
          ⟨entry.key, entry.value, ofEntries entry.version⟩ :: kept :=
        Recency.promote_of_lookup_none (by exact hlook)
      show Recency.Distinct Item.key (_ :: kept)
      rw [← hnew]
      exact hdis.promote _
  | some it =>
      simp only
      split
      · exact hdis
      · split
        · exact hdis.promote _
        · split
          · refine hdis.rewrite _ fun a ha => ?_
            rw [ha]
            exact ((Recency.lookup_some hdis).mp hlook).2
          · exact hdis.remove _

theorem propagateAll_eq (hB : memoryLimit + B < 2147483648) {entries : List Entry}
    (hdis : Recency.Distinct Item.key items) (hb : Within B items)
    (hsize : ∀ e ∈ entries, (e.key.length : Int) + e.value.length ≤ B) :
    propagateAll FitsCounter entries items = propagateAll Fits entries items ∧
      Within B (propagateAll Fits entries items).1 := by
  induction entries generalizing items with
  | nil => exact ⟨rfl, hb⟩
  | cons entry rest ih =>
      have hkept : Recency.Distinct Item.key (Recency.shrink Fits items) :=
        hdis.sublist (Recency.shrink_prefix items).sublist
      have hone : propagate FitsCounter entry items = propagate Fits entry items := by
        unfold propagate
        rw [shrink_eq hB hb]
      have hb' : Within B (propagate Fits entry items).1 := by
        have h1 := totalSize_merge entry hkept
        have h2 := fits_kept items
        have h3 := hsize entry (by simp)
        unfold Within propagate
        omega
      rcases ih (distinct_merge hkept) hb' fun e he => hsize e (by simp [he]) with ⟨heq, hb''⟩
      unfold propagateAll
      rw [hone]
      exact ⟨by simp only [propagate] at heq ⊢; rw [heq], hb''⟩

theorem invalidateAll_sublist (keys : List Bytes) (items : List Item) :
    (invalidateAll keys items).Sublist items := by
  induction keys generalizing items with
  | nil => exact List.Sublist.refl _
  | cons key rest ih => exact (ih _).trans List.filter_sublist

/-- Below the bound a section does what it would do under the true sizes. -/
theorem serve_eq (hB : memoryLimit + B < 2147483648) (server : Server) {r : Request}
    (hdis : Recency.Distinct Item.key items) (hb : Within B items) (hsize : r.Within B) :
    serve FitsCounter server items r = serve Fits server items r ∧
      Within B (serve Fits server items r).1 := by
  cases r with
  | put args =>
      refine ⟨?_, within_put server items hsize⟩
      simp only [serve, put, shrink_eq hB hb]
  | get args =>
      refine ⟨rfl, ?_⟩
      show Within B (get args.key items).1
      unfold get
      cases hlook : lookup args.key items with
      | none => exact hb
      | some it =>
          unfold Within
          rw [totalSize_promote_mem hdis ((Recency.lookup_some hdis).mp hlook).1]
          exact hb
  | antiEntropy query =>
      rcases propagateAll_eq hB hdis hb hsize with ⟨heq, hb'⟩
      exact ⟨by simp only [serve, heq], hb'⟩
  | reply peer reply =>
      refine ⟨rfl, ?_⟩
      simp only [serve]
      split
      · exact (totalSize_sublist (invalidateAll_sublist _ items)).trans hb
      · exact hb

def serveAll (server : Server) : List Request → List Item → List Item × List Answer
  | [], items => (items, [])
  | r :: rest, items =>
      let served := serve Fits server items r
      let result := serveAll server rest served.1
      (result.1, served.2 :: result.2)

end Lru

namespace Handler

/-- A run of sections, each under the view in force, with its answers. -/
def serveAll (h : Handler) :
    List (GetServersReply × Request) → Except Fault (Handler × List Answer)
  | [] => .ok (h, [])
  | (view, r) :: rest => do
      let (h, answer) ← { h with currentView := view }.serve r
      let (h, answers) ← h.serveAll rest
      return (h, answer :: answers)

theorem serveAll_simulates {h : Handler} {items : List Item} (hr : Represents h.toStore items)
    (hb : Lru.Bounded items) {steps : List (GetServersReply × Request)}
    (howned : ∀ s ∈ steps, s.2.Owned h.server s.1.view) (hframe : ∀ s ∈ steps, s.2.FitsFrame) :
    ∃ h', h.serveAll steps =
        .ok (h', (Lru.serveAll h.server (steps.map Prod.snd) items).2) ∧
      Represents h'.toStore (Lru.serveAll h.server (steps.map Prod.snd) items).1 := by
  induction steps generalizing h items with
  | nil => exact ⟨h, rfl, hr⟩
  | cons s rest ih =>
      rcases s with ⟨view, r⟩
      have hr' : Represents ({ h with currentView := view } : Handler).toStore items := hr
      have hring : ∀ args, r = .put args → view.view.NonEmpty := by
        intro args hargs
        have hown := howned (view, r) (by simp)
        rw [hargs] at hown
        exact nonEmpty_of_mem_group hown
      rcases serve_spec hr' hring with ⟨h₁, h₁run, hr₁, hs₁⟩
      have hfits : r.FitsFrame := hframe (view, r) (by simp)
      rcases Lru.serve_eq (by decide) h.server hr.distinct hb hfits.within with ⟨heq, hb₁⟩
      rw [heq] at h₁run hr₁
      have howned₁ : ∀ s ∈ rest, s.2.Owned h₁.server s.1.view := by
        intro s hs
        rw [hs₁]
        exact howned s (by simp [hs])
      rcases ih hr₁ hb₁ howned₁ fun s hs => hframe s (by simp [hs]) with ⟨h₂, h₂run, hr₂⟩
      rw [hs₁] at h₂run hr₂
      refine ⟨h₂, ?_, hr₂⟩
      simp only [serveAll, h₁run, h₂run, bind, Except.bind, List.map_cons, Lru.serveAll]
      rfl

/-- Every run of puts, gets, merges and invalidations that the server is in
charge of simulates the abstract store, answer by answer. -/
theorem serveAll_refines_lru (server : Server) (steps : List (GetServersReply × Request))
    (howned : ∀ s ∈ steps, s.2.Owned server s.1.view) (hframe : ∀ s ∈ steps, s.2.FitsFrame) :
    ∃ h, (initial server).serveAll steps =
        .ok (h, (Lru.serveAll server (steps.map Prod.snd) []).2) ∧
      h.items = (Lru.serveAll server (steps.map Prod.snd) []).1 ∧
      Recency.Distinct Item.key h.items := by
  have hb : Lru.Bounded [] := by
    unfold Lru.Bounded
    decide
  rcases serveAll_simulates (h := initial server) Represents.initial hb howned hframe with
    ⟨h, hrun, hrep⟩
  refine ⟨h, hrun, hrep.items_eq, ?_⟩
  rw [hrep.items_eq]
  exact hrep.distinct

/-- Requests that the first of two replicas is in charge of. -/
def sampleRequests (s t : Server) : List (GetServersReply × Request) :=
  let view : GetServersReply := { view := View.single [s, t], viewNum := 2 }
  [(view, .put ⟨[1], [7], 2⟩), (view, .antiEntropy ⟨[⟨[1], [9], [⟨s, 1⟩, ⟨t, 1⟩]⟩], 2⟩),
    (view, .get ⟨[1], 2⟩), (view, .reply t ⟨.ok, [[1]]⟩), (view, .get ⟨[1], 2⟩)]

theorem serveAll_refines_lru_sample :
    (∀ p ∈ sampleRequests ⟨[1], 1⟩ ⟨[2], 2⟩, p.2.Owned ⟨[1], 1⟩ p.1.view) ∧
      (∀ p ∈ sampleRequests ⟨[1], 1⟩ ⟨[2], 2⟩, p.2.FitsFrame) ∧
      ∃ h, (initial ⟨[1], 1⟩).serveAll (sampleRequests ⟨[1], 1⟩ ⟨[2], 2⟩) =
          .ok (h, [.put ⟨.ok⟩, .antiEntropy ⟨.ok, []⟩, .get ⟨.ok, [9]⟩, .done,
            .get ⟨.noKey, []⟩]) ∧ h.items = [] := by
  have howned : ∀ p ∈ sampleRequests ⟨[1], 1⟩ ⟨[2], 2⟩, p.2.Owned ⟨[1], 1⟩ p.1.view := by
    simp [sampleRequests, Request.Owned, group_single]
  have hframe : ∀ p ∈ sampleRequests ⟨[1], 1⟩ ⟨[2], 2⟩, p.2.FitsFrame := by
    simp [sampleRequests, Request.FitsFrame, maxFrameSize]
  rcases serveAll_refines_lru ⟨[1], 1⟩ _ howned hframe with ⟨h, hrun, hitems, -⟩
  refine ⟨howned, hframe, h, hrun.trans ?_, hitems.trans ?_⟩
  · congr 2
  · decide +kernel

end Handler

end RobustCache
