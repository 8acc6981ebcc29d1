import RobustCache.Server.Growth

/-! # What the statistics account for

The counters of a server are raised in the middle of the functions they count:
`put` counts before it stores, `evictEntry` and `cleanHash` after they have removed.
Whatever a server is asked to do, the counters come out as the numbers of calls, and
the entries in the table are those that the counters explain, up to what its peers
have sent and invalidated.
-/

namespace RobustCache

open Lib

/-- What the statistics say about the calls served, and how many of the entries in
the table they leave unexplained. -/
structure Books where
  puts : Int
  goodGets : Int
  failedGets : Int
  surplus : Int

namespace Store

def books (st : Store) : Books where
  puts := st.statistics.numInsertions + st.statistics.numUpdates
  goodGets := st.statistics.numGoodGets
  failedGets := st.statistics.numFailedGets
  surplus := st.numEntries + st.statistics.numEvictions + st.statistics.numPurges -
    st.statistics.numInsertions

variable {st st' : Store} {pos : Int}

theorem Relinked.books (h : Relinked st st') : st'.books = st.books := by
  unfold Store.books
  rw [h.statistics, h.entries]

theorem accessEntry_books (h : st.accessEntry pos = .ok st') : st'.books = st.books := by
  obtain ⟨_, -, h⟩ := of_bind_eq_ok h
  obtain ⟨st₁, h₁, h₂⟩ := of_bind_eq_ok h
  exact ((removeFromList_relinked h₁).trans (addToFront_relinked h₂)).books

theorem addEntry_books {key value : Bytes} {version : Version}
    (h : st.addEntry pos key value version = .ok st') :
    st'.books = { st.books with surplus := st.books.surplus + 1 } := by
  obtain ⟨_, -, h⟩ := of_bind_eq_ok h
  obtain ⟨st₁, h₁, h⟩ := of_bind_eq_ok h
  cases h
  have hrel := addToFront_relinked h₁
  have hstatistics : st₁.statistics = st.statistics := hrel.statistics
  have hentries : st₁.numEntries = st.numEntries := hrel.entries
  simp only [books, hstatistics, hentries, Books.mk.injEq, true_and]
  omega

theorem removeEntry_books (h : st.removeEntry pos = .ok st') :
    st'.books = { st.books with surplus := st.books.surplus - 1 } := by
  obtain ⟨st₁, h₁, h⟩ := of_bind_eq_ok h
  cases h
  have hrel := removeFromList_relinked h₁
  have hstatistics : st₁.statistics = st.statistics := hrel.statistics
  have hentries : st₁.numEntries = st.numEntries := hrel.entries
  simp only [books, modify, hstatistics, hentries, Books.mk.injEq, true_and]
  omega

theorem evictEntry_books (h : st.evictEntry = .ok st') : st'.books = st.books := by
  obtain ⟨_, -, h⟩ := of_bind_eq_ok h
  obtain ⟨st₁, h₁, h⟩ := of_bind_eq_ok h
  cases h
  have hremoved := congrArg Books.surplus (removeEntry_books h₁)
  have hcalls := removeEntry_books h₁
  simp only [books, Books.mk.injEq] at hremoved hcalls ⊢
  refine ⟨hcalls.1, hcalls.2.1, hcalls.2.2.1, ?_⟩
  omega

theorem evictLoop_books {fuel : Nat} (h : evictLoop fuel st = .ok st') :
    st'.books = st.books := by
  induction fuel generalizing st with
  | zero => cases h
  | succ fuel ih =>
      rw [evictLoop] at h
      split at h
      · obtain ⟨st₁, h₁, h⟩ := of_bind_eq_ok h
        exact (ih h).trans (evictEntry_books h₁)
      · cases h
        rfl

theorem rehash_books {newSize : Nat} (h : st.rehash newSize = .ok st') :
    st'.books = st.books := by
  obtain ⟨r, -, h⟩ := of_bind_eq_ok h
  cases h
  rfl

theorem normalizeTable_books (h : st.normalizeTable = .ok st') : st'.books = st.books := by
  obtain ⟨st₁, h₁, h⟩ := of_bind_eq_ok h
  obtain ⟨st₂, h₂, h₃⟩ := of_bind_eq_ok h
  have hgrown : st₂.books = st₁.books := by
    unfold growIfLoaded at h₂
    split at h₂
    · exact rehash_books h₂
    · cases h₂
      rfl
  have hrehashed : st'.books = st₂.books := by
    unfold rehashIfFull at h₃
    split at h₃
    · exact rehash_books h₃
    · cases h₃
      rfl
  exact (hrehashed.trans hgrown).trans (evictLoop_books h₁)

/-! ## What the counters do not explain -/

/-- The counters of the calls are as before, and at most `n` more or fewer entries
are left unexplained. -/
structure Drifts (n : Nat) (st st' : Store) : Prop where
  puts : st'.books.puts = st.books.puts
  goodGets : st'.books.goodGets = st.books.goodGets
  failedGets : st'.books.failedGets = st.books.failedGets
  surplus : |st'.books.surplus - st.books.surplus| ≤ n

theorem drifts_of_eq {n : Nat} (h : st'.books = st.books) : Drifts n st st' := by
  constructor
  · rw [h]
  · rw [h]
  · rw [h]
  · rw [h, sub_self, abs_zero]
    exact Int.natCast_nonneg n

theorem Drifts.refl (st : Store) : Drifts 0 st st := drifts_of_eq rfl

theorem drifts_of_surplus {d : Int} {n : Nat}
    (h : st'.books = { st.books with surplus := st.books.surplus + d }) (hd : |d| ≤ n) :
    Drifts n st st' := by
  constructor
  · rw [h]
  · rw [h]
  · rw [h]
  · rw [h, add_sub_cancel_left]
    exact hd

theorem Drifts.trans {n m : Nat} {st'' : Store} (h : Drifts n st st') (h' : Drifts m st' st'') :
    Drifts (n + m) st st'' := by
  refine ⟨h'.puts.trans h.puts, h'.goodGets.trans h.goodGets,
    h'.failedGets.trans h.failedGets, ?_⟩
  have hone := abs_le.mp h.surplus
  have htwo := abs_le.mp h'.surplus
  rw [abs_le]
  push_cast
  omega

/-- An entry of a peer may add an entry or remove one; neither is counted. -/
theorem propagate_drifts {entry : Entry} {invalidated : List Bytes} {r : Store × List Bytes}
    (h : st.propagate entry invalidated = .ok r) : Drifts 1 st r.1 := by
  obtain ⟨st₁, h₁, h⟩ := of_bind_eq_ok h
  obtain ⟨pos, -, h⟩ := of_bind_eq_ok h
  have hnormal := normalizeTable_books h₁
  split at h
  · dsimp only at h
    split at h
    · cases h
      exact drifts_of_eq hnormal
    · split at h
      · obtain ⟨st₂, h₂, h⟩ := of_bind_eq_ok h
        cases h
        have hbooks := accessEntry_books h₂
        exact drifts_of_eq (hbooks.trans hnormal)
      · split at h
        · cases h
          exact drifts_of_eq hnormal
        · obtain ⟨st₂, h₂, h⟩ := of_bind_eq_ok h
          cases h
          have hremoved := removeEntry_books h₂
          rw [hnormal] at hremoved
          exact drifts_of_surplus hremoved (by decide)
  · obtain ⟨st₂, h₂, h⟩ := of_bind_eq_ok h
    cases h
    have hadded := addEntry_books h₂
    rw [hnormal] at hadded
    exact drifts_of_surplus hadded (by decide)

theorem propagateAll_drifts {entries : List Entry} {invalidated : List Bytes}
    {r : Store × List Bytes} (h : st.propagateAll entries invalidated = .ok r) :
    Drifts entries.length st r.1 := by
  induction entries generalizing st invalidated with
  | nil =>
      cases h
      exact drifts_of_eq rfl
  | cons entry rest ih =>
      obtain ⟨r₁, h₁, h⟩ := of_bind_eq_ok h
      have hall := (propagate_drifts h₁).trans (ih h)
      rw [Nat.add_comm] at hall
      exact hall

theorem invalidateAll_drifts {keys : List Bytes} (h : st.invalidateAll keys = .ok st') :
    Drifts keys.length st st' := by
  induction keys generalizing st with
  | nil =>
      cases h
      exact drifts_of_eq rfl
  | cons key rest ih =>
      obtain ⟨st₁, h₁, h⟩ := of_bind_eq_ok h
      have hone : Drifts 1 st st₁ := by
        obtain ⟨pos, -, h₁⟩ := of_bind_eq_ok h₁
        split at h₁
        · exact drifts_of_surplus (removeEntry_books h₁) (by decide)
        · cases h₁
          exact drifts_of_eq rfl
      have hall := hone.trans (ih h)
      rw [Nat.add_comm] at hall
      exact hall

end Store

namespace Handler

variable {h h' : Handler}

/-! ## Calls -/

/-- A put is counted once, as an update or as an insertion, and its entry is
explained. -/
theorem putEntry_books {key value : Bytes} (hrun : h.putEntry key value = .ok h') :
    h'.books = { h.books with puts := h.books.puts + 1 } := by
  obtain ⟨st₁, h₁, hrun⟩ := of_bind_eq_ok hrun
  obtain ⟨pos, -, hrun⟩ := of_bind_eq_ok hrun
  rw [← Store.normalizeTable_books h₁]
  split at hrun
  · obtain ⟨st₂, h₂, hrun⟩ := of_bind_eq_ok hrun
    cases hrun
    have hbooks := Store.accessEntry_books h₂
    rw [hbooks]
    simp only [Store.books, Store.tally, Store.setVersion, Store.setValue, Store.modify,
      Books.mk.injEq, and_true]
    omega
  · obtain ⟨st₂, h₂, hrun⟩ := of_bind_eq_ok hrun
    cases hrun
    have hbooks := Store.addEntry_books h₂
    rw [hbooks]
    simp only [Store.books, Store.tally, Books.mk.injEq, true_and]
    omega

theorem getLocked_books {args : GetArgs} {r : Handler × GetReply}
    (hrun : h.getLocked args = .ok r) :
    (r.2.status = .ok ∧ r.1.books = { h.books with goodGets := h.books.goodGets + 1 }) ∨
      (r.2.status = .noKey ∧
        r.1.books = { h.books with failedGets := h.books.failedGets + 1 }) := by
  obtain ⟨pos, -, hrun⟩ := of_bind_eq_ok hrun
  split at hrun
  · obtain ⟨st₁, h₁, hrun⟩ := of_bind_eq_ok hrun
    cases hrun
    have hbooks := Store.accessEntry_books h₁
    exact .inl ⟨rfl, hbooks⟩
  · cases hrun
    exact .inr ⟨rfl, rfl⟩

theorem antiEntropyLocked_drifts {query : AntiEntropyArgs} {r : Handler × AntiEntropyReply}
    (hrun : h.antiEntropyLocked query = .ok r) :
    Store.Drifts query.entries.length h.toStore r.1.toStore := by
  obtain ⟨merged, hall, hrun⟩ := of_bind_eq_ok hrun
  cases hrun
  exact Store.propagateAll_drifts hall

theorem replyLocked_drifts {peer : Server} {reply : AntiEntropyReply}
    (hrun : h.replyLocked peer reply = .ok h') :
    Store.Drifts reply.invalidatedEntries.length h.toStore h'.toStore := by
  unfold replyLocked at hrun
  split at hrun
  · obtain ⟨st, hall, hrun⟩ := of_bind_eq_ok hrun
    cases hrun
    exact Store.invalidateAll_drifts hall
  · cases hrun
    exact Store.drifts_of_eq rfl

theorem cleanLoop_books {fuel : Nat} {pos : Int} (hrun : cleanLoop fuel h pos = .ok h') :
    h'.books = h.books := by
  induction fuel generalizing h pos with
  | zero => cases hrun
  | succ fuel ih =>
      rw [cleanLoop] at hrun
      split at hrun
      · cases hrun
        rfl
      · obtain ⟨servers, -, hrun⟩ := of_bind_eq_ok hrun
        split at hrun
        · have hbooks := ih hrun
          exact hbooks
        · obtain ⟨st₁, h₁, hrun⟩ := of_bind_eq_ok hrun
          refine (ih hrun).trans ?_
          have hremoved := Store.removeEntry_books h₁
          simp only [Store.books, Store.tally, Books.mk.injEq] at hremoved ⊢
          refine ⟨hremoved.1, hremoved.2.1, hremoved.2.2.1, ?_⟩
          omega

/-! ## Runs -/

end Handler

namespace Step

def isPut (s : Step) : Bool :=
  match s.op with
  | .serve (.put _) => true
  | _ => false

def isGet (s : Step) : Bool :=
  match s.op with
  | .serve (.get _) => true
  | _ => false

/-- How many entries of peers, or keys invalidated by a peer, the operation works
on. -/
def exchanged (s : Step) : Nat :=
  match s.op with
  | .serve (.antiEntropy query) => query.entries.length
  | .serve (.reply _ reply) => reply.invalidatedEntries.length
  | _ => 0

end Step

namespace Handler

variable {h h' : Handler}

/-- What the books of a server come to after some puts, gets and exchanges. -/
structure Booked (puts gets exchanged : Nat) (st : Store) : Prop where
  puts : st.books.puts = puts
  gets : st.books.goodGets + st.books.failedGets = gets
  surplus : |st.books.surplus| ≤ exchanged

theorem Booked.drifts {puts gets exchanged n : Nat} {st st' : Store}
    (hb : Booked puts gets exchanged st) (hd : Store.Drifts n st st') :
    Booked puts gets (exchanged + n) st' := by
  refine ⟨hd.puts.trans hb.puts, ?_, ?_⟩
  · rw [hd.goodGets, hd.failedGets]
    exact hb.gets
  · have hone := abs_le.mp hb.surplus
    have htwo := abs_le.mp hd.surplus
    rw [abs_le]
    push_cast
    omega

theorem Booked.put {puts gets exchanged : Nat} {st st' : Store}
    (hb : Booked puts gets exchanged st)
    (hput : st'.books = { st.books with puts := st.books.puts + 1 }) :
    Booked (puts + 1) gets exchanged st' := by
  obtain ⟨hputs, hgets, hsurplus⟩ := hb
  constructor
  · rw [hput]
    push_cast
    exact congrArg (· + 1) hputs
  · rw [hput]
    exact hgets
  · rw [hput]
    exact hsurplus

theorem Booked.get {puts gets exchanged : Nat} {st st' : Store}
    (hb : Booked puts gets exchanged st)
    (hget : st'.books = { st.books with goodGets := st.books.goodGets + 1 } ∨
      st'.books = { st.books with failedGets := st.books.failedGets + 1 }) :
    Booked puts (gets + 1) exchanged st' := by
  obtain ⟨hputs, hgets, hsurplus⟩ := hb
  cases hget with
  | inl hgood =>
      refine ⟨by rw [hgood, hputs], ?_, by rw [hgood]; exact hsurplus⟩
      rw [hgood]
      push_cast
      omega
  | inr hfailed =>
      refine ⟨by rw [hfailed, hputs], ?_, by rw [hfailed]; exact hsurplus⟩
      rw [hfailed]
      push_cast
      omega

theorem leave_booked {puts gets exchanged : Nat} (hb : Booked puts gets exchanged h.toStore)
    {s : Step} (hrun : h.leave s = .ok h') :
    Booked (puts + if s.isPut then 1 else 0) (gets + if s.isGet then 1 else 0)
      (exchanged + s.exchanged) h'.toStore := by
  obtain ⟨view, op⟩ := s
  cases op with
  | cleanHash =>
      have hbooks : h'.books = h.books := by
        simp only [leave] at hrun
        split at hrun
        · cases hrun
          rfl
        · exact cleanLoop_books (h := { h with currentView := view }) hrun
      exact hb.drifts (Store.drifts_of_eq hbooks)
  | serve r =>
      cases r with
      | put args =>
          obtain ⟨h₁, hput, hrun⟩ := of_bind_eq_ok hrun
          have hstore : h'.toStore = h₁.toStore := by
            split at hrun
            · cases hrun
              rfl
            · cases hrun
              rfl
          rw [hstore]
          have hbooks := putEntry_books hput
          exact hb.put hbooks
      | get args =>
          obtain ⟨r, hserve, rfl⟩ := of_map_eq_ok hrun
          obtain ⟨r', hget, hr⟩ := of_bind_eq_ok hserve
          cases hr
          apply hb.get
          rcases getLocked_books hget with ⟨-, hgood⟩ | ⟨-, hfailed⟩
          · exact .inl hgood
          · exact .inr hfailed
      | antiEntropy query =>
          obtain ⟨r, hserve, rfl⟩ := of_map_eq_ok hrun
          obtain ⟨r', hmerge, hr⟩ := of_bind_eq_ok hserve
          cases hr
          have hdrifts := antiEntropyLocked_drifts hmerge
          exact hb.drifts hdrifts
      | reply peer reply =>
          obtain ⟨r, hserve, rfl⟩ := of_map_eq_ok hrun
          obtain ⟨h₁, hreply, hr⟩ := of_bind_eq_ok hserve
          cases hr
          have hdrifts := replyLocked_drifts hreply
          exact hb.drifts hdrifts

theorem leaveAll_booked {puts gets exchanged : Nat} (hb : Booked puts gets exchanged h.toStore)
    {steps : List Step} (hrun : h.leaveAll steps = .ok h') :
    Booked (puts + steps.countP Step.isPut) (gets + steps.countP Step.isGet)
      (exchanged + (steps.map Step.exchanged).sum) h'.toStore := by
  induction steps generalizing h puts gets exchanged with
  | nil =>
      cases hrun
      exact hb
  | cons s rest ih =>
      obtain ⟨h₁, hone, hrest⟩ := of_bind_eq_ok hrun
      have hall := ih (leave_booked hb hone) hrest
      rw [List.countP_cons, List.countP_cons, List.map_cons, List.sum_cons]
      convert hall using 1
      · omega
      · omega
      · omega

/-- In every run from the constructor, the counters of a server are the numbers of the
puts and gets it has served, and `numInsertions`, `numEvictions` and `numPurges` explain
the entries in its table up to what its peers have sent or invalidated; without
exchanges they explain them exactly. -/
theorem statistics_account (server : Server) (steps : List Step) :
    ∃ h, (initial server).leaveAll steps = .ok h ∧
      h.statistics.numInsertions + h.statistics.numUpdates = steps.countP Step.isPut ∧
      h.statistics.numGoodGets + h.statistics.numFailedGets = steps.countP Step.isGet ∧
      |(h.items.length : Int) - (h.statistics.numInsertions - h.statistics.numEvictions -
        h.statistics.numPurges)| ≤ ((steps.map Step.exchanged).sum : Nat) := by
  have hr : Represents (initial server).toStore [] := Represents.initial
  obtain ⟨h, items, hrun, hrep, -⟩ := leaveAll_spec hr rfl steps
  have hempty : Booked 0 0 0 ({} : Store) := ⟨rfl, rfl, by decide⟩
  have hstart : Booked 0 0 0 (initial server).toStore := hempty
  have hbooked := leaveAll_booked hstart hrun
  have hlength : h.numEntries = h.items.length := by
    rw [hrep.items_eq]
    obtain ⟨l, hl, rfl⟩ := hrep
    rw [hl.entries, itemsAt, List.length_map]
  obtain ⟨hputs, hgets, hsurplus⟩ := hbooked
  simp only [Store.books, Nat.zero_add] at hputs hgets hsurplus
  refine ⟨h, hrun, hputs, hgets, ?_⟩
  rw [← hlength]
  convert hsurplus using 2
  omega

end Handler

end RobustCache
