import Mathlib.Algebra.BigOperators.Group.Finset.Basic
import RobustCache.Server.Runs

/-! # Memory accounting

The size counter is a 32-bit integer that six places adjust. While no entry is
larger than a bound that keeps the limit away from the wrap, the counter is the
size of the `ALIVE` slots, and the eviction loop that tests it ends below the
limit.
-/

namespace RobustCache

open Lib

namespace Store

def aliveSize (st : Store) : Int :=
  ∑ i ∈ st.slotsIn .alive, ((st.slot i).key.length + (st.slot i).value.length : Int)

/-- What holds of the counter and of `normalizeTable` when entries have at most
`B` bytes. -/
structure Accounted (st : Store) (B : Nat) : Prop where
  exact : st.totalKeyValueSize = st.aliveSize
  nonneg : 0 ≤ st.totalKeyValueSize
  bounded : st.totalKeyValueSize ≤ memoryLimit + B
  /-- The eviction loop ends, and no assertion in it fails. -/
  evicts : ∃ st', evictLoop (st.hashTable.size + 1) st = .ok st'
  normalizes : ∃ st', st.normalizeTable = .ok st' ∧ st'.totalKeyValueSize = st'.aliveSize ∧
    st'.getUsedMemory ≤ memoryLimit ∧ 4 * st'.numEntries ≤ st'.hashTable.size ∧
    2 * (st'.numEntries + st'.numDeadEntries) ≤ st'.hashTable.size

end Store

/-! ## The counter -/

namespace Represents

variable {st : Store} {items : List Item} {B : Int}

theorem sum_alive (h : Represents st items) (f : Item → Int) :
    ∑ i ∈ st.slotsIn .alive, f (st.slot i).item = (items.map f).sum := by
  obtain ⟨l, hl, rfl⟩ := h
  have hcast : ∀ i ∈ l, ((i.toNat : Nat) : Int) = i := fun i hi =>
    Int.toNat_of_nonneg (hl.table.inside hi).1
  rw [hl.table.slotsIn_alive, List.sum_toFinset _ hl.table.nodup_toNat, List.map_map]
  unfold itemsAt
  rw [List.map_map]
  congr 1
  apply List.map_congr_left
  intro i hi
  simp only [Function.comp_apply, hcast i hi]
  rfl

theorem aliveSize_eq (h : Represents st items) : st.aliveSize = totalSize items :=
  h.sum_alive Item.size

theorem counter_eq (h : Represents st items) (hB : memoryLimit + B < 2147483648)
    (hb : Lru.Within B items) : st.totalKeyValueSize = totalSize items := by
  have h0 := totalSize_nonneg items
  unfold Lru.Within at hb
  obtain ⟨l, hl, rfl⟩ := h
  rw [hl.total, toInt32_of_range (by omega) (by omega)]

theorem accounted {B : Nat} (h : Represents st items) (hB : memoryLimit + B < 2147483648)
    (hb : Lru.Within B items) : st.Accounted B := by
  have hcounter := h.counter_eq hB hb
  obtain ⟨st₁, h₁, -⟩ := h.evictLoop (Nat.lt_succ_of_le h.length_le)
  obtain ⟨st', hrun, hrep, hnormal, -⟩ := h.normalize
  rw [Lru.shrink_eq hB hb] at hrep
  have hkept := Lru.fits_kept items
  have hkept' : Lru.Within B (Recency.shrink Lru.Fits items) := by
    unfold Lru.Within
    omega
  have hcounter' := hrep.counter_eq hB hkept'
  refine ⟨?_, ?_, ?_, ⟨st₁, h₁⟩, st', hrun, ?_, ?_, hnormal⟩
  · rw [hcounter, h.aliveSize_eq]
  · rw [hcounter]
    exact totalSize_nonneg items
  · rw [hcounter]
    exact hb
  · rw [hcounter', hrep.aliveSize_eq]
  · unfold Store.getUsedMemory
    rw [hcounter']
    exact hkept

end Represents

/-! ## Runs -/

theorem Lru.totalSize_clean (server : Server) (v : View) (items : List Item) :
    totalSize (clean server v items) ≤ totalSize items := by
  induction items with
  | nil => exact le_refl _
  | cons it rest ih =>
      have h0 := it.size_nonneg
      by_cases hown : server ∈ group it.key v
      · simp only [clean, if_pos hown, totalSize_cons]
        exact Int.add_le_add_left ih it.size
      · simp only [clean, if_neg hown, totalSize_cons]
        omega

/-- Every key and value of the operation together have at most `B` bytes. -/
def Step.Within (B : Int) (s : Step) : Prop :=
  match s.op with
  | .serve r => r.Within B
  | .cleanHash => True

/-- Below the wrap an operation leaves what it would leave under the true sizes,
and that is within the bound. -/
theorem Lru.leave_within {items : List Item} {B : Int} (hB : memoryLimit + B < 2147483648)
    (server : Server) (hdis : Recency.Distinct Item.key items) (hb : Within B items) {s : Step}
    (hsize : s.Within B) : Within B (leave FitsCounter server items s) := by
  obtain ⟨view, op⟩ := s
  cases op with
  | serve r =>
      obtain ⟨heq, hb'⟩ := serve_eq hB server hdis hb hsize
      show Within B (serve FitsCounter server items r).1
      rw [heq]
      exact hb'
  | cleanHash =>
      simp only [leave]
      split
      · exact (totalSize_clean server view.view items).trans hb
      · exact hb

namespace Handler

variable {h : Handler} {items : List Item} {B : Int}

theorem leaveAll_within (hB : memoryLimit + B < 2147483648) (hr : Represents h.toStore items)
    (hb : Lru.Within B items) {steps : List Step} (hsize : ∀ s ∈ steps, s.Within B) :
    ∃ h' items', h.leaveAll steps = .ok h' ∧ Represents h'.toStore items' ∧
      Lru.Within B items' := by
  induction steps generalizing h items with
  | nil => exact ⟨h, items, rfl, hr, hb⟩
  | cons s rest ih =>
      obtain ⟨h₁, h₁run, hr₁, -⟩ := leave_spec hr s
      have hb₁ := Lru.leave_within hB h.server hr.distinct hb (hsize s List.mem_cons_self)
      obtain ⟨h₂, items₂, h₂run, hr₂, hb₂⟩ :=
        ih hr₁ hb₁ fun s hs => hsize s (List.mem_cons_of_mem _ hs)
      exact ⟨h₂, items₂, (leaveAll_cons h₁run rest).trans h₂run, hr₂, hb₂⟩

/-- In every run with entries of at most `B` bytes the counter is exact and
bounded, and `normalizeTable` would return below the limit and the load bounds. -/
theorem leaveAll_accounted (server : Server) (B : Nat) (hB : memoryLimit + B < 2 ^ 31)
    (steps : List Step) (hsize : ∀ s ∈ steps, s.Within B) :
    ∃ h, (initial server).leaveAll steps = .ok h ∧ h.toStore.Accounted B := by
  have hB' : memoryLimit + (B : Int) < 2147483648 := hB
  have hb : Lru.Within B [] := by
    unfold Lru.Within totalSize memoryLimit
    simp only [List.map_nil, List.sum_nil]
    omega
  obtain ⟨h, items, hrun, hrep, hb'⟩ :=
    leaveAll_within (h := initial server) hB' Represents.initial hb hsize
  exact ⟨h, hrun, hrep.accounted hB' hb'⟩

/-- A put under a view whose ring is empty, and one under a view of its server. -/
def thrownPut (s : Server) : List Step :=
  [⟨{}, .serve (.put ⟨[1], [7, 8], 0⟩)⟩,
    ⟨{ view := View.single [s], viewNum := 1 }, .serve (.put ⟨[2], [9], 1⟩)⟩]

theorem leaveAll_accounted_thrownPut :
    (∀ s ∈ thrownPut ⟨[1], 1⟩, s.Within 3) ∧
      ∃ h, (initial ⟨[1], 1⟩).leaveAll (thrownPut ⟨[1], 1⟩) = .ok h ∧ h.toStore.Accounted 3 := by
  have hsize : ∀ s ∈ thrownPut ⟨[1], 1⟩, s.Within 3 := by
    simp [thrownPut, Step.Within, Request.Within]
  exact ⟨hsize, leaveAll_accounted ⟨[1], 1⟩ 3 (by decide) _ hsize⟩

end Handler

end RobustCache
