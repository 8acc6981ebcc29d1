import RobustCache.Server.Runs

/-! # What an operation brings

An item that an operation leaves was held before, or it has the key and the value of a
put or of an entry that a peer has sent, however it has been merged, trimmed and moved.
-/

namespace RobustCache

open Lib

def Step.brings (s : Step) : List (Bytes × Bytes) :=
  match s.op with
  | .serve (.put args) => [(args.key, args.value)]
  | .serve (.antiEntropy query) => query.entries.map fun e => (e.key, e.value)
  | _ => []

namespace Lru

variable {fits : List Item → Prop} [DecidablePred fits] {items : List Item} {it : Item}

def Kept (items : List Item) (it : Item) : Prop :=
  ∃ old ∈ items, old.key = it.key ∧ old.value = it.value

theorem kept_of_mem (h : it ∈ items) : Kept items it := ⟨it, h, rfl, rfl⟩

theorem mem_propagate {e : Entry} (hdis : Recency.Distinct Item.key items)
    (h : it ∈ (propagate fits e items).1) :
    Kept items it ∨ (it.key, it.value) = (e.key, e.value) := by
  have hinit : Recency.shrink fits items <+: items := Recency.shrink_prefix items
  rcases mem_merge (hdis.sublist hinit.sublist) h with
    hold | rfl | ⟨old, hold, -, -, -, -, rfl⟩
  · exact .inl (kept_of_mem (hinit.subset hold))
  · exact .inr rfl
  · exact .inl ⟨old, hinit.subset hold, rfl, rfl⟩

theorem mem_propagateAll {entries : List Entry} (hdis : Recency.Distinct Item.key items)
    (h : it ∈ (propagateAll fits entries items).1) :
    Kept items it ∨ (it.key, it.value) ∈ entries.map fun e => (e.key, e.value) := by
  induction entries generalizing items with
  | nil => exact .inl (kept_of_mem h)
  | cons e rest ih =>
      have hinit : Recency.shrink fits items <+: items := Recency.shrink_prefix items
      have hdis' : Recency.Distinct Item.key (propagate fits e items).1 :=
        distinct_merge (hdis.sublist hinit.sublist)
      rcases ih hdis' h with ⟨old, hold, hkey, hvalue⟩ | hrest
      · rcases mem_propagate hdis hold with ⟨first, hfirst, hkey', hvalue'⟩ | hnew
        · exact .inl ⟨first, hfirst, hkey'.trans hkey, hvalue'.trans hvalue⟩
        · rw [hkey, hvalue] at hnew
          rw [hnew]
          exact .inr List.mem_cons_self
      · exact .inr (List.mem_cons_of_mem _ hrest)

theorem mem_leave {server : Server} {s : Step} (hdis : Recency.Distinct Item.key items)
    (h : it ∈ leave fits server items s) : Kept items it ∨ (it.key, it.value) ∈ s.brings := by
  obtain ⟨view, op⟩ := s
  cases op with
  | cleanHash =>
      left
      simp only [leave] at h
      split at h
      · obtain ⟨old, hold, rfl | ⟨-, rfl⟩⟩ := mem_clean h
        · exact kept_of_mem hold
        · exact ⟨old, hold, rfl, rfl⟩
      · exact kept_of_mem h
  | serve r =>
      cases r with
      | put args =>
          rcases mem_put.mp h with rfl | ⟨hold, -⟩
          · exact .inr (List.mem_singleton.mpr rfl)
          · exact .inl (kept_of_mem ((Recency.shrink_prefix items).subset hold))
      | get args => exact .inl (kept_of_mem ((mem_get hdis).mp h))
      | antiEntropy query => exact mem_propagateAll hdis h
      | reply peer reply =>
          left
          simp only [leave, serve] at h
          split at h
          · exact kept_of_mem (mem_invalidateAll.mp h).1
          · exact kept_of_mem h

end Lru

end RobustCache
