import Mathlib.Data.List.Nodup
import Mathlib.Data.Nat.Find
import Mathlib.Tactic

/-! # Recency lists

The abstract content of a least-recently-used store: a list of items, the most
recently used one first, in which no two items have the same key. Eviction
keeps the longest prefix that fits, that is, it drops the shortest suffix from
the least recently used end.
-/

namespace RobustCache.Lib.Recency

variable {α κ : Type} [DecidableEq κ] (key : α → κ)

def Distinct (l : List α) : Prop := (l.map key).Nodup

def lookup (k : κ) (l : List α) : Option α := l.find? fun a => key a = k

def remove (k : κ) (l : List α) : List α := l.filter fun a => key a ≠ k

/-- Put an item in front, in the place of whatever item had its key. -/
def promote (a : α) (l : List α) : List α := a :: remove key (key a) l

def rewrite (k : κ) (f : α → α) (l : List α) : List α :=
  l.map fun a => if key a = k then f a else a

/-- The longest prefix that fits. -/
def shrink (fits : List α → Prop) [DecidablePred fits] (l : List α) : List α :=
  l.take (Nat.findGreatest (fun n => fits (l.take n)) l.length)

variable {key}

/-! ## Keys -/

omit [DecidableEq κ] in
theorem Distinct.eq_of_key {l : List α} (h : Distinct key l) {a b : α} (ha : a ∈ l)
    (hb : b ∈ l) (hk : key a = key b) : a = b :=
  List.inj_on_of_nodup_map h ha hb hk

omit [DecidableEq κ] in
theorem Distinct.sublist {l l' : List α} (h : Distinct key l) (hs : l'.Sublist l) :
    Distinct key l' :=
  List.Nodup.sublist (hs.map key) h

theorem mem_remove {k : κ} {l : List α} {a : α} :
    a ∈ remove key k l ↔ a ∈ l ∧ key a ≠ k := by
  simp [remove]

theorem mem_promote {a b : α} {l : List α} :
    b ∈ promote key a l ↔ b = a ∨ (b ∈ l ∧ key b ≠ key a) := by
  simp [promote, mem_remove]

theorem Distinct.remove {l : List α} (h : Distinct key l) (k : κ) :
    Distinct key (remove key k l) :=
  h.sublist List.filter_sublist

theorem Distinct.promote {l : List α} (h : Distinct key l) (a : α) :
    Distinct key (promote key a l) := by
  refine List.nodup_cons.mpr ⟨?_, h.remove (key a)⟩
  intro hm
  obtain ⟨b, hb, hk⟩ := List.mem_map.mp hm
  exact (mem_remove.mp hb).2 hk

theorem Distinct.rewrite {l : List α} (h : Distinct key l) (k : κ) {f : α → α}
    (hf : ∀ a, key a = k → key (f a) = key a) : Distinct key (rewrite key k f l) := by
  have : (Recency.rewrite key k f l).map key = l.map key := by
    unfold Recency.rewrite
    rw [List.map_map]
    refine List.map_congr_left fun a _ => ?_
    by_cases hk : key a = k <;> simp [hk, hf]
  unfold Distinct
  rwa [this]

theorem lookup_some {k : κ} {l : List α} {a : α} (h : Distinct key l) :
    lookup key k l = some a ↔ a ∈ l ∧ key a = k := by
  constructor
  · intro hf
    exact ⟨List.mem_of_find?_eq_some hf, by simpa using List.find?_some hf⟩
  · rintro ⟨ha, hk⟩
    cases hf : lookup key k l with
    | none =>
        rw [lookup, List.find?_eq_none] at hf
        exact absurd hk (by simpa using hf a ha)
    | some b =>
        have hb : key b = k := by simpa using List.find?_some hf
        rw [h.eq_of_key (List.mem_of_find?_eq_some hf) ha (hb.trans hk.symm)]

theorem lookup_none {k : κ} {l : List α} :
    lookup key k l = none ↔ ∀ a ∈ l, key a ≠ k := by
  simp [lookup, List.find?_eq_none]

theorem remove_of_not_mem {k : κ} {l : List α} (h : ∀ a ∈ l, key a ≠ k) :
    remove key k l = l := by
  rw [remove, List.filter_eq_self]
  simpa using h

omit [DecidableEq κ] in
theorem ne_of_split {l₁ l₂ : List α} {a : α} (h : Distinct key (l₁ ++ a :: l₂)) :
    (∀ b ∈ l₁, key b ≠ key a) ∧ ∀ b ∈ l₂, key b ≠ key a := by
  unfold Distinct at h
  rw [List.map_append, List.map_cons, List.nodup_append] at h
  exact ⟨fun b hb => h.2.2 _ (List.mem_map.mpr ⟨b, hb, rfl⟩) _ (by simp),
    fun b hb he => (List.nodup_cons.mp h.2.1).1 (List.mem_map.mpr ⟨b, hb, he⟩)⟩

theorem remove_split {l₁ l₂ : List α} {a : α} (h : Distinct key (l₁ ++ a :: l₂)) :
    remove key (key a) (l₁ ++ a :: l₂) = l₁ ++ l₂ := by
  rcases ne_of_split h with ⟨hl₁, hl₂⟩
  calc remove key (key a) (l₁ ++ a :: l₂)
      = remove key (key a) l₁ ++ remove key (key a) l₂ := by simp [remove]
    _ = l₁ ++ l₂ := by rw [remove_of_not_mem hl₁, remove_of_not_mem hl₂]

theorem rewrite_split {l₁ l₂ : List α} {a : α} {k : κ} (h : Distinct key (l₁ ++ a :: l₂))
    (hk : key a = k) (f : α → α) :
    rewrite key k f (l₁ ++ a :: l₂) = l₁ ++ f a :: l₂ := by
  rcases ne_of_split h with ⟨hl₁, hl₂⟩
  subst hk
  have hid : ∀ l : List α, (∀ b ∈ l, key b ≠ key a) → rewrite key (key a) f l = l := by
    intro l hl
    unfold rewrite
    conv_rhs => rw [← List.map_id l]
    exact List.map_congr_left fun b hb => by simp [hl b hb]
  calc rewrite key (key a) f (l₁ ++ a :: l₂)
      = rewrite key (key a) f l₁ ++ f a :: rewrite key (key a) f l₂ := by simp [rewrite]
    _ = l₁ ++ f a :: l₂ := by rw [hid l₁ hl₁, hid l₂ hl₂]

theorem mem_rewrite {k : κ} {f : α → α} {l : List α} {b : α} :
    b ∈ rewrite key k f l ↔ (b ∈ l ∧ key b ≠ k) ∨ ∃ a ∈ l, key a = k ∧ f a = b := by
  unfold rewrite
  rw [List.mem_map]
  constructor
  · rintro ⟨a, ha, rfl⟩
    by_cases hk : key a = k
    · exact .inr ⟨a, ha, hk, by simp [hk]⟩
    · exact .inl (by simpa [hk] using ha)
  · rintro (⟨hb, hk⟩ | ⟨a, ha, hk, rfl⟩)
    · exact ⟨b, hb, by simp [hk]⟩
    · exact ⟨a, ha, by simp [hk]⟩

theorem remove_cons_self {k : κ} {a : α} (h : key a = k) (l : List α) :
    remove key k (a :: l) = remove key k l := by
  simp [remove, h]

theorem remove_cons_ne {k : κ} {a : α} (h : key a ≠ k) (l : List α) :
    remove key k (a :: l) = a :: remove key k l := by
  simp [remove, h]

theorem remove_rewrite {k : κ} {f : α → α} (hf : ∀ a, key a = k → key (f a) = k)
    (l : List α) : remove key k (rewrite key k f l) = remove key k l := by
  induction l with
  | nil => rfl
  | cons a l ih =>
      show remove key k ((if key a = k then f a else a) :: rewrite key k f l) = _
      by_cases hk : key a = k
      · rw [if_pos hk, remove_cons_self (hf a hk), remove_cons_self hk, ih]
      · rw [if_neg hk, remove_cons_ne hk, remove_cons_ne hk, ih]

/-- What stands in the place of a promoted item does not matter. -/
theorem promote_rewrite {k : κ} {f : α → α} {a : α} (ha : key a = k)
    (hf : ∀ a, key a = k → key (f a) = k) (l : List α) :
    promote key a (rewrite key k f l) = promote key a l := by
  unfold promote
  rw [ha, remove_rewrite hf]

theorem rewrite_promote {k : κ} {f : α → α} {a : α} (ha : key a = k) (hf : key (f a) = k)
    (l : List α) : rewrite key k f (promote key a l) = promote key (f a) l := by
  have hrest : rewrite key k f (remove key k l) = remove key k l := by
    unfold rewrite
    conv_rhs => rw [← List.map_id (remove key k l)]
    exact List.map_congr_left fun b hb => by simp [(mem_remove.mp hb).2]
  calc rewrite key k f (promote key a l)
      = f a :: rewrite key k f (remove key k l) := by simp [promote, rewrite, ha]
    _ = promote key (f a) l := by rw [hrest, promote, hf]

theorem promote_of_lookup_none {a : α} {l : List α} (h : lookup key (key a) l = none) :
    promote key a l = a :: l := by
  rw [promote, remove_of_not_mem (lookup_none.mp h)]

/-! ## Eviction -/

private theorem findGreatest_congr_le {P Q : Nat → Prop} [DecidablePred P] [DecidablePred Q]
    {b : Nat} (h : ∀ n ≤ b, (P n ↔ Q n)) : Nat.findGreatest P b = Nat.findGreatest Q b := by
  induction b with
  | zero => simp
  | succ b ih =>
      simp only [Nat.findGreatest_succ, h (b + 1) le_rfl, ih fun n hn => h n (by omega)]

section Shrink

variable {fits : List α → Prop} [DecidablePred fits]

theorem shrink_prefix (l : List α) : shrink fits l <+: l := List.take_prefix _ _

theorem shrink_congr {fits' : List α → Prop} [DecidablePred fits'] {l : List α}
    (h : ∀ n, fits (l.take n) ↔ fits' (l.take n)) : shrink fits l = shrink fits' l := by
  unfold shrink
  rw [findGreatest_congr_le fun n _ => h n]

theorem shrink_of_fits {l : List α} (h : fits l) : shrink fits l = l := by
  unfold shrink
  have hmax : Nat.findGreatest (fun n => fits (l.take n)) l.length = l.length := by
    refine le_antisymm (Nat.findGreatest_le _) (Nat.le_findGreatest le_rfl ?_)
    simpa using h
  rw [hmax, List.take_length]

theorem shrink_concat {l : List α} {a : α} (h : ¬ fits (l ++ [a])) :
    shrink fits (l ++ [a]) = shrink fits l := by
  have hP : ∀ n ≤ l.length, (l ++ [a]).take n = l.take n := fun n hn =>
    List.take_append_of_le_length hn
  have hfind : Nat.findGreatest (fun n => fits ((l ++ [a]).take n)) (l ++ [a]).length =
      Nat.findGreatest (fun n => fits (l.take n)) l.length := by
    rw [List.length_append, List.length_singleton,
      Nat.findGreatest_of_not (by simpa [List.take_of_length_le] using h)]
    exact findGreatest_congr_le fun n hn => by rw [hP n hn]
  unfold shrink
  rw [hfind, hP _ (Nat.findGreatest_le _)]

theorem fits_shrink (h : fits []) (l : List α) : fits (shrink fits l) := by
  have := Nat.findGreatest_spec (P := fun n => fits (l.take n)) (Nat.zero_le l.length)
    (by simpa using h)
  exact this

end Shrink

end RobustCache.Lib.Recency
