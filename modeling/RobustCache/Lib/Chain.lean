import Mathlib.Data.List.Nodup
import Mathlib.Tactic

/-! # Doubly linked lists threaded through an index space

The nodes of an intrusive list are indices; `next` and `prev` are read from the
records they index, and `nil` is the sentinel index that ends the list. `Seg`
describes a stretch of such a list between two neighbours, so that unlinking a
node in the middle is reasoning about the two stretches around it.
-/

namespace RobustCache.Lib

/-- `Seg next prev p h l q t`: starting at `h`, with `p` behind it, the links
visit exactly `l`; `q` is the last node visited (or `p`) and `t` comes next. -/
def Seg {ι : Type} (next prev : ι → ι) : ι → ι → List ι → ι → ι → Prop
  | p, h, [], q, t => q = p ∧ t = h
  | p, h, i :: l, q, t => h = i ∧ prev i = p ∧ Seg next prev i (next i) l q t

/-- A whole list from `head` to `tail`, with the sentinel at both ends. -/
def Chain {ι : Type} (nil : ι) (next prev : ι → ι) (head tail : ι) (l : List ι) : Prop :=
  nil ∉ l ∧ Seg next prev nil head l tail nil

/-- Follow `next` from `pos` until the sentinel, for at most `fuel` nodes. -/
def walk {ι : Type} [DecidableEq ι] (nil : ι) (next : ι → ι) : Nat → ι → List ι
  | 0, _ => []
  | fuel + 1, pos => if pos = nil then [] else pos :: walk nil next fuel (next pos)

variable {ι : Type} {nil : ι} {next prev next' prev' : ι → ι}

namespace Seg

theorem frame {l : List ι} {p h q t : ι} (hs : Seg next prev p h l q t)
    (hn : ∀ i ∈ l, next' i = next i) (hp : ∀ i ∈ l, prev' i = prev i) :
    Seg next' prev' p h l q t := by
  induction l generalizing p h with
  | nil => exact hs
  | cons i l ih =>
      obtain ⟨hh, hpi, hrest⟩ := hs
      refine ⟨hh, by rw [hp i (by simp), hpi], ?_⟩
      rw [hn i (by simp)]
      exact ih hrest (fun j hj => hn j (by simp [hj])) (fun j hj => hp j (by simp [hj]))

theorem append {l₁ l₂ : List ι} {p h q t : ι} :
    Seg next prev p h (l₁ ++ l₂) q t ↔
      ∃ m n, Seg next prev p h l₁ m n ∧ Seg next prev m n l₂ q t := by
  induction l₁ generalizing p h with
  | nil => simp [Seg]
  | cons i l ih =>
      simp only [List.cons_append, Seg, ih]
      constructor
      · rintro ⟨hh, hp, m, n, h₁, h₂⟩
        exact ⟨m, n, ⟨hh, hp, h₁⟩, h₂⟩
      · rintro ⟨m, n, ⟨hh, hp, h₁⟩, h₂⟩
        exact ⟨hh, hp, m, n, h₁, h₂⟩

theorem last_mem {l : List ι} {p h q t : ι} (hs : Seg next prev p h l q t) :
    (l = [] ∧ q = p) ∨ q ∈ l := by
  induction l generalizing p h with
  | nil => exact .inl ⟨rfl, hs.1⟩
  | cons i l ih =>
      obtain ⟨_, _, hrest⟩ := hs
      rcases ih hrest with ⟨rfl, rfl⟩ | hq
      · exact .inr (by simp)
      · exact .inr (by simp [hq])

theorem first_mem {l : List ι} {p h q t : ι} (hs : Seg next prev p h l q t) :
    (l = [] ∧ t = h) ∨ h ∈ l := by
  cases l with
  | nil => exact .inl ⟨rfl, hs.2⟩
  | cons i l => exact .inr (by simp [hs.1])

theorem first_eq {l : List ι} {p h q t : ι} (hs : Seg next prev p h l q t) :
    h = l.headD t := by
  cases l with
  | nil => exact hs.2.symm
  | cons i l => exact hs.1

theorem retarget {l : List ι} {p h q t t' : ι} (hs : Seg next prev p h l q t)
    (hne : l ≠ []) (hnodup : l.Nodup) (hq : next' q = t')
    (hn : ∀ i ∈ l, i ≠ q → next' i = next i) (hp : ∀ i ∈ l, prev' i = prev i) :
    Seg next' prev' p h l q t' := by
  induction l generalizing p h with
  | nil => exact absurd rfl hne
  | cons i l ih =>
      obtain ⟨hh, hpi, hrest⟩ := hs
      refine ⟨hh, by rw [hp i (by simp), hpi], ?_⟩
      cases l with
      | nil =>
          have hqi : q = i := hrest.1
          subst hqi
          exact ⟨rfl, hq.symm⟩
      | cons j l =>
          have hne' : i ≠ q := by
            rcases last_mem hrest with ⟨hnil, _⟩ | hmem
            · cases hnil
            · rintro rfl
              exact (List.nodup_cons.mp hnodup).1 hmem
          rw [hn i (by simp) hne']
          exact ih hrest (by simp) (List.nodup_cons.mp hnodup).2
            (fun k hk => hn k (List.mem_cons_of_mem i hk))
            (fun k hk => hp k (List.mem_cons_of_mem i hk))

theorem reback {l : List ι} {p p' h t' : ι} {q t : ι} (hs : Seg next prev p h l q t)
    (hne : l ≠ []) (hnodup : l.Nodup) (hh : prev' h = p')
    (hn : ∀ i ∈ l, next' i = next i) (hp : ∀ i ∈ l, i ≠ h → prev' i = prev i)
    (ht : t' = t) : Seg next' prev' p' h l q t' := by
  subst ht
  cases l with
  | nil => exact absurd rfl hne
  | cons i l =>
      obtain ⟨rfl, _, hrest⟩ := hs
      refine ⟨rfl, hh, ?_⟩
      rw [hn h (by simp)]
      refine hrest.frame (fun j hj => hn j (by simp [hj])) (fun j hj => hp j (by simp [hj]) ?_)
      rintro rfl
      exact (List.nodup_cons.mp hnodup).1 hj

end Seg

namespace Chain

variable {head tail head' tail' : ι} {l : List ι}

theorem head_eq_nil (h : Chain nil next prev head tail l) : head = nil ↔ l = [] := by
  obtain ⟨hnil, hs⟩ := h
  constructor
  · rintro rfl
    rcases hs.first_mem with ⟨hl, _⟩ | hmem
    · exact hl
    · exact absurd hmem hnil
  · rintro rfl
    exact hs.2.symm

theorem tail_eq_nil (h : Chain nil next prev head tail l) : tail = nil ↔ l = [] := by
  obtain ⟨hnil, hs⟩ := h
  constructor
  · rintro rfl
    rcases hs.last_mem with ⟨hl, _⟩ | hmem
    · exact hl
    · exact absurd hmem hnil
  · rintro rfl
    exact hs.1

theorem tail_getLast (h : Chain nil next prev head tail l) (hne : l ≠ []) :
    l = l.dropLast ++ [tail] := by
  obtain ⟨hnil, hs⟩ := h
  rw [← List.dropLast_append_getLast hne] at hs
  obtain ⟨m, n, _, h₂⟩ := Seg.append.mp hs
  obtain ⟨_, _, ht, _⟩ := h₂
  conv_lhs => rw [← List.dropLast_append_getLast hne]
  rw [ht]

theorem frame (h : Chain nil next prev head tail l) (hn : ∀ i ∈ l, next' i = next i)
    (hp : ∀ i ∈ l, prev' i = prev i) : Chain nil next' prev' head tail l :=
  ⟨h.1, h.2.frame hn hp⟩

theorem next_eq {l₁ l₂ : List ι} {i : ι}
    (h : Chain nil next prev head tail (l₁ ++ i :: l₂)) : next i = l₂.headD nil := by
  rcases Seg.append.mp h.2 with ⟨a, b, -, -, -, h₂⟩
  exact h₂.first_eq

theorem neighbours {l₁ l₂ : List ι} {i : ι}
    (h : Chain nil next prev head tail (l₁ ++ i :: l₂)) :
    (prev i = nil ∨ prev i ∈ l₁) ∧ (next i = nil ∨ next i ∈ l₂) := by
  rcases Seg.append.mp h.2 with ⟨a, b, h₁, rfl, hpi, h₂⟩
  constructor
  · rw [hpi]
    exact h₁.last_mem.imp_left And.right
  · exact h₂.first_mem.imp_left fun h => h.2.symm

variable [DecidableEq ι]

/-- Following `next` from the head lists exactly the nodes. -/
theorem walk_eq {fuel : Nat} (h : Chain nil next prev head tail l)
    (hfuel : l.length ≤ fuel) : walk nil next fuel head = l := by
  obtain ⟨hnil, hs⟩ := h
  suffices ∀ p, Seg next prev p head l tail nil → walk nil next fuel head = l from this _ hs
  clear hs
  intro p hs
  induction l generalizing fuel head p with
  | nil =>
      obtain ⟨_, rfl⟩ := hs
      cases fuel <;> simp [walk]
  | cons i l ih =>
      obtain ⟨rfl, _, hrest⟩ := hs
      cases fuel with
      | zero => simp at hfuel
      | succ fuel =>
          have hi : head ≠ nil := fun he => hnil (by simp [he])
          simp only [walk, if_neg hi, List.cons.injEq, true_and]
          exact ih (by simpa using hfuel) (fun hm => hnil (by simp [hm])) _ hrest

/-- Splice node `i` out: its neighbours, or the list ends, are linked to each
other. -/
theorem unlink {l₁ l₂ : List ι} {i : ι} (h : Chain nil next prev head tail (l₁ ++ i :: l₂))
    (hnodup : (l₁ ++ i :: l₂).Nodup)
    (hnext : prev i ≠ nil → next' (prev i) = next i)
    (hprev : next i ≠ nil → prev' (next i) = prev i)
    (hn : ∀ j ∈ l₁ ++ l₂, j ≠ prev i → next' j = next j)
    (hp : ∀ j ∈ l₁ ++ l₂, j ≠ next i → prev' j = prev j)
    (hhead : head' = if prev i = nil then next i else head)
    (htail : tail' = if next i = nil then prev i else tail) :
    Chain nil next' prev' head' tail' (l₁ ++ l₂) := by
  obtain ⟨hnil, hs⟩ := h
  obtain ⟨a, b, h₁, rfl, hpi, h₂⟩ := Seg.append.mp hs
  subst hpi
  have hnil₁ : nil ∉ l₁ := fun hm => hnil (by simp [hm])
  have hnil₂ : nil ∉ l₂ := fun hm => hnil (by simp [hm])
  have hdisj : ∀ j ∈ l₁, j ∉ l₂ := by
    intro j hj₁ hj₂
    exact (List.nodup_append.mp hnodup).2.2 j hj₁ j (by simp [hj₂]) rfl
  have hnd₁ : l₁.Nodup := (List.nodup_append.mp hnodup).1
  have hnd₂ : l₂.Nodup := (List.nodup_cons.mp (List.nodup_append.mp hnodup).2.1).2
  refine ⟨by simp [hnil₁, hnil₂], Seg.append.mpr ⟨prev b, next b, ?_, ?_⟩⟩
  · -- the stretch before the node: its outgoing link skips the node
    rcases h₁.last_mem with ⟨rfl, ha⟩ | hmem
    · rw [if_pos ha] at hhead
      exact ⟨ha, hhead.symm⟩
    · have hne : prev b ≠ nil := fun he => hnil₁ (he ▸ hmem)
      rw [if_neg hne] at hhead
      subst hhead
      refine h₁.retarget (List.ne_nil_of_mem hmem) hnd₁ (hnext hne)
        (fun j hj hjne => hn j (by simp [hj]) hjne) (fun j hj => hp j (by simp [hj]) ?_)
      rintro rfl
      rcases h₂.first_mem with ⟨rfl, ht⟩ | hmem₂
      · exact hnil₁ (ht ▸ hj)
      · exact hdisj _ hj hmem₂
  · -- the stretch after it: its backward link skips the node
    rcases h₂.last_mem with ⟨rfl, hq⟩ | hmem
    · have hnb : next b = nil := h₂.2.symm
      rw [if_pos hnb] at htail
      exact ⟨htail, hnb.symm⟩
    · have hfirst : next b ∈ l₂ := by
        rcases h₂.first_mem with ⟨rfl, _⟩ | hf
        · simp at hmem
        · exact hf
      have hne : next b ≠ nil := fun he => hnil₂ (he ▸ hfirst)
      rw [if_neg hne] at htail
      subst htail
      refine h₂.reback (List.ne_nil_of_mem hmem) hnd₂ (hprev hne)
        (fun j hj => hn j (by simp [hj]) ?_) (fun j hj hjne => hp j (by simp [hj]) hjne) rfl
      rintro rfl
      rcases h₁.last_mem with ⟨_, ha⟩ | hmem₁
      · exact hnil₂ (ha ▸ hj)
      · exact hdisj _ hmem₁ hj

theorem pushFront {i : ι} (h : Chain nil next prev head tail l) (hinil : i ≠ nil)
    (hnodup : l.Nodup) (hni : next' i = head) (hpi : prev' i = nil)
    (hh : head ≠ nil → prev' head = i)
    (hn : ∀ j ∈ l, next' j = next j) (hp : ∀ j ∈ l, j ≠ head → prev' j = prev j)
    (htail : tail' = if tail = nil then i else tail) :
    Chain nil next' prev' i tail' (i :: l) := by
  have hempty := h.tail_eq_nil
  have hhead := h.head_eq_nil
  obtain ⟨hnil, hs⟩ := h
  refine ⟨by simp [hnil, hinil.symm], rfl, hpi, ?_⟩
  rw [hni]
  by_cases hl : l = []
  · subst hl
    rw [if_pos (hempty.mpr rfl)] at htail
    exact ⟨htail, hs.2⟩
  · rw [if_neg (fun he => hl (hempty.mp he))] at htail
    subst htail
    exact hs.reback hl hnodup (hh (fun he => hl (hhead.mp he))) hn hp rfl

theorem pushBack {i : ι} (h : Chain nil next prev head tail l) (hinil : i ≠ nil)
    (hnodup : l.Nodup) (hni : next' i = nil) (hpi : prev' i = tail)
    (ht : tail ≠ nil → next' tail = i)
    (hn : ∀ j ∈ l, j ≠ tail → next' j = next j) (hp : ∀ j ∈ l, prev' j = prev j)
    (hhead : head' = if head = nil then i else head) :
    Chain nil next' prev' head' i (l ++ [i]) := by
  have hempty := h.tail_eq_nil
  have hheadnil := h.head_eq_nil
  obtain ⟨hnil, hs⟩ := h
  refine ⟨by simp [hnil, hinil.symm], Seg.append.mpr ⟨tail, i, ?_, rfl, hpi, ?_⟩⟩
  · by_cases hl : l = []
    · subst hl
      rw [if_pos (hheadnil.mpr rfl)] at hhead
      exact ⟨hs.1, hhead.symm⟩
    · rw [if_neg (fun he => hl (hheadnil.mp he))] at hhead
      subst hhead
      exact hs.retarget hl hnodup (ht (fun he => hl (hempty.mp he))) hn hp
  · exact ⟨rfl, hni.symm⟩

end Chain

end RobustCache.Lib
