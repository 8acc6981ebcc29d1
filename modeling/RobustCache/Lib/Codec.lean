import Mathlib.Data.Nat.ModEq
import Mathlib.Tactic

/-! # Reading and writing bytes

Parsers that take bytes from the front of an input, and the integers of a fixed number
of bytes in network order, in two's complement. Each reader comes with the law that it
takes back what its writer has put in front of the rest.
-/

namespace RobustCache.Lib

abbrev Byte := Fin 256

variable {ε α β : Type}

/-- A parser takes bytes from the front of its input, or fails. -/
abbrev Parser (ε : Type) := StateT (List Byte) (Except ε)

namespace Parser

def fail (fault : ε) : Parser ε α := fun _ => .error fault

/-- The parser takes these bytes, whatever follows them. -/
def Takes (p : Parser ε α) (bytes : List Byte) (a : α) : Prop :=
  ∀ rest, p (bytes ++ rest) = .ok (a, rest)

theorem bind_ok {p : Parser ε α} {bytes rest : List Byte} {a : α} (h : p bytes = .ok (a, rest))
    (f : α → Parser ε β) : (p >>= f) bytes = f a rest := by
  show (p bytes >>= fun r => f r.1 r.2) = _
  rw [h]
  rfl

theorem bind_error {p : Parser ε α} {bytes : List Byte} {fault : ε} (h : p bytes = .error fault)
    (f : α → Parser ε β) : (p >>= f) bytes = .error fault := by
  show (p bytes >>= fun r => f r.1 r.2) = _
  rw [h]
  rfl

theorem takes_pure (a : α) : Takes (pure a : Parser ε α) [] a := fun _ => rfl

theorem Takes.bind {p : Parser ε α} {f : α → Parser ε β} {front back : List Byte} {a : α} {b : β}
    (hp : Takes p front a) (hf : Takes (f a) back b) : Takes (p >>= f) (front ++ back) b := by
  intro rest
  rw [List.append_assoc, bind_ok (hp (back ++ rest))]
  exact hf rest

theorem Takes.map {p : Parser ε α} {bytes : List Byte} {a : α} (hp : Takes p bytes a)
    (f : α → β) : Takes (f <$> p) bytes (f a) :=
  fun rest => bind_ok (hp rest) fun a => pure (f a)

/-- What the parser makes of any input weighs at most what there was before and the bytes
that it has taken. -/
def Weighs (p : Parser ε α) (before : Nat) (weight : α → Nat) : Prop :=
  ∀ bytes a rest, p bytes = .ok (a, rest) → weight a + rest.length ≤ before + bytes.length

theorem weighs_fail (fault : ε) (before : Nat) (weight : α → Nat) :
    Weighs (fail fault) before weight := fun _ _ _ h => by cases h

theorem weighs_pure {a : α} {before : Nat} {weight : α → Nat} (h : weight a ≤ before) :
    Weighs (pure a : Parser ε α) before weight := by
  intro bytes b rest hpure
  cases hpure
  omega

theorem Weighs.bind {p : Parser ε α} {f : α → Parser ε β} {before : Nat} {mid : α → Nat}
    {weight : β → Nat} (hp : Weighs p before mid) (hf : ∀ a, Weighs (f a) (mid a) weight) :
    Weighs (p >>= f) before weight := by
  intro bytes b rest h
  change (p bytes >>= fun r => f r.1 r.2) = .ok (b, rest) at h
  cases hfront : p bytes with
  | error fault =>
      rw [hfront] at h
      cases h
  | ok r =>
      rw [hfront] at h
      have hleft := hp bytes r.1 r.2 hfront
      have hright := hf r.1 r.2 b rest h
      omega

theorem Weighs.map {p : Parser ε α} {f : α → β} {before : Nat} {weight : β → Nat}
    (hp : Weighs p before fun a => weight (f a)) : Weighs (f <$> p) before weight :=
  hp.bind fun _ => weighs_pure (le_refl _)

theorem Weighs.mono {p : Parser ε α} {before before' : Nat} {weight weight' : α → Nat}
    (hp : Weighs p before weight) (h : ∀ a, weight' a + before ≤ before' + weight a) :
    Weighs p before' weight' := by
  intro bytes a rest hrun
  have hkept := hp bytes a rest hrun
  have hmore := h a
  omega

def take (fault : ε) (n : Nat) : Parser ε (List Byte) := fun bytes =>
  if bytes.length < n then .error fault else .ok (bytes.take n, bytes.drop n)

theorem takes_take (fault : ε) (bytes : List Byte) :
    Takes (take fault bytes.length) bytes bytes := by
  intro rest
  unfold take
  rw [if_neg (by simp), List.take_left, List.drop_left]

theorem take_short (fault : ε) {n : Nat} {bytes : List Byte} (h : bytes.length < n) :
    take fault n bytes = .error fault := if_pos h

theorem weighs_take (fault : ε) (n : Nat) : Weighs (take fault n) 0 List.length := by
  intro bytes a rest h
  unfold take at h
  split at h
  · cases h
  · cases h
    rw [List.length_take, List.length_drop]
    omega

theorem weighs_take_count (fault : ε) (n : Nat) : Weighs (take fault n) 0 fun _ => n := by
  intro bytes a rest h
  unfold take at h
  split at h
  · cases h
  · cases h
    show n + (bytes.drop n).length ≤ 0 + bytes.length
    rw [List.length_drop]
    omega

def times (p : Parser ε α) : Nat → Parser ε (List α)
  | 0 => pure []
  | n + 1 => do
      let a ← p
      let as ← times p n
      return a :: as

theorem takes_times {p : Parser ε α} {write : α → List Byte} (as : List α)
    (hp : ∀ a ∈ as, Takes p (write a) a) : Takes (times p as.length) (as.flatMap write) as := by
  induction as with
  | nil => exact takes_pure []
  | cons a as ih =>
      have hrest := ih fun b hb => hp b (List.mem_cons_of_mem a hb)
      exact (hp a List.mem_cons_self).bind (hrest.map (a :: ·))

theorem weighs_times {p : Parser ε α} {weight : α → Nat} (hp : Weighs p 0 weight) (n : Nat) :
    Weighs (times p n) 0 fun as => (as.map weight).sum := by
  induction n with
  | zero => exact weighs_pure (le_refl _)
  | succ n ih =>
      apply hp.bind
      intro a
      have hrest : Weighs (times p n) (weight a) fun as => ((a :: as).map weight).sum := by
        apply ih.mono
        intro as
        rw [List.map_cons, List.sum_cons]
        omega
      exact hrest.bind fun _ => weighs_pure (le_refl _)

end Parser

/-! ## Integers -/

/-- The last `k` bytes of a number, the highest one first. -/
def toBytes : Nat → Nat → List Byte
  | 0, _ => []
  | k + 1, n => ⟨n / 256 ^ k % 256, Nat.mod_lt _ (by decide)⟩ :: toBytes k n

def ofBytes (bytes : List Byte) : Nat := bytes.foldl (fun n b => n * 256 + b.val) 0

@[simp] theorem length_toBytes (k n : Nat) : (toBytes k n).length = k := by
  induction k with
  | zero => rfl
  | succ k ih => simp [toBytes, ih]

theorem foldl_toBytes (k n start : Nat) :
    (toBytes k n).foldl (fun n b => n * 256 + b.val) start = start * 256 ^ k + n % 256 ^ k := by
  induction k generalizing start with
  | zero => simp [toBytes, Nat.mod_one]
  | succ k ih =>
      rw [toBytes, List.foldl_cons, ih, Nat.mod_pow_succ]
      ring

theorem ofBytes_toBytes (k n : Nat) : ofBytes (toBytes k n) = n % 256 ^ k := by
  rw [ofBytes, foldl_toBytes, Nat.zero_mul, Nat.zero_add]

theorem foldl_bytes (bytes : List Byte) (start : Nat) :
    bytes.foldl (fun n b => n * 256 + b.val) start =
      start * 256 ^ bytes.length + ofBytes bytes := by
  induction bytes generalizing start with
  | nil => simp [ofBytes]
  | cons b bytes ih =>
      rw [ofBytes, List.foldl_cons, List.foldl_cons, ih, ih, List.length_cons]
      ring

theorem ofBytes_cons (b : Byte) (bytes : List Byte) :
    ofBytes (b :: bytes) = b.val * 256 ^ bytes.length + ofBytes bytes := by
  rw [ofBytes, List.foldl_cons, foldl_bytes, Nat.zero_mul, Nat.zero_add]

theorem ofBytes_lt (bytes : List Byte) : ofBytes bytes < 256 ^ bytes.length := by
  induction bytes with
  | nil => simp [ofBytes]
  | cons b bytes ih =>
      have hb : b.val * 256 ^ bytes.length ≤ 255 * 256 ^ bytes.length :=
        Nat.mul_le_mul_right _ (Nat.le_of_lt_succ b.isLt)
      rw [ofBytes_cons, List.length_cons, Nat.pow_succ]
      omega

theorem toBytes_add (k m n : Nat) : toBytes k (m * 256 ^ k + n) = toBytes k n := by
  induction k generalizing m with
  | zero => rfl
  | succ k ih =>
      have hpos : 0 < 256 ^ k := by positivity
      have hsplit : m * 256 ^ (k + 1) + n = m * 256 * 256 ^ k + n := by ring
      have hfirst : (m * 256 * 256 ^ k + n) / 256 ^ k % 256 = n / 256 ^ k % 256 := by
        rw [Nat.add_comm, Nat.add_mul_div_right _ _ hpos, Nat.add_mul_mod_self_right]
      simp only [toBytes, hsplit, hfirst, ih]

theorem toBytes_ofBytes (bytes : List Byte) : toBytes bytes.length (ofBytes bytes) = bytes := by
  induction bytes with
  | nil => rfl
  | cons b bytes ih =>
      have hpos : 0 < 256 ^ bytes.length := by positivity
      have hfirst : (b.val * 256 ^ bytes.length + ofBytes bytes) / 256 ^ bytes.length % 256 =
          b.val := by
        rw [Nat.add_comm, Nat.add_mul_div_right _ _ hpos, Nat.div_eq_of_lt (ofBytes_lt bytes),
          Nat.zero_add, Nat.mod_eq_of_lt b.isLt]
      rw [List.length_cons, ofBytes_cons, toBytes, toBytes_add, ih]
      exact congrArg (· :: bytes) (Fin.ext hfirst)

/-- The integer in two's complement. -/
def writeInt (k : Nat) (n : Int) : List Byte := toBytes k (n % 256 ^ k).toNat

def signed (k m : Nat) : Int := if m < 256 ^ k / 2 then m else (m : Int) - 256 ^ k

def FitsIn (k : Nat) (n : Int) : Prop := -(256 ^ k / 2 : Nat) ≤ n ∧ n < (256 ^ k / 2 : Nat)

instance instDecidableFitsIn (k : Nat) (n : Int) : Decidable (FitsIn k n) :=
  inferInstanceAs (Decidable (_ ∧ _))

@[simp] theorem length_writeInt (k : Nat) (n : Int) : (writeInt k n).length = k :=
  length_toBytes k _

theorem signed_writeInt {k : Nat} {n : Int} (h : FitsIn k n) :
    signed k (ofBytes (writeInt k n)) = n := by
  have hpos : (0 : Int) < 256 ^ k := by positivity
  have hlt := Int.emod_lt_of_pos n hpos
  have hnonneg := Int.emod_nonneg n hpos.ne'
  have hmod : (n % 256 ^ k).toNat % 256 ^ k = (n % 256 ^ k).toNat := by
    apply Nat.mod_eq_of_lt
    zify
    rw [Int.toNat_of_nonneg hnonneg]
    exact hlt
  have hhalf : ((256 ^ k / 2 : Nat) : Int) ≤ 256 ^ k - (256 ^ k / 2 : Nat) := by
    have : 256 ^ k / 2 + 256 ^ k / 2 ≤ 256 ^ k := by omega
    zify at this
    push_cast
    omega
  rw [writeInt, ofBytes_toBytes, hmod, signed]
  obtain ⟨hlow, hhigh⟩ := h
  by_cases hn : 0 ≤ n
  · have heq : n % 256 ^ k = n := Int.emod_eq_of_lt hn (by omega)
    rw [heq, if_pos (by omega), Int.toNat_of_nonneg hn]
  · -- a negative number is written as its distance to the next power
    have heq : n % 256 ^ k = n + 256 ^ k := by
      rw [← Int.add_emod_right]
      exact Int.emod_eq_of_lt (by omega) (by omega)
    rw [heq, if_neg (by omega), Int.toNat_of_nonneg (by omega)]
    omega

namespace Parser

def int (fault : ε) (k : Nat) : Parser ε Int := (fun bytes => signed k (ofBytes bytes)) <$>
  take fault k

theorem takes_int (fault : ε) {k : Nat} {n : Int} (h : FitsIn k n) :
    Takes (int fault k) (writeInt k n) n := by
  have htake := takes_take fault (writeInt k n)
  rw [length_writeInt] at htake
  have hmap := htake.map fun bytes => signed k (ofBytes bytes)
  rwa [signed_writeInt h] at hmap

theorem int_short (fault : ε) {k : Nat} {bytes : List Byte} (h : bytes.length < k) :
    int fault k bytes = .error fault :=
  bind_error (take_short fault h) fun bytes => pure (signed k (ofBytes bytes))

theorem weighs_int_width (fault : ε) (k : Nat) : Weighs (int fault k) 0 fun _ => k :=
  Weighs.map (f := fun bytes => signed k (ofBytes bytes)) (weighs_take_count fault k)

theorem weighs_int (fault : ε) (k : Nat) : Weighs (int fault k) 0 fun _ => 0 := by
  apply (weighs_int_width fault k).mono
  intro n
  omega

end Parser

end RobustCache.Lib
