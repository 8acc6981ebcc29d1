import Mathlib.Data.Nat.Digits.Lemmas

/-! # Integers in decimal

The characters of an integer, as numbers of ASCII, and the reading of such characters.
A sign may stand in front; reading fails on everything else that is no digit.
-/

namespace RobustCache.Lib

def natChars (n : Nat) : List Nat :=
  if n = 0 then [48] else (Nat.digits 10 n).reverse.map (48 + ·)

def intChars : Int → List Nat
  | .ofNat n => natChars n
  | .negSucc n => 45 :: natChars (n + 1)

def isDigit (c : Nat) : Bool := decide (48 ≤ c) && decide (c < 58)

def readNat (cs : List Nat) : Option Nat :=
  if cs ≠ [] ∧ cs.all isDigit then some (cs.foldl (fun n c => n * 10 + (c - 48)) 0) else none

def readInt : List Nat → Option Int
  | 45 :: rest => (readNat rest).map fun n => -(n : Int)
  | 43 :: rest => (readNat rest).map fun n => (n : Int)
  | cs => (readNat cs).map fun n => (n : Int)

theorem natChars_digits (n : Nat) : ∀ c ∈ natChars n, 48 ≤ c ∧ c < 58 := by
  intro c hc
  unfold natChars at hc
  split at hc
  · rw [List.mem_singleton] at hc
    omega
  · obtain ⟨d, hd, rfl⟩ := List.mem_map.mp hc
    have hlt := Nat.digits_lt_base (by omega) (List.mem_reverse.mp hd)
    omega

theorem natChars_ne_nil (n : Nat) : natChars n ≠ [] := by
  unfold natChars
  split
  · exact List.cons_ne_nil _ _
  · next hn => simpa [Nat.digits_eq_nil_iff_eq_zero] using hn

theorem foldl_natChars (n : Nat) :
    (natChars n).foldl (fun n c => n * 10 + (c - 48)) 0 = n := by
  unfold natChars
  split
  · next hn => rw [hn]; rfl
  · rw [List.foldl_map, List.foldl_reverse]
    calc (Nat.digits 10 n).foldr (fun d n => n * 10 + (48 + d - 48)) 0
        = (Nat.digits 10 n).foldr (fun d n => ((d : Nat) : Nat) + 10 * n) 0 := by
          congr 1
          funext d n
          omega
      _ = Nat.ofDigits 10 (Nat.digits 10 n) := (Nat.ofDigits_eq_foldr 10 _).symm
      _ = n := Nat.ofDigits_digits 10 n

theorem readNat_natChars (n : Nat) : readNat (natChars n) = some n := by
  have hall : (natChars n).all isDigit = true := by
    rw [List.all_eq_true]
    intro c hc
    have hdigit := natChars_digits n c hc
    simp [isDigit, hdigit]
  unfold readNat
  rw [if_pos ⟨natChars_ne_nil n, hall⟩, foldl_natChars]

theorem readInt_intChars (n : Int) : readInt (intChars n) = some n := by
  cases n with
  | ofNat n =>
      have hread : readInt (natChars n) = (readNat (natChars n)).map fun n => (n : Int) := by
        have hdigits := natChars_digits n
        unfold readInt
        split
        · next rest heq =>
          have := hdigits 45 (by rw [heq]; exact List.mem_cons_self)
          omega
        · next rest heq =>
          have := hdigits 43 (by rw [heq]; exact List.mem_cons_self)
          omega
        · rfl
      show readInt (natChars n) = _
      rw [hread, readNat_natChars]
      rfl
  | negSucc n =>
      simp only [intChars, readInt, readNat_natChars]
      rfl

theorem intChars_injective : Function.Injective intChars := by
  intro m n h
  have hread := readInt_intChars m
  rw [h, readInt_intChars n] at hread
  exact (Option.some.inj hread).symm

theorem intChars_lt (n : Int) : ∀ c ∈ intChars n, c < 128 := by
  intro c hc
  cases n with
  | ofNat n =>
      have := natChars_digits n c hc
      omega
  | negSucc n =>
      rcases List.mem_cons.mp hc with rfl | hc
      · omega
      · have := natChars_digits (n + 1) c hc
        omega

end RobustCache.Lib
