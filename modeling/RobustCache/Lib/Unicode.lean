import Mathlib.Data.Fin.Basic

/-! # Text as UTF-16 and as UTF-8

From a sequence of UTF-16 code units to the bytes of its UTF-8 encoding. A
surrogate that has no partner stands for no character and is encoded as a
replacement byte, as `getBytes` does in Java.
-/

namespace RobustCache.Lib.Unicode

/-- The first half of a surrogate pair. -/
def isHigh (c : BitVec 16) : Bool := 0xD800 ≤ c.toNat && c.toNat < 0xDC00

/-- The second half of a surrogate pair. -/
def isLow (c : BitVec 16) : Bool := 0xDC00 ≤ c.toNat && c.toNat < 0xE000

def single (c : BitVec 16) : Option Nat := if isHigh c || isLow c then none else some c.toNat

/-- The code points of a sequence of code units. -/
def codePoints : List (BitVec 16) → List (Option Nat)
  | [] => []
  | [c] => [single c]
  | c :: d :: rest =>
      if isHigh c && isLow d then
        some (0x10000 + (c.toNat - 0xD800) * 0x400 + (d.toNat - 0xDC00)) :: codePoints rest
      else single c :: codePoints (d :: rest)

def byte (n : Nat) : Fin 256 := ⟨n % 256, Nat.mod_lt n (Nat.succ_pos 255)⟩

/-- A byte that continues a longer sequence, with six bits of the code point. -/
def continuation (n : Nat) : Fin 256 := byte (0x80 + n % 64)

/-- The UTF-8 sequence of a code point. -/
def encode (n : Nat) : List (Fin 256) :=
  if n < 0x80 then [byte n]
  else if n < 0x800 then [byte (0xC0 + n / 64), continuation n]
  else if n < 0x10000 then [byte (0xE0 + n / 4096), continuation (n / 64), continuation n]
  else [byte (0xF0 + n / 262144), continuation (n / 4096), continuation (n / 64), continuation n]

/-- The byte for what is not a character, a question mark. -/
def replacement : Fin 256 := byte 0x3F

def utf8 (text : List (BitVec 16)) : List (Fin 256) :=
  (codePoints text).flatMap fun
    | some n => encode n
    | none => [replacement]

/-! ## ASCII -/

def Ascii (text : List (BitVec 16)) : Prop := ∀ c ∈ text, c.toNat < 128

theorem single_of_ascii {c : BitVec 16} (h : c.toNat < 128) : single c = some c.toNat := by
  have hhigh : isHigh c = false := by
    simp only [isHigh, Bool.and_eq_false_iff, decide_eq_false_iff_not]
    omega
  have hlow : isLow c = false := by
    simp only [isLow, Bool.and_eq_false_iff, decide_eq_false_iff_not]
    omega
  simp [single, hhigh, hlow]

theorem codePoints_of_ascii {text : List (BitVec 16)} (h : Ascii text) :
    codePoints text = text.map fun c => some c.toNat := by
  induction text using codePoints.induct with
  | case1 => rfl
  | case2 c =>
      rw [codePoints, single_of_ascii (h c List.mem_cons_self)]
      rfl
  | case3 c d rest hpair ih =>
      have hc := h c List.mem_cons_self
      simp only [isHigh, Bool.and_eq_true, decide_eq_true_eq] at hpair
      omega
  | case4 c d rest hpair ih =>
      rw [codePoints, if_neg hpair, single_of_ascii (h c List.mem_cons_self),
        ih fun c' hc' => h c' (List.mem_cons_of_mem _ hc')]
      rfl

theorem utf8_of_ascii {text : List (BitVec 16)} (h : Ascii text) :
    utf8 text = text.map fun c => byte c.toNat := by
  unfold utf8
  rw [codePoints_of_ascii h, List.flatMap_map]
  induction text with
  | nil => rfl
  | cons c rest ih =>
      have hc := h c List.mem_cons_self
      rw [List.flatMap_cons, ih fun c' hc' => h c' (List.mem_cons_of_mem _ hc')]
      simp [encode, hc]

end RobustCache.Lib.Unicode
