import RobustCache.Client.Lookup
import RobustCache.Lib.Unicode

/-! # One key, three hashes

The hash that a client computes for a key against `ir_hash` of the bytes that the
server gets. The loops agree on characters below 128: there the sign of a `char`
in C++, the width of a `char` in Java and the unbounded integers of Python make no
difference. The Python client then folds the result into the signed range with a
constant and a bound that are off by one.
-/

namespace RobustCache

open Lib

theorem signExtend_of_ascii {n : Nat} (h : n < 128) :
    (BitVec.ofNat 8 n).signExtend 32 = BitVec.ofNat 32 n := by
  have hmsb : (BitVec.ofNat 8 n).msb = false := by
    rw [BitVec.msb_eq_decide, BitVec.toNat_ofNat]
    simp only [decide_eq_false_iff_not]
    omega
  apply BitVec.eq_of_toNat_eq
  rw [BitVec.signExtend_eq_setWidth_of_msb_false hmsb, BitVec.toNat_setWidth, BitVec.toNat_ofNat,
    BitVec.toNat_ofNat]
  omega

namespace Python

theorem ofNat_convert (n : Nat) : BitVec.ofNat 32 (convert n) = BitVec.ofNat 32 n := by
  apply BitVec.eq_of_toNat_eq
  simp only [BitVec.toNat_ofNat, convert]
  omega

theorem ofNat_shiftLeft (n i : Nat) : BitVec.ofNat 32 (n <<< i) = BitVec.ofNat 32 n <<< i := by
  apply BitVec.eq_of_toNat_eq
  simp only [BitVec.toNat_ofNat, BitVec.toNat_shiftLeft, Nat.shiftLeft_eq]
  exact (Nat.mod_mul_mod n (2 ^ i) (2 ^ 32)).symm

/-- The low 32 bits of a round are those of a round of `ir_hash`, whatever the
bits above them are. -/
theorem ofNat_mixByte (result : Nat) {c : Fin 256} (hc : c.val < 128) :
    BitVec.ofNat 32 (mixByte result c) = RobustCache.mixByte (BitVec.ofNat 32 result) c := by
  have hxor : BitVec.ofNat 32 (result ^^^ convert c) =
      BitVec.ofNat 32 result ^^^ (BitVec.ofNat 8 c).signExtend 32 := by
    rw [BitVec.ofNat_xor, ofNat_convert, signExtend_of_ascii hc]
  simp only [mixByte, RobustCache.mixByte, BitVec.ofNat_add, ofNat_convert, ofNat_shiftLeft, hxor]

theorem ofNat_foldl {key : Bytes} (hascii : ∀ c ∈ key, c.val < 128) (result : Nat) :
    BitVec.ofNat 32 (key.foldl mixByte result) =
      key.foldl RobustCache.mixByte (BitVec.ofNat 32 result) := by
  induction key generalizing result with
  | nil => rfl
  | cons c rest ih =>
      rw [List.foldl_cons, List.foldl_cons, ih fun c' hc' => hascii c' (List.mem_cons_of_mem _ hc'),
        ofNat_mixByte result (hascii c List.mem_cons_self)]

theorem foldl_mod {key : Bytes} (hascii : ∀ c ∈ key, c.val < 128) :
    key.foldl mixByte 0 % 4294967296 = (mixBytes key).toNat := by
  have hbits := congrArg BitVec.toNat (ofNat_foldl hascii 0)
  rw [BitVec.toNat_ofNat] at hbits
  exact hbits

/-- What the last lines of the loop make of a hash that is not negative, of the
least one, and of the others. -/
theorem hash_eq {key : Bytes} (hascii : ∀ c ∈ key, c.val < 128) :
    Python.hash key = if 0 ≤ irHash key then irHash key
      else if irHash key = -2147483648 then 2147483648 else irHash key + 1 := by
  have hlt := (mixBytes key).isLt
  have hint : irHash key = if (mixBytes key).toNat < 2147483648 then ((mixBytes key).toNat : Int)
      else (mixBytes key).toNat - 4294967296 := by
    unfold irHash
    rw [BitVec.toInt_eq_toNat_cond]
    split <;> split <;> omega
  simp only [Python.hash, foldl_mod hascii]
  rw [hint]
  split_ifs <;> omega

/-- For every ASCII key the Python client computes the hash of the server if that
is not negative, and another one otherwise. -/
theorem hash_eq_iff {key : Bytes} (hascii : ∀ c ∈ key, c.val < 128) :
    Python.hash key = irHash key ↔ 0 ≤ irHash key := by
  rw [hash_eq hascii]
  split_ifs <;> omega

theorem hash_eq_iff_digits :
    (∀ c ∈ ([49, 50] : Bytes), c.val < 128) ∧ 0 ≤ irHash [49, 50] ∧
      Python.hash [49, 50] = irHash [49, 50] := by
  have hascii : ∀ c ∈ ([49, 50] : Bytes), c.val < 128 := by simp
  have hsign : 0 ≤ irHash [49, 50] := by decide +kernel
  exact ⟨hascii, hsign, (hash_eq_iff hascii).mpr hsign⟩

/-- The key of two letters `a`. -/
theorem hash_off_by_one :
    irHash [97, 97] = -2047831402 ∧ Python.hash [97, 97] = -2047831401 := by
  decide +kernel

end Python

namespace Java

theorem mixChar_of_ascii (result : BitVec 32) {c : BitVec 16} (hc : c.toNat < 128) :
    mixChar result c = mixByte result (Unicode.byte c.toNat) := by
  have hbyte : ((Unicode.byte c.toNat : Fin 256) : Nat) = c.toNat := by
    show c.toNat % 256 = c.toNat
    omega
  have hwide : c.zeroExtend 32 = BitVec.ofNat 32 c.toNat := by
    apply BitVec.eq_of_toNat_eq
    rw [BitVec.toNat_setWidth, BitVec.toNat_ofNat]
  simp only [mixChar, mixByte, hbyte, signExtend_of_ascii hc, hwide]

theorem foldl_mixChar {s : Chars} (hascii : Unicode.Ascii s) (result : BitVec 32) :
    s.foldl mixChar result = (Unicode.utf8 s).foldl mixByte result := by
  rw [Unicode.utf8_of_ascii hascii]
  induction s generalizing result with
  | nil => rfl
  | cons c rest ih =>
      rw [List.map_cons, List.foldl_cons, List.foldl_cons,
        mixChar_of_ascii result (hascii c List.mem_cons_self),
        ih fun c' hc' => hascii c' (List.mem_cons_of_mem _ hc')]

/-- For every ASCII key the Java client computes the hash that the server
computes for the bytes it is sent, and looks it up to the same group. -/
theorem hash_agrees_of_ascii {s : Chars} (hascii : Unicode.Ascii s) :
    Java.hash s = irHash (Unicode.utf8 s) ∧
      ∀ (order : List Int) (v : View), order.Perm v.hashToServer.keys →
        Java.getServer order (Java.hash s) v =
          match RobustCache.getServer (irHash (Unicode.utf8 s)) v with
          | .ok servers => .ok servers
          | .error _ => .error .emptyRing := by
  have hhash : Java.hash s = irHash (Unicode.utf8 s) := by
    rw [Java.hash, foldl_mixChar hascii]
    rfl
  refine ⟨hhash, fun order v horder => ?_⟩
  rw [hhash]
  exact getServer_eq horder _

theorem hash_agrees_of_ascii_letters :
    Unicode.Ascii [104, 105] ∧ Java.hash [104, 105] = irHash (Unicode.utf8 [104, 105]) := by
  have hascii : Unicode.Ascii [104, 105] := by simp [Unicode.Ascii]
  exact ⟨hascii, (hash_agrees_of_ascii hascii).1⟩

def splitRing : View := View.twoPoints 0 2000000000 ⟨[1], 1⟩ ⟨[2], 2⟩

/-- The key of one letter `é`, which has a code unit and two bytes. -/
theorem hash_differs_of_accent :
    Unicode.utf8 [0xE9] = [0xC3, 0xA9] ∧ Java.hash [0xE9] = -385782069 ∧
      irHash [0xC3, 0xA9] = 1469554160 ∧
      Java.getServer [0, 2000000000] (Java.hash [0xE9]) splitRing = .ok [⟨[1], 1⟩] ∧
      RobustCache.getServer (irHash (Unicode.utf8 [0xE9])) splitRing = .ok [⟨[2], 2⟩] := by
  decide +kernel

end Java

end RobustCache
