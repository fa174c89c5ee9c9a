import Mathlib.Data.Nat.Notation
import Mathlib.Tactic

/-!
# Base64

The standard alphabet with canonical padding: groups of four digits for three bytes, and
one or two pads in the last group. A decoder accepts pads nowhere else, and no bits besides
those of the bytes.
-/
namespace Antegen.Base64

def alphabet : List Char :=
  "ABCDEFGHIJKLMNOPQRSTUVWXYZabcdefghijklmnopqrstuvwxyz0123456789+/".toList

def pad : Char := '='

/-- The digit for six bits. -/
def digit (n : ℕ) : Char := alphabet.getD n pad

/-- The six bits of a digit. -/
def value (c : Char) : Option ℕ := alphabet.idxOf? c

theorem value_digit : ∀ n < 64, value (digit n) = some n := by
  decide +kernel

theorem digit_ne_pad : ∀ n < 64, digit n ≠ pad := by
  decide +kernel

def encodeChars : List UInt8 → List Char
  | [] => []
  | [x] => [digit (x.toNat / 4), digit (x.toNat % 4 * 16), pad, pad]
  | [x, y] => [digit (x.toNat / 4), digit (x.toNat % 4 * 16 + y.toNat / 16),
      digit (y.toNat % 16 * 4), pad]
  | x :: y :: z :: rest =>
    digit (x.toNat / 4) :: digit (x.toNat % 4 * 16 + y.toNat / 16) ::
      digit (y.toNat % 16 * 4 + z.toNat / 64) :: digit (z.toNat % 64) :: encodeChars rest

/-- The bytes of one group. Pads are for the last one, with zeros in the bits they cut. -/
def decodeGroup (a b c d : Char) (last : Bool) : Option (List UInt8) := do
  let p ← value a
  let q ← value b
  if last ∧ c = pad ∧ d = pad then
    if q % 16 = 0 then some [UInt8.ofNat (p * 4 + q / 16)] else none
  else do
    let r ← value c
    if last ∧ d = pad then
      if r % 4 = 0 then
        some [UInt8.ofNat (p * 4 + q / 16), UInt8.ofNat (q % 16 * 16 + r / 4)]
      else none
    else do
      let s ← value d
      some [UInt8.ofNat (p * 4 + q / 16), UInt8.ofNat (q % 16 * 16 + r / 4),
        UInt8.ofNat (r % 4 * 64 + s)]

def decodeChars : List Char → Option (List UInt8)
  | [] => some []
  | a :: b :: c :: d :: rest => do
    let group ← decodeGroup a b c d rest.isEmpty
    let bytes ← decodeChars rest
    some (group ++ bytes)
  | _ => none

def encode (bytes : List UInt8) : String := String.ofList (encodeChars bytes)

def decode (text : String) : Option (List UInt8) := decodeChars text.toList

theorem ofNat_eq {x : UInt8} {n : ℕ} (h : n = x.toNat) : UInt8.ofNat n = x := by
  rw [h, UInt8.ofNat_toNat]

theorem decodeGroup_one (x : UInt8) :
    decodeGroup (digit (x.toNat / 4)) (digit (x.toNat % 4 * 16)) pad pad true = some [x] := by
  have hx := x.toNat_lt
  rw [decodeGroup, value_digit _ (by omega), value_digit _ (by omega)]
  have hbits : x.toNat % 4 * 16 % 16 = 0 := by omega
  simp only [Option.bind_eq_bind, Option.bind_some, and_self, if_true, hbits]
  rw [ofNat_eq (x := x) (by omega)]

theorem decodeGroup_two (x y : UInt8) :
    decodeGroup (digit (x.toNat / 4)) (digit (x.toNat % 4 * 16 + y.toNat / 16))
      (digit (y.toNat % 16 * 4)) pad true = some [x, y] := by
  have hx := x.toNat_lt
  have hy := y.toNat_lt
  have hc : digit (y.toNat % 16 * 4) ≠ pad := digit_ne_pad _ (by omega)
  have hbits : y.toNat % 16 * 4 % 4 = 0 := by omega
  rw [decodeGroup, value_digit _ (by omega), value_digit _ (by omega), value_digit _ (by omega)]
  simp only [Option.bind_eq_bind, Option.bind_some, hc, false_and, and_false, if_false, and_self,
    if_true, hbits]
  rw [ofNat_eq (x := x) (by omega), ofNat_eq (x := y) (by omega)]

theorem decodeGroup_three (x y z : UInt8) (last : Bool) :
    decodeGroup (digit (x.toNat / 4)) (digit (x.toNat % 4 * 16 + y.toNat / 16))
      (digit (y.toNat % 16 * 4 + z.toNat / 64)) (digit (z.toNat % 64)) last = some [x, y, z] := by
  have hx := x.toNat_lt
  have hy := y.toNat_lt
  have hz := z.toNat_lt
  have hd : digit (z.toNat % 64) ≠ pad := digit_ne_pad _ (by omega)
  rw [decodeGroup, value_digit _ (by omega), value_digit _ (by omega), value_digit _ (by omega),
    value_digit _ (by omega)]
  simp only [Option.bind_eq_bind, Option.bind_some, hd, and_false, if_false]
  rw [ofNat_eq (x := x) (by omega), ofNat_eq (x := y) (by omega), ofNat_eq (x := z) (by omega)]

theorem decodeChars_encodeChars (bytes : List UInt8) :
    decodeChars (encodeChars bytes) = some bytes := by
  induction bytes using encodeChars.induct with
  | case1 => rfl
  | case2 x => simp [encodeChars, decodeChars, decodeGroup_one]
  | case3 x y => simp [encodeChars, decodeChars, decodeGroup_two]
  | case4 x y z rest ih => simp [encodeChars, decodeChars, decodeGroup_three, ih]

/-- Decoding inverts encoding. -/
theorem decode_encode (bytes : List UInt8) : decode (encode bytes) = some bytes := by
  rw [decode, encode, String.toList_ofList]
  exact decodeChars_encodeChars bytes

end Antegen.Base64
