import Mathlib.Data.String.Basic
import Antegen.ThreadFormat

/-!
# Names of threads

A thread is named after its id: bytes are read as UTF-8, with a replacement character for
every piece that is none, and a public key is written in base 58. A name can be three
times as long as the id, and longer than the account has reserved for it.
-/
namespace Antegen

open Borsh

/-! ## Lossy decoding -/

/-- Bytes of the character that starts with this byte; none starts with the others. -/
def utf8CharWidth (first : UInt8) : ℕ :=
  if first < 0x80 then 1
  else if first < 0xC2 then 0
  else if first < 0xE0 then 2
  else if first < 0xF0 then 3
  else if first < 0xF5 then 4
  else 0

def isContinuation (byte : UInt8) : Bool := 0x80 ≤ byte && byte < 0xC0

/-- The second byte rules out overlong forms, surrogates and what lies above the last plane. -/
def isSecondByte (first second : UInt8) : Bool :=
  if first = 0xE0 then 0xA0 ≤ second && second < 0xC0
  else if first = 0xED then 0x80 ≤ second && second < 0xA0
  else if first = 0xF0 then 0x90 ≤ second && second < 0xC0
  else if first = 0xF4 then 0x80 ≤ second && second < 0x90
  else isContinuation second

/-- How many of the bytes after the first one continue its character. -/
def continued (first : UInt8) : List UInt8 → ℕ
  | [] => 0
  | second :: rest =>
    if 2 ≤ utf8CharWidth first ∧ isSecondByte first second then
      1 + ((rest.take (utf8CharWidth first - 2)).takeWhile isContinuation).length
    else 0

/-- The character of a first byte and its continuation. -/
def charOf (first : UInt8) (continuation : List UInt8) : Char :=
  let lead := if continuation.isEmpty then first.toNat
    else first.toNat % 2 ^ (6 - continuation.length)
  Char.ofNat (continuation.foldl (fun n byte => n * 64 + byte.toNat % 64) lead)

theorem continued_le (first : UInt8) (rest : List UInt8) : continued first rest ≤ rest.length := by
  cases rest with
  | nil => exact le_rfl
  | cons second rest =>
    have hwhile := (List.takeWhile_sublist (l := rest.take (utf8CharWidth first - 2))
      isContinuation).length_le
    have htake := List.length_take_le' (utf8CharWidth first - 2) rest
    simp only [continued, List.length_cons]
    split_ifs <;> omega

/-- The characters of what follows `skip` bytes that are read already. -/
def lossyChars : ℕ → List UInt8 → List Char
  | _, [] => []
  | skip + 1, _ :: rest => lossyChars skip rest
  | 0, first :: rest =>
    let n := continued first rest
    (if utf8CharWidth first = n + 1 then charOf first (rest.take n) else Char.ofNat 0xFFFD) ::
      lossyChars n rest

/-- `String::from_utf8_lossy`: the longest piece of a character counts as one error. -/
def fromUtf8Lossy (bytes : List UInt8) : String := String.ofList (lossyChars 0 bytes)

example : lossyChars 0 [0x61, 0xC3, 0xBC, 0xE2, 0x82, 0x62, 0xFF] =
    ['a', 'ü', '\uFFFD', 'b', '\uFFFD'] := by
  decide

theorem charOf_ascii {first : UInt8} (h : utf8CharWidth first = 1) :
    (charOf first []).utf8Size = 1 := by
  have hsmall : ∀ n < 128, (Char.ofNat n).utf8Size = 1 := by decide
  have hlt : first < 0x80 := by
    by_contra hge
    rw [utf8CharWidth, if_neg hge] at h
    split_ifs at h <;> omega
  exact hsmall _ (UInt8.lt_iff_toNat_lt.mp hlt)

/-- A character of one byte is one byte, and each other character takes two bytes or more. -/
theorem utf8Len_lossyChars (skip : ℕ) (bytes : List UInt8) :
    String.utf8Len (lossyChars skip bytes) ≤ 3 * (bytes.length - skip) := by
  fun_induction lossyChars skip bytes with
  | case1 => exact Nat.zero_le _
  | case2 skip byte rest ih =>
    rw [List.length_cons]
    omega
  | case3 first rest n ih =>
    have hn : n ≤ rest.length := continued_le first rest
    have hchar : (if utf8CharWidth first = n + 1 then charOf first (rest.take n)
        else Char.ofNat 0xFFFD).utf8Size ≤ 3 * (n + 1) := by
      split_ifs with hwidth
      · by_cases hzero : n = 0
        · rw [hzero] at hwidth ⊢
          rw [List.take_zero, charOf_ascii hwidth]
          omega
        · have hle := Char.utf8Size_le_four (charOf first (rest.take n))
          omega
      · have hsize : (Char.ofNat 0xFFFD).utf8Size = 3 := by decide
        omega
    rw [String.utf8Len_cons, List.length_cons]
    omega

/-! ## Base 58 -/

def base58Alphabet : List Char :=
  ['1', '2', '3', '4', '5', '6', '7', '8', '9', 'A', 'B', 'C', 'D', 'E', 'F', 'G', 'H', 'J', 'K',
   'L', 'M', 'N', 'P', 'Q', 'R', 'S', 'T', 'U', 'V', 'W', 'X', 'Y', 'Z', 'a', 'b', 'c', 'd', 'e',
   'f', 'g', 'h', 'i', 'j', 'k', 'm', 'n', 'o', 'p', 'q', 'r', 's', 't', 'u', 'v', 'w', 'x', 'y',
   'z']

def base58Digit (d : ℕ) : Char := base58Alphabet.getD d '1'

/-- A leading one for each leading zero byte, and then the number that the bytes are. -/
def base58 (bytes : List UInt8) : String :=
  let number := Nat.ofDigits 256 (bytes.map UInt8.toNat).reverse
  String.ofList (List.replicate (bytes.takeWhile (· = 0)).length '1' ++
    (Nat.digits 58 number).reverse.map base58Digit)

theorem base58Digit_utf8Size (d : ℕ) : (base58Digit d).utf8Size = 1 := by
  have halphabet : base58Alphabet.all (fun c => c.utf8Size == 1) = true := rfl
  rw [base58Digit, List.getD_eq_getElem?_getD]
  cases hd : base58Alphabet[d]? with
  | none => decide
  | some c => exact beq_iff_eq.mp (List.all_eq_true.mp halphabet c (List.mem_of_getElem? hd))

theorem utf8Len_of_ascii {cs : List Char} (h : ∀ c ∈ cs, c.utf8Size = 1) :
    String.utf8Len cs = cs.length := by
  induction cs with
  | nil => rfl
  | cons c cs ih =>
    rw [String.utf8Len_cons, ih fun d hd => h d (List.mem_cons_of_mem c hd),
      h c List.mem_cons_self, List.length_cons]

/-- Two digits of base 58 are worth more than a byte. -/
theorem base58_size (bytes : List UInt8) : (base58 bytes).utf8ByteSize ≤ 3 * bytes.length := by
  have hascii : ∀ n, ∀ c ∈ List.replicate n '1', c.utf8Size = 1 := by
    intro n c hc
    rw [List.eq_of_mem_replicate hc]
    decide
  have hdigits : ∀ ds : List ℕ, ∀ c ∈ ds.map base58Digit, c.utf8Size = 1 := by
    intro ds c hc
    obtain ⟨d, -, rfl⟩ := List.mem_map.mp hc
    exact base58Digit_utf8Size d
  have hnumber : Nat.ofDigits 256 (bytes.map UInt8.toNat).reverse < 58 ^ (2 * bytes.length) := by
    have hlt : Nat.ofDigits 256 (bytes.map UInt8.toNat).reverse < 256 ^ bytes.length := by
      have hbytes := Nat.ofDigits_lt_base_pow_length (b := 256)
        (l := (bytes.map UInt8.toNat).reverse) (by omega) fun d hd => by
          obtain ⟨byte, -, rfl⟩ := List.mem_map.mp (List.mem_reverse.mp hd)
          exact byte.toNat_lt
      simpa using hbytes
    rw [pow_mul]
    exact hlt.trans_le (Nat.pow_le_pow_left (by omega) _)
  have hlength := (Nat.digits_length_le_iff (by omega : 1 < 58) _).mpr hnumber
  have hzeros := (List.takeWhile_sublist (l := bytes) (· = 0)).length_le
  unfold base58
  rw [String.utf8ByteSize_ofList, String.utf8Len_append, utf8Len_of_ascii (hascii _),
    utf8Len_of_ascii (hdigits _), List.length_replicate, List.length_map, List.length_reverse]
  omega

/-! ## The id of a thread -/

inductive ThreadId
  | bytes (b : List UInt8)
  | pubkey (k : Pubkey)

namespace ThreadId

/-- The id as it is stored and as a seed. -/
def asRef : ThreadId → List UInt8
  | bytes b => b
  | pubkey k => leBytes 32 k.toNat

def toName : ThreadId → String
  | bytes b => fromUtf8Lossy b
  | pubkey k => base58 (leBytes 32 k.toNat)

theorem toName_size (id : ThreadId) : id.toName.utf8ByteSize ≤ 3 * id.asRef.length := by
  cases id with
  | bytes b =>
    have hle := utf8Len_lossyChars 0 b
    rw [toName, asRef, fromUtf8Lossy, String.utf8ByteSize_ofList]
    omega
  | pubkey k => exact base58_size _

end ThreadId

end Antegen
