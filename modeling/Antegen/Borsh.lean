import Mathlib.Data.Nat.Digits.Defs
import Mathlib.Tactic

/-!
# Self-delimiting byte codecs

A codec pairs a partial encoder with a prefix decoder: decoding an encoding
returns the value and leaves whatever bytes follow it untouched. The encoder is
partial because a length prefix has four bytes and an integer a fixed width.
The combinators are those of the Borsh format: fixed-width little-endian
integers, length-prefixed vectors, products and images under a retraction.
-/
namespace Antegen.Borsh

/-- The decoder of a codec recovers the encoded value and the remaining input. -/
structure Codec (α : Type) where
  enc : α → Option (List UInt8)
  dec : List UInt8 → Option (α × List UInt8)
  dec_enc : ∀ a bytes rest, enc a = some bytes → dec (bytes ++ rest) = some (a, rest)

namespace Codec

/-- Decoding that must consume its whole input. -/
def fromSlice {α : Type} (c : Codec α) (bytes : List UInt8) : Option α :=
  match c.dec bytes with
  | some (a, []) => some a
  | _ => none

theorem fromSlice_enc {α : Type} (c : Codec α) {a : α} {bytes : List UInt8}
    (h : c.enc a = some bytes) : c.fromSlice bytes = some a := by
  have hd := c.dec_enc a bytes [] h
  rw [List.append_nil] at hd
  simp [fromSlice, hd]

/-- Transport along an injection with a computed left inverse. -/
def imap {α β : Type} (c : Codec α) (f : β → α) (g : α → β) (h : ∀ b, g (f b) = b) :
    Codec β where
  enc b := c.enc (f b)
  dec bytes := (c.dec bytes).map fun p => (g p.1, p.2)
  dec_enc b bytes rest he := by simp [c.dec_enc (f b) bytes rest he, h]

@[simp] theorem imap_enc {α β : Type} (c : Codec α) (f : β → α) (g : α → β)
    (h : ∀ b, g (f b) = b) (b : β) : (c.imap f g h).enc b = c.enc (f b) := rfl

def pair {α β : Type} (c : Codec α) (d : Codec β) : Codec (α × β) where
  enc p := do
    let x ← c.enc p.1
    let y ← d.enc p.2
    pure (x ++ y)
  dec bytes := do
    let (a, rest) ← c.dec bytes
    let (b, rest) ← d.dec rest
    pure ((a, b), rest)
  dec_enc p bytes rest h := by
    simp only [Option.bind_eq_bind, Option.bind_eq_some_iff, Option.pure_def,
      Option.some.injEq] at h
    obtain ⟨x, hx, y, hy, rfl⟩ := h
    simp [List.append_assoc, c.dec_enc p.1 x _ hx, d.dec_enc p.2 y _ hy]

theorem pair_enc {α β : Type} {c : Codec α} {d : Codec β} {p : α × β} {bytes : List UInt8} :
    (c.pair d).enc p = some bytes ↔
      ∃ x y, c.enc p.1 = some x ∧ d.enc p.2 = some y ∧ bytes = x ++ y := by
  simp only [pair, Option.bind_eq_bind, Option.bind_eq_some_iff, Option.pure_def,
    Option.some.injEq]
  constructor
  · rintro ⟨x, hx, y, hy, rfl⟩
    exact ⟨x, y, hx, hy, rfl⟩
  · rintro ⟨x, y, hx, hy, rfl⟩
    exact ⟨x, hx, y, hy, rfl⟩

end Codec

/-- The low `n` bytes of a natural number, least significant first. -/
def leBytes : ℕ → ℕ → List UInt8
  | 0, _ => []
  | n + 1, v => UInt8.ofNat v :: leBytes n (v / 256)

/-- Reads `n` little-endian bytes and returns the remaining input. -/
def readLe : ℕ → List UInt8 → Option (ℕ × List UInt8)
  | 0, bytes => some (0, bytes)
  | _ + 1, [] => none
  | n + 1, b :: bytes => (readLe n bytes).map fun p => (b.toNat + 256 * p.1, p.2)

@[simp] theorem leBytes_length (n v : ℕ) : (leBytes n v).length = n := by
  induction n generalizing v with
  | zero => rfl
  | succ n ih => simp [leBytes, ih]

theorem readLe_leBytes (n v : ℕ) (rest : List UInt8) (hv : v < 256 ^ n) :
    readLe n (leBytes n v ++ rest) = some (v, rest) := by
  induction n generalizing v with
  | zero =>
    rw [pow_zero] at hv
    simp [leBytes, readLe, Nat.lt_one_iff.mp hv]
  | succ n ih =>
    have hdiv : v / 256 < 256 ^ n := by
      rw [Nat.div_lt_iff_lt_mul (by decide), ← pow_succ]
      exact hv
    simp only [leBytes, List.cons_append, readLe, ih _ hdiv, Option.map_some,
      UInt8.toNat_ofNat', Nat.reducePow]
    congr 2
    omega

/-- Unsigned little-endian integer of `n` bytes. -/
def uint (n : ℕ) : Codec ℕ where
  enc v := if v < 256 ^ n then some (leBytes n v) else none
  dec := readLe n
  dec_enc v bytes rest h := by
    split at h
    · rename_i hv
      rw [← Option.some.inj h]
      exact readLe_leBytes n v rest hv
    · exact absurd h (by simp)

theorem uint_enc {n v : ℕ} {bytes : List UInt8} (h : (uint n).enc v = some bytes) :
    v < 256 ^ n ∧ bytes = leBytes n v := by
  simp only [uint] at h
  split at h
  · exact ⟨‹_›, (Option.some.inj h).symm⟩
  · exact absurd h (by simp)

theorem uint_enc_length {n v : ℕ} {bytes : List UInt8} (h : (uint n).enc v = some bytes) :
    bytes.length = n := by
  rw [(uint_enc h).2, leBytes_length]

def u8 : Codec UInt8 where
  enc b := some [b]
  dec
    | [] => none
    | b :: rest => some (b, rest)
  dec_enc b bytes rest h := by
    rw [← Option.some.inj h]
    rfl

/-- Two's complement reading of an unsigned value of `n` bytes. -/
def toSigned (n v : ℕ) : ℤ := if 2 * v < 256 ^ n then v else (v : ℤ) - 256 ^ n

/-- Signed little-endian integer of `n` bytes in two's complement. -/
def sint (n : ℕ) : Codec ℤ where
  enc v := if -(256 ^ n : ℤ) ≤ 2 * v ∧ 2 * v < (256 ^ n : ℤ) then
    some (leBytes n (v % (256 ^ n : ℤ)).toNat) else none
  dec bytes := (readLe n bytes).map fun p => (toSigned n p.1, p.2)
  dec_enc v bytes rest h := by
    split at h
    · rename_i hv
      have hpos : (0 : ℤ) < 256 ^ n := by positivity
      have hmod := Int.emod_nonneg v hpos.ne'
      have hlt := Int.emod_lt_of_pos v hpos
      have hnat : (v % (256 ^ n : ℤ)).toNat < 256 ^ n := by
        zify
        rw [Int.toNat_of_nonneg hmod]
        exact hlt
      rw [← Option.some.inj h, readLe_leBytes n _ rest hnat, Option.map_some]
      congr 2
      unfold toSigned
      zify
      rw [Int.toNat_of_nonneg hmod]
      by_cases hneg : v < 0
      · have he : v % (256 ^ n : ℤ) = v + 256 ^ n := by
          rw [← Int.add_emod_right, Int.emod_eq_of_lt (by linarith) (by linarith)]
        rw [he, if_neg (by linarith)]
        ring
      · rw [Int.emod_eq_of_lt (by linarith) (by linarith), if_pos (by linarith)]
    · exact absurd h (by simp)

/-- A bit vector of `n` bytes, least significant byte first. -/
def bits (n : ℕ) : Codec (BitVec (8 * n)) :=
  (uint n).imap BitVec.toNat (BitVec.ofNat (8 * n)) (fun b => by simp)

/-- A fixed number of consecutive encodings. -/
def encAll {α : Type} (c : Codec α) : List α → Option (List UInt8)
  | [] => some []
  | a :: as => do
    let x ← c.enc a
    let y ← encAll c as
    pure (x ++ y)

def decAll {α : Type} (c : Codec α) : ℕ → List UInt8 → Option (List α × List UInt8)
  | 0, bytes => some ([], bytes)
  | n + 1, bytes => do
    let (a, rest) ← c.dec bytes
    let (as, rest) ← decAll c n rest
    pure (a :: as, rest)

theorem encAll_cons {α : Type} {c : Codec α} {a : α} {as : List α} {bytes : List UInt8} :
    encAll c (a :: as) = some bytes ↔
      ∃ x y, c.enc a = some x ∧ encAll c as = some y ∧ bytes = x ++ y := by
  simp only [encAll, Option.bind_eq_bind, Option.bind_eq_some_iff, Option.pure_def,
    Option.some.injEq]
  constructor
  · rintro ⟨x, hx, y, hy, rfl⟩
    exact ⟨x, y, hx, hy, rfl⟩
  · rintro ⟨x, y, hx, hy, rfl⟩
    exact ⟨x, hx, y, hy, rfl⟩

theorem decAll_encAll {α : Type} (c : Codec α) (as : List α) (bytes rest : List UInt8)
    (h : encAll c as = some bytes) :
    decAll c as.length (bytes ++ rest) = some (as, rest) := by
  induction as generalizing bytes with
  | nil =>
    rw [← Option.some.inj h]
    rfl
  | cons a as ih =>
    obtain ⟨x, y, hx, hy, rfl⟩ := encAll_cons.mp h
    simp [decAll, List.append_assoc, c.dec_enc a x _ hx, ih y hy]

/-- Elements of one width `w` give `w` bytes each. -/
theorem encAll_length {α : Type} {c : Codec α} {w : ℕ}
    (hw : ∀ a bytes, c.enc a = some bytes → bytes.length = w) (as : List α)
    {bytes : List UInt8} (h : encAll c as = some bytes) : bytes.length = w * as.length := by
  induction as generalizing bytes with
  | nil =>
    rw [← Option.some.inj h]
    simp
  | cons a as ih =>
    obtain ⟨x, y, hx, hy, rfl⟩ := encAll_cons.mp h
    rw [List.length_append, hw a x hx, ih hy, List.length_cons, Nat.mul_succ, Nat.add_comm]

/-- A vector is its length in four bytes followed by its elements. -/
def vec {α : Type} (c : Codec α) : Codec (List α) where
  enc as := do
    let n ← (uint 4).enc as.length
    let body ← encAll c as
    pure (n ++ body)
  dec bytes := do
    let (n, rest) ← (uint 4).dec bytes
    decAll c n rest
  dec_enc as bytes rest h := by
    simp only [Option.bind_eq_bind, Option.bind_eq_some_iff, Option.pure_def,
      Option.some.injEq] at h
    obtain ⟨n, hn, body, hb, rfl⟩ := h
    simp [List.append_assoc, (uint 4).dec_enc _ n _ hn, decAll_encAll c as body rest hb]

theorem vec_enc_length {α : Type} {c : Codec α} {w : ℕ}
    (hw : ∀ a bytes, c.enc a = some bytes → bytes.length = w) {as : List α}
    {bytes : List UInt8} (h : (vec c).enc as = some bytes) :
    bytes.length = 4 + w * as.length := by
  simp only [vec, Option.bind_eq_bind, Option.bind_eq_some_iff, Option.pure_def,
    Option.some.injEq] at h
  obtain ⟨n, hn, body, hb, rfl⟩ := h
  rw [List.length_append, uint_enc_length hn, encAll_length hw as hb]

end Antegen.Borsh
