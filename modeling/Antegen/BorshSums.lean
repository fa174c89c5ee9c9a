import Antegen.Borsh

/-!
# Codecs of enumerations, options and strings

A variant is written as a tag and then the fields that the tag announces. Its tag is the
position of the variant in the enumeration. A decoder may reject: a tag beyond the last
variant, a byte that is no truth value, or bytes that are no text. The values that can be
encoded, and the size of an encoding, are computed along the same combinators.
-/
namespace Antegen.Borsh

namespace Codec

variable {α β : Type}

/-- Nothing is written for a value without content. -/
def unit : Codec Unit where
  enc _ := some []
  dec bytes := some ((), bytes)
  dec_enc a bytes rest h := by
    rw [← Option.some.inj h]
    rfl

/-- Transport along a partial retraction; decoding fails where it is undefined. -/
def pmap (c : Codec α) (f : β → α) (g : α → Option β) (h : ∀ b, g (f b) = some b) : Codec β where
  enc b := c.enc (f b)
  dec bytes := (c.dec bytes).bind fun p => (g p.1).map fun b => (b, p.2)
  dec_enc b bytes rest he := by simp [c.dec_enc (f b) bytes rest he, h]

/-- A tag, and then the fields that it announces. -/
def sigma {ι : Type} {φ : ι → Type} (tag : Codec ι) (fields : ∀ i, Codec (φ i)) :
    Codec ((i : ι) × φ i) where
  enc p := (tag.enc p.1).bind fun x => ((fields p.1).enc p.2).map fun y => x ++ y
  dec bytes := (tag.dec bytes).bind fun p =>
    ((fields p.1).dec p.2).map fun q => (⟨p.1, q.1⟩, q.2)
  dec_enc p bytes rest h := by
    simp only [Option.bind_eq_some_iff, Option.map_eq_some_iff] at h
    obtain ⟨x, hx, y, hy, rfl⟩ := h
    simp [List.append_assoc, tag.dec_enc p.1 x _ hx, (fields p.1).dec_enc p.2 y _ hy]

theorem sigma_enc {ι : Type} {φ : ι → Type} {tag : Codec ι} {fields : ∀ i, Codec (φ i)}
    {p : (i : ι) × φ i} {bytes : List UInt8} :
    (tag.sigma fields).enc p = some bytes ↔
      ∃ x y, tag.enc p.1 = some x ∧ (fields p.1).enc p.2 = some y ∧ x ++ y = bytes := by
  simp [sigma, Option.bind_eq_some_iff, Option.map_eq_some_iff]

end Codec

/-- One of finitely many variants, as its position. -/
def enumeration {κ : Type} [DecidableEq κ] (variants : List κ) (hall : ∀ k, k ∈ variants)
    (hlen : variants.length ≤ 256) : Codec κ :=
  u8.pmap (fun k => UInt8.ofNat (variants.idxOf k)) (fun b => variants[b.toNat]?) fun k => by
    have hlt := List.idxOf_lt_length_of_mem (hall k)
    rw [UInt8.toNat_ofNat_of_lt' (lt_of_lt_of_le hlt hlen), List.getElem?_eq_getElem hlt,
      List.getElem_idxOf hlt]

/-- One byte, zero or one. -/
def bool : Codec Bool := enumeration [false, true] (by decide) (by decide)

/-- What follows the flag of an option. -/
def optionFields {α : Type} (c : Codec α) : (b : Bool) → Codec (cond b α Unit)
  | false => Codec.unit
  | true => c

/-- A flag, and the value if there is one. -/
def option {α : Type} (c : Codec α) : Codec (Option α) :=
  (bool.sigma (optionFields c)).imap (fun o => o.elim ⟨false, ()⟩ fun a => ⟨true, a⟩)
    (fun p => Bool.rec (motive := fun b => cond b α Unit → Option α) (fun _ => none) some p.1 p.2)
    fun o => by cases o <;> rfl

/-- The bytes of a text; decoding checks that they are one. -/
def string : Codec String :=
  (vec u8).pmap (fun s => s.toByteArray.data.toList) (fun b => String.fromUTF8? ⟨b.toArray⟩)
    fun s => by simp [String.fromUTF8?, s.isValidUTF8, String.fromUTF8]

/-! ## Sizes -/

/-- Every encoding of a value has the size of the value. -/
def Sized {α : Type} (c : Codec α) (size : α → ℕ) : Prop :=
  ∀ a bytes, c.enc a = some bytes → bytes.length = size a

namespace Sized

variable {α β : Type} {c : Codec α} {d : Codec β} {m : α → ℕ} {n : β → ℕ}

theorem unit : Sized Codec.unit fun _ => 0 := by
  intro a bytes h
  rw [← Option.some.inj h]
  rfl

theorem u8 : Sized u8 fun _ => 1 := by
  intro b bytes h
  rw [← Option.some.inj h]
  rfl

theorem uint (k : ℕ) : Sized (uint k) fun _ => k := fun _ _ h => uint_enc_length h

theorem sint (k : ℕ) : Sized (sint k) fun _ => k := by
  intro v bytes h
  simp only [Borsh.sint] at h
  split at h
  · rw [← Option.some.inj h, leBytes_length]
  · exact absurd h (by simp)

theorem pair (hc : Sized c m) (hd : Sized d n) : Sized (c.pair d) fun p => m p.1 + n p.2 := by
  intro p bytes h
  obtain ⟨x, y, hx, hy, rfl⟩ := Codec.pair_enc.mp h
  rw [List.length_append, hc _ _ hx, hd _ _ hy]

theorem imap (hc : Sized c m) (f : β → α) (g : α → β) (h : ∀ b, g (f b) = b) :
    Sized (c.imap f g h) fun b => m (f b) := fun b _ he => hc (f b) _ he

theorem pmap (hc : Sized c m) (f : β → α) (g : α → Option β) (h : ∀ b, g (f b) = some b) :
    Sized (c.pmap f g h) fun b => m (f b) := fun b _ he => hc (f b) _ he

theorem sigma {ι : Type} {φ : ι → Type} {tag : Codec ι} {fields : ∀ i, Codec (φ i)} {k : ℕ}
    {size : ∀ i, φ i → ℕ} (htag : Sized tag fun _ => k) (hfields : ∀ i, Sized (fields i) (size i)) :
    Sized (tag.sigma fields) fun p => k + size p.1 p.2 := by
  intro p bytes h
  obtain ⟨x, y, hx, hy, rfl⟩ := Codec.sigma_enc.mp h
  rw [List.length_append, htag _ _ hx, hfields _ _ _ hy]

theorem enumeration {κ : Type} [DecidableEq κ] {variants : List κ} (hall : ∀ k, k ∈ variants)
    (hlen : variants.length ≤ 256) : Sized (enumeration variants hall hlen) fun _ => 1 :=
  Sized.u8.pmap _ _ _

theorem bool : Sized bool fun _ => 1 := Sized.enumeration _ _

theorem option (hc : Sized c m) : Sized (option c) fun o => 1 + o.elim 0 m := by
  intro o bytes h
  have hsize : ∀ b, Sized (optionFields c b)
      (Bool.rec (motive := fun b => cond b α Unit → ℕ) (fun _ => 0) m b) := by
    intro b
    cases b with
    | false => exact Sized.unit
    | true => exact hc
  rw [(Sized.sigma Sized.bool hsize).imap _ _ _ o bytes h]
  cases o <;> rfl

theorem encAll (hc : Sized c m) {as : List α} {bytes : List UInt8}
    (h : encAll c as = some bytes) : bytes.length = (as.map m).sum := by
  induction as generalizing bytes with
  | nil =>
    rw [← Option.some.inj h]
    rfl
  | cons a as ih =>
    obtain ⟨x, y, hx, hy, rfl⟩ := encAll_cons.mp h
    rw [List.length_append, hc _ _ hx, ih hy, List.map_cons, List.sum_cons]

theorem vecSum (hc : Sized c m) : Sized (vec c) fun as => 4 + (as.map m).sum := by
  intro as bytes h
  simp only [Borsh.vec, Option.bind_eq_bind, Option.bind_eq_some_iff, Option.pure_def,
    Option.some.injEq] at h
  obtain ⟨n, hn, body, hb, rfl⟩ := h
  rw [List.length_append, uint_enc_length hn, encAll hc hb]

/-- Elements of one width. -/
theorem vec {w : ℕ} (hc : Sized c fun _ => w) : Sized (vec c) fun as => 4 + w * as.length := by
  intro as bytes h
  simp [vecSum hc as bytes h, Nat.mul_comm]

theorem string : Sized string fun s => 4 + s.utf8ByteSize := by
  intro s bytes h
  have hlen := (Sized.vec Sized.u8).pmap _ _ _ s bytes h
  simpa using hlen

end Sized

/-! ## Domains -/

/-- The values that have an encoding. -/
def Domain {α : Type} (c : Codec α) (P : α → Prop) : Prop :=
  ∀ a, (∃ bytes, c.enc a = some bytes) ↔ P a

namespace Domain

variable {α β : Type} {c : Codec α} {d : Codec β} {P : α → Prop} {Q : β → Prop}

theorem u8 : Domain u8 fun _ => True := fun b => ⟨fun _ => trivial, fun _ => ⟨[b], rfl⟩⟩

theorem uint (k : ℕ) : Domain (uint k) fun v => v < 256 ^ k := by
  intro v
  constructor
  · rintro ⟨bytes, h⟩
    exact (uint_enc h).1
  · intro hv
    exact ⟨leBytes k v, if_pos hv⟩

theorem sint (k : ℕ) : Domain (sint k) fun v => -(256 ^ k : ℤ) ≤ 2 * v ∧ 2 * v < (256 ^ k : ℤ) := by
  intro v
  constructor
  · rintro ⟨bytes, h⟩
    by_contra hv
    simp [Borsh.sint, hv] at h
  · intro hv
    exact ⟨_, if_pos hv⟩

theorem imap (hc : Domain c P) (f : β → α) (g : α → β) (h : ∀ b, g (f b) = b) :
    Domain (c.imap f g h) fun b => P (f b) := fun b => hc (f b)

theorem pmap (hc : Domain c P) (f : β → α) (g : α → Option β) (h : ∀ b, g (f b) = some b) :
    Domain (c.pmap f g h) fun b => P (f b) := fun b => hc (f b)

theorem bits (k : ℕ) : Domain (bits k) fun _ => True := by
  intro b
  refine ⟨fun _ => trivial, fun _ => (uint k b.toNat).mpr ?_⟩
  have hlt := b.isLt
  rwa [Nat.pow_mul] at hlt

theorem pair (hc : Domain c P) (hd : Domain d Q) : Domain (c.pair d) fun p => P p.1 ∧ Q p.2 := by
  intro p
  show _ ↔ P p.1 ∧ Q p.2
  rw [← hc p.1, ← hd p.2]
  constructor
  · rintro ⟨bytes, h⟩
    obtain ⟨x, y, hx, hy, -⟩ := Codec.pair_enc.mp h
    exact ⟨⟨x, hx⟩, ⟨y, hy⟩⟩
  · rintro ⟨⟨x, hx⟩, ⟨y, hy⟩⟩
    exact ⟨x ++ y, Codec.pair_enc.mpr ⟨x, y, hx, hy, rfl⟩⟩

theorem encAll (hc : Domain c P) (as : List α) :
    (∃ bytes, encAll c as = some bytes) ↔ ∀ a ∈ as, P a := by
  induction as with
  | nil => exact ⟨fun _ a ha => absurd ha (by simp), fun _ => ⟨[], rfl⟩⟩
  | cons a as ih =>
    rw [List.forall_mem_cons, ← ih, ← hc a]
    constructor
    · rintro ⟨bytes, h⟩
      obtain ⟨x, y, hx, hy, -⟩ := encAll_cons.mp h
      exact ⟨⟨x, hx⟩, ⟨y, hy⟩⟩
    · rintro ⟨⟨x, hx⟩, ⟨y, hy⟩⟩
      exact ⟨x ++ y, encAll_cons.mpr ⟨x, y, hx, hy, rfl⟩⟩

theorem vec (hc : Domain c P) : Domain (vec c) fun as => as.length < 256 ^ 4 ∧ ∀ a ∈ as, P a := by
  intro as
  have hlen : (∃ bytes, (Borsh.uint 4).enc as.length = some bytes) ↔ as.length < 256 ^ 4 :=
    uint 4 as.length
  show _ ↔ as.length < 256 ^ 4 ∧ ∀ a ∈ as, P a
  rw [← encAll hc as, ← hlen]
  simp only [Borsh.vec, Option.bind_eq_bind, Option.bind_eq_some_iff, Option.pure_def,
    Option.some.injEq]
  constructor
  · rintro ⟨bytes, n, hn, body, hbody, -⟩
    exact ⟨⟨n, hn⟩, ⟨body, hbody⟩⟩
  · rintro ⟨⟨n, hn⟩, ⟨body, hbody⟩⟩
    exact ⟨n ++ body, n, hn, body, hbody, rfl⟩

end Domain

end Antegen.Borsh
