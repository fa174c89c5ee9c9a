import Mathlib.Tactic

/-!
# Parser combinators

A parser takes a prefix of the text and returns a value and the rest, or fails. A
choice tries its second parser on the same text if the first one fails. Parsers of
tokens are described by what they do with a token and whatever follows it.
-/
namespace Antegen.Combinators

abbrev Parser (α : Type) := List Char → Option (α × List Char)

variable {α β γ : Type}

def tag (w : List Char) : Parser Unit := fun i =>
  if w.isPrefixOf i then some ((), i.drop w.length) else none

def takeWhile0 (p : Char → Bool) : Parser (List Char) := fun i => some (i.takeWhile p, i.dropWhile p)

def takeWhile1 (p : Char → Bool) : Parser (List Char) := fun i =>
  if i.takeWhile p = [] then none else some (i.takeWhile p, i.dropWhile p)

def alt (p q : Parser α) : Parser α := fun i =>
  match p i with
  | some r => some r
  | none => q i

def map (f : α → β) (p : Parser α) : Parser β := fun i => do
  let (a, i) ← p i
  pure (f a, i)

/-- Fails where the conversion does. -/
def mapRes (f : α → Option β) (p : Parser α) : Parser β := fun i => do
  let (a, i) ← p i
  let b ← f a
  pure (b, i)

def delimited (p : Parser α) (q : Parser β) (r : Parser γ) : Parser β := fun i => do
  let (_, i) ← p i
  let (b, i) ← q i
  let (_, i) ← r i
  pure (b, i)

def separatedPair (p : Parser α) (sep : Parser γ) (q : Parser β) : Parser (α × β) := fun i => do
  let (a, i) ← p i
  let (_, i) ← sep i
  let (b, i) ← q i
  pure ((a, b), i)

/-- Failure is no failure, and takes nothing. -/
def opt (p : Parser α) : Parser (Option α) := fun i =>
  match p i with
  | some (a, i) => some (some a, i)
  | none => some (none, i)

def eof : Parser Unit := fun i => if i = [] then some ((), i) else none

def terminated (p : Parser α) (q : Parser β) : Parser α := fun i => do
  let (a, i) ← p i
  let (_, i) ← q i
  pure (a, i)

def allConsuming (p : Parser α) : Parser α := terminated p eof

/-- Further elements, each after a separator. A separator without an element is left,
and one that takes nothing is an error. The bound on the number of elements is the
length of the text. -/
def separatedMany (sep : Parser γ) (p : Parser α) : ℕ → Parser (List α)
  | 0, i => some ([], i)
  | bound + 1, i =>
    match sep i with
    | none => some ([], i)
    | some (_, i') =>
      if i'.length = i.length then none
      else match p i' with
        | none => some ([], i)
        | some (a, i'') => do
          let (l, rest) ← separatedMany sep p bound i''
          pure (a :: l, rest)

def separatedList1 (sep : Parser γ) (p : Parser α) : Parser (List α) := fun i => do
  let (a, i) ← p i
  let (l, rest) ← separatedMany sep p i.length i
  pure (a :: l, rest)

theorem alt_eq_some {p q : Parser α} {i : List Char} {r : α × List Char}
    (h : alt p q i = some r) : p i = some r ∨ q i = some r := by
  unfold alt at h
  split at h
  · rename_i hp
    exact Or.inl (by rw [hp, h])
  · exact Or.inr h

theorem map_eq_some {f : α → β} {p : Parser α} {i rest : List Char} {b : β} :
    map f p i = some (b, rest) ↔ ∃ a, p i = some (a, rest) ∧ f a = b := by
  simp only [map, Option.bind_eq_bind, Option.bind_eq_some_iff, Prod.exists, Option.pure_def,
    Option.some.injEq, Prod.mk.injEq]
  constructor
  · rintro ⟨a, _, ha, rfl, rfl⟩
    exact ⟨a, ha, rfl⟩
  · rintro ⟨a, ha, rfl⟩
    exact ⟨a, rest, ha, rfl, rfl⟩

theorem mapRes_eq_some {f : α → Option β} {p : Parser α} {i rest : List Char} {b : β} :
    mapRes f p i = some (b, rest) ↔ ∃ a, p i = some (a, rest) ∧ f a = some b := by
  simp only [mapRes, Option.bind_eq_bind, Option.bind_eq_some_iff, Prod.exists, Option.pure_def,
    Option.some.injEq, Prod.mk.injEq]
  constructor
  · rintro ⟨a, _, ha, _, hf, rfl, rfl⟩
    exact ⟨a, ha, hf⟩
  · rintro ⟨a, ha, hf⟩
    exact ⟨a, rest, ha, b, hf, rfl, rfl⟩

theorem delimited_eq_some {p : Parser α} {q : Parser β} {r : Parser γ} {i rest : List Char}
    {b : β} (h : delimited p q r i = some (b, rest)) : ∃ i' i'', q i' = some (b, i'') := by
  simp only [delimited, Option.bind_eq_bind, Option.bind_eq_some_iff, Prod.exists, Option.pure_def,
    Option.some.injEq, Prod.mk.injEq] at h
  obtain ⟨-, i', -, b', i'', hb, -, -, -, rfl, -⟩ := h
  exact ⟨i', i'', hb⟩

theorem terminated_eq_some {p : Parser α} {q : Parser β} {i rest : List Char} {a : α} :
    terminated p q i = some (a, rest) ↔ ∃ i' b, p i = some (a, i') ∧ q i' = some (b, rest) := by
  simp only [terminated, Option.bind_eq_bind, Option.bind_eq_some_iff, Prod.exists,
    Option.pure_def, Option.some.injEq, Prod.mk.injEq]
  constructor
  · rintro ⟨_, i', hp, b, _, hq, rfl, rfl⟩
    exact ⟨i', b, hp, hq⟩
  · rintro ⟨i', b, hp, hq⟩
    exact ⟨a, i', hp, b, rest, hq, rfl, rfl⟩

theorem alt_of_none {p q : Parser α} {i : List Char} (h : p i = none) : alt p q i = q i := by
  rw [alt, h]

theorem alt_of_some {p q : Parser α} {i : List Char} {r : α × List Char} (h : p i = some r) :
    alt p q i = some r := by
  rw [alt, h]

theorem map_eq_none {f : α → β} {p : Parser α} {i : List Char} (h : p i = none) :
    map f p i = none := by
  rw [map, h]
  rfl

section SeparatedPair

variable {p : Parser α} {sep : Parser γ} {q : Parser β} {i i1 i2 i3 : List Char} {a : α} {b : β}
  {c : γ}

theorem separatedPair_eq_some (hp : p i = some (a, i1)) (hsep : sep i1 = some (c, i2))
    (hq : q i2 = some (b, i3)) : separatedPair p sep q i = some ((a, b), i3) := by
  simp [separatedPair, hp, hsep, hq]

theorem separatedPair_of_left (hp : p i = none) : separatedPair p sep q i = none := by
  simp [separatedPair, hp]

theorem separatedPair_of_sep (hp : p i = some (a, i1)) (hsep : sep i1 = none) :
    separatedPair p sep q i = none := by
  simp [separatedPair, hp, hsep]

end SeparatedPair

/-! ## Tokens -/

/-- The text does not go on with a character of the class. -/
def Stops (p : Char → Bool) (i : List Char) : Prop := ∀ c, i.head? = some c → p c = false

theorem stops_nil (p : Char → Bool) : Stops p [] := by
  intro c hc
  exact absurd hc (by simp)

theorem stops_cons {p : Char → Bool} {c : Char} {i : List Char} : Stops p (c :: i) ↔ p c = false := by
  simp [Stops]

theorem takeWhile_append {p : Char → Bool} {w i : List Char} (hw : ∀ c ∈ w, p c = true)
    (hi : Stops p i) : (w ++ i).takeWhile p = w ∧ (w ++ i).dropWhile p = i := by
  induction w with
  | nil =>
    cases i with
    | nil => simp
    | cons c i => simp [stops_cons.mp hi]
  | cons c w ih =>
    obtain ⟨h1, h2⟩ := ih fun d hd => hw d (by simp [hd])
    simp [hw c (by simp), h1, h2]

theorem takeWhile1_append {p : Char → Bool} {w i : List Char} (hne : w ≠ []) (hw : ∀ c ∈ w, p c = true)
    (hi : Stops p i) : takeWhile1 p (w ++ i) = some (w, i) := by
  obtain ⟨h1, h2⟩ := takeWhile_append hw hi
  rw [takeWhile1, h1, h2, if_neg hne]

theorem takeWhile1_eq_none {p : Char → Bool} {i : List Char} (hi : Stops p i) :
    takeWhile1 p i = none := by
  have h := (takeWhile_append (w := []) (by simp) hi).1
  rw [List.nil_append] at h
  rw [takeWhile1, if_pos h]

theorem dropWhile_of_stops {p : Char → Bool} {i : List Char} (hi : Stops p i) : i.dropWhile p = i :=
  (takeWhile_append (w := []) (by simp) hi).2

theorem stops_dropWhile (p : Char → Bool) (i : List Char) : Stops p (i.dropWhile p) := by
  induction i with
  | nil => exact stops_nil p
  | cons c i ih =>
    by_cases hc : p c = true
    · rw [List.dropWhile_cons_of_pos hc]
      exact ih
    · rw [List.dropWhile_cons_of_neg hc]
      exact stops_cons.mpr (by simpa using hc)

theorem tag_cons (c : Char) (i : List Char) : tag [c] (c :: i) = some ((), i) := by
  simp [tag, List.isPrefixOf]

/-- A tag fails on a text with another first character. -/
theorem tag_eq_none {c : Char} {w i : List Char} (h : i.head? ≠ some c) : tag (c :: w) i = none := by
  cases i with
  | nil => simp [tag, List.isPrefixOf]
  | cons d i =>
    have hne : c ≠ d := by
      intro hcd
      exact h (by simp [hcd])
    simp [tag, List.isPrefixOf, hne]

/-! ## Lists -/

theorem separatedMany_of_stop {sep : Parser γ} {p : Parser α} {bound : ℕ} {i : List Char}
    (h : sep i = none) : separatedMany sep p bound i = some ([], i) := by
  cases bound with
  | zero => rfl
  | succ n => rw [separatedMany, h]

/-- A separator in front of what is no element ends the list. -/
theorem separatedMany_of_fail {sep : Parser γ} {p : Parser α} {bound : ℕ} {i i' : List Char} {c : γ}
    (h : sep i = some (c, i')) (hlen : i'.length < i.length) (hp : p i' = none) :
    separatedMany sep p bound i = some ([], i) := by
  cases bound with
  | zero => rfl
  | succ n =>
    have hne : i'.length ≠ i.length := by omega
    simp [separatedMany, h, hp, hne]

theorem separatedMany_cons {sep : Parser γ} {p : Parser α} {bound : ℕ} {i i' i'' : List Char} {c : γ}
    {a : α} (h : sep i = some (c, i')) (hlen : i'.length < i.length) (hp : p i' = some (a, i'')) :
    separatedMany sep p (bound + 1) i =
      (separatedMany sep p bound i'').map fun r => (a :: r.1, r.2) := by
  have hne : i'.length ≠ i.length := by omega
  simp only [separatedMany, h, hp, hne, if_false]
  cases separatedMany sep p bound i'' <;> rfl

theorem separatedList1_ne_nil {sep : Parser γ} {p : Parser α} {i rest : List Char} {l : List α}
    (h : separatedList1 sep p i = some (l, rest)) : l ≠ [] := by
  simp only [separatedList1, Option.bind_eq_bind, Option.bind_eq_some_iff, Prod.exists,
    Option.pure_def, Option.some.injEq, Prod.mk.injEq] at h
  obtain ⟨a, i', -, l', rest', -, rfl, -⟩ := h
  simp

end Antegen.Combinators
