import Antegen.CronParsing

/-!
# The grammar of cron expressions

Expressions are six or seven nonempty lists of specifiers, printed with commas inside a
field and single blanks between fields. Each specifier denotes a set of ordinals of its
unit and is valid for it or not. A printed field is parsed back to its specifiers, up to
the blank before the next field; only a `?` outside the day fields stops the parser.
-/
namespace Antegen.Cron.Grammar

open Combinators

/-- A name is a nonempty word of letters. -/
structure Name where
  chars : Text
  nonempty : chars ≠ []
  letters : ∀ c ∈ chars, c.isAlpha = true

inductive Base
  | all
  | any
  | point (n : UInt32)
  | range (start stop : UInt32)
  | namedRange (start stop : Name)

inductive Root
  | base (b : Base)
  | period (b : Base) (step : UInt32)
  | namedPoint (n : Name)

/-! ## Meaning -/

/-- `?` stands in the two day fields only. -/
def AllowsAny (u : TimeUnit) : Prop := u = .daysOfMonth ∨ u = .daysOfWeek

/-- What a specifier without a step denotes. -/
def Base.denote (u : TimeUnit) : Base → Set ℕ
  | all => {n | u.Supports n}
  | any => {n | u.Supports n}
  | point p => {p.toNat}
  | range start stop => {n | start.toNat ≤ n ∧ n ≤ stop.toNat}
  | namedRange start stop => {n | ∃ a b, u.findName start.chars = some a ∧
      u.findName stop.chars = some b ∧ a ≤ n ∧ n ≤ b}

/-- First and last ordinal that a step runs over: a point runs to the maximum. -/
def Base.span (u : TimeUnit) : Base → Option (ℕ × ℕ)
  | all => some (u.inclusiveMin, u.inclusiveMax)
  | any => some (u.inclusiveMin, u.inclusiveMax)
  | point p => some (p.toNat, u.inclusiveMax)
  | range start stop => some (start.toNat, stop.toNat)
  | namedRange start stop => do
    let a ← u.findName start.chars
    let b ← u.findName stop.chars
    pure (a, b)

def Root.denote (u : TimeUnit) : Root → Set ℕ
  | base b => b.denote u
  | period b step => {n | ∃ first last, b.span u = some (first, last) ∧ first ≤ n ∧ n ≤ last ∧
      step.toNat ∣ n - first}
  | namedPoint name => {n | u.findName name.chars = some n}

def Base.Valid (u : TimeUnit) : Base → Prop
  | all => True
  | any => AllowsAny u
  | point p => u.Supports p.toNat
  | range start stop => u.Supports start.toNat ∧ u.Supports stop.toNat ∧ start.toNat ≤ stop.toNat
  | namedRange start stop => ∃ a b, u.findName start.chars = some a ∧
      u.findName stop.chars = some b ∧ a ≤ b

def Root.Valid (u : TimeUnit) : Root → Prop
  | base b => b.Valid u
  | period b step => b.Valid u ∧ step ≠ 0
  | namedPoint name => ∃ n, u.findName name.chars = some n

/-! ## Printing -/

def digits (n : UInt32) : Text := Nat.toDigits 10 n.toNat

def Base.print : Base → Text
  | all => ['*']
  | any => ['?']
  | point p => digits p
  | range start stop => digits start ++ '-' :: digits stop
  | namedRange start stop => start.chars ++ '-' :: stop.chars

def Root.print : Root → Text
  | base b => b.print
  | period b step => b.print ++ '/' :: digits step
  | namedPoint name => name.chars

/-- Specifiers with commas between them. -/
def printField : List Root → Text
  | [] => []
  | [r] => r.print
  | r :: l => r.print ++ ',' :: printField l

/-- Six fields, and possibly one for years. -/
structure Expression where
  seconds : List Root
  minutes : List Root
  hours : List Root
  daysOfMonth : List Root
  months : List Root
  daysOfWeek : List Root
  years : Option (List Root)
  seconds_ne : seconds ≠ []
  minutes_ne : minutes ≠ []
  hours_ne : hours ≠ []
  daysOfMonth_ne : daysOfMonth ≠ []
  months_ne : months ≠ []
  daysOfWeek_ne : daysOfWeek ≠ []
  years_ne : years ≠ some []

namespace Expression

def printYears : Option (List Root) → Text
  | none => []
  | some l => ' ' :: printField l

def print (e : Expression) : Text :=
  printField e.seconds ++ ' ' :: (printField e.minutes ++ ' ' :: (printField e.hours ++ ' ' ::
    (printField e.daysOfMonth ++ ' ' :: (printField e.months ++ ' ' ::
      (printField e.daysOfWeek ++ printYears e.years)))))

/-- The specifiers of a unit; none if the expression has no field for it. -/
def field (e : Expression) : TimeUnit → Option (List Root)
  | .seconds => some e.seconds
  | .minutes => some e.minutes
  | .hours => some e.hours
  | .daysOfMonth => some e.daysOfMonth
  | .months => some e.months
  | .daysOfWeek => some e.daysOfWeek
  | .years => e.years

def Valid (e : Expression) : Prop := ∀ u l, e.field u = some l → ∀ r ∈ l, r.Valid u

/-- An absent field selects whatever the unit supports. -/
def denote (e : Expression) (u : TimeUnit) : Set ℕ :=
  match e.field u with
  | some l => {n | ∃ r ∈ l, n ∈ r.denote u}
  | none => {n | u.Supports n}

end Expression

/-! ## Characters -/

theorem isSpace_iff {c : Char} : isSpace c = true ↔ c = ' ' ∨ c = '\t' ∨ c = '\r' ∨ c = '\n' := by
  simp [isSpace, or_assoc]

/-- A blank is none of the characters that tokens and separators are made of. -/
theorem isSpace_eq_false {c : Char}
    (h : c.isDigit = true ∨ c.isAlpha = true ∨ c ∈ ['*', '?', '-', '/', ',']) :
    isSpace c = false := by
  rw [Bool.eq_false_iff]
  intro hs
  rcases isSpace_iff.mp hs with rfl | rfl | rfl | rfl <;> exact absurd h (by decide)

theorem not_isDigit_of_isAlpha {c : Char} (h : c.isAlpha = true) : c.isDigit = false := by
  rw [Bool.eq_false_iff]
  intro hd
  change (decide ('A'.val ≤ c.val ∧ c.val ≤ 'Z'.val) ||
    (decide ('a'.val ≤ c.val) && decide (c.val ≤ 'z'.val))) = true at h
  simp only [Char.isDigit, Bool.or_eq_true, Bool.and_eq_true, decide_eq_true_eq, ge_iff_le,
    UInt32.le_iff_toNat_le] at h hd
  have h0 : '0'.val.toNat = 48 := rfl
  have h9 : '9'.val.toNat = 57 := rfl
  have hA : 'A'.val.toNat = 65 := rfl
  have ha : 'a'.val.toNat = 97 := rfl
  omega

/-- A token begins with a character of its class. -/
def Begins (p : Char → Prop) (i : Text) : Prop := ∃ c j, i = c :: j ∧ p c

theorem Begins.append {p : Char → Prop} {i : Text} (h : Begins p i) (j : Text) :
    Begins p (i ++ j) := by
  obtain ⟨c, k, rfl, hc⟩ := h
  exact ⟨c, k ++ j, rfl, hc⟩

theorem digits_isDigit (n : UInt32) {c : Char} (h : c ∈ digits n) : c.isDigit = true :=
  Nat.isDigit_of_mem_toDigits (by decide) (by decide) h

theorem digits_begins (n : UInt32) : Begins (fun c => c.isDigit = true) (digits n) := by
  cases h : digits n with
  | nil => exact absurd h Nat.toDigits_ne_nil
  | cons c j => exact ⟨c, j, rfl, digits_isDigit n (by simp [h])⟩

theorem Name.begins (n : Name) : Begins (fun c => c.isAlpha = true) n.chars := by
  cases h : n.chars with
  | nil => exact absurd h n.nonempty
  | cons c j => exact ⟨c, j, rfl, n.letters c (by simp [h])⟩

theorem u32FromStr_digits (n : UInt32) : u32FromStr (digits n) = some n := by
  have hn : Nat.ofDigitChars 10 (digits n) 0 = n.toNat :=
    Nat.ofDigitChars_toDigits (by decide) (by decide)
  rw [u32FromStr, hn, if_pos n.toNat_lt]
  simp

/-! ## Tokens -/

/-- The text without the blanks in front of it. -/
def skip (i : Text) : Text := i.dropWhile isSpace

theorem skip_of_begins {i : Text} (h : Begins (fun c => isSpace c = false) i) : skip i = i := by
  obtain ⟨c, j, rfl, hc⟩ := h
  exact dropWhile_of_stops (stops_cons.mpr hc)

theorem skip_cons {c : Char} {i : Text} (h : isSpace c = false) : skip (c :: i) = c :: i :=
  skip_of_begins ⟨c, i, rfl, h⟩

theorem skip_space (i : Text) : skip (' ' :: i) = skip i := by
  rw [skip, List.dropWhile_cons_of_pos (by decide)]
  rfl

theorem skip_skip (i : Text) : skip (skip i) = skip i :=
  dropWhile_of_stops (stops_dropWhile isSpace i)

theorem delimited_multispace {α : Type} (p : Parser α) (i : Text) :
    delimited multispace0 p multispace0 i = (p (skip i)).map fun r => (r.1, skip r.2) := by
  simp only [delimited, multispace0, takeWhile0, skip, Option.bind_eq_bind, Option.bind_some]
  cases p (i.dropWhile isSpace) <;> rfl

theorem Begins.imp {p q : Char → Prop} {i : Text} (h : Begins p i) (himp : ∀ c, p c → q c) :
    Begins q i := by
  obtain ⟨c, j, rfl, hc⟩ := h
  exact ⟨c, j, rfl, himp c hc⟩

/-- A word of one class is taken with the blanks around it. -/
theorem word_eq_some {p : Char → Bool} {w i : Text} (hw : Begins (fun c => isSpace c = false) w)
    (hp : ∀ c ∈ w, p c = true) (hi : Stops p i) :
    delimited multispace0 (takeWhile1 p) multispace0 (w ++ i) = some (w, skip i) := by
  have hne : w ≠ [] := by
    obtain ⟨c, j, rfl, -⟩ := hw
    simp
  rw [delimited_multispace, skip_of_begins (hw.append i), takeWhile1_append hne hp hi]
  rfl

theorem word_eq_none {p : Char → Bool} {i : Text} (hi : Stops p (skip i)) :
    delimited multispace0 (takeWhile1 p) multispace0 i = none := by
  rw [delimited_multispace, takeWhile1_eq_none hi]
  rfl

theorem ordinal_digits (n : UInt32) {i : Text} (hi : Stops Char.isDigit i) :
    ordinal (digits n ++ i) = some (n, skip i) := by
  refine mapRes_eq_some.mpr ⟨digits n, ?_, u32FromStr_digits n⟩
  exact word_eq_some ((digits_begins n).imp fun c hc => isSpace_eq_false (Or.inl hc))
    (fun c hc => digits_isDigit n hc) hi

theorem ordinal_eq_none {i : Text} (hi : Stops Char.isDigit (skip i)) : ordinal i = none := by
  have h : delimited multispace0 digit1 multispace0 i = none := word_eq_none hi
  rw [ordinal, mapRes, h]
  rfl

theorem name_chars (n : Name) {i : Text} (hi : Stops Char.isAlpha i) :
    name (n.chars ++ i) = some (n.chars, skip i) :=
  word_eq_some (n.begins.imp fun _ hc => isSpace_eq_false (Or.inr (Or.inl hc))) n.letters hi

theorem name_eq_none {i : Text} (hi : Stops Char.isAlpha (skip i)) : name i = none :=
  word_eq_none hi

/-! ## What may follow a specifier -/

/-- First characters of specifiers. -/
def IsStart (c : Char) : Prop := c.isDigit = true ∨ c.isAlpha = true ∨ c = '*' ∨ c = '?'

theorem IsStart.not_isSpace {c : Char} (h : IsStart c) : isSpace c = false := by
  apply isSpace_eq_false
  rcases h with h | h | rfl | rfl
  · exact Or.inl h
  · exact Or.inr (Or.inl h)
  · exact Or.inr (Or.inr (by simp))
  · exact Or.inr (Or.inr (by simp))

theorem IsStart.ne {c : Char} (h : IsStart c) : c ≠ '-' ∧ c ≠ '/' ∧ c ≠ ',' ∧ c ≠ '@' := by
  refine ⟨?_, ?_, ?_, ?_⟩ <;> rintro rfl <;> exact absurd h (by simp only [IsStart]; decide)

/-- The end of a field: the end of the text, or a blank before the next field. -/
def FieldEnd (i : Text) : Prop := i = [] ∨ ∃ j, i = ' ' :: j ∧ Begins IsStart j

/-- The end of a specifier inside a field. -/
def SpecifierEnd (i : Text) : Prop := FieldEnd i ∨ ∃ j, i = ',' :: j

/-- What follows a specifier before its step. -/
def Follows (i : Text) : Prop := SpecifierEnd i ∨ ∃ j, i = '/' :: j

theorem skip_of_fieldEnd {i : Text} (h : FieldEnd i) : skip i = [] ∨ Begins IsStart (skip i) := by
  rcases h with rfl | ⟨j, rfl, hj⟩
  · exact Or.inl rfl
  · right
    rw [skip_space, skip_of_begins (hj.imp fun _ hc => hc.not_isSpace)]
    exact hj

theorem head?_ne_of_begins {p : Char → Prop} {i : Text} {c : Char} (h : Begins p i) (hc : ¬ p c) :
    i.head? ≠ some c := by
  obtain ⟨d, j, rfl, hd⟩ := h
  rintro heq
  rw [List.head?_cons, Option.some.injEq] at heq
  rw [heq] at hd
  exact hc hd

/-- No separator continues a field that has ended, before or after its blank. -/
theorem FieldEnd.head?_ne {i : Text} (h : FieldEnd i) {c : Char} (hc : c = '-' ∨ c = '/' ∨ c = ',') :
    i.head? ≠ some c ∧ (skip i).head? ≠ some c := by
  have hns : ¬ IsStart c := by
    intro hs
    have := hs.ne
    tauto
  constructor
  · rcases h with rfl | ⟨j, rfl, -⟩
    · simp
    · rcases hc with rfl | rfl | rfl <;> simp
  · rcases skip_of_fieldEnd h with h | h
    · rw [h]
      simp
    · exact head?_ne_of_begins h hns

theorem SpecifierEnd.head?_ne {i : Text} (h : SpecifierEnd i) {c : Char} (hc : c = '-' ∨ c = '/') :
    i.head? ≠ some c ∧ (skip i).head? ≠ some c := by
  rcases h with h | ⟨j, rfl⟩
  · exact h.head?_ne (by tauto)
  · rw [skip_cons (by decide)]
    rcases hc with rfl | rfl <;> simp

theorem Follows.head?_ne {i : Text} (h : Follows i) : (skip i).head? ≠ some '-' := by
  rcases h with h | ⟨j, rfl⟩
  · exact (h.head?_ne (Or.inl rfl)).2
  · rw [skip_cons (by decide)]
    simp

theorem Follows.stops {i : Text} (h : Follows i) : Stops Char.isDigit i ∧ Stops Char.isAlpha i := by
  rcases h with ((rfl | ⟨j, rfl, -⟩) | ⟨j, rfl⟩) | ⟨j, rfl⟩
  · exact ⟨stops_nil _, stops_nil _⟩
  · exact ⟨stops_cons.mpr (by decide), stops_cons.mpr (by decide)⟩
  · exact ⟨stops_cons.mpr (by decide), stops_cons.mpr (by decide)⟩
  · exact ⟨stops_cons.mpr (by decide), stops_cons.mpr (by decide)⟩

/-! ## Specifiers -/

/-- The specifier a base is parsed to, and the text it leaves: numbers and names take
the blanks behind them. -/
def Base.toSpecifier : Base → Specifier
  | all => .all
  | any => .all
  | point n => .point n
  | range start stop => .range start stop
  | namedRange start stop => .namedRange start.chars stop.chars

def Base.leaves : Base → Text → Text
  | all, i => i
  | any, i => i
  | _, i => skip i

/-- The kinds of specifier, with and without `?`. -/
def Base.isAny : Base → Bool
  | any => true
  | _ => false

theorem specifier_of_digit {i : Text} (h : Begins (fun c => c.isDigit = true) i) :
    specifier i = alt range (alt point namedRange) i := by
  apply alt_of_none
  apply map_eq_none
  apply tag_eq_none
  exact head?_ne_of_begins h (by decide)

/-- On letters only the range of names is left. -/
theorem specifier_of_letter {i : Text} (h : Begins (fun c => c.isAlpha = true) i) :
    specifier i = namedRange i := by
  have hskip : skip i = i :=
    skip_of_begins (h.imp fun c hc => isSpace_eq_false (Or.inr (Or.inl hc)))
  have hord : ordinal i = none := by
    apply ordinal_eq_none
    rw [hskip]
    obtain ⟨c, j, rfl, hc⟩ := h
    exact stops_cons.mpr (not_isDigit_of_isAlpha hc)
  have hall : all i = none := by
    apply map_eq_none
    apply tag_eq_none
    exact head?_ne_of_begins h (by decide)
  have hrange : range i = none := map_eq_none (separatedPair_of_left hord)
  have hpoint : point i = none := map_eq_none hord
  rw [specifier, alt_of_none hall, alt_of_none hrange, alt_of_none hpoint]

theorem specifier_print {b : Base} (hb : b.isAny = false) {i : Text} (hi : Follows i) :
    specifier (b.print ++ i) = some (b.toSpecifier, b.leaves i) := by
  cases b with
  | all => exact alt_of_some (map_eq_some.mpr ⟨(), tag_cons _ _, rfl⟩)
  | any => exact absurd hb (by simp [Base.isAny])
  | point n =>
    have hord : ordinal (digits n ++ i) = some (n, skip i) := ordinal_digits n hi.stops.1
    have hrange : range (digits n ++ i) = none :=
      map_eq_none (separatedPair_of_sep hord (tag_eq_none hi.head?_ne))
    have hpoint : point (digits n ++ i) = some (.point n, skip i) :=
      map_eq_some.mpr ⟨n, hord, rfl⟩
    rw [Base.print, specifier_of_digit ((digits_begins n).append i), alt_of_none hrange]
    exact alt_of_some hpoint
  | range start stop =>
    have hstart : ordinal (digits start ++ '-' :: (digits stop ++ i)) =
        some (start, '-' :: (digits stop ++ i)) := by
      rw [ordinal_digits start (stops_cons.mpr (by decide)), skip_cons (by decide)]
    have hpair := separatedPair_eq_some hstart (tag_cons '-' (digits stop ++ i))
      (ordinal_digits stop hi.stops.1)
    have hrange : range (digits start ++ '-' :: (digits stop ++ i)) =
        some (.range start stop, skip i) := map_eq_some.mpr ⟨_, hpair, rfl⟩
    rw [Base.print, List.append_assoc, List.cons_append,
      specifier_of_digit ((digits_begins start).append _)]
    exact alt_of_some hrange
  | namedRange start stop =>
    have hstart : name (start.chars ++ '-' :: (stop.chars ++ i)) =
        some (start.chars, '-' :: (stop.chars ++ i)) := by
      rw [name_chars start (stops_cons.mpr (by decide)), skip_cons (by decide)]
    have hpair := separatedPair_eq_some hstart (tag_cons '-' (stop.chars ++ i))
      (name_chars stop hi.stops.2)
    rw [Base.print, List.append_assoc, List.cons_append,
      specifier_of_letter (start.begins.append _)]
    exact map_eq_some.mpr ⟨_, hpair, rfl⟩

theorem specifierOf_of_allowsAny {u : TimeUnit} (h : AllowsAny u) :
    specifierOf u = specifierWithAny := by
  rcases h with rfl | rfl <;> rfl

theorem specifierOf_of_not_allowsAny {u : TimeUnit} (h : ¬ AllowsAny u) :
    specifierOf u = specifier := by
  cases u <;> first | rfl | exact absurd h (by simp [AllowsAny])

/-- Without `?` in front the unit makes no difference. -/
theorem specifierOf_eq {u : TimeUnit} {i : Text} (h : i.head? ≠ some '?') :
    specifierOf u i = specifier i := by
  by_cases hu : AllowsAny u
  · rw [specifierOf_of_allowsAny hu]
    exact alt_of_none (map_eq_none (tag_eq_none h))
  · rw [specifierOf_of_not_allowsAny hu]

theorem Base.print_begins (b : Base) :
    Begins (fun c => IsStart c ∧ (c = '?' ↔ b.isAny = true)) b.print := by
  have hdigit : ∀ (n : UInt32), Begins (fun c => IsStart c ∧ (c = '?' ↔ false = true)) (digits n) := by
    intro n
    refine (digits_begins n).imp fun c hc => ⟨Or.inl hc, ?_⟩
    simp only [Bool.false_eq_true, iff_false]
    rintro rfl
    exact absurd hc (by decide)
  have hletter : ∀ (n : Name), Begins (fun c => IsStart c ∧ (c = '?' ↔ false = true)) n.chars := by
    intro n
    refine n.begins.imp fun c hc => ⟨Or.inr (Or.inl hc), ?_⟩
    simp only [Bool.false_eq_true, iff_false]
    rintro rfl
    exact absurd hc (by decide)
  cases b with
  | all => exact ⟨'*', [], rfl, Or.inr (Or.inr (Or.inl rfl)), by decide⟩
  | any => exact ⟨'?', [], rfl, Or.inr (Or.inr (Or.inr rfl)), by decide⟩
  | point n => exact hdigit n
  | range start stop => exact (hdigit start).append _
  | namedRange start stop => exact (hletter start).append _

theorem specifierOf_print {u : TimeUnit} {b : Base} (hany : b.isAny = true → AllowsAny u) {i : Text}
    (hi : Follows i) : specifierOf u (b.print ++ i) = some (b.toSpecifier, b.leaves i) := by
  cases hb : b.isAny with
  | false =>
    have hhead : (b.print ++ i).head? ≠ some '?' :=
      head?_ne_of_begins (b.print_begins.append i) (by simp [hb])
    rw [specifierOf_eq hhead, specifier_print hb hi]
  | true =>
    cases b with
    | any =>
      rw [specifierOf_of_allowsAny (hany rfl)]
      exact alt_of_some (map_eq_some.mpr ⟨(), tag_cons _ _, rfl⟩)
    | _ => exact absurd hb (by simp [Base.isAny])

/-! ## Specifiers with steps, and named points -/

def Root.toRootSpecifier : Root → RootSpecifier
  | base b => .specifier b.toSpecifier
  | period b step => .period b.toSpecifier step
  | namedPoint name => .namedPoint name.chars

def Root.leaves : Root → Text → Text
  | base b, i => b.leaves i
  | _, i => skip i

def Root.hasAny : Root → Bool
  | base b => b.isAny
  | period b _ => b.isAny
  | namedPoint _ => false

theorem Root.print_begins (r : Root) :
    Begins (fun c => IsStart c ∧ (c = '?' ↔ r.hasAny = true)) r.print := by
  cases r with
  | base b => exact b.print_begins
  | period b step => exact b.print_begins.append _
  | namedPoint name =>
    refine name.begins.imp fun c hc => ⟨Or.inr (Or.inl hc), ?_⟩
    simp only [Root.hasAny, Bool.false_eq_true, iff_false]
    rintro rfl
    exact absurd hc (by decide)

theorem Base.leaves_eq (b : Base) (i : Text) : b.leaves i = i ∨ b.leaves i = skip i := by
  cases b <;> simp [Base.leaves]

theorem Root.leaves_eq (r : Root) (i : Text) : r.leaves i = i ∨ r.leaves i = skip i := by
  cases r with
  | base b => exact b.leaves_eq i
  | period b step => exact Or.inr rfl
  | namedPoint name => exact Or.inr rfl

theorem rootSpecifier_print {u : TimeUnit} {r : Root} (hany : r.hasAny = true → AllowsAny u)
    {i : Text} (hi : SpecifierEnd i) :
    rootSpecifierOver (specifierOf u) (r.print ++ i) = some (r.toRootSpecifier, r.leaves i) := by
  cases r with
  | base b =>
    have hb := specifierOf_print hany (Or.inl hi)
    have hhead : (b.leaves i).head? ≠ some '/' := by
      rcases b.leaves_eq i with hl | hl <;> rw [hl]
      · exact (hi.head?_ne (Or.inr rfl)).1
      · exact (hi.head?_ne (Or.inr rfl)).2
    have hperiod : periodOver (specifierOf u) (b.print ++ i) = none :=
      map_eq_none (separatedPair_of_sep hb (tag_eq_none hhead))
    rw [Root.print, rootSpecifierOver, alt_of_none hperiod]
    exact alt_of_some (map_eq_some.mpr ⟨_, hb, rfl⟩)
  | period b step =>
    have hb := specifierOf_print hany (i := '/' :: (digits step ++ i)) (Or.inr ⟨_, rfl⟩)
    have hl : b.leaves ('/' :: (digits step ++ i)) = '/' :: (digits step ++ i) := by
      rcases b.leaves_eq ('/' :: (digits step ++ i)) with hl | hl
      · exact hl
      · rw [hl, skip_cons (by decide)]
    rw [hl] at hb
    have hstep : ordinal (digits step ++ i) = some (step, skip i) :=
      ordinal_digits step (Follows.stops (Or.inl hi)).1
    have hpair := separatedPair_eq_some hb (tag_cons '/' (digits step ++ i)) hstep
    rw [Root.print, List.append_assoc, List.cons_append]
    exact alt_of_some (map_eq_some.mpr ⟨_, hpair, rfl⟩)
  | namedPoint n =>
    have hn : name (n.chars ++ i) = some (n.chars, skip i) :=
      name_chars n (Follows.stops (Or.inl hi)).2
    have hspec : specifierOf u (n.chars ++ i) = none := by
      rw [specifierOf_eq (head?_ne_of_begins (n.begins.append i) (by decide)),
        specifier_of_letter (n.begins.append i)]
      exact map_eq_none (separatedPair_of_sep hn (tag_eq_none (hi.head?_ne (Or.inl rfl)).2))
    have hperiod : periodOver (specifierOf u) (n.chars ++ i) = none :=
      map_eq_none (separatedPair_of_left hspec)
    have hbase : map RootSpecifier.specifier (specifierOf u) (n.chars ++ i) = none := map_eq_none hspec
    rw [Root.print, rootSpecifierOver, alt_of_none hperiod, alt_of_none hbase]
    exact map_eq_some.mpr ⟨_, hn, rfl⟩

/-- No specifier begins with a comma, or with a `?` that the unit does not allow. -/
theorem rootSpecifier_eq_none {u : TimeUnit} {c : Char} {i : Text}
    (hc : c = ',' ∨ (c = '?' ∧ ¬ AllowsAny u)) :
    rootSpecifierOver (specifierOf u) (c :: i) = none := by
  have hclass : isSpace c = false ∧ c.isDigit = false ∧ c.isAlpha = false ∧ c ≠ '*' := by
    rcases hc with rfl | ⟨rfl, -⟩ <;> decide
  obtain ⟨hspace, hdigit, halpha, hstar⟩ := hclass
  have hord : ordinal (c :: i) = none :=
    ordinal_eq_none (by rw [skip_cons hspace]; exact stops_cons.mpr hdigit)
  have hname : name (c :: i) = none :=
    name_eq_none (by rw [skip_cons hspace]; exact stops_cons.mpr halpha)
  have hall : all (c :: i) = none := map_eq_none (tag_eq_none (by simpa using hstar))
  have hrange : range (c :: i) = none := map_eq_none (separatedPair_of_left hord)
  have hpoint : point (c :: i) = none := map_eq_none hord
  have hnamed : namedRange (c :: i) = none := map_eq_none (separatedPair_of_left hname)
  have hspec : specifierOf u (c :: i) = none := by
    have hbase : specifier (c :: i) = none := by
      rw [specifier, alt_of_none hall, alt_of_none hrange, alt_of_none hpoint, hnamed]
    rcases hc with rfl | ⟨rfl, hu⟩
    · rw [specifierOf_eq (by simp), hbase]
    · rw [specifierOf_of_not_allowsAny hu, hbase]
  have hperiod : periodOver (specifierOf u) (c :: i) = none :=
    map_eq_none (separatedPair_of_left hspec)
  have hroot : map RootSpecifier.specifier (specifierOf u) (c :: i) = none := map_eq_none hspec
  have hpt : namedPoint (c :: i) = none := map_eq_none hname
  rw [rootSpecifierOver, alt_of_none hperiod, alt_of_none hroot, hpt]

/-! ## Fields -/

theorem printField_cons (r : Root) {l : List Root} (hl : l ≠ []) :
    printField (r :: l) = r.print ++ ',' :: printField l := by
  cases l with
  | nil => exact absurd rfl hl
  | cons q l => rfl

theorem printField_begins {l : List Root} (hl : l ≠ []) : Begins IsStart (printField l) := by
  cases l with
  | nil => exact absurd rfl hl
  | cons r l =>
    have hr : Begins IsStart r.print := r.print_begins.imp fun c hc => hc.1
    cases l with
    | nil => exact hr
    | cons q l => exact hr.append _

theorem Root.leaves_comma (r : Root) (i : Text) : r.leaves (',' :: i) = ',' :: i := by
  rcases r.leaves_eq (',' :: i) with h | h
  · exact h
  · rw [h, skip_cons (by decide)]

/-- At the end of a field the list of specifiers ends. -/
theorem separatedMany_fieldEnd {u : TimeUnit} (r : Root) {i : Text} (hi : FieldEnd i) (bound : ℕ) :
    separatedMany (tag [',']) (rootSpecifierOver (specifierOf u)) bound (r.leaves i) =
      some ([], r.leaves i) := by
  apply separatedMany_of_stop
  apply tag_eq_none
  rcases r.leaves_eq i with h | h <;> rw [h]
  · exact (hi.head?_ne (Or.inr (Or.inr rfl))).1
  · exact (hi.head?_ne (Or.inr (Or.inr rfl))).2

/-- Where the unit allows every specifier of the list, all of them are parsed. -/
theorem separatedMany_print {u : TimeUnit} {l : List Root} (hl : l ≠ [])
    (hany : ∀ r ∈ l, r.hasAny = true → AllowsAny u) {i : Text} (hi : FieldEnd i) {bound : ℕ}
    (hbound : l.length ≤ bound) :
    ∃ i', (i' = i ∨ i' = skip i) ∧
      separatedMany (tag [',']) (rootSpecifierOver (specifierOf u)) bound
        (',' :: (printField l ++ i)) = some (l.map Root.toRootSpecifier, i') := by
  induction l generalizing bound with
  | nil => exact absurd rfl hl
  | cons r l ih =>
    obtain ⟨bound, rfl⟩ : ∃ k, bound = k + 1 := ⟨bound - 1, by simp at hbound; omega⟩
    have hr := hany r (by simp)
    by_cases hnil : l = []
    · subst hnil
      refine ⟨r.leaves i, r.leaves_eq i, ?_⟩
      rw [printField, separatedMany_cons (tag_cons ',' _) (by simp) (rootSpecifier_print hr (Or.inl hi)),
        separatedMany_fieldEnd r hi]
      rfl
    · have hlen : l.length ≤ bound := by simpa using hbound
      obtain ⟨i', hi', htail⟩ := ih hnil (fun q hq => hany q (by simp [hq])) hlen
      have hspec := rootSpecifier_print hr (i := ',' :: (printField l ++ i)) (Or.inr ⟨_, rfl⟩)
      rw [r.leaves_comma] at hspec
      refine ⟨i', hi', ?_⟩
      rw [printField_cons r hnil, List.append_assoc, List.cons_append,
        separatedMany_cons (tag_cons ',' _) (by simp) hspec, htail]
      rfl

theorem printField_cons_begins (r : Root) (l : List Root) (i : Text) :
    Begins (fun c => IsStart c ∧ (c = '?' ↔ r.hasAny = true)) (printField (r :: l) ++ i) := by
  refine Begins.append ?_ i
  by_cases hnil : l = []
  · subst hnil
    exact r.print_begins
  · rw [printField_cons r hnil]
    exact r.print_begins.append _

theorem any_in_tail {r : Root} {l : List Root} (hr : r.hasAny = false)
    (hany : ∃ q ∈ r :: l, q.hasAny = true) : (∃ q ∈ l, q.hasAny = true) ∧ l ≠ [] := by
  obtain ⟨q, hq, hqa⟩ := hany
  rcases List.mem_cons.mp hq with rfl | hq
  · rw [hr] at hqa
    exact absurd hqa (by simp)
  · exact ⟨⟨q, hq, hqa⟩, List.ne_nil_of_mem hq⟩

/-- Otherwise the list stops at the comma before the first `?`. -/
theorem separatedMany_any {u : TimeUnit} (hu : ¬ AllowsAny u) {l : List Root}
    (hany : ∃ r ∈ l, r.hasAny = true) {i : Text} (bound : ℕ) :
    ∃ l' j, separatedMany (tag [',']) (rootSpecifierOver (specifierOf u)) bound
      (',' :: (printField l ++ i)) = some (l', ',' :: j) := by
  induction l generalizing bound with
  | nil => exact absurd hany (by simp)
  | cons r l ih =>
    cases bound with
    | zero => exact ⟨[], _, rfl⟩
    | succ bound =>
      cases hr : r.hasAny with
      | true =>
        obtain ⟨c, j, hj, -, hc⟩ := printField_cons_begins r l i
        have hfail : rootSpecifierOver (specifierOf u) (printField (r :: l) ++ i) = none := by
          rw [hj]
          exact rootSpecifier_eq_none (Or.inr ⟨hc.mpr hr, hu⟩)
        exact ⟨[], _, separatedMany_of_fail (tag_cons ',' _) (by simp) hfail⟩
      | false =>
        obtain ⟨htail, hnil⟩ := any_in_tail hr hany
        obtain ⟨l', j, hl'⟩ := ih htail bound
        have hspec := rootSpecifier_print (u := u) (r := r) (by simp [hr])
          (i := ',' :: (printField l ++ i)) (Or.inr ⟨_, rfl⟩)
        rw [r.leaves_comma] at hspec
        refine ⟨r.toRootSpecifier :: l', j, ?_⟩
        rw [printField_cons r hnil, List.append_assoc, List.cons_append,
          separatedMany_cons (tag_cons ',' _) (by simp) hspec, hl']
        rfl

theorem length_le_printField (l : List Root) : l.length ≤ (printField l).length + 1 := by
  induction l with
  | nil => simp
  | cons r l ih =>
    by_cases hnil : l = []
    · subst hnil
      simp
    · rw [printField_cons r hnil]
      simp only [List.length_cons, List.length_append]
      omega

theorem skip_printField {l : List Root} (hl : l ≠ []) (i : Text) :
    skip (printField l ++ i) = printField l ++ i :=
  skip_of_begins (((printField_begins hl).imp fun _ hc => hc.not_isSpace).append i)

theorem separatedList1_eq {α γ : Type} {sep : Parser γ} {p : Parser α} {i i' : Text} {a : α}
    (h : p i = some (a, i')) : separatedList1 sep p i =
      (separatedMany sep p i'.length i').map fun r => (a :: r.1, r.2) := by
  simp only [separatedList1, h, Option.bind_eq_bind, Option.bind_some]
  cases separatedMany sep p i'.length i' <;> rfl

theorem fieldOf_of_list {u : TimeUnit} {i i' : Text} {l : List RootSpecifier}
    (h : separatedList1 (tag [',']) (rootSpecifierOver (specifierOf u)) (skip i) = some (l, i')) :
    fieldOf u i = some (l, skip i') := by
  rw [fieldOf_eq, rootSpecifierListOver, delimited_multispace, alt_of_some h]
  rfl

/-- What was printed for a field is parsed to its specifiers, up to the next field. -/
theorem fieldOf_print {u : TimeUnit} {l : List Root} (hl : l ≠ [])
    (hany : ∀ r ∈ l, r.hasAny = true → AllowsAny u) {i : Text} (hi : FieldEnd i) :
    fieldOf u (printField l ++ i) = some (l.map Root.toRootSpecifier, skip i) := by
  obtain ⟨i', hi', hlist⟩ : ∃ i', (i' = i ∨ i' = skip i) ∧
      separatedList1 (tag [',']) (rootSpecifierOver (specifierOf u)) (printField l ++ i) =
        some (l.map Root.toRootSpecifier, i') := by
    cases l with
    | nil => exact absurd rfl hl
    | cons r l =>
      have hr := hany r (by simp)
      by_cases hnil : l = []
      · subst hnil
        refine ⟨r.leaves i, r.leaves_eq i, ?_⟩
        rw [printField, separatedList1_eq (rootSpecifier_print hr (Or.inl hi)),
          separatedMany_fieldEnd r hi]
        rfl
      · have hspec := rootSpecifier_print hr (i := ',' :: (printField l ++ i)) (Or.inr ⟨_, rfl⟩)
        rw [r.leaves_comma] at hspec
        have hlen : l.length ≤ (',' :: (printField l ++ i)).length := by
          have := length_le_printField l
          simp only [List.length_cons, List.length_append]
          omega
        obtain ⟨i', hi', htail⟩ := separatedMany_print hnil (fun q hq => hany q (by simp [hq])) hi hlen
        refine ⟨i', hi', ?_⟩
        rw [printField_cons r hnil, List.append_assoc, List.cons_append, separatedList1_eq hspec,
          htail]
        rfl
  rw [fieldOf_of_list (by rw [skip_printField hl]; exact hlist)]
  rcases hi' with rfl | rfl
  · rfl
  · rw [skip_skip]

theorem fieldOf_eq_none {u : TimeUnit} {i : Text}
    (h : rootSpecifierOver (specifierOf u) (skip i) = none) : fieldOf u i = none := by
  have hlist : separatedList1 (tag [',']) (rootSpecifierOver (specifierOf u)) (skip i) = none := by
    simp [separatedList1, h]
  rw [fieldOf_eq, rootSpecifierListOver, delimited_multispace, alt_of_none hlist, map_eq_none h]
  rfl

theorem fieldOf_comma (u : TimeUnit) (i : Text) : fieldOf u (',' :: i) = none := by
  apply fieldOf_eq_none
  rw [skip_cons (by decide)]
  exact rootSpecifier_eq_none (Or.inl rfl)

/-- With a `?` that the unit does not allow, a field fails or leaves a comma. -/
theorem fieldOf_any {u : TimeUnit} (hu : ¬ AllowsAny u) {l : List Root}
    (hany : ∃ r ∈ l, r.hasAny = true) (i : Text) :
    fieldOf u (printField l ++ i) = none ∨
      ∃ l' j, fieldOf u (printField l ++ i) = some (l', ',' :: j) := by
  cases l with
  | nil => exact absurd hany (by simp)
  | cons r l =>
    have hskip : skip (printField (r :: l) ++ i) = printField (r :: l) ++ i :=
      skip_printField (by simp) i
    cases hr : r.hasAny with
    | true =>
      left
      obtain ⟨c, j, hj, -, hc⟩ := printField_cons_begins r l i
      apply fieldOf_eq_none
      rw [hskip, hj]
      exact rootSpecifier_eq_none (Or.inr ⟨hc.mpr hr, hu⟩)
    | false =>
      right
      obtain ⟨htail, hnil⟩ := any_in_tail hr hany
      obtain ⟨l', j, hl'⟩ := separatedMany_any (i := i) hu htail (',' :: (printField l ++ i)).length
      have hspec := rootSpecifier_print (u := u) (r := r) (by simp [hr])
        (i := ',' :: (printField l ++ i)) (Or.inr ⟨_, rfl⟩)
      rw [r.leaves_comma] at hspec
      have hlist : separatedList1 (tag [',']) (rootSpecifierOver (specifierOf u))
          (skip (printField (r :: l) ++ i)) = some (r.toRootSpecifier :: l', ',' :: j) := by
        rw [hskip, printField_cons r hnil, List.append_assoc, List.cons_append,
          separatedList1_eq hspec, hl']
        rfl
      refine ⟨r.toRootSpecifier :: l', j, ?_⟩
      rw [fieldOf_of_list hlist, skip_cons (by decide)]

end Antegen.Cron.Grammar
