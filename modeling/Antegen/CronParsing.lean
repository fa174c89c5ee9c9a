import Antegen.Combinators
import Antegen.CronFields

/-!
# Parsing of cron expressions

The grammar as the source has it: ordered choice over text. Numbers and names take the
blanks around them. Six fields are followed by an optional seventh one for years, and
five words stand for whole schedules.
-/
namespace Antegen.Cron

open Combinators

/-- `multispace0` takes blanks, tabs and line ends. -/
def isSpace (c : Char) : Bool := c = ' ' || c = '\t' || c = '\r' || c = '\n'

def multispace0 : Parser Text := takeWhile0 isSpace

def digit1 : Parser Text := takeWhile1 Char.isDigit

def alpha1 : Parser Text := takeWhile1 Char.isAlpha

/-- `u32::from_str` on digits. -/
def u32FromStr (digits : Text) : Option UInt32 :=
  let n := Nat.ofDigitChars 10 digits 0
  if n < 2 ^ 32 then some (UInt32.ofNat n) else none

def ordinal : Parser UInt32 := mapRes u32FromStr (delimited multispace0 digit1 multispace0)

def name : Parser Text := delimited multispace0 alpha1 multispace0

def point : Parser Specifier := map .point ordinal

def namedPoint : Parser RootSpecifier := map .namedPoint name

def range : Parser Specifier := map (fun p => .range p.1 p.2) (separatedPair ordinal (tag ['-']) ordinal)

def namedRange : Parser Specifier :=
  map (fun p => .namedRange p.1 p.2) (separatedPair name (tag ['-']) name)

def all : Parser Specifier := map (fun _ => .all) (tag ['*'])

def any : Parser Specifier := map (fun _ => .all) (tag ['?'])

def specifier : Parser Specifier := alt all (alt range (alt point namedRange))

def specifierWithAny : Parser Specifier := alt any specifier

/-- `period`, and `period_with_any` over the other kind of specifier. -/
def periodOver (s : Parser Specifier) : Parser RootSpecifier :=
  map (fun p => .period p.1 p.2) (separatedPair s (tag ['/']) ordinal)

def period : Parser RootSpecifier := periodOver specifier

def periodWithAny : Parser RootSpecifier := periodOver specifierWithAny

def rootSpecifierOver (s : Parser Specifier) : Parser RootSpecifier :=
  alt (periodOver s) (alt (map .specifier s) namedPoint)

def rootSpecifier : Parser RootSpecifier := rootSpecifierOver specifier

def rootSpecifierWithAny : Parser RootSpecifier := rootSpecifierOver specifierWithAny

def rootSpecifierListOver (s : Parser Specifier) : Parser (List RootSpecifier) :=
  delimited multispace0
    (alt (separatedList1 (tag [',']) (rootSpecifierOver s))
      (map (fun r => [r]) (rootSpecifierOver s)))
    multispace0

def rootSpecifierList : Parser (List RootSpecifier) := rootSpecifierListOver specifier

def rootSpecifierListWithAny : Parser (List RootSpecifier) := rootSpecifierListOver specifierWithAny

/-- A word that stands for a whole schedule. -/
def shorthandFor (word : String) (s : ScheduleFields) : Parser ScheduleFields :=
  map (fun _ => s) (tag word.toList)

def shorthandYearly : Parser ScheduleFields :=
  shorthandFor "@yearly"
    { years := .all, daysOfWeek := .all, months := .fromOrdinal 1, daysOfMonth := .fromOrdinal 1
      hours := .fromOrdinal 0, minutes := .fromOrdinal 0, seconds := .fromOrdinal 0 }

def shorthandMonthly : Parser ScheduleFields :=
  shorthandFor "@monthly"
    { years := .all, daysOfWeek := .all, months := .all, daysOfMonth := .fromOrdinal 1
      hours := .fromOrdinal 0, minutes := .fromOrdinal 0, seconds := .fromOrdinal 0 }

def shorthandWeekly : Parser ScheduleFields :=
  shorthandFor "@weekly"
    { years := .all, daysOfWeek := .fromOrdinal 1, months := .all, daysOfMonth := .all
      hours := .fromOrdinal 0, minutes := .fromOrdinal 0, seconds := .fromOrdinal 0 }

def shorthandDaily : Parser ScheduleFields :=
  shorthandFor "@daily"
    { years := .all, daysOfWeek := .all, months := .all, daysOfMonth := .all
      hours := .fromOrdinal 0, minutes := .fromOrdinal 0, seconds := .fromOrdinal 0 }

def shorthandHourly : Parser ScheduleFields :=
  shorthandFor "@hourly"
    { years := .all, daysOfWeek := .all, months := .all, daysOfMonth := .all
      hours := .all, minutes := .fromOrdinal 0, seconds := .fromOrdinal 0 }

def shorthand : Parser ScheduleFields :=
  delimited multispace0
    (alt shorthandYearly (alt shorthandMonthly (alt shorthandWeekly
      (alt shorthandDaily shorthandHourly))))
    multispace0

def field : Parser (List RootSpecifier) := rootSpecifierList

def fieldWithAny : Parser (List RootSpecifier) := rootSpecifierListWithAny

/-- `?` is a specifier of the two day fields. -/
def fieldOf : TimeUnit → Parser (List RootSpecifier)
  | .daysOfMonth => fieldWithAny
  | .daysOfWeek => fieldWithAny
  | _ => field

def valueOf (u : TimeUnit) : Parser (FieldValue u) :=
  mapRes (fun l => (fromField u l).toOption) (fieldOf u)

/-- The seven fields in order. -/
def fields : Parser ScheduleFields := fun i => do
  let (seconds, i) ← valueOf .seconds i
  let (minutes, i) ← valueOf .minutes i
  let (hours, i) ← valueOf .hours i
  let (daysOfMonth, i) ← valueOf .daysOfMonth i
  let (months, i) ← valueOf .months i
  let (daysOfWeek, i) ← valueOf .daysOfWeek i
  let (years, i) ← opt (valueOf .years) i
  pure ({ years := years.getD .all, daysOfWeek, months, daysOfMonth, hours, minutes, seconds }, i)

def longhand : Parser ScheduleFields := terminated fields eof

def schedule : Parser ScheduleFields := allConsuming (alt shorthand longhand)

structure Schedule where
  source : String
  fields : ScheduleFields

def Schedule.fromStr (expression : String) : Except ErrorKind Schedule :=
  match schedule expression.toList with
  | some (fields, _) => .ok ⟨expression, fields⟩
  | none => .error (.expression "Invalid cron expression.")

/-! ## Parsed schedules are well formed -/

def ScheduleFields.WellFormed (s : ScheduleFields) : Prop := ∀ u, (s.field u).WellFormed

def specifierOf : TimeUnit → Parser Specifier
  | .daysOfMonth => specifierWithAny
  | .daysOfWeek => specifierWithAny
  | _ => specifier

theorem fieldOf_eq (u : TimeUnit) : fieldOf u = rootSpecifierListOver (specifierOf u) := by
  cases u <;> rfl

theorem rootSpecifierListOver_ne_nil {s : Parser Specifier} {i rest : Text}
    {l : List RootSpecifier} (h : rootSpecifierListOver s i = some (l, rest)) : l ≠ [] := by
  obtain ⟨i', i'', hlist⟩ := delimited_eq_some h
  rcases alt_eq_some hlist with hmany | hone
  · exact separatedList1_ne_nil hmany
  · obtain ⟨r, -, rfl⟩ := map_eq_some.mp hone
    simp

theorem valueOf_eq_some {u : TimeUnit} {i rest : Text} {f : FieldValue u} :
    valueOf u i = some (f, rest) ↔ ∃ l, fieldOf u i = some (l, rest) ∧ fromField u l = .ok f := by
  simp only [valueOf, mapRes_eq_some, toOption_eq_some]

theorem valueOf_wellFormed {u : TimeUnit} {i rest : Text} {f : FieldValue u}
    (h : valueOf u i = some (f, rest)) : f.WellFormed := by
  obtain ⟨l, hl, hf⟩ := valueOf_eq_some.mp h
  rw [fieldOf_eq] at hl
  exact fromField_wellFormed (rootSpecifierListOver_ne_nil hl) hf

theorem fields_wellFormed {i rest : Text} {s : ScheduleFields} (h : fields i = some (s, rest)) :
    s.WellFormed := by
  simp only [fields, Option.bind_eq_bind, Option.bind_eq_some_iff, Prod.exists, Option.pure_def,
    Option.some.injEq, Prod.mk.injEq] at h
  obtain ⟨_, _, h1, _, _, h2, _, _, h3, _, _, h4, _, _, h5, _, _, h6, years, _, h7, rfl, -⟩ := h
  intro u
  cases u with
  | seconds => exact valueOf_wellFormed h1
  | minutes => exact valueOf_wellFormed h2
  | hours => exact valueOf_wellFormed h3
  | daysOfMonth => exact valueOf_wellFormed h4
  | months => exact valueOf_wellFormed h5
  | daysOfWeek => exact valueOf_wellFormed h6
  | years =>
    cases years with
    | none => exact FieldValue.all_wellFormed .years
    | some f =>
      unfold opt at h7
      split at h7
      · rename_i hf
        obtain ⟨rfl, -⟩ : _ = f ∧ _ := by simpa using h7
        exact valueOf_wellFormed hf
      · exact absurd h7 (by simp)

theorem shorthandFor_wellFormed {word : String} {s t : ScheduleFields} {i rest : Text}
    (hs : s.WellFormed) (h : shorthandFor word s i = some (t, rest)) : t.WellFormed := by
  obtain ⟨-, -, rfl⟩ := map_eq_some.mp h
  exact hs

/-- A shorthand selects everything or one supported ordinal in each field. -/
theorem wellFormed_of_plain {s : ScheduleFields}
    (h : ∀ u, s.field u = .all ∨ ∃ n, u.Supports n ∧ s.field u = .fromOrdinal n) :
    s.WellFormed := by
  intro u
  rcases h u with hu | ⟨n, hn, hu⟩
  · rw [hu]
    exact FieldValue.all_wellFormed u
  · rw [hu]
    exact FieldValue.fromOrdinal_wellFormed hn

theorem shorthand_wellFormed {i rest : Text} {s : ScheduleFields}
    (h : shorthand i = some (s, rest)) : s.WellFormed := by
  obtain ⟨i', i'', hword⟩ := delimited_eq_some h
  have hwords : shorthandYearly i' = some (s, i'') ∨ shorthandMonthly i' = some (s, i'') ∨
      shorthandWeekly i' = some (s, i'') ∨ shorthandDaily i' = some (s, i'') ∨
      shorthandHourly i' = some (s, i'') :=
    (alt_eq_some hword).imp_right fun h1 => (alt_eq_some h1).imp_right fun h2 =>
      (alt_eq_some h2).imp_right alt_eq_some
  rcases hwords with hw | hw | hw | hw | hw <;>
    refine shorthandFor_wellFormed (wellFormed_of_plain fun u => ?_) hw <;>
    cases u <;>
    first | exact Or.inl rfl | exact Or.inr ⟨_, by decide, rfl⟩

/-- Every parsed schedule selects something in each field, and nothing unsupported. -/
theorem schedule_wellFormed {i rest : Text} {s : ScheduleFields}
    (h : schedule i = some (s, rest)) : s.WellFormed := by
  obtain ⟨i', -, h, -⟩ := terminated_eq_some.mp h
  rcases alt_eq_some h with h | h
  · exact shorthand_wellFormed h
  · obtain ⟨i'', -, h, -⟩ := terminated_eq_some.mp h
    exact fields_wellFormed h

theorem fromStr_wellFormed {expression : String} {s : Schedule}
    (h : Schedule.fromStr expression = .ok s) : s.fields.WellFormed := by
  unfold Schedule.fromStr at h
  split at h
  · rename_i hs
    rw [← Except.ok.inj h]
    exact schedule_wellFormed hs
  · exact absurd h (by simp)

end Antegen.Cron
