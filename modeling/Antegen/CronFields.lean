import Antegen.Basic
import Antegen.SortedSet

/-!
# Fields of a cron schedule

Seven units of time, each with its bounds and, for months and weekdays, a table of
names. A specifier selects ordinals of a unit. A field is the union of what its
specifiers select, or everything the unit supports.
-/
namespace Antegen.Cron

/-- Sets of ordinals, which are `u32` in the source. -/
abbrev OrdinalSet := SortedSet ℕ

abbrev Text := List Char

inductive ErrorKind
  | expression (message : String)
  deriving DecidableEq, Repr

inductive Specifier
  | all
  | point (ordinal : UInt32)
  | range (start stop : UInt32)
  | namedRange (start stop : Text)
  deriving DecidableEq, Repr

inductive RootSpecifier
  | specifier (s : Specifier)
  | period (start : Specifier) (step : UInt32)
  | namedPoint (name : Text)
  deriving DecidableEq, Repr

/-- The implementations of `TimeUnitField`. -/
inductive TimeUnit
  | seconds
  | minutes
  | hours
  | daysOfMonth
  | months
  | daysOfWeek
  | years
  deriving DecidableEq, Repr

namespace TimeUnit

def name : TimeUnit → String
  | seconds => "Seconds"
  | minutes => "Minutes"
  | hours => "Hours"
  | daysOfMonth => "Days of Month"
  | months => "Months"
  | daysOfWeek => "Days of Week"
  | years => "Years"

def inclusiveMin : TimeUnit → ℕ
  | seconds => 0
  | minutes => 0
  | hours => 0
  | daysOfMonth => 1
  | months => 1
  | daysOfWeek => 1
  | years => 1970

def inclusiveMax : TimeUnit → ℕ
  | seconds => 59
  | minutes => 59
  | hours => 23
  | daysOfMonth => 31
  | months => 12
  | daysOfWeek => 7
  | years => 2100

/-- Accepted names in lower case. -/
def names : TimeUnit → List (String × ℕ)
  | months =>
    [("jan", 1), ("january", 1), ("feb", 2), ("february", 2), ("mar", 3), ("march", 3),
      ("apr", 4), ("april", 4), ("may", 5), ("jun", 6), ("june", 6), ("jul", 7), ("july", 7),
      ("aug", 8), ("august", 8), ("sep", 9), ("september", 9), ("oct", 10), ("october", 10),
      ("nov", 11), ("november", 11), ("dec", 12), ("december", 12)]
  | daysOfWeek =>
    [("sun", 1), ("sunday", 1), ("mon", 2), ("monday", 2), ("tue", 3), ("tues", 3),
      ("tuesday", 3), ("wed", 4), ("wednesday", 4), ("thu", 5), ("thurs", 5), ("thursday", 5),
      ("fri", 6), ("friday", 6), ("sat", 7), ("saturday", 7)]
  | _ => []

/-- The message for a name the unit does not know. -/
def nameError (u : TimeUnit) (given : Text) : String :=
  match u with
  | months => "'" ++ String.ofList given ++ "' is not a valid month name."
  | daysOfWeek => "'" ++ String.ofList given ++ "' is not a valid day of the week."
  | u => "The '" ++ u.name ++ "' field does not support using names. '" ++ String.ofList given ++
      "' specified."

/-- `to_lowercase` on the letters a name consists of. -/
def lowercase (given : Text) : Text := given.map Char.toLower

def findName (u : TimeUnit) (given : Text) : Option ℕ :=
  (u.names.find? fun p => p.1.toList = lowercase given).map Prod.snd

def ordinalFromName (u : TimeUnit) (given : Text) : Except ErrorKind ℕ :=
  match u.findName given with
  | some n => .ok n
  | none => .error (.expression (u.nameError given))

def validateOrdinal (u : TimeUnit) (n : ℕ) : Except ErrorKind ℕ :=
  if n < u.inclusiveMin then
    .error (.expression (u.name ++ " must be greater than or equal to " ++
      toString u.inclusiveMin ++ ". ('" ++ toString n ++ "' specified.)"))
  else if u.inclusiveMax < n then
    .error (.expression (u.name ++ " must be less than " ++ toString u.inclusiveMax ++ ". ('" ++
      toString n ++ "' specified.)"))
  else .ok n

end TimeUnit

/-- The ordinals of `start..=stop`. -/
def interval (start stop : ℕ) : OrdinalSet := .ofList (List.range' start (stop + 1 - start))

namespace TimeUnit

def supportedOrdinals (u : TimeUnit) : OrdinalSet := interval u.inclusiveMin u.inclusiveMax

/-- Both ends validated and in order. -/
def validateRange (u : TimeUnit) (message : String) (start stop : ℕ) :
    Except ErrorKind OrdinalSet :=
  match u.validateOrdinal start, u.validateOrdinal stop with
  | .ok start, .ok stop =>
    if start ≤ stop then .ok (interval start stop) else .error (.expression message)
  | _, _ => .error (.expression message)

def ordinalsFromSpecifier (u : TimeUnit) : Specifier → Except ErrorKind OrdinalSet
  | .all => .ok u.supportedOrdinals
  | .point n => .ok (.ofList [n.toNat])
  | .range start stop =>
    u.validateRange ("Invalid range for " ++ u.name ++ ": " ++ toString start.toNat ++ "-" ++
      toString stop.toNat) start.toNat stop.toNat
  | .namedRange startName stopName => do
    let start ← u.ordinalFromName startName
    let stop ← u.ordinalFromName stopName
    u.validateRange ("Invalid named range for " ++ u.name ++ ": " ++ String.ofList startName ++
      "-" ++ String.ofList stopName) start stop

/-- The ordinals a period steps over: from a point it runs to the end of the unit. -/
def baseSet (u : TimeUnit) : Specifier → Except ErrorKind OrdinalSet
  | .point start => do
    let start ← u.validateOrdinal start.toNat
    pure (interval start u.inclusiveMax)
  | s => u.ordinalsFromSpecifier s

def ordinalsFromRootSpecifier (u : TimeUnit) : RootSpecifier → Except ErrorKind OrdinalSet
  | .specifier s => u.ordinalsFromSpecifier s
  | .period start step => do
    let base ← u.baseSet start
    if step = 0 then .error (.expression "step cannot be 0")
    else pure (.ofList (stepBy step.toNat base.toList))
  | .namedPoint given => do
    let n ← u.ordinalFromName given
    pure (.ofList [n])

end TimeUnit

/-- The value of a field; without a set it is everything the unit supports. -/
structure FieldValue (u : TimeUnit) where
  ordinalSet : Option OrdinalSet
  deriving DecidableEq

namespace FieldValue

variable {u : TimeUnit}

def all : FieldValue u := ⟨none⟩

def fromOrdinal (n : ℕ) : FieldValue u := ⟨some (.ofList [n])⟩

def ordinals (f : FieldValue u) : OrdinalSet := f.ordinalSet.getD u.supportedOrdinals

def includes (f : FieldValue u) (n : ℕ) : Bool := decide (n ∈ f.ordinals)

end FieldValue

/-- Inserts validated ordinals one by one. -/
def insertValidated (u : TimeUnit) (ordinals : OrdinalSet) :
    List ℕ → Except ErrorKind OrdinalSet
  | [] => .ok ordinals
  | n :: l => do
    let n ← u.validateOrdinal n
    insertValidated u (ordinals.insert n) l

def insertSpecifiers (u : TimeUnit) (ordinals : OrdinalSet) :
    List RootSpecifier → Except ErrorKind OrdinalSet
  | [] => .ok ordinals
  | s :: l => do
    let selected ← u.ordinalsFromRootSpecifier s
    let ordinals ← insertValidated u ordinals selected.toList
    insertSpecifiers u ordinals l

def fromField (u : TimeUnit) (specifiers : List RootSpecifier) : Except ErrorKind (FieldValue u) :=
  if specifiers = [.specifier .all] then .ok .all
  else do
    let ordinals ← insertSpecifiers u .empty specifiers
    pure ⟨some ordinals⟩

structure ScheduleFields where
  years : FieldValue .years
  daysOfWeek : FieldValue .daysOfWeek
  months : FieldValue .months
  daysOfMonth : FieldValue .daysOfMonth
  hours : FieldValue .hours
  minutes : FieldValue .minutes
  seconds : FieldValue .seconds
  deriving DecidableEq

def ScheduleFields.field (s : ScheduleFields) : (u : TimeUnit) → FieldValue u
  | .seconds => s.seconds
  | .minutes => s.minutes
  | .hours => s.hours
  | .daysOfMonth => s.daysOfMonth
  | .months => s.months
  | .daysOfWeek => s.daysOfWeek
  | .years => s.years

/-! ## What a field selects -/

def TimeUnit.Supports (u : TimeUnit) (n : ℕ) : Prop := u.inclusiveMin ≤ n ∧ n ≤ u.inclusiveMax

instance (u : TimeUnit) (n : ℕ) : Decidable (u.Supports n) :=
  inferInstanceAs (Decidable (_ ∧ _))

/-- A field with at least one ordinal and only supported ones. -/
structure FieldValue.WellFormed {u : TimeUnit} (f : FieldValue u) : Prop where
  nonempty : ∃ n, n ∈ f.ordinals
  supported : ∀ n ∈ f.ordinals, u.Supports n

theorem TimeUnit.min_le_max (u : TimeUnit) : u.inclusiveMin ≤ u.inclusiveMax := by
  cases u <;> decide

theorem mem_interval {start stop n : ℕ} : n ∈ interval start stop ↔ start ≤ n ∧ n ≤ stop := by
  rw [interval, SortedSet.mem_ofList, List.mem_range'_1]
  omega

theorem interval_toList (start stop : ℕ) :
    (interval start stop).toList = List.range' start (stop + 1 - start) :=
  SortedSet.ofList_toList List.pairwise_lt_range'

theorem TimeUnit.mem_supportedOrdinals {u : TimeUnit} {n : ℕ} :
    n ∈ u.supportedOrdinals ↔ u.Supports n := mem_interval

theorem TimeUnit.validateOrdinal_eq_ok {u : TimeUnit} {n m : ℕ} :
    u.validateOrdinal n = .ok m ↔ u.Supports n ∧ n = m := by
  unfold validateOrdinal Supports
  split_ifs <;> simp <;> omega

theorem FieldValue.all_wellFormed (u : TimeUnit) : (FieldValue.all : FieldValue u).WellFormed :=
  ⟨⟨u.inclusiveMin, TimeUnit.mem_supportedOrdinals.mpr ⟨le_rfl, u.min_le_max⟩⟩,
    fun _ hn => TimeUnit.mem_supportedOrdinals.mp hn⟩

theorem FieldValue.fromOrdinal_wellFormed {u : TimeUnit} {n : ℕ} (h : u.Supports n) :
    (FieldValue.fromOrdinal n : FieldValue u).WellFormed := by
  have hmem : ∀ m, m ∈ (FieldValue.fromOrdinal n : FieldValue u).ordinals ↔ m = n := by
    simp [FieldValue.fromOrdinal, FieldValue.ordinals]
  refine ⟨⟨n, (hmem n).mpr rfl⟩, fun m hm => ?_⟩
  rw [(hmem m).mp hm]
  exact h

theorem insertValidated_eq_ok {u : TimeUnit} {s t : OrdinalSet} {l : List ℕ} :
    insertValidated u s l = .ok t →
      (∀ n ∈ l, u.Supports n) ∧ ∀ n, n ∈ t ↔ n ∈ s ∨ n ∈ l := by
  induction l generalizing s with
  | nil =>
    intro h
    rw [insertValidated, Except.ok.injEq] at h
    simp [h]
  | cons a l ih =>
    intro h
    simp only [insertValidated, bind_eq_ok, TimeUnit.validateOrdinal_eq_ok] at h
    obtain ⟨_, ⟨ha, rfl⟩, h⟩ := h
    obtain ⟨hl, hmem⟩ := ih h
    refine ⟨fun n hn => ?_, fun n => ?_⟩
    · rcases List.mem_cons.mp hn with rfl | hn
      · exact ha
      · exact hl n hn
    · rw [hmem, SortedSet.mem_insert, List.mem_cons]
      tauto

theorem insertValidated_of_supports {u : TimeUnit} {s : OrdinalSet} {l : List ℕ}
    (h : ∀ n ∈ l, u.Supports n) : ∃ t, insertValidated u s l = .ok t := by
  induction l generalizing s with
  | nil => exact ⟨s, rfl⟩
  | cons a l ih =>
    have ha := TimeUnit.validateOrdinal_eq_ok.mpr ⟨h a (by simp), rfl⟩
    rw [insertValidated, ha]
    exact ih fun n hn => h n (by simp [hn])

/-- A specifier selects a set of supported ordinals. -/
def TimeUnit.Selects (u : TimeUnit) (r : RootSpecifier) (s : OrdinalSet) : Prop :=
  u.ordinalsFromRootSpecifier r = .ok s ∧ ∀ n ∈ s, u.Supports n

theorem insertSpecifiers_eq_ok {u : TimeUnit} {s t : OrdinalSet} {l : List RootSpecifier}
    (h : insertSpecifiers u s l = .ok t) :
    (∀ r ∈ l, ∃ selected, u.Selects r selected) ∧
      ∀ n, n ∈ t ↔ n ∈ s ∨ ∃ r ∈ l, ∃ selected, u.Selects r selected ∧ n ∈ selected := by
  induction l generalizing s with
  | nil =>
    rw [insertSpecifiers, Except.ok.injEq] at h
    simp [h]
  | cons r l ih =>
    simp only [insertSpecifiers, bind_eq_ok] at h
    obtain ⟨selected, hsel, s', hs', h⟩ := h
    obtain ⟨hsupp, hmem'⟩ := insertValidated_eq_ok hs'
    obtain ⟨hall, hmem⟩ := ih h
    have hr : u.Selects r selected := ⟨hsel, hsupp⟩
    refine ⟨fun q hq => ?_, fun n => ?_⟩
    · rcases List.mem_cons.mp hq with rfl | hq
      · exact ⟨selected, hr⟩
      · exact hall q hq
    · have hfirst : n ∈ selected ↔ ∃ selected', u.Selects r selected' ∧ n ∈ selected' := by
        refine ⟨fun hn => ⟨selected, hr, hn⟩, ?_⟩
        rintro ⟨selected', hr', hn⟩
        have heq : selected = selected' := Except.ok.inj (hsel.symm.trans hr'.1)
        rw [heq]
        exact hn
      rw [hmem, hmem', ← SortedSet.mem_def, hfirst]
      simp only [List.mem_cons, exists_eq_or_imp]
      exact or_assoc

theorem insertSpecifiers_of_selects {u : TimeUnit} {s : OrdinalSet} {l : List RootSpecifier}
    (h : ∀ r ∈ l, ∃ selected, u.Selects r selected) : ∃ t, insertSpecifiers u s l = .ok t := by
  induction l generalizing s with
  | nil => exact ⟨s, rfl⟩
  | cons r l ih =>
    obtain ⟨selected, hsel, hsupp⟩ := h r (by simp)
    obtain ⟨s', hs'⟩ := insertValidated_of_supports (s := s) hsupp
    obtain ⟨t, ht⟩ := ih (s := s') fun q hq => h q (by simp [hq])
    refine ⟨t, ?_⟩
    simp only [insertSpecifiers, bind_eq_ok]
    exact ⟨selected, hsel, s', hs', ht⟩

theorem TimeUnit.validateRange_eq_ok {u : TimeUnit} {message : String} {start stop : ℕ}
    {s : OrdinalSet} : u.validateRange message start stop = .ok s ↔
      u.Supports start ∧ u.Supports stop ∧ start ≤ stop ∧ s = interval start stop := by
  by_cases hstart : u.Supports start
  · by_cases hstop : u.Supports stop
    · rw [validateRange, validateOrdinal_eq_ok.mpr ⟨hstart, rfl⟩,
        validateOrdinal_eq_ok.mpr ⟨hstop, rfl⟩]
      by_cases hle : start ≤ stop
      · simp [hstart, hstop, hle, eq_comm]
      · simp [hle]
    · simp only [hstop, false_and, and_false, iff_false]
      intro h
      unfold validateRange at h
      split at h
      · rename_i h2
        exact hstop (validateOrdinal_eq_ok.mp h2).1
      · exact absurd h (by simp)
  · simp only [hstart, false_and, iff_false]
    intro h
    unfold validateRange at h
    split at h
    · rename_i h1 _
      exact hstart (validateOrdinal_eq_ok.mp h1).1
    · exact absurd h (by simp)

theorem interval_supports {u : TimeUnit} {start stop : ℕ} (h1 : u.Supports start)
    (h2 : u.Supports stop) : ∀ n ∈ interval start stop, u.Supports n := by
  intro n hn
  have hn' := mem_interval.mp hn
  exact ⟨h1.1.trans hn'.1, hn'.2.trans h2.2⟩

theorem TimeUnit.validateRange_supports {u : TimeUnit} {message : String} {start stop : ℕ}
    {s : OrdinalSet} (h : u.validateRange message start stop = .ok s) : ∀ n ∈ s, u.Supports n := by
  obtain ⟨h1, h2, -, rfl⟩ := validateRange_eq_ok.mp h
  exact interval_supports h1 h2

theorem TimeUnit.ordinalFromName_eq_ok {u : TimeUnit} {given : Text} {n : ℕ} :
    u.ordinalFromName given = .ok n ↔ u.findName given = some n := by
  unfold ordinalFromName
  cases u.findName given <;> simp

theorem TimeUnit.findName_supports {u : TimeUnit} {given : Text} {n : ℕ}
    (h : u.findName given = some n) : u.Supports n := by
  have htable : ∀ p ∈ u.names, u.Supports p.2 := by
    cases u <;> decide
  obtain ⟨p, hp, rfl⟩ := Option.map_eq_some_iff.mp h
  exact htable p (List.mem_of_find?_eq_some hp)

theorem ofList_singleton (n : ℕ) : (SortedSet.ofList [n] : OrdinalSet) = interval n n := by
  rw [interval, Nat.add_sub_cancel_left]
  rfl

/-- What a specifier without a step selects is an interval. -/
theorem TimeUnit.ordinalsFromSpecifier_interval {u : TimeUnit} {s : Specifier} {t : OrdinalSet}
    (h : u.ordinalsFromSpecifier s = .ok t) : ∃ a b, a ≤ b ∧ t = interval a b := by
  cases s with
  | all => exact ⟨_, _, u.min_le_max, (Except.ok.inj h).symm⟩
  | point n => exact ⟨n.toNat, n.toNat, le_rfl, by rw [← ofList_singleton, Except.ok.inj h]⟩
  | range start stop =>
    obtain ⟨-, -, hle, ht⟩ := validateRange_eq_ok.mp h
    exact ⟨_, _, hle, ht⟩
  | namedRange start stop =>
    simp only [ordinalsFromSpecifier, bind_eq_ok] at h
    obtain ⟨a, -, b, -, h⟩ := h
    obtain ⟨-, -, hle, ht⟩ := validateRange_eq_ok.mp h
    exact ⟨_, _, hle, ht⟩

theorem TimeUnit.baseSet_interval {u : TimeUnit} {s : Specifier} {t : OrdinalSet}
    (h : u.baseSet s = .ok t) : ∃ a b, a ≤ b ∧ t = interval a b := by
  cases s with
  | point n =>
    simp only [baseSet, bind_eq_ok, validateOrdinal_eq_ok, pure_eq_ok] at h
    obtain ⟨_, ⟨hn, rfl⟩, rfl⟩ := h
    exact ⟨_, _, hn.2, rfl⟩
  | all => exact ordinalsFromSpecifier_interval (s := .all) h
  | range start stop => exact ordinalsFromSpecifier_interval (s := .range start stop) h
  | namedRange start stop => exact ordinalsFromSpecifier_interval (s := .namedRange start stop) h

theorem mem_stepBy_interval {step a b n : ℕ} (hstep : 0 < step) :
    n ∈ SortedSet.ofList (stepBy step (interval a b).toList) ↔
      a ≤ n ∧ n ≤ b ∧ step ∣ n - a := by
  rw [SortedSet.mem_ofList, interval_toList, mem_stepBy_range' hstep]
  omega

theorem TimeUnit.Selects.nonempty {u : TimeUnit} {r : RootSpecifier} {s : OrdinalSet}
    (h : u.Selects r s) : ∃ n, n ∈ s := by
  obtain ⟨h, -⟩ := h
  cases r with
  | specifier q =>
    obtain ⟨a, b, hle, rfl⟩ := ordinalsFromSpecifier_interval h
    exact ⟨a, mem_interval.mpr ⟨le_rfl, hle⟩⟩
  | period q step =>
    simp only [ordinalsFromRootSpecifier, bind_eq_ok] at h
    obtain ⟨base, hbase, h⟩ := h
    obtain ⟨a, b, hle, rfl⟩ := baseSet_interval hbase
    split_ifs at h with hstep
    · have hpos : 0 < step.toNat := by
        rw [Nat.pos_iff_ne_zero]
        exact fun h0 => hstep (UInt32.toNat_inj.mp h0)
      rw [← pure_eq_ok.mp h]
      exact ⟨a, (mem_stepBy_interval hpos).mpr ⟨le_rfl, hle, by simp⟩⟩
  | namedPoint given =>
    simp only [ordinalsFromRootSpecifier, bind_eq_ok, pure_eq_ok] at h
    obtain ⟨n, -, rfl⟩ := h
    exact ⟨n, by simp⟩

/-- A field succeeds if every specifier selects, and then is the union of what they
select. -/
theorem fromField_eq_ok {u : TimeUnit} {l : List RootSpecifier} {f : FieldValue u}
    (h : fromField u l = .ok f) :
    (∀ r ∈ l, ∃ s, u.Selects r s) ∧ ∀ n, n ∈ f.ordinals ↔ ∃ r ∈ l, ∃ s, u.Selects r s ∧ n ∈ s := by
  unfold fromField at h
  split_ifs at h with hall
  · obtain rfl := Except.ok.inj h
    have hsel : u.Selects (.specifier .all) u.supportedOrdinals :=
      ⟨rfl, fun n hn => TimeUnit.mem_supportedOrdinals.mp hn⟩
    rw [hall]
    refine ⟨fun r hr => ?_, fun n => ⟨fun hn => ⟨_, by simp, _, hsel, hn⟩, ?_⟩⟩
    · rw [List.mem_singleton.mp hr]
      exact ⟨_, hsel⟩
    · rintro ⟨r, hr, s, hs, hn⟩
      rw [List.mem_singleton.mp hr] at hs
      rw [Except.ok.inj (hs.1.symm.trans hsel.1)] at hn
      exact hn
  · simp only [bind_eq_ok, pure_eq_ok] at h
    obtain ⟨t, ht, rfl⟩ := h
    obtain ⟨hsel, hmem⟩ := insertSpecifiers_eq_ok ht
    refine ⟨hsel, fun n => ?_⟩
    have := hmem n
    simpa [FieldValue.ordinals] using this

theorem fromField_of_selects {u : TimeUnit} {l : List RootSpecifier}
    (h : ∀ r ∈ l, ∃ s, u.Selects r s) : ∃ f, fromField u l = .ok f := by
  unfold fromField
  split_ifs
  · exact ⟨_, rfl⟩
  · obtain ⟨t, ht⟩ := insertSpecifiers_of_selects (s := .empty) h
    exact ⟨⟨some t⟩, by simp only [bind_eq_ok, pure_eq_ok]; exact ⟨t, ht, rfl⟩⟩

theorem fromField_wellFormed {u : TimeUnit} {l : List RootSpecifier} {f : FieldValue u}
    (hl : l ≠ []) (h : fromField u l = .ok f) : f.WellFormed := by
  obtain ⟨hsel, hmem⟩ := fromField_eq_ok h
  constructor
  · obtain ⟨r, hr⟩ := List.exists_mem_of_ne_nil l hl
    obtain ⟨s, hs⟩ := hsel r hr
    obtain ⟨n, hn⟩ := hs.nonempty
    exact ⟨n, (hmem n).mpr ⟨r, hr, s, hs, hn⟩⟩
  · intro n hn
    obtain ⟨r, -, s, hs, hns⟩ := (hmem n).mp hn
    exact hs.2 n hns

end Antegen.Cron
