import Antegen.CronGrammar

/-!
# What cron expressions denote

Parsing a printed expression succeeds if and only if all its specifiers are valid, and
each field is then the union of what they denote. A field that fails takes the whole
parse with it: whatever it leaves behind begins with a comma, and nothing goes on there.
-/
namespace Antegen.Cron.Grammar

open Combinators

/-! ## What parsed specifiers select -/

theorem Base.ordinals_mem {u : TimeUnit} {b : Base} {s : OrdinalSet}
    (h : u.ordinalsFromSpecifier b.toSpecifier = .ok s) (n : ℕ) : n ∈ s ↔ n ∈ b.denote u := by
  cases b with
  | all =>
    rw [← Except.ok.inj h]
    exact TimeUnit.mem_supportedOrdinals
  | any =>
    rw [← Except.ok.inj h]
    exact TimeUnit.mem_supportedOrdinals
  | point p =>
    rw [← Except.ok.inj h]
    simp [Base.denote]
  | range start stop =>
    obtain ⟨-, -, -, rfl⟩ := TimeUnit.validateRange_eq_ok.mp h
    exact mem_interval
  | namedRange start stop =>
    simp only [Base.toSpecifier, TimeUnit.ordinalsFromSpecifier, bind_eq_ok,
      TimeUnit.ordinalFromName_eq_ok] at h
    obtain ⟨a, ha, b, hb, h⟩ := h
    obtain ⟨-, -, -, rfl⟩ := TimeUnit.validateRange_eq_ok.mp h
    rw [mem_interval]
    simp [Base.denote, ha, hb]

theorem Base.ordinals_iff {u : TimeUnit} {b : Base} (hany : b.isAny = true → AllowsAny u) :
    (∃ s, u.ordinalsFromSpecifier b.toSpecifier = .ok s ∧ ∀ n ∈ s, u.Supports n) ↔ b.Valid u := by
  have hsupported : ∃ s, u.ordinalsFromSpecifier .all = .ok s ∧ ∀ n ∈ s, u.Supports n :=
    ⟨_, rfl, fun n hn => TimeUnit.mem_supportedOrdinals.mp hn⟩
  cases b with
  | all => exact ⟨fun _ => trivial, fun _ => hsupported⟩
  | any => exact ⟨fun _ => hany rfl, fun _ => hsupported⟩
  | point p =>
    simp [Base.toSpecifier, TimeUnit.ordinalsFromSpecifier, Base.Valid]
  | range start stop =>
    constructor
    · rintro ⟨s, hs, -⟩
      obtain ⟨h1, h2, h3, -⟩ := TimeUnit.validateRange_eq_ok.mp hs
      exact ⟨h1, h2, h3⟩
    · rintro ⟨h1, h2, h3⟩
      exact ⟨_, TimeUnit.validateRange_eq_ok.mpr ⟨h1, h2, h3, rfl⟩, interval_supports h1 h2⟩
  | namedRange start stop =>
    simp only [Base.toSpecifier, TimeUnit.ordinalsFromSpecifier, bind_eq_ok,
      TimeUnit.ordinalFromName_eq_ok]
    constructor
    · rintro ⟨s, ⟨a, ha, b, hb, hs⟩, -⟩
      exact ⟨a, b, ha, hb, (TimeUnit.validateRange_eq_ok.mp hs).2.2.1⟩
    · rintro ⟨a, b, ha, hb, hab⟩
      have h1 := TimeUnit.findName_supports ha
      have h2 := TimeUnit.findName_supports hb
      exact ⟨_, ⟨a, ha, b, hb, TimeUnit.validateRange_eq_ok.mpr ⟨h1, h2, hab, rfl⟩⟩,
        interval_supports h1 h2⟩

/-- A step runs over the span of its base. -/
theorem Base.baseSet_span {u : TimeUnit} {b : Base} {s : OrdinalSet}
    (h : u.baseSet b.toSpecifier = .ok s) :
    ∃ first last, b.span u = some (first, last) ∧ s = interval first last := by
  cases b with
  | all => exact ⟨_, _, rfl, (Except.ok.inj h).symm⟩
  | any => exact ⟨_, _, rfl, (Except.ok.inj h).symm⟩
  | point p =>
    simp only [Base.toSpecifier, TimeUnit.baseSet, bind_eq_ok, TimeUnit.validateOrdinal_eq_ok,
      pure_eq_ok] at h
    obtain ⟨_, ⟨-, rfl⟩, rfl⟩ := h
    exact ⟨_, _, rfl, rfl⟩
  | range start stop =>
    obtain ⟨-, -, -, rfl⟩ := TimeUnit.validateRange_eq_ok.mp h
    exact ⟨_, _, rfl, rfl⟩
  | namedRange start stop =>
    simp only [Base.toSpecifier, TimeUnit.baseSet, TimeUnit.ordinalsFromSpecifier, bind_eq_ok,
      TimeUnit.ordinalFromName_eq_ok] at h
    obtain ⟨a, ha, b, hb, h⟩ := h
    obtain ⟨-, -, -, rfl⟩ := TimeUnit.validateRange_eq_ok.mp h
    exact ⟨a, b, by simp [Base.span, ha, hb], rfl⟩

theorem Base.baseSet_supports {u : TimeUnit} {b : Base} {s : OrdinalSet}
    (h : u.baseSet b.toSpecifier = .ok s) : ∀ n ∈ s, u.Supports n := by
  cases b with
  | all =>
    rw [← Except.ok.inj h]
    exact fun n hn => TimeUnit.mem_supportedOrdinals.mp hn
  | any =>
    rw [← Except.ok.inj h]
    exact fun n hn => TimeUnit.mem_supportedOrdinals.mp hn
  | point p =>
    simp only [Base.toSpecifier, TimeUnit.baseSet, bind_eq_ok, TimeUnit.validateOrdinal_eq_ok,
      pure_eq_ok] at h
    obtain ⟨_, ⟨hp, rfl⟩, rfl⟩ := h
    intro n hn
    have hn' := mem_interval.mp hn
    exact ⟨hp.1.trans hn'.1, hn'.2⟩
  | range start stop => exact TimeUnit.validateRange_supports h
  | namedRange start stop =>
    simp only [Base.toSpecifier, TimeUnit.baseSet, TimeUnit.ordinalsFromSpecifier, bind_eq_ok] at h
    obtain ⟨a, -, b, -, h⟩ := h
    exact TimeUnit.validateRange_supports h

theorem Base.baseSet_iff {u : TimeUnit} {b : Base} (hany : b.isAny = true → AllowsAny u) :
    (∃ s, u.baseSet b.toSpecifier = .ok s ∧ ∀ n ∈ s, u.Supports n) ↔ b.Valid u := by
  cases b with
  | point p =>
    simp only [Base.toSpecifier, TimeUnit.baseSet, bind_eq_ok, TimeUnit.validateOrdinal_eq_ok,
      pure_eq_ok, Base.Valid]
    constructor
    · rintro ⟨s, ⟨_, ⟨hp, -⟩, -⟩, -⟩
      exact hp
    · intro hp
      refine ⟨_, ⟨_, ⟨hp, rfl⟩, rfl⟩, fun n hn => ?_⟩
      have hn' := mem_interval.mp hn
      exact ⟨hp.1.trans hn'.1, hn'.2⟩
  | all => exact Base.ordinals_iff (b := .all) hany
  | any => exact Base.ordinals_iff (b := .any) hany
  | range start stop => exact Base.ordinals_iff (b := .range start stop) hany
  | namedRange start stop => exact Base.ordinals_iff (b := .namedRange start stop) hany

theorem pos_of_ne_zero {k : UInt32} (h : k ≠ 0) : 0 < k.toNat := by
  rw [Nat.pos_iff_ne_zero]
  exact fun h0 => h (UInt32.toNat_inj.mp h0)

/-- The ordinals a parsed specifier selects are those it denotes. -/
theorem Root.selects_mem {u : TimeUnit} {r : Root} {s : OrdinalSet}
    (h : u.Selects r.toRootSpecifier s) (n : ℕ) : n ∈ s ↔ n ∈ r.denote u := by
  obtain ⟨h, -⟩ := h
  cases r with
  | base b => exact b.ordinals_mem h n
  | period b step =>
    simp only [Root.toRootSpecifier, TimeUnit.ordinalsFromRootSpecifier, bind_eq_ok] at h
    obtain ⟨base, hbase, h⟩ := h
    obtain ⟨first, last, hspan, rfl⟩ := b.baseSet_span hbase
    split_ifs at h with hstep
    · rw [← pure_eq_ok.mp h, mem_stepBy_interval (pos_of_ne_zero hstep)]
      simp [Root.denote, hspan]
  | namedPoint name =>
    simp only [Root.toRootSpecifier, TimeUnit.ordinalsFromRootSpecifier, bind_eq_ok, pure_eq_ok,
      TimeUnit.ordinalFromName_eq_ok] at h
    obtain ⟨m, hm, rfl⟩ := h
    simp [Root.denote, hm]

/-- A parsed specifier selects supported ordinals if and only if it is valid. -/
theorem Root.selects_iff {u : TimeUnit} {r : Root} (hany : r.hasAny = true → AllowsAny u) :
    (∃ s, u.Selects r.toRootSpecifier s) ↔ r.Valid u := by
  cases r with
  | base b => exact b.ordinals_iff hany
  | period b step =>
    simp only [TimeUnit.Selects, Root.toRootSpecifier, TimeUnit.ordinalsFromRootSpecifier,
      bind_eq_ok]
    constructor
    · rintro ⟨s, ⟨base, hbase, h⟩, hsupp⟩
      refine ⟨(b.baseSet_iff hany).mp ⟨base, hbase, b.baseSet_supports hbase⟩, fun hstep => ?_⟩
      rw [if_pos hstep] at h
      exact absurd h (by simp)
    · rintro ⟨hb, hstep⟩
      obtain ⟨base, hbase, hsupp⟩ := (b.baseSet_iff hany).mpr hb
      obtain ⟨first, last, hspan, rfl⟩ := b.baseSet_span hbase
      refine ⟨_, ⟨_, hbase, by rw [if_neg hstep]; rfl⟩, fun n hn => ?_⟩
      have hn' := (mem_stepBy_interval (pos_of_ne_zero hstep)).mp hn
      exact hsupp n (mem_interval.mpr ⟨hn'.1, hn'.2.1⟩)
  | namedPoint name =>
    simp only [TimeUnit.Selects, Root.toRootSpecifier, TimeUnit.ordinalsFromRootSpecifier,
      bind_eq_ok, pure_eq_ok, TimeUnit.ordinalFromName_eq_ok]
    constructor
    · rintro ⟨s, ⟨n, hn, -⟩, -⟩
      exact ⟨n, hn⟩
    · rintro ⟨n, hn⟩
      refine ⟨_, ⟨n, hn, rfl⟩, fun m hm => ?_⟩
      rw [SortedSet.mem_ofList, List.mem_singleton] at hm
      rw [hm]
      exact TimeUnit.findName_supports hn

/-! ## Whole expressions -/

theorem Root.Valid.allowsAny {u : TimeUnit} {r : Root} (h : r.Valid u) (hany : r.hasAny = true) :
    AllowsAny u := by
  have hbase : ∀ b : Base, b.Valid u → b.isAny = true → AllowsAny u := by
    intro b hb hbany
    cases b with
    | any => exact hb
    | _ => exact absurd hbany (by simp [Base.isAny])
  cases r with
  | base b => exact hbase b h hany
  | period b step => exact hbase b h.1 hany
  | namedPoint name => exact absurd hany (by simp [Root.hasAny])

/-- The value of a field all of whose specifiers are valid. -/
def IsValue (u : TimeUnit) (l : List Root) (f : FieldValue u) : Prop :=
  (∀ r ∈ l, r.Valid u) ∧ fromField u (l.map Root.toRootSpecifier) = .ok f

theorem IsValue.mem {u : TimeUnit} {l : List Root} {f : FieldValue u} (h : IsValue u l f) (n : ℕ) :
    n ∈ f.ordinals ↔ ∃ r ∈ l, n ∈ r.denote u := by
  obtain ⟨hvalid, hf⟩ := h
  rw [(fromField_eq_ok hf).2 n]
  constructor
  · rintro ⟨q, hq, s, hs, hn⟩
    obtain ⟨r, hr, rfl⟩ := List.mem_map.mp hq
    exact ⟨r, hr, (r.selects_mem hs n).mp hn⟩
  · rintro ⟨r, hr, hn⟩
    obtain ⟨s, hs⟩ := (r.selects_iff (hvalid r hr).allowsAny).mpr (hvalid r hr)
    exact ⟨_, List.mem_map_of_mem hr, s, hs, (r.selects_mem hs n).mpr hn⟩

theorem exists_isValue {u : TimeUnit} {l : List Root} (h : ∀ r ∈ l, r.Valid u) :
    ∃ f, IsValue u l f := by
  obtain ⟨f, hf⟩ := fromField_of_selects (u := u) (l := l.map Root.toRootSpecifier) (by
    intro q hq
    obtain ⟨r, hr, rfl⟩ := List.mem_map.mp hq
    exact (r.selects_iff (h r hr).allowsAny).mpr (h r hr))
  exact ⟨f, h, hf⟩

theorem valueOf_comma (u : TimeUnit) (i : Text) : valueOf u (',' :: i) = none := by
  rw [valueOf, mapRes, fieldOf_comma]
  rfl

/-- A field with valid specifiers only is parsed to its value, up to the next field. -/
theorem valueOf_print {u : TimeUnit} {l : List Root} (hl : l ≠ []) {f : FieldValue u}
    (h : IsValue u l f) {i : Text} (hi : FieldEnd i) :
    valueOf u (printField l ++ i) = some (f, skip i) :=
  valueOf_eq_some.mpr ⟨_, fieldOf_print hl (fun r hr => (h.1 r hr).allowsAny) hi, h.2⟩

/-- A field with an invalid specifier fails or leaves a comma. -/
theorem valueOf_invalid {u : TimeUnit} {l : List Root} (hl : l ≠ []) (h : ¬ ∀ r ∈ l, r.Valid u)
    {i : Text} (hi : FieldEnd i) :
    valueOf u (printField l ++ i) = none ∨
      ∃ f j, valueOf u (printField l ++ i) = some (f, ',' :: j) := by
  by_cases hany : ∀ r ∈ l, r.hasAny = true → AllowsAny u
  · left
    rw [Option.eq_none_iff_forall_ne_some]
    rintro ⟨f, j⟩ hf
    obtain ⟨l', hl', hf⟩ := valueOf_eq_some.mp hf
    rw [fieldOf_print hl hany hi] at hl'
    obtain ⟨rfl, -⟩ : _ = l' ∧ _ := by simpa using hl'
    apply h
    intro r hr
    exact (r.selects_iff (hany r hr)).mp ((fromField_eq_ok hf).1 _ (List.mem_map_of_mem hr))
  · simp only [not_forall] at hany
    obtain ⟨r, hr, hra, hu⟩ := hany
    rcases fieldOf_any hu ⟨r, hr, hra⟩ i with hnone | ⟨l', j, hsome⟩
    · left
      rw [valueOf, mapRes, hnone]
      rfl
    · cases hf : fromField u l' with
      | error e =>
        left
        simp [valueOf, mapRes, hsome, hf, Except.toOption]
      | ok f => exact Or.inr ⟨f, j, valueOf_eq_some.mpr ⟨l', hsome, hf⟩⟩

/-- One stage of the parse: what goes on after a field goes on after its value. -/
theorem valueOf_bind {β : Type} {u : TimeUnit} {l : List Root} (hl : l ≠ []) {i : Text}
    (hi : FieldEnd i) {k : FieldValue u × Text → Option β} (hk : ∀ f j, k (f, ',' :: j) = none)
    {b : β} : (valueOf u (printField l ++ i)).bind k = some b ↔
      ∃ f, IsValue u l f ∧ k (f, skip i) = some b := by
  by_cases h : ∀ r ∈ l, r.Valid u
  · obtain ⟨f, hf⟩ := exists_isValue h
    rw [valueOf_print hl hf hi, Option.bind_some]
    constructor
    · exact fun hb => ⟨f, hf, hb⟩
    · rintro ⟨f', hf', hb⟩
      rw [Except.ok.inj (hf.2.symm.trans hf'.2)]
      exact hb
  · constructor
    · intro hb
      rcases valueOf_invalid hl h hi with hnone | ⟨f, j, hsome⟩
      · rw [hnone] at hb
        exact absurd hb (by simp)
      · rw [hsome, Option.bind_some, hk] at hb
        exact absurd hb (by simp)
    · rintro ⟨f, hf, -⟩
      exact absurd hf.1 h

theorem fieldEnd_space {l : List Root} (hl : l ≠ []) (i : Text) :
    FieldEnd (' ' :: (printField l ++ i)) :=
  Or.inr ⟨_, rfl, (printField_begins hl).append i⟩

theorem skip_field {l : List Root} (hl : l ≠ []) (i : Text) :
    skip (' ' :: (printField l ++ i)) = printField l ++ i := by
  rw [skip_space, skip_printField hl]

theorem fieldEnd_printYears {y : Option (List Root)} (hy : y ≠ some []) :
    FieldEnd (Expression.printYears y) := by
  cases y with
  | none => exact Or.inl rfl
  | some l =>
    have hl : l ≠ [] := fun h => hy (by rw [h])
    have := fieldEnd_space hl []
    rwa [List.append_nil] at this

/-- The end of the parse: an optional field for years, and nothing behind it. -/
def yearsEnd : Parser (Option (FieldValue .years)) := terminated (opt (valueOf .years)) eof

theorem yearsEnd_comma (j : Text) : yearsEnd (',' :: j) = none := by
  simp [yearsEnd, terminated, opt, valueOf_comma, eof]

/-- Years that are absent, or a field for them. -/
def IsYears : Option (List Root) → Option (FieldValue .years) → Prop
  | none, f => f = none
  | some l, f => ∃ g, f = some g ∧ IsValue .years l g

theorem yearsEnd_print {y : Option (List Root)} (hy : y ≠ some [])
    {f : Option (FieldValue .years)} {i : Text} :
    yearsEnd (skip (Expression.printYears y)) = some (f, i) ↔ IsYears y f ∧ i = [] := by
  cases y with
  | none =>
    have hfield : fieldOf .years [] = none := by decide +kernel
    simp [Expression.printYears, skip, yearsEnd, terminated, opt, valueOf, mapRes, hfield, eof,
      IsYears, eq_comm]
  | some l =>
    have hl : l ≠ [] := fun h => hy (by rw [h])
    have hskip := skip_field hl []
    have hnil : FieldEnd [] := Or.inl rfl
    rw [List.append_nil] at hskip
    rw [Expression.printYears, hskip]
    by_cases h : ∀ r ∈ l, r.Valid .years
    · obtain ⟨g, hg⟩ := exists_isValue h
      have hparse := valueOf_print hl hg hnil
      rw [List.append_nil] at hparse
      have huniq : ∀ g', IsValue .years l g' ↔ g' = g := by
        intro g'
        refine ⟨fun hg' => Except.ok.inj (hg'.2.symm.trans hg.2), fun hg' => by rw [hg']; exact hg⟩
      simp [yearsEnd, terminated, opt, hparse, skip, eof, IsYears, huniq, eq_comm]
    · have hnone : yearsEnd (printField l) = none := by
        obtain ⟨c, j, hj, -⟩ := printField_begins hl
        rcases valueOf_invalid hl h hnil with hv | ⟨g, k, hv⟩
        · rw [List.append_nil, hj] at hv
          simp [yearsEnd, terminated, opt, hj, hv, eof]
        · rw [List.append_nil] at hv
          simp [yearsEnd, terminated, opt, hv, eof]
      rw [hnone]
      simp only [reduceCtorEq, false_iff, not_and, IsYears]
      rintro ⟨g, -, hg⟩
      exact absurd hg.1 h

theorem longhand_eq (i : Text) :
    longhand i = (valueOf .seconds i).bind fun p1 => (valueOf .minutes p1.2).bind fun p2 =>
      (valueOf .hours p2.2).bind fun p3 => (valueOf .daysOfMonth p3.2).bind fun p4 =>
      (valueOf .months p4.2).bind fun p5 => (valueOf .daysOfWeek p5.2).bind fun p6 =>
      (yearsEnd p6.2).map fun p7 =>
        (⟨p7.1.getD .all, p6.1, p5.1, p4.1, p3.1, p2.1, p1.1⟩, p7.2) := by
  simp [longhand, terminated, fields, yearsEnd, Option.bind_assoc, Option.map_eq_bind]

theorem valueOf_comma_bind {β : Type} (u : TimeUnit) (j : Text)
    (k : FieldValue u × Text → Option β) : (valueOf u (',' :: j)).bind k = none := by
  rw [valueOf_comma]
  rfl

/-- The fields of a schedule are the values of an expression's fields. -/
structure IsSchedule (e : Expression) (s : ScheduleFields) : Prop where
  seconds : IsValue .seconds e.seconds s.seconds
  minutes : IsValue .minutes e.minutes s.minutes
  hours : IsValue .hours e.hours s.hours
  daysOfMonth : IsValue .daysOfMonth e.daysOfMonth s.daysOfMonth
  months : IsValue .months e.months s.months
  daysOfWeek : IsValue .daysOfWeek e.daysOfWeek s.daysOfWeek
  years : ∃ y, IsYears e.years y ∧ s.years = y.getD .all

theorem longhand_print (e : Expression) (s : ScheduleFields) (i : Text) :
    longhand e.print = some (s, i) ↔ IsSchedule e s ∧ i = [] := by
  have h1 := fieldEnd_space e.minutes_ne (' ' :: (printField e.hours ++ ' ' ::
    (printField e.daysOfMonth ++ ' ' :: (printField e.months ++ ' ' ::
      (printField e.daysOfWeek ++ Expression.printYears e.years)))))
  have h2 := fieldEnd_space e.hours_ne (' ' :: (printField e.daysOfMonth ++ ' ' ::
    (printField e.months ++ ' ' :: (printField e.daysOfWeek ++ Expression.printYears e.years))))
  have h3 := fieldEnd_space e.daysOfMonth_ne (' ' :: (printField e.months ++ ' ' ::
    (printField e.daysOfWeek ++ Expression.printYears e.years)))
  have h4 := fieldEnd_space e.months_ne (' ' ::
    (printField e.daysOfWeek ++ Expression.printYears e.years))
  have h5 := fieldEnd_space e.daysOfWeek_ne (Expression.printYears e.years)
  have h6 := fieldEnd_printYears e.years_ne
  have hyears : ∀ (j : Text) (g : Option (FieldValue .years) × Text → ScheduleFields × Text),
      (yearsEnd (',' :: j)).map g = none := by
    intro j g
    rw [yearsEnd_comma]
    rfl
  rw [longhand_eq, Expression.print]
  constructor
  · intro h
    obtain ⟨f1, hf1, h⟩ := (valueOf_bind e.seconds_ne h1 fun _ _ => valueOf_comma_bind _ _ _).mp h
    rw [skip_field e.minutes_ne] at h
    obtain ⟨f2, hf2, h⟩ := (valueOf_bind e.minutes_ne h2 fun _ _ => valueOf_comma_bind _ _ _).mp h
    rw [skip_field e.hours_ne] at h
    obtain ⟨f3, hf3, h⟩ := (valueOf_bind e.hours_ne h3 fun _ _ => valueOf_comma_bind _ _ _).mp h
    rw [skip_field e.daysOfMonth_ne] at h
    obtain ⟨f4, hf4, h⟩ :=
      (valueOf_bind e.daysOfMonth_ne h4 fun _ _ => valueOf_comma_bind _ _ _).mp h
    rw [skip_field e.months_ne] at h
    obtain ⟨f5, hf5, h⟩ := (valueOf_bind e.months_ne h5 fun _ _ => valueOf_comma_bind _ _ _).mp h
    rw [skip_field e.daysOfWeek_ne] at h
    obtain ⟨f6, hf6, h⟩ := (valueOf_bind e.daysOfWeek_ne h6 fun _ _ => hyears _ _).mp h
    obtain ⟨⟨y, i'⟩, hy, heq⟩ := Option.map_eq_some_iff.mp h
    obtain ⟨rfl, rfl⟩ := Prod.mk.inj heq
    obtain ⟨hy, hi⟩ := (yearsEnd_print e.years_ne).mp hy
    exact ⟨⟨hf1, hf2, hf3, hf4, hf5, hf6, y, hy, rfl⟩, hi⟩
  · rintro ⟨⟨hf1, hf2, hf3, hf4, hf5, hf6, y, hy, hs⟩, rfl⟩
    refine (valueOf_bind e.seconds_ne h1 fun _ _ => valueOf_comma_bind _ _ _).mpr ⟨_, hf1, ?_⟩
    rw [skip_field e.minutes_ne]
    refine (valueOf_bind e.minutes_ne h2 fun _ _ => valueOf_comma_bind _ _ _).mpr ⟨_, hf2, ?_⟩
    rw [skip_field e.hours_ne]
    refine (valueOf_bind e.hours_ne h3 fun _ _ => valueOf_comma_bind _ _ _).mpr ⟨_, hf3, ?_⟩
    rw [skip_field e.daysOfMonth_ne]
    refine (valueOf_bind e.daysOfMonth_ne h4 fun _ _ => valueOf_comma_bind _ _ _).mpr ⟨_, hf4, ?_⟩
    rw [skip_field e.months_ne]
    refine (valueOf_bind e.months_ne h5 fun _ _ => valueOf_comma_bind _ _ _).mpr ⟨_, hf5, ?_⟩
    rw [skip_field e.daysOfWeek_ne]
    refine (valueOf_bind e.daysOfWeek_ne h6 fun _ _ => hyears _ _).mpr ⟨_, hf6, ?_⟩
    refine Option.map_eq_some_iff.mpr ⟨(y, []), (yearsEnd_print e.years_ne).mpr ⟨hy, rfl⟩, ?_⟩
    rw [← hs]

theorem shorthand_print (e : Expression) : shorthand e.print = none := by
  have hbegins : Begins IsStart e.print := (printField_begins e.seconds_ne).append _
  have hhead : e.print.head? ≠ some '@' :=
    head?_ne_of_begins hbegins fun h => h.ne.2.2.2 rfl
  have hword : ∀ (w : String) (t : Text) (s : ScheduleFields), w.toList = '@' :: t →
      shorthandFor w s e.print = none := by
    intro w t s hw
    rw [shorthandFor, hw]
    exact map_eq_none (tag_eq_none hhead)
  have h1 : shorthandYearly e.print = none := hword "@yearly" _ _ rfl
  have h2 : shorthandMonthly e.print = none := hword "@monthly" _ _ rfl
  have h3 : shorthandWeekly e.print = none := hword "@weekly" _ _ rfl
  have h4 : shorthandDaily e.print = none := hword "@daily" _ _ rfl
  have h5 : shorthandHourly e.print = none := hword "@hourly" _ _ rfl
  rw [shorthand, delimited_multispace,
    skip_of_begins (hbegins.imp fun _ hc => hc.not_isSpace), alt_of_none h1, alt_of_none h2,
    alt_of_none h3, alt_of_none h4, h5]
  rfl

theorem fromStr_print (e : Expression) (s : Schedule) :
    Schedule.fromStr (String.ofList e.print) = .ok s ↔
      IsSchedule e s.fields ∧ s.source = String.ofList e.print := by
  have hschedule : ∀ f i, schedule e.print = some (f, i) ↔ IsSchedule e f ∧ i = [] := by
    intro f i
    rw [schedule, allConsuming, terminated_eq_some]
    simp only [alt_of_none (shorthand_print e), longhand_print, eof]
    constructor
    · rintro ⟨i', b, ⟨hf, rfl⟩, hi⟩
      exact ⟨hf, by simpa [eq_comm] using hi⟩
    · rintro ⟨hf, rfl⟩
      exact ⟨[], (), ⟨hf, rfl⟩, by simp⟩
  unfold Schedule.fromStr
  rw [String.toList_ofList]
  cases hs : schedule e.print with
  | none =>
    have hno : ¬ IsSchedule e s.fields := by
      intro hf
      rw [(hschedule s.fields []).mpr ⟨hf, rfl⟩] at hs
      exact absurd hs (by simp)
    simp [hno]
  | some p =>
    obtain ⟨f, i⟩ := p
    have hf := ((hschedule f i).mp hs).1
    constructor
    · intro h
      rw [← Except.ok.inj h]
      exact ⟨hf, rfl⟩
    · rintro ⟨hf', hsource⟩
      have hfields := (hschedule s.fields []).mpr ⟨hf', rfl⟩
      rw [hs] at hfields
      obtain ⟨rfl, -⟩ := Prod.mk.inj (Option.some.inj hfields)
      rw [← hsource]

theorem IsSchedule.valid {e : Expression} {s : ScheduleFields} (h : IsSchedule e s) : e.Valid := by
  intro u l hl
  cases u with
  | seconds => exact Option.some.inj hl ▸ h.seconds.1
  | minutes => exact Option.some.inj hl ▸ h.minutes.1
  | hours => exact Option.some.inj hl ▸ h.hours.1
  | daysOfMonth => exact Option.some.inj hl ▸ h.daysOfMonth.1
  | months => exact Option.some.inj hl ▸ h.months.1
  | daysOfWeek => exact Option.some.inj hl ▸ h.daysOfWeek.1
  | years =>
    obtain ⟨y, hy, -⟩ := h.years
    have hyears : e.years = some l := hl
    rw [hyears] at hy
    obtain ⟨g, -, hg⟩ := hy
    exact hg.1

theorem exists_isSchedule {e : Expression} (h : e.Valid) : ∃ s, IsSchedule e s := by
  obtain ⟨f1, hf1⟩ := exists_isValue (h .seconds _ rfl)
  obtain ⟨f2, hf2⟩ := exists_isValue (h .minutes _ rfl)
  obtain ⟨f3, hf3⟩ := exists_isValue (h .hours _ rfl)
  obtain ⟨f4, hf4⟩ := exists_isValue (h .daysOfMonth _ rfl)
  obtain ⟨f5, hf5⟩ := exists_isValue (h .months _ rfl)
  obtain ⟨f6, hf6⟩ := exists_isValue (h .daysOfWeek _ rfl)
  obtain ⟨y, hy⟩ : ∃ y, IsYears e.years y := by
    cases hyears : e.years with
    | none => exact ⟨none, rfl⟩
    | some l =>
      obtain ⟨g, hg⟩ := exists_isValue (h .years l hyears)
      exact ⟨some g, g, rfl, hg⟩
  exact ⟨⟨y.getD .all, f6, f5, f4, f3, f2, f1⟩, hf1, hf2, hf3, hf4, hf5, hf6, y, hy, rfl⟩

/-- Each field of the schedule is the union of what its specifiers denote. -/
theorem IsSchedule.mem {e : Expression} {s : ScheduleFields} (h : IsSchedule e s) (u : TimeUnit)
    (n : ℕ) : n ∈ (s.field u).ordinals ↔ n ∈ e.denote u := by
  cases u with
  | seconds => exact h.seconds.mem n
  | minutes => exact h.minutes.mem n
  | hours => exact h.hours.mem n
  | daysOfMonth => exact h.daysOfMonth.mem n
  | months => exact h.months.mem n
  | daysOfWeek => exact h.daysOfWeek.mem n
  | years =>
    obtain ⟨y, hy, hs⟩ := h.years
    have hfield : s.field .years = y.getD .all := hs
    rw [hfield, Expression.denote, Expression.field]
    cases hyears : e.years with
    | none =>
      rw [hyears] at hy
      rw [show y = none from hy]
      exact TimeUnit.mem_supportedOrdinals
    | some l =>
      rw [hyears] at hy
      obtain ⟨g, rfl, hg⟩ := hy
      exact hg.mem n

/-- Parsing a printed expression succeeds if and only if every specifier is valid for its
unit. Each field of the schedule is then the union of the sets its specifiers denote, is
not empty and stays within the bounds of its unit. -/
theorem fromStr_print_iff_valid (e : Expression) :
    ((∃ s, Schedule.fromStr (String.ofList e.print) = .ok s) ↔ e.Valid) ∧
      ∀ s, Schedule.fromStr (String.ofList e.print) = .ok s → ∀ u,
        (s.fields.field u).WellFormed ∧
          ∀ n, n ∈ (s.fields.field u).ordinals ↔ n ∈ e.denote u := by
  refine ⟨⟨?_, fun h => ?_⟩, fun s hs u => ⟨fromStr_wellFormed hs u, ?_⟩⟩
  · rintro ⟨s, hs⟩
    exact ((fromStr_print e s).mp hs).1.valid
  · obtain ⟨f, hf⟩ := exists_isSchedule h
    exact ⟨⟨String.ofList e.print, f⟩, (fromStr_print e _).mpr ⟨hf, rfl⟩⟩
  · exact ((fromStr_print e s).mp hs).1.mem u

end Antegen.Cron.Grammar
