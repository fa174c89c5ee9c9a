import Antegen.CronExactBack
import Antegen.Cursor

/-!
# The iterator in both directions

The iterator over a schedule can be asked for the next and for the previous occurrence in any
order. Both searches are exact from every occurrence, so each answer is a neighbour of the
one before, and where the iterator stands depends only on how often it went each way. Once a
search has found nothing the iterator is done, in both directions.
-/
namespace Antegen.Cron

open Enumeration

def ScheduleIterator.move (it : ScheduleIterator) :
    Direction → Result (Option DateTime × ScheduleIterator)
  | .forward => it.next
  | .backward => it.nextBack

def ScheduleIterator.moves :
    List Direction → ScheduleIterator → Result (List (Option DateTime) × ScheduleIterator)
  | [], it => .ok ([], it)
  | d :: ds, it => do
    let (r, it) ← it.move d
    let (rs, it) ← moves ds it
    pure (r :: rs, it)

def Schedule.search (s : Schedule) : Direction → DateTime → Result (Option DateTime)
  | .forward => s.nextAfter
  | .backward => s.prevBefore

def ScheduleIterator.ofCursor (s : Schedule) (c : Cursor DateTime) : ScheduleIterator :=
  ⟨c.done, s, c.position⟩

/-! ## The iterator is a cursor -/

theorem move_ofCursor (s : Schedule) (c : Cursor DateTime) (d : Direction) :
    (ScheduleIterator.ofCursor s c).move d =
      (c.move s.search d).map (fun r => (r.1, ScheduleIterator.ofCursor s r.2)) := by
  cases hdone : c.done with
  | true => cases d <;> simp [ScheduleIterator.move, ScheduleIterator.next,
      ScheduleIterator.nextBack, ScheduleIterator.ofCursor, Cursor.move, hdone, Except.map, pure,
      Except.pure]
  | false =>
    cases d with
    | forward =>
      cases hr : s.nextAfter c.position with
      | error e =>
        simp [ScheduleIterator.move, ScheduleIterator.next, ScheduleIterator.ofCursor, Cursor.move,
          Schedule.search, hdone, hr, Except.map, bind, Except.bind]
      | ok r =>
        cases r <;> simp [ScheduleIterator.move, ScheduleIterator.next, ScheduleIterator.ofCursor,
          Cursor.move, Schedule.search, hdone, hr, Except.map, bind, Except.bind, pure, Except.pure]
    | backward =>
      cases hr : s.prevBefore c.position with
      | error e =>
        simp [ScheduleIterator.move, ScheduleIterator.nextBack, ScheduleIterator.ofCursor,
          Cursor.move, Schedule.search, hdone, hr, Except.map, bind, Except.bind]
      | ok r =>
        cases r <;> simp [ScheduleIterator.move, ScheduleIterator.nextBack,
          ScheduleIterator.ofCursor, Cursor.move, Schedule.search, hdone, hr, Except.map, bind,
          Except.bind, pure, Except.pure]

theorem moves_ofCursor (s : Schedule) (ds : List Direction) (c : Cursor DateTime) :
    (ScheduleIterator.ofCursor s c).moves ds =
      (c.moves s.search ds).map (fun r => (r.1, ScheduleIterator.ofCursor s r.2)) := by
  induction ds generalizing c with
  | nil => rfl
  | cons d ds ih =>
    rw [ScheduleIterator.moves, Cursor.moves, move_ofCursor]
    cases hmove : c.move s.search d with
    | error e => rfl
    | ok r =>
      simp only [Except.map, bind, Except.bind, ih]
      cases Cursor.moves s.search ds r.2 <;> rfl

/-! ## Occurrences lie on a line -/

theorem line_selects (s : Schedule) : Line DateTime.Before s.Selects where
  asymm t t' h h' := by
    unfold DateTime.Before at h h'
    omega
  total t t' ht ht' := by
    rcases lt_trichotomy t.timestamp t'.timestamp with hlt | heq | hgt
    · exact Or.inl (Or.inl hlt)
    · refine Or.inr (Or.inl ?_)
      obtain ⟨hwhole, -⟩ := ht
      obtain ⟨hwhole', -⟩ := ht'
      cases t
      cases t'
      simp_all
    · exact Or.inr (Or.inr (Or.inl hgt))

/-- Both searches from the instant are on their bounds. -/
structure Searchable (s : Schedule) (t : DateTime) : Prop where
  whole : t.nanos = 0
  ahead : ∃ d, t.addSecond = .ok d ∧ OnBounds s.fields d
  behind : ∃ d, t.subSecond = .ok d ∧ OnBoundsBack s.fields d

section Wellformed

variable {s : Schedule} (hs : s.fields.WellFormed)

include hs

theorem Schedule.Selects.searchable {t : DateTime} (h : s.Selects t) : Searchable s t :=
  ⟨h.1, onBounds_succ hs h.2, onBoundsBack_pred hs h.1 h.2⟩

theorem search_first (d : Direction) {t : DateTime} (h : Searchable s t) :
    ∃ r, s.search d t = .ok r ∧ First (d.rel DateTime.Before) s.Selects t r := by
  cases d with
  | forward =>
    obtain ⟨d, hd, hbounds⟩ := h.ahead
    obtain ⟨r, hr, hfirst⟩ := nextAfter_exact hs hd hbounds
    exact ⟨r, hr, hfirst.first⟩
  | backward =>
    obtain ⟨d, hd, hbounds⟩ := h.behind
    obtain ⟨r, hr, hlast⟩ := prevBefore_exact hs h.whole hd hbounds
    exact ⟨r, hr, hlast.first⟩

theorem iterator_moves {start : DateTime} (h : Searchable s start) (ds : List Direction) :
    ∃ rs it, (s.after start).moves ds = .ok (rs, it) ∧
      Answers DateTime.Before s.Selects start ds rs ∧ (it.isDone = true ↔ none ∈ rs) ∧
      it.previous = standing start rs := by
  have hstep : ∀ d t, Searchable s t → ∃ r, s.search d t = .ok r ∧
      First (d.rel DateTime.Before) s.Selects t r ∧ ∀ t', r = some t' → Searchable s t' := by
    intro d t ht
    obtain ⟨r, hr, hfirst⟩ := search_first hs d ht
    refine ⟨r, hr, hfirst, ?_⟩
    rintro t' rfl
    exact Schedule.Selects.searchable hs hfirst.1
  obtain ⟨rs, c, hmoves, hanswers, hdone, hposition⟩ := moves_exact hstep ds h
  refine ⟨rs, ScheduleIterator.ofCursor s c, ?_, hanswers, hdone, hposition⟩
  have hrun := moves_ofCursor s ds ⟨false, start⟩
  rw [hmoves] at hrun
  exact hrun

end Wellformed

/-- For every parsed schedule and every whole second whose neighbours are in years of the
schedule, the iterator can be moved forwards and backwards in any order: each answer is the
first occurrence after or the last one before the previous answer, and when there is none, it
stays without one. Started at an occurrence it stands, as long as there are answers, as many
occurrences further on as more moves were forwards. -/
theorem iterator_neighbours {expression : String} {s : Schedule}
    (hs : Schedule.fromStr expression = .ok s) {start after before : DateTime}
    (hwhole : start.nanos = 0) (hafter : start.addSecond = .ok after)
    (hya : asU32 after.year ∈ s.fields.years.ordinals) (hbefore : start.subSecond = .ok before)
    (hyb : asU32 before.year ∈ s.fields.years.ordinals) (ds : List Direction) :
    ∃ rs it, (s.after start).moves ds = .ok (rs, it) ∧
      Answers DateTime.Before s.Selects start ds rs ∧ (it.isDone = true ↔ none ∈ rs) ∧
      it.previous = standing start rs ∧
      (s.includes start = true → it.isDone = false →
        Apart DateTime.Before s.Selects (net ds) start it.previous) := by
  have hwf := fromStr_wellFormed hs
  have hsearch : Searchable s start :=
    ⟨hwhole, ⟨after, hafter, Or.inl hya⟩, ⟨before, hbefore, Or.inl hyb⟩⟩
  obtain ⟨rs, it, hmoves, hanswers, hdone, hposition⟩ := iterator_moves hwf hsearch ds
  refine ⟨rs, it, hmoves, hanswers, hdone, hposition, fun hinc hgoing => ?_⟩
  have hsome : none ∉ rs := by
    rw [← hdone, hgoing]
    exact Bool.false_ne_true
  rw [hposition]
  exact hanswers.apart (line_selects s) ⟨hwhole, hinc⟩ hsome

/-- The 29th of February 2024. -/
def february29 : DateTime := instant 1709164800 (by decide)

set_option maxRecDepth 20000 in
/-- Twice to a later leap day and twice back. -/
theorem iterator_neighbours_leapDays :
    ∃ s rs it, Schedule.fromStr leapDays = .ok s ∧
      (s.after february29).moves [.forward, .forward, .backward, .backward] = .ok (rs, it) ∧
      it.previous = february29 := by
  have hparse : (Schedule.fromStr leapDays).map (fun s =>
      (decide (2024 ∈ s.fields.years.ordinals), s.includes february29,
        ((s.after february29).moves [.forward, .forward, .backward, .backward]).map
          fun r => r.2.isDone)) = .ok (true, true, .ok false) := by
    decide +kernel
  obtain ⟨s, hs, hrun⟩ := map_eq_ok.mp hparse
  obtain ⟨hyear, hrun⟩ := Prod.mk.inj hrun
  obtain ⟨hinc, hrun⟩ := Prod.mk.inj hrun
  have hsecond : february29.addSecond.map (fun d => asU32 d.year) = .ok 2024 := by
    decide +kernel
  have hsecond' : february29.subSecond.map (fun d => asU32 d.year) = .ok 2024 := by
    decide +kernel
  obtain ⟨after, hafter, hay⟩ := map_eq_ok.mp hsecond
  obtain ⟨before, hbefore, hby⟩ := map_eq_ok.mp hsecond'
  have hmem : 2024 ∈ s.fields.years.ordinals := of_decide_eq_true hyear
  obtain ⟨rs, it, hmoves, -, -, -, hplace⟩ := iterator_neighbours hs rfl hafter (hay ▸ hmem) hbefore
    (hby ▸ hmem) [.forward, .forward, .backward, .backward]
  rw [hmoves] at hrun
  exact ⟨s, rs, it, hs, hmoves, (hplace hinc (Except.ok.inj hrun)).symm⟩

end Antegen.Cron
