import Antegen.Enumeration

/-!
# A cursor that is moved in both directions

Two searches find the first element beyond a given one, one in each direction. A cursor
remembers the last answer and goes on from it, forwards or backwards. Once a search has
answered that there is none, the cursor is done for good.

Every answer is a neighbour of the one before. The elements lie on a line, so as long as there
are answers, the place of the cursor depends only on how many more moves were forwards.
-/
namespace Antegen.Enumeration

variable {α ε : Type}

inductive Direction
  | forward
  | backward
  deriving DecidableEq, Repr

def Direction.rel (R : α → α → Prop) : Direction → α → α → Prop
  | forward => R
  | backward => fun a b => R b a

structure Cursor (α : Type) where
  done : Bool
  position : α

namespace Cursor

variable (search : Direction → α → Except ε (Option α))

def move (c : Cursor α) (d : Direction) : Except ε (Option α × Cursor α) :=
  if c.done then .ok (none, c)
  else match search d c.position with
    | .error e => .error e
    | .ok none => .ok (none, { c with done := true })
    | .ok (some b) => .ok (some b, ⟨false, b⟩)

def moves : List Direction → Cursor α → Except ε (List (Option α) × Cursor α)
  | [], c => .ok ([], c)
  | d :: ds, c => do
    let r ← c.move search d
    let rs ← moves ds r.2
    pure (r.1 :: rs.1, rs.2)

end Cursor

/-- The answers to some moves: each is the first element beyond the last one, and behind an
answer that there is none nothing is answered any more. -/
def Answers (R : α → α → Prop) (Q : α → Prop) : α → List Direction → List (Option α) → Prop
  | _, [], [] => True
  | a, d :: ds, some b :: rs => First (d.rel R) Q a (some b) ∧ Answers R Q b ds rs
  | a, d :: ds, none :: rs => First (d.rel R) Q a none ∧ rs = List.replicate ds.length none
  | _, _, _ => False

/-- Where a cursor stands after some answers: at the last one. -/
def standing : α → List (Option α) → α
  | _, some b :: rs => standing b rs
  | a, _ => a

section Moves

variable {search : Direction → α → Except ε (Option α)} {R : α → α → Prop} {Q I : α → Prop}

theorem moves_of_done (ds : List Direction) (a : α) :
    Cursor.moves search ds ⟨true, a⟩ = .ok (List.replicate ds.length none, ⟨true, a⟩) := by
  induction ds with
  | nil => rfl
  | cons d ds ih =>
    simp only [Cursor.moves, Cursor.move, if_true, bind, Except.bind, ih]
    rfl

/-- The run lemma: where every search from a good element finds the first one and stays good,
a cursor can be moved in any way, and stands at its last answer. -/
theorem moves_exact
    (hstep : ∀ d a, I a → ∃ r, search d a = .ok r ∧ First (d.rel R) Q a r ∧ ∀ b, r = some b → I b)
    (ds : List Direction) {a : α} (ha : I a) :
    ∃ rs c, Cursor.moves search ds ⟨false, a⟩ = .ok (rs, c) ∧ Answers R Q a ds rs ∧
      (c.done = true ↔ none ∈ rs) ∧ c.position = standing a rs := by
  induction ds generalizing a with
  | nil => exact ⟨[], ⟨false, a⟩, rfl, trivial, by simp, rfl⟩
  | cons d ds ih =>
    obtain ⟨r, hr, hfirst, hgood⟩ := hstep d a ha
    cases r with
    | none =>
      refine ⟨none :: List.replicate ds.length none, ⟨true, a⟩, ?_, ⟨hfirst, rfl⟩, by simp, rfl⟩
      simp only [Cursor.moves, Cursor.move, hr, Bool.false_eq_true, if_false, bind, Except.bind,
        moves_of_done]
      rfl
    | some b =>
      obtain ⟨rs, c, hmoves, hanswers, hdone, hposition⟩ := ih (hgood b rfl)
      refine ⟨some b :: rs, c, ?_, ⟨hfirst, hanswers⟩, by simp [hdone], hposition⟩
      simp only [Cursor.moves, Cursor.move, hr, Bool.false_eq_true, if_false, bind, Except.bind,
        hmoves]
      rfl

end Moves

/-! ## Where a cursor stands -/

/-- `b` is the next element of `Q` after the element `a`. -/
def Next (R : α → α → Prop) (Q : α → Prop) (a b : α) : Prop := Q a ∧ First R Q a (some b)

/-- `b` is the `n`th element after `a`. -/
def Ahead (R : α → α → Prop) (Q : α → Prop) : ℕ → α → α → Prop
  | 0, a, b => a = b
  | n + 1, a, b => ∃ c, Ahead R Q n a c ∧ Next R Q c b

/-- `b` is the `n`th element after `a`, for a negative `n` before it. -/
def Apart (R : α → α → Prop) (Q : α → Prop) : ℤ → α → α → Prop
  | Int.ofNat n, a, b => Ahead R Q n a b
  | Int.negSucc n, a, b => Ahead R Q (n + 1) b a

/-- How many more moves are forwards than backwards. -/
def net : List Direction → ℤ
  | [] => 0
  | .forward :: ds => net ds + 1
  | .backward :: ds => net ds - 1

section Line

variable {R : α → α → Prop} {Q : α → Prop} {a b c : α} {n : ℕ}

/-- The elements lie on a line. -/
structure Line (R : α → α → Prop) (Q : α → Prop) : Prop where
  asymm : ∀ a b, R a b → ¬ R b a
  total : ∀ a b, Q a → Q b → R a b ∨ a = b ∨ R b a

theorem Ahead.head (hab : Next R Q a b) (hbc : Ahead R Q n b c) : Ahead R Q (n + 1) a c := by
  induction n generalizing c with
  | zero =>
    obtain rfl := hbc
    exact ⟨a, rfl, hab⟩
  | succ n ih =>
    obtain ⟨d, hbd, hdc⟩ := hbc
    exact ⟨d, ih hbd, hdc⟩

theorem Ahead.split (h : Ahead R Q (n + 1) a c) : ∃ b, Next R Q a b ∧ Ahead R Q n b c := by
  induction n generalizing c with
  | zero =>
    obtain ⟨b, hab, hbc⟩ := h
    obtain rfl := hab
    exact ⟨c, hbc, rfl⟩
  | succ n ih =>
    obtain ⟨d, had, hdc⟩ := h
    obtain ⟨b, hab, hbd⟩ := ih had
    exact ⟨b, hab, d, hbd, hdc⟩

variable (hline : Line R Q)

include hline

theorem First.unique (h : First R Q a (some b)) (h' : First R Q a (some c)) : b = c := by
  obtain ⟨hb, hab, hleast⟩ := h
  obtain ⟨hc, hac, hleast'⟩ := h'
  rcases hleast c hc hac with heq | hbc
  · exact heq.symm
  · rcases hleast' b hb hab with heq | hcb
    · exact heq
    · exact absurd hcb (hline.asymm b c hbc)

/-- The first element before the next one is the element itself. -/
theorem Next.turn (h : Next R Q a b) : First (Direction.backward.rel R) Q b (some a) := by
  obtain ⟨ha, hb, hab, hleast⟩ := h
  refine ⟨ha, hab, fun c hc hcb => ?_⟩
  rcases hline.total a c ha hc with hac | rfl | hca
  · rcases hleast c hc hac with rfl | hbc
    · exact absurd hcb (hline.asymm c c hcb)
    · exact absurd hcb (hline.asymm b c hbc)
  · exact Or.inl rfl
  · exact Or.inr hca

theorem next_of_backward (hb : Q b) (h : First (Direction.backward.rel R) Q b (some a)) :
    Next R Q a b := by
  obtain ⟨ha, hab, hgreatest⟩ := h
  refine ⟨ha, hb, hab, fun c hc hac => ?_⟩
  rcases hline.total b c hb hc with hbc | rfl | hcb
  · exact Or.inr hbc
  · exact Or.inl rfl
  · rcases hgreatest c hc hcb with rfl | hca
    · exact absurd hac (hline.asymm c c hac)
    · exact absurd hca (hline.asymm a c hac)

theorem Next.prev_unique (h : Next R Q a c) (h' : Next R Q b c) : a = b := by
  have hswap : Line (Direction.backward.rel R) Q :=
    ⟨fun x y hxy hyx => hline.asymm y x hxy hyx,
      fun x y hx hy => (hline.total y x hy hx).imp id (Or.imp Eq.symm id)⟩
  exact First.unique hswap (h.turn hline) (h'.turn hline)

theorem apart_succ {n : ℤ} (h : Apart R Q n a b) (hbc : Next R Q b c) :
    Apart R Q (n + 1) a c := by
  cases n with
  | ofNat n => exact ⟨b, h, hbc⟩
  | negSucc n =>
    obtain ⟨d, hbd, hda⟩ := Ahead.split h
    obtain rfl : d = c := First.unique hline hbd.2 hbc.2
    cases n with
    | zero => exact hda.symm
    | succ n => exact hda

theorem apart_pred {n : ℤ} (h : Apart R Q n a b) (hcb : Next R Q c b) :
    Apart R Q (n - 1) a c := by
  cases n with
  | ofNat n =>
    cases n with
    | zero =>
      obtain rfl := h
      exact ⟨c, rfl, hcb⟩
    | succ n =>
      obtain ⟨d, had, hdb⟩ := h
      obtain rfl : d = c := Next.prev_unique hline hdb hcb
      rw [show Int.ofNat (n + 1) - 1 = Int.ofNat n by simp]
      exact had
  | negSucc n => exact Ahead.head hcb h

theorem Answers.apart_add {ds : List Direction} {rs : List (Option α)} {n : ℤ}
    (h : Answers R Q b ds rs) (hab : Apart R Q n a b) (hb : Q b) (hsome : none ∉ rs) :
    Apart R Q (n + net ds) a (standing b rs) := by
  induction ds generalizing rs b n with
  | nil =>
    cases rs with
    | nil => simpa [net, standing] using hab
    | cons r rs => exact absurd h (by simp [Answers])
  | cons d ds ih =>
    cases rs with
    | nil => exact absurd h (by simp [Answers])
    | cons r rs =>
      cases r with
      | none => exact absurd List.mem_cons_self hsome
      | some c =>
        obtain ⟨hfirst, hrest⟩ := h
        have hsome' : none ∉ rs := fun hmem => hsome (List.mem_cons_of_mem _ hmem)
        cases d with
        | forward =>
          have hac : Apart R Q (n + 1) a c := apart_succ hline hab ⟨hb, hfirst⟩
          have hrun := ih hrest hac hfirst.1 hsome'
          rwa [add_right_comm, add_assoc] at hrun
        | backward =>
          have hac : Apart R Q (n - 1) a c :=
            apart_pred hline hab (next_of_backward hline hb hfirst)
          have hrun := ih hrest hac hfirst.1 hsome'
          rwa [sub_add_eq_add_sub, add_sub_assoc] at hrun

/-- The place of a cursor depends only on how many more moves were forwards. -/
theorem Answers.apart {ds : List Direction} {rs : List (Option α)} (h : Answers R Q a ds rs)
    (ha : Q a) (hsome : none ∉ rs) : Apart R Q (net ds) a (standing a rs) := by
  have hzero : Apart R Q 0 a a := rfl
  have hrun := h.apart_add hline hzero ha hsome
  rwa [zero_add] at hrun

end Line

end Antegen.Enumeration
