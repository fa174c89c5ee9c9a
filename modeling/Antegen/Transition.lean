import Mathlib.Tactic

/-!
# Runs of labelled transition systems

A step relation carries a label for each transition. A run lists the labels in
order. A guard restricts the steps a run may take, so a property of guarded runs
is an invariant of the restricted relation.
-/
namespace Antegen.Transition

variable {σ α : Type*} {step : σ → α → σ → Prop}

inductive Run (step : σ → α → σ → Prop) : σ → List α → σ → Prop
  | nil (s : σ) : Run step s [] s
  | cons {s t u : σ} {a : α} {as : List α} :
      step s a t → Run step t as u → Run step s (a :: as) u

/-- The steps of `step` that also meet the guard. -/
def Guarded (step : σ → α → σ → Prop) (guard : σ → α → Prop) (s : σ) (a : α) (t : σ) : Prop :=
  guard s a ∧ step s a t

/-- A property kept by every step holds at the end of every run. -/
theorem Run.invariant {I : σ → Prop} (hstep : ∀ s a t, I s → step s a t → I t)
    {s u : σ} {as : List α} (h : Run step s as u) (hs : I s) : I u := by
  induction h with
  | nil s => exact hs
  | cons ha _ ih => exact ih (hstep _ _ _ hs ha)

/-- A property of a state and of what the labels have contributed up to it. -/
theorem Run.history {β : Type*} {I : List β → σ → Prop} {f : α → List β}
    (hstep : ∀ bs s a t, I bs s → step s a t → I (bs ++ f a) t) {s u : σ} {as : List α}
    (h : Run step s as u) {bs : List β} (hs : I bs s) : I (bs ++ as.flatMap f) u := by
  induction h generalizing bs with
  | nil s => simpa using hs
  | cons ha _ ih =>
    rw [List.flatMap_cons, ← List.append_assoc]
    exact ih (hstep _ _ _ _ hs ha)

theorem Run.mono {step' : σ → α → σ → Prop} (himp : ∀ s a t, step s a t → step' s a t)
    {s u : σ} {as : List α} (h : Run step s as u) : Run step' s as u := by
  induction h with
  | nil s => exact Run.nil s
  | cons ha _ ih => exact Run.cons (himp _ _ _ ha) ih

/-- A function that carries steps to steps carries runs to runs. -/
theorem Run.refine {τ : Type*} {step' : τ → α → τ → Prop} {f : σ → τ}
    (hstep : ∀ s a t, step s a t → step' (f s) a (f t)) {s u : σ} {as : List α}
    (h : Run step s as u) : Run step' (f s) as (f u) := by
  induction h with
  | nil s => exact Run.nil (f s)
  | cons ha _ ih => exact Run.cons (hstep _ _ _ ha) ih

/-- An invariant under which every step has a property gives a run of such steps. -/
theorem Run.along {I : σ → Prop} {P : σ → α → σ → Prop}
    (hstep : ∀ s a t, I s → step s a t → I t ∧ P s a t) {s u : σ} {as : List α}
    (h : Run step s as u) (hs : I s) : Run P s as u := by
  induction h with
  | nil s => exact Run.nil s
  | cons ha _ ih =>
    obtain ⟨ht, hprop⟩ := hstep _ _ _ hs ha
    exact Run.cons hprop (ih ht)

theorem Run.append {s t u : σ} {as bs : List α} (h : Run step s as t) (h' : Run step t bs u) :
    Run step s (as ++ bs) u := by
  induction h with
  | nil s => exact h'
  | cons ha _ ih => exact Run.cons ha (ih h')

/-- Steps that stand for runs compose to a run over all their labels. -/
theorem Run.flatten {β : Type*} {coarse : σ → List β → σ → Prop} {fine : σ → β → σ → Prop}
    (hstep : ∀ s l t, coarse s l t → Run fine s l t) {s u : σ} {ls : List (List β)}
    (h : Run coarse s ls u) : Run fine s ls.flatten u := by
  induction h with
  | nil s => exact Run.nil s
  | cons ha _ ih =>
    rw [List.flatten_cons]
    exact (hstep _ _ _ ha).append ih

/-- An evaluated sequence of steps that all meet a guard is a run. -/
theorem Run.of_foldlM {f : σ → α → Option σ} {guard : σ → α → Prop} [∀ s a, Decidable (guard s a)]
    {as : List α} {s u : σ}
    (h : as.foldlM (fun s a => if guard s a then f s a else none) s = some u) :
    Run (Guarded (fun s a t => f s a = some t) guard) s as u := by
  induction as generalizing s with
  | nil =>
    obtain rfl := Option.some.inj h
    exact Run.nil s
  | cons a as ih =>
    rw [List.foldlM_cons, Option.bind_eq_bind, Option.bind_eq_some_iff] at h
    obtain ⟨t, ht, hrest⟩ := h
    split_ifs at ht with hguard
    exact Run.cons ⟨hguard, ht⟩ (ih hrest)

/-- An evaluated sequence of steps with allowed labels is a run. -/
theorem Run.of_forall {f : σ → α → Option σ} {allowed : α → Prop} {as : List α}
    (hallowed : ∀ a ∈ as, allowed a) {s u : σ} (h : as.foldlM f s = some u) :
    Run (Guarded (fun s a t => f s a = some t) fun _ a => allowed a) s as u := by
  induction as generalizing s with
  | nil =>
    obtain rfl := Option.some.inj h
    exact Run.nil s
  | cons a as ih =>
    rw [List.foldlM_cons, Option.bind_eq_bind, Option.bind_eq_some_iff] at h
    obtain ⟨t, ht, hrest⟩ := h
    rw [List.forall_mem_cons] at hallowed
    exact Run.cons ⟨hallowed.1, ht⟩ (ih hallowed.2 hrest)

/-- If a condition on each step decides whether an invariant survives it, the runs on which
the invariant holds throughout are the runs whose steps all meet the condition. -/
theorem Run.kept_iff {I : σ → Prop} {cond : σ → α → Prop}
    (hstep : ∀ s a t, I s → step s a t → (I t ↔ cond s a)) {s u : σ} {as : List α} (hs : I s) :
    Run (fun s a t => step s a t ∧ I t) s as u ↔ Run (Guarded step cond) s as u := by
  constructor
  · intro h
    induction h with
    | nil s => exact Run.nil s
    | cons ha _ ih => exact Run.cons ⟨(hstep _ _ _ hs ha.1).mp ha.2, ha.1⟩ (ih ha.2)
  · intro h
    induction h with
    | nil s => exact Run.nil s
    | cons ha _ ih =>
      have ht := (hstep _ _ _ hs ha.2).mpr ha.1
      exact Run.cons ⟨ha.2, ht⟩ (ih ht)

/-- If under an invariant a condition on each step decides whether the step obeys a law, the
lawful runs are the runs whose steps all meet the condition. -/
theorem Run.lawful_iff {I : σ → Prop} {law : σ → α → σ → Prop} {cond : σ → α → Prop}
    (hkept : ∀ s a t, I s → step s a t → I t)
    (hlaw : ∀ s a t, I s → step s a t → (law s a t ↔ cond s a)) {s u : σ} {as : List α}
    (hs : I s) :
    Run (fun s a t => step s a t ∧ law s a t) s as u ↔ Run (Guarded step cond) s as u := by
  constructor
  · intro h
    induction h with
    | nil s => exact Run.nil s
    | cons ha _ ih =>
      exact Run.cons ⟨(hlaw _ _ _ hs ha.1).mp ha.2, ha.1⟩ (ih (hkept _ _ _ hs ha.1))
  · intro h
    induction h with
    | nil s => exact Run.nil s
    | cons ha _ ih =>
      exact Run.cons ⟨ha.2, (hlaw _ _ _ hs ha.2).mpr ha.1⟩ (ih (hkept _ _ _ hs ha.2))

end Antegen.Transition
