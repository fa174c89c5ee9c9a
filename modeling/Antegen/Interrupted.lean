import Antegen.Transition

/-!
# Actions that can fail halfway

An action runs on a state and answers or fails. What it has done to the state until then stays
done. A rule of what an action does speaks about both ends: the state changes by allowed steps
only, wherever the action stops, and where it answers a postcondition holds.
-/
namespace Antegen.Interrupted

open Relation

/-- An action on states of `σ` that answers with an `α` or fails with an `ε`. -/
def Action (σ ε α : Type) := σ → Except ε α × σ

variable {σ ε α β : Type}

instance : Monad (Action σ ε) where
  pure a := fun s => (.ok a, s)
  bind c f := fun s =>
    match c s with
    | (.ok a, s') => f a s'
    | (.error e, s') => (.error e, s')

namespace Action

def read : Action σ ε σ := fun s => (.ok s, s)

def fail (e : ε) : Action σ ε α := fun s => (.error e, s)

/-- The answer that there is, or failure. -/
def ofOption (e : ε) : Option α → Action σ ε α
  | some a => pure a
  | none => fail e

def ofExcept : Except ε α → Action σ ε α
  | .ok a => pure a
  | .error e => fail e

/-- Reports another error. -/
def mapError (f : ε → ε) (c : Action σ ε α) : Action σ ε α := fun s =>
  match c s with
  | (.ok a, s') => (.ok a, s')
  | (.error e, s') => (.error (f e), s')

/-- Goes on whether the action fails or not. -/
def ignore (c : Action σ ε α) : Action σ ε Unit := fun s => (.ok (), (c s).2)

end Action

/-- What each step keeps, steps keep. -/
theorem kept {R : σ → σ → Prop} {I : σ → Prop} (hI : ∀ s s', R s s' → I s → I s') {s s' : σ}
    (h : ReflTransGen R s s') (hs : I s) : I s' := by
  induction h with
  | refl => exact hs
  | tail _ hstep ih => exact hI _ _ hstep ih

/-- Started where `P` holds, the action changes the state by steps of `R` only, and `Q` holds
where it answers. -/
def Does (R : σ → σ → Prop) (P : σ → Prop) (c : Action σ ε α) (Q : α → σ → Prop) : Prop :=
  ∀ s, P s → ReflTransGen R s (c s).2 ∧ ∀ a, (c s).1 = .ok a → Q a (c s).2

namespace Does

variable {R : σ → σ → Prop} {P P' : σ → Prop} {Q Q' : α → σ → Prop} {c : Action σ ε α}

theorem pure {a : α} (h : ∀ s, P s → Q a s) : Does R P (Pure.pure a : Action σ ε α) Q := by
  intro s hs
  refine ⟨.refl, fun b hb => ?_⟩
  obtain rfl := Except.ok.inj hb
  exact h s hs

theorem read {Q : σ → σ → Prop} (h : ∀ s, P s → Q s s) :
    Does R P (Action.read : Action σ ε σ) Q := by
  intro s hs
  refine ⟨.refl, fun b hb => ?_⟩
  obtain rfl := Except.ok.inj hb
  exact h s hs

theorem fail {e : ε} : Does R P (Action.fail e : Action σ ε α) Q :=
  fun _ _ => ⟨.refl, fun _ ha => absurd ha (by simp [Action.fail])⟩

theorem bind {f : α → Action σ ε β} {Q' : β → σ → Prop} (h : Does R P c Q)
    (hf : ∀ a, Does R (Q a) (f a) Q') : Does R P (c >>= f) Q' := by
  intro s hs
  obtain ⟨hsteps, hanswer⟩ := h s hs
  cases hc : c s with
  | mk r s' =>
    rw [hc] at hsteps hanswer
    cases r with
    | error e =>
      have hrun : (c >>= f) s = (.error e, s') := by simp [Bind.bind, hc]
      rw [hrun]
      exact ⟨hsteps, fun _ ha => absurd ha (by simp)⟩
    | ok a =>
      have hrun : (c >>= f) s = f a s' := by simp [Bind.bind, hc]
      obtain ⟨hmore, hlast⟩ := hf a s' (hanswer a rfl)
      rw [hrun]
      exact ⟨hsteps.trans hmore, hlast⟩

theorem weaken (h : Does R P c Q) (hP : ∀ s, P' s → P s) (hQ : ∀ a s, Q a s → Q' a s) :
    Does R P' c Q' := fun s hs => ⟨(h s (hP s hs)).1, fun a ha => hQ a _ ((h s (hP s hs)).2 a ha)⟩

theorem ite {b : Prop} [Decidable b] {c' : Action σ ε α} (h : b → Does R P c Q)
    (h' : ¬ b → Does R P c' Q) : Does R P (if b then c else c') Q := by
  by_cases hb : b
  · rw [if_pos hb]
    exact h hb
  · rw [if_neg hb]
    exact h' hb

/-- A case split on the state the action starts in. -/
theorem of_forall (h : ∀ s, P s → Does R (· = s) c Q) : Does R P c Q :=
  fun s hs => h s hs s rfl

/-- An action that starts in a given state. -/
theorem from_eq {s : σ} (h : Does R P c Q) (hs : P s) : Does R (· = s) c Q :=
  h.weaken (fun _ heq => heq ▸ hs) fun _ _ hQ => hQ

/-- From a given state there is one state that an action ends in. -/
theorem result {s : σ} (h : Does R (· = s) c Q) :
    Does R (· = s) c fun a s' => Q a s' ∧ s' = (c s).2 := by
  rintro s' rfl
  exact ⟨(h s' rfl).1, fun a ha => ⟨(h s' rfl).2 a ha, rfl⟩⟩

/-- An action that is chosen by the state it starts in. -/
theorem bind_read {f : σ → Action σ ε α} (h : ∀ s, P s → Does R (· = s) (f s) Q) :
    Does R P (Action.read >>= f) Q := by
  refine bind (Q := fun a s => a = s ∧ P s) (read fun _ hs => ⟨rfl, hs⟩) fun a => ?_
  refine of_forall fun s hs => ?_
  obtain ⟨rfl, hs⟩ := hs
  exact h a hs

theorem ofOption {e : ε} {o : Option α} (h : ∀ a s, o = some a → P s → Q a s) :
    Does R P (Action.ofOption e o) Q := by
  cases o with
  | none => exact fail
  | some a => exact pure fun s hs => h a s rfl hs

theorem ofExcept {r : Except ε α} (h : ∀ a s, r = .ok a → P s → Q a s) :
    Does R P (Action.ofExcept r) Q := by
  cases r with
  | error e => exact fail
  | ok a => exact pure fun s hs => h a s rfl hs

theorem mapError {f : ε → ε} (h : Does R P c Q) : Does R P (c.mapError f) Q := by
  intro s hs
  have hc := h s hs
  unfold Action.mapError
  split
  · rename_i hrun
    rwa [hrun] at hc
  · rename_i hrun
    rw [hrun] at hc
    exact ⟨hc.1, fun _ ha => absurd ha (by simp)⟩

theorem ignore (h : Does R P c Q) {I : σ → Prop} (hI : ∀ s s', R s s' → I s → I s')
    (hP : ∀ s, P s → I s) : Does R P c.ignore fun _ => I := by
  intro s hs
  obtain ⟨hsteps, -⟩ := h s hs
  exact ⟨hsteps, fun _ _ => kept hI hsteps (hP s hs)⟩

/-- What the allowed steps keep is kept. -/
theorem stable (h : Does R P c Q) {I : σ → Prop} (hI : ∀ s s', R s s' → I s → I s') :
    Does R (fun s => P s ∧ I s) c fun a s => Q a s ∧ I s := by
  rintro s ⟨hs, hIs⟩
  obtain ⟨hsteps, hanswer⟩ := h s hs
  exact ⟨hsteps, fun a ha => ⟨hanswer a ha, kept hI hsteps hIs⟩⟩

/-- An action that does nothing or makes one allowed step. -/
theorem step (h : ∀ s, P s → (∃ e s', c s = (.error e, s') ∧ R s s') ∨
    ∃ a s', c s = (.ok a, s') ∧ R s s' ∧ Q a s') : Does R P c Q := by
  intro s hs
  rcases h s hs with ⟨e, s', hc, hstep⟩ | ⟨a, s', hc, hstep, hQ⟩
  · rw [hc]
    exact ⟨.single hstep, fun _ ha => absurd ha (by simp)⟩
  · rw [hc]
    refine ⟨.single hstep, fun b hb => ?_⟩
    obtain rfl := Except.ok.inj hb
    exact hQ

/-- More steps may be allowed. -/
theorem mono {R' : σ → σ → Prop} (h : Does R P c Q) (hR : ∀ s s', R s s' → R' s s') :
    Does R' P c Q := fun s hs => ⟨ReflTransGen.mono hR _ _ (h s hs).1, (h s hs).2⟩

/-- Two actions, the second of which is given nothing. -/
theorem seq {c' : Action σ ε β} {Q' : β → σ → Prop} {I : σ → Prop}
    (h : Does R P c fun _ => I) (h' : Does R I c' Q') : Does R P (c >>= fun _ => c') Q' :=
  h.bind fun _ => h'

end Does

end Antegen.Interrupted
