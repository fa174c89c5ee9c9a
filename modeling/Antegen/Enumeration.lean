import Mathlib.Tactic

/-!
# Enumeration by a search for the next element

A search answers the first of some elements that lie beyond a given one, or that there
is none. Going on from each answer enumerates all of them in order, none left out.
-/
namespace Antegen.Enumeration

variable {α ε : Type}

/-- The first element of `Q` beyond `a`, or none if there are none. -/
def First (R : α → α → Prop) (Q : α → Prop) (a : α) : Option α → Prop
  | none => ∀ c, Q c → ¬ R a c
  | some b => Q b ∧ R a b ∧ ∀ c, Q c → R a c → c = b ∨ R b c

/-- The first answers of a search that goes on from the last one; fewer if it ends before. -/
def walk (search : α → Except ε (Option α)) : ℕ → α → Except ε (List α)
  | 0, _ => .ok []
  | n + 1, a => do
    match ← search a with
    | none => pure []
    | some b => do
      let l ← walk search n b
      pure (b :: l)

section Walk

variable {search : α → Except ε (Option α)} {n : ℕ} {a b : α}

theorem walk_none (h : search a = .ok none) : walk search (n + 1) a = .ok [] := by
  rw [walk, h]
  rfl

theorem walk_some {l : List α} (h : search a = .ok (some b)) (hl : walk search n b = .ok l) :
    walk search (n + 1) a = .ok (b :: l) := by
  simp [walk, h, hl, bind, Except.bind, pure, Except.pure]

end Walk

/-- The run lemma: if every search from a good element finds the first one and stays good,
the walk is in order, and an element is missing only behind as many as were asked for. -/
theorem walk_exact {R : α → α → Prop} (htrans : ∀ a b c, R a b → R b c → R a c)
    {search : α → Except ε (Option α)} {Q I : α → Prop}
    (hstep : ∀ a, I a → ∃ r, search a = .ok r ∧ First R Q a r ∧ ∀ b, r = some b → I b)
    (n : ℕ) {a : α} (ha : I a) :
    ∃ l, walk search n a = .ok l ∧ l.Pairwise R ∧ (∀ b ∈ l, Q b ∧ R a b) ∧
      ∀ c, Q c → R a c → c ∈ l ∨ (l.length = n ∧ ∀ b ∈ l, R b c) := by
  induction n generalizing a with
  | zero => exact ⟨[], rfl, List.Pairwise.nil, by simp, by simp⟩
  | succ n ih =>
    obtain ⟨r, hr, hfirst, hgood⟩ := hstep a ha
    cases r with
    | none =>
      exact ⟨[], walk_none hr, List.Pairwise.nil, by simp, fun c hc hac => absurd hac (hfirst c hc)⟩
    | some b =>
      obtain ⟨hb, hab, hleast⟩ := hfirst
      obtain ⟨l, hl, hsorted, hmem, hall⟩ := ih (hgood b rfl)
      refine ⟨b :: l, walk_some hr hl, ?_, ?_, ?_⟩
      · exact List.pairwise_cons.mpr ⟨fun c hc => (hmem c hc).2, hsorted⟩
      · intro c hc
        rcases List.mem_cons.mp hc with rfl | hc
        · exact ⟨hb, hab⟩
        · exact ⟨(hmem c hc).1, htrans a b c hab (hmem c hc).2⟩
      · intro c hc hac
        rcases hleast c hc hac with rfl | hbc
        · exact Or.inl (by simp)
        · rcases hall c hc hbc with hin | ⟨hlen, hbefore⟩
          · exact Or.inl (by simp [hin])
          · refine Or.inr ⟨by simp [hlen], fun b' hb' => ?_⟩
            rcases List.mem_cons.mp hb' with rfl | hb'
            · exact hbc
            · exact hbefore b' hb'

end Antegen.Enumeration
