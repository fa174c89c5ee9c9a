import Mathlib.Tactic

/-!
# A register that drops repeated data and old versions

Versioned data is offered to a register in any order. An offer of the data that is
held is dropped, and the version of the register stays what it was. An offer of
other data is dropped if its version is below that of the register. So the register
forgets that its data was offered again under a later version, and data of a version
in between can overtake it. It holds the newest data at all times exactly if none does.
-/
namespace Antegen.Register

variable {κ α : Type*}

/-- Every version has one value. -/
def Functional (cs : List (κ × α)) : Prop :=
  ∀ c ∈ cs, ∀ c' ∈ cs, c.1 = c'.1 → c.2 = c'.2

theorem Functional.mono {cs cs' : List (κ × α)} (h : Functional cs') (hsub : cs ⊆ cs') :
    Functional cs :=
  fun c hc c' hc' => h c (hsub hc) c' (hsub hc')

variable [LinearOrder κ]

/-- The data is that of the highest version. -/
def Newest (cs : List (κ × α)) (d : α) : Prop :=
  ∃ v, (v, d) ∈ cs ∧ ∀ c ∈ cs, c.1 ≤ v

/-- Data that is the newest from its first offer on, which was under the highest version
then, is offered again under a higher version. Then comes other data of a version in
between. -/
def Overtaken (cs : List (κ × α)) : Prop :=
  ∃ before v₀ d₀ mid v d after, cs = before ++ (v₀, d₀) :: mid ++ (v, d) :: after ∧
    (∀ c ∈ before, c.1 ≤ v₀) ∧ (∀ m, m <+: mid → Newest (before ++ (v₀, d₀) :: m) d₀) ∧
    d ≠ d₀ ∧ v₀ ≤ v ∧ ∃ c ∈ mid, v < c.1

theorem Newest.unique {cs : List (κ × α)} (hf : Functional cs) {d d' : α} (h : Newest cs d)
    (h' : Newest cs d') : d = d' := by
  obtain ⟨v, hmem, hmax⟩ := h
  obtain ⟨v', hmem', hmax'⟩ := h'
  exact hf _ hmem _ hmem' (le_antisymm (hmax' _ hmem) (hmax _ hmem'))

/-- An offer of the newest data keeps it newest, and so does one of a lower version. -/
theorem Newest.append {cs : List (κ × α)} {d : α} (h : Newest cs d) {c : κ × α}
    (hc : c.2 = d ∨ ∃ c' ∈ cs, c.1 ≤ c'.1) : Newest (cs ++ [c]) d := by
  obtain ⟨v, hmem, hmax⟩ := h
  by_cases hle : c.1 ≤ v
  · refine ⟨v, List.mem_append_left _ hmem, fun c' hc' => ?_⟩
    rcases List.mem_append.mp hc' with hold | hnew
    · exact hmax c' hold
    · rw [List.mem_singleton.mp hnew]
      exact hle
  · have hdata : c.2 = d := by
      rcases hc with hdata | ⟨c', hc', hlow⟩
      · exact hdata
      · exact absurd (hlow.trans (hmax c' hc')) hle
    refine ⟨c.1, ?_, fun c' hc' => ?_⟩
    · rw [← hdata]
      simp
    · rcases List.mem_append.mp hc' with hold | hnew
      · exact (hmax c' hold).trans (le_of_not_ge hle)
      · rw [List.mem_singleton.mp hnew]

theorem Overtaken.mono {cs : List (κ × α)} (h : Overtaken cs) (rest : List (κ × α)) :
    Overtaken (cs ++ rest) := by
  obtain ⟨before, v₀, d₀, mid, v, d, after, rfl, hrest⟩ := h
  exact ⟨before, v₀, d₀, mid, v, d, after ++ rest, by simp, hrest⟩

variable [DecidableEq α]

/-- What the register holds after an offer. -/
def offer (held : Option (κ × α)) (c : κ × α) : Option (κ × α) :=
  match held with
  | none => some c
  | some (v, d) => if d = c.2 then some (v, d) else if c.1 < v then some (v, d) else some c

def offerAll (cs : List (κ × α)) : Option (κ × α) := cs.foldl offer none

@[simp] theorem offerAll_append_singleton (cs : List (κ × α)) (c : κ × α) :
    offerAll (cs ++ [c]) = offer (offerAll cs) c := by
  simp [offerAll]

/-- The register holds an offer that was the newest when it came and whose data is the
newest since. -/
def Holding (cs : List (κ × α)) : Prop :=
  ∃ before v d mid, cs = before ++ (v, d) :: mid ∧ offerAll cs = some (v, d) ∧
    (∀ c ∈ before, c.1 ≤ v) ∧ ∀ m, m <+: mid → Newest (before ++ (v, d) :: m) d

theorem Holding.newest {cs : List (κ × α)} (h : Holding cs) :
    ∃ c, offerAll cs = some c ∧ Newest cs c.2 := by
  obtain ⟨before, v, d, mid, rfl, hheld, -, hnewest⟩ := h
  exact ⟨(v, d), hheld, hnewest mid List.prefix_rfl⟩

/-- The step lemma. -/
theorem Holding.step {cs : List (κ × α)} (h : Holding cs) {c : κ × α}
    (hfree : ¬ Overtaken (cs ++ [c])) : Holding (cs ++ [c]) := by
  obtain ⟨before, v, d, mid, rfl, hheld, hrecord, hnewest⟩ := h
  have hkeep : (c.2 = d ∨ c.1 < v) → Holding (before ++ (v, d) :: mid ++ [c]) := by
    intro hc
    refine ⟨before, v, d, mid ++ [c], by simp, ?_, hrecord, fun m hm => ?_⟩
    · rw [offerAll_append_singleton, hheld, offer]
      rcases hc with hdata | hlow
      · rw [if_pos hdata.symm]
      · split_ifs <;> rfl
    · rcases List.prefix_concat_iff.mp hm with rfl | hshort
      · have hlast := (hnewest mid List.prefix_rfl).append (c := c) ?_
        · simpa using hlast
        · rcases hc with hdata | hlow
          · exact Or.inl hdata
          · exact Or.inr ⟨(v, d), by simp, hlow.le⟩
      · exact hnewest m hshort
  by_cases hdata : c.2 = d
  · exact hkeep (Or.inl hdata)
  · by_cases hlow : c.1 < v
    · exact hkeep (Or.inr hlow)
    · have hmax : ∀ c' ∈ before ++ (v, d) :: mid, c'.1 ≤ c.1 := by
        intro c' hc'
        by_contra hgt
        rw [List.mem_append, List.mem_cons] at hc'
        rcases hc' with hbefore | rfl | hmid
        · exact hgt ((hrecord c' hbefore).trans (not_lt.mp hlow))
        · exact hgt (not_lt.mp hlow)
        · exact hfree ⟨before, v, d, mid, c.1, c.2, [], by simp, hrecord, hnewest, hdata,
            not_lt.mp hlow, c', hmid, not_le.mp hgt⟩
      refine ⟨before ++ (v, d) :: mid, c.1, c.2, [], by simp, ?_, hmax, fun m hm => ?_⟩
      · rw [offerAll_append_singleton, hheld, offer, if_neg (Ne.symm hdata), if_neg hlow]
      · rw [List.prefix_nil.mp hm]
        refine ⟨c.1, by simp, fun c' hc' => ?_⟩
        rcases List.mem_append.mp hc' with hold | hnew
        · exact hmax c' hold
        · rw [List.mem_singleton.mp hnew]

/-- The run lemma. -/
theorem holding_of_not_overtaken {cs : List (κ × α)} (hne : cs ≠ []) (h : ¬ Overtaken cs) :
    Holding cs := by
  induction cs using List.reverseRecOn with
  | nil => exact absurd rfl hne
  | append_singleton cs c ih =>
    by_cases hnil : cs = []
    · subst hnil
      refine ⟨[], c.1, c.2, [], rfl, rfl, by simp, fun m hm => ?_⟩
      rw [List.prefix_nil.mp hm]
      exact ⟨c.1, by simp, by simp⟩
    · exact (ih hnil fun hover => h (hover.mono [c])).step h

/-- The version of the register was offered. -/
theorem offerAll_mem {cs : List (κ × α)} {c : κ × α} (h : offerAll cs = some c) : c ∈ cs := by
  induction cs using List.reverseRecOn generalizing c with
  | nil => exact absurd h (by simp [offerAll])
  | append_singleton cs c' ih =>
    rw [offerAll_append_singleton] at h
    cases hheld : offerAll cs with
    | none =>
      rw [hheld] at h
      rw [← Option.some.inj h]
      simp
    | some held =>
      rw [hheld, offer] at h
      split_ifs at h
      · rw [← Option.some.inj h]
        exact List.mem_append_left _ (ih hheld)
      · rw [← Option.some.inj h]
        exact List.mem_append_left _ (ih hheld)
      · rw [← Option.some.inj h]
        simp

/-- At every moment the register holds the newest data. -/
def AlwaysNewest (cs : List (κ × α)) : Prop :=
  ∀ front, front <+: cs → front ≠ [] → ∃ c, offerAll front = some c ∧ Newest front c.2

/-- While data stays the newest, the register keeps it under its first version or a lower one. -/
theorem AlwaysNewest.held {before mid : List (κ × α)} {v₀ : κ} {d₀ : α}
    (h : AlwaysNewest (before ++ (v₀, d₀) :: mid))
    (hf : Functional (before ++ (v₀, d₀) :: mid)) (hrecord : ∀ c ∈ before, c.1 ≤ v₀)
    (hnewest : ∀ m, m <+: mid → Newest (before ++ (v₀, d₀) :: m) d₀) :
    ∃ v, offerAll (before ++ (v₀, d₀) :: mid) = some (v, d₀) ∧ v ≤ v₀ := by
  have hdata : ∀ m, m <+: mid →
      ∃ v, offerAll (before ++ (v₀, d₀) :: m) = some (v, d₀) := by
    intro m hm
    obtain ⟨rest, rfl⟩ := hm
    have hfront : before ++ (v₀, d₀) :: m <+: before ++ (v₀, d₀) :: (m ++ rest) :=
      ⟨rest, by simp⟩
    obtain ⟨c, hheld, hc⟩ := h _ hfront (by simp)
    have heq : c.2 = d₀ :=
      hc.unique (hf.mono hfront.subset) (hnewest m (List.prefix_append m rest))
    exact ⟨c.1, by rw [hheld, ← heq]⟩
  have hversion : ∀ m, m <+: mid → ∀ v,
      offerAll (before ++ (v₀, d₀) :: m) = some (v, d₀) → v ≤ v₀ := by
    intro m
    induction m using List.reverseRecOn with
    | nil =>
      intro _ v hv
      have hmem := offerAll_mem hv
      rw [List.mem_append, List.mem_singleton] at hmem
      rcases hmem with hold | hnew
      · exact hrecord _ hold
      · exact (Prod.mk.inj hnew).1.le
    | append_singleton m c ih =>
      intro hm v hv
      have hshort : m <+: mid := (List.prefix_append m [c]).trans hm
      obtain ⟨u, hu⟩ := hdata m hshort
      rw [← List.cons_append, ← List.append_assoc, offerAll_append_singleton, hu, offer] at hv
      split_ifs at hv with hsame hlow
      · rw [← (Prod.mk.inj (Option.some.inj hv)).1]
        exact ih hshort u hu
      · rw [← (Prod.mk.inj (Option.some.inj hv)).1]
        exact ih hshort u hu
      · exact absurd (congrArg Prod.snd (Option.some.inj hv)).symm hsame
  obtain ⟨v, hv⟩ := hdata mid List.prefix_rfl
  exact ⟨v, hv, hversion mid List.prefix_rfl v hv⟩

/-- The register holds the newest data at all times if and only if no offer overtakes. -/
theorem alwaysNewest_iff {cs : List (κ × α)} (hf : Functional cs) :
    AlwaysNewest cs ↔ ¬ Overtaken cs := by
  constructor
  · rintro h ⟨before, v₀, d₀, mid, v, d, after, rfl, hrecord, hnewest, hdata, hle, c, hc, hlt⟩
    have hfront : before ++ (v₀, d₀) :: mid <+: before ++ (v₀, d₀) :: mid ++ (v, d) :: after :=
      List.prefix_append _ _
    have hnext : before ++ (v₀, d₀) :: mid ++ [(v, d)] <+:
        before ++ (v₀, d₀) :: mid ++ (v, d) :: after :=
      ⟨after, by simp⟩
    obtain ⟨u, hheld, hu⟩ := AlwaysNewest.held (fun front hp => h front (hp.trans hfront))
      (hf.mono hfront.subset) hrecord hnewest
    obtain ⟨c', hheld', hc'⟩ := h _ hnext (by simp)
    rw [offerAll_append_singleton, hheld, offer, if_neg (Ne.symm hdata),
      if_neg (not_lt.mpr (hu.trans hle))] at hheld'
    rw [← Option.some.inj hheld'] at hc'
    have hkept : Newest (before ++ (v₀, d₀) :: mid ++ [(v, d)]) d₀ :=
      (hnewest mid List.prefix_rfl).append (Or.inr ⟨c, by simp [hc], hlt.le⟩)
    exact hdata (hc'.unique (hf.mono hnext.subset) hkept)
  · rintro h front ⟨rest, rfl⟩ hne
    exact (holding_of_not_overtaken hne fun hover => h (hover.mono rest)).newest

end Antegen.Register
