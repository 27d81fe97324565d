import Mathlib

/-!
# Runs of a guarded step function

A step is either refused or gives the next state; a run takes the steps of a list. What
holds at the start and is kept by every step holds at every moment. A property that each
step keeps exactly when it meets a condition holds at every moment exactly when all the
steps of the run meet it.
-/

namespace BouchaudOS.Runs

variable {σ ε : Type*} {step : σ → ε → Option σ} {s₀ s s' : σ} {es es' : List ε} {e : ε}

def run (step : σ → ε → Option σ) (s₀ : σ) (es : List ε) : Option σ := es.foldlM step s₀

@[simp] theorem run_nil : run step s₀ [] = some s₀ := rfl

@[simp] theorem run_cons : run step s₀ (e :: es) = (step s₀ e).bind fun s => run step s es := rfl

theorem run_append : run step s₀ (es ++ es') = (run step s₀ es).bind fun s => run step s es' := by
  simp [run, List.foldlM_append]

theorem run_concat : run step s₀ (es ++ [e]) = some s' ↔ ∃ s, run step s₀ es = some s ∧ step s e = some s' := by
  rw [run_append, Option.bind_eq_some_iff]
  simp [run]

theorem run_some (f : σ → ε → σ) (s₀ : σ) (es : List ε) :
    run (fun s e => some (f s e)) s₀ es = some (es.foldl f s₀) := by
  induction es generalizing s₀ with
  | nil => rfl
  | cons e es ih => exact ih (f s₀ e)

variable {I P : σ → Prop} {C : σ → ε → Prop}

theorem run_invariant (hstep : ∀ s e s', I s → step s e = some s' → I s') (h0 : I s₀)
    (h : run step s₀ es = some s) : I s := by
  induction es generalizing s₀ with
  | nil =>
    cases h
    exact h0
  | cons e es ih =>
    obtain ⟨t, ht, h⟩ := Option.bind_eq_some_iff.mp h
    exact ih (hstep _ _ _ h0 ht) h

theorem exists_run_of_prefix (hp : es' <+: es) (h : run step s₀ es = some s) : ∃ s', run step s₀ es' = some s' := by
  obtain ⟨rest, rfl⟩ := hp
  rw [run_append] at h
  obtain ⟨s', hs', -⟩ := Option.bind_eq_some_iff.mp h
  exact ⟨s', hs'⟩

def Moment (step : σ → ε → Option σ) (s₀ : σ) (es : List ε) (s : σ) : Prop :=
  ∃ es', es' <+: es ∧ run step s₀ es' = some s

def Taken (step : σ → ε → Option σ) (s₀ : σ) (es : List ε) (s : σ) (e : ε) : Prop :=
  ∃ es', es' ++ [e] <+: es ∧ run step s₀ es' = some s

theorem exists_step_of_taken {t : σ} (h : run step s₀ es = some s) (ht : Taken step s₀ es t e) :
    ∃ t', step t e = some t' := by
  obtain ⟨es', hp, ht⟩ := ht
  obtain ⟨t', ht'⟩ := exists_run_of_prefix hp h
  obtain ⟨u, hu, hstep⟩ := run_concat.mp ht'
  obtain rfl : t = u := Option.some.inj (ht.symm.trans hu)
  exact ⟨t', hstep⟩

theorem not_taken_nil : ¬ Taken step s₀ [] s e := by
  rintro ⟨es', hp, -⟩
  simp at hp

/-- The steps of a run are its first one and those of the rest. -/
theorem forall_taken_cons {e0 : ε} (h0 : C s₀ e0) (hs : step s₀ e0 = some s)
    (h : ∀ t e, Taken step s es t e → C t e) : ∀ t e, Taken step s₀ (e0 :: es) t e → C t e := by
  rintro t e ⟨es', hp, ht⟩
  cases es' with
  | nil =>
    cases ht
    obtain ⟨rfl, -⟩ := List.cons_prefix_cons.mp hp
    exact h0
  | cons e1 es' =>
    obtain ⟨rfl, hp'⟩ := List.cons_prefix_cons.mp hp
    rw [run_cons, hs] at ht
    exact h t e ⟨es', hp', ht⟩

theorem Moment.of_run (h : run step s₀ es = some s) : Moment step s₀ es s := ⟨es, List.prefix_rfl, h⟩

theorem Moment.invariant (hstep : ∀ s e s', I s → step s e = some s' → I s') (h0 : I s₀)
    (h : Moment step s₀ es s) : I s := by
  obtain ⟨es', -, h⟩ := h
  exact run_invariant hstep h0 h

theorem forall_moment_of_taken (hP0 : P s₀) (hP : ∀ s e s', P s → C s e → step s e = some s' → P s')
    (hC : ∀ t e, Taken step s₀ es t e → C t e) (h : Moment step s₀ es s) : P s := by
  obtain ⟨es', hp, hs⟩ := h
  -- along the steps of the run up to this moment
  induction es' using List.reverseRecOn generalizing s with
  | nil =>
    cases hs
    exact hP0
  | append_singleton es' e ih =>
    obtain ⟨u, hu, hstep⟩ := run_concat.mp hs
    have huP := ih ((List.prefix_append _ _).trans hp) hu
    exact hP u e s huP (hC u e ⟨es', hp, hu⟩) hstep

/-- A property that each step keeps exactly under a condition. -/
theorem forall_moment_iff (hI0 : I s₀) (hI : ∀ s e s', I s → step s e = some s' → I s') (hP0 : P s₀)
    (hP : ∀ s e s', I s → P s → step s e = some s' → (P s' ↔ C s e)) (h : run step s₀ es = some s) :
    (∀ t, Moment step s₀ es t → P t) ↔ ∀ t e, Taken step s₀ es t e → C t e := by
  constructor
  · rintro hall t e ⟨es', hp, ht⟩
    obtain ⟨t', ht'⟩ := exists_run_of_prefix hp h
    obtain ⟨u, hu, hstep⟩ := run_concat.mp ht'
    obtain rfl : t = u := Option.some.inj (ht.symm.trans hu)
    have htP := hall t ⟨es', (List.prefix_append _ _).trans hp, ht⟩
    exact (hP t e t' (run_invariant hI hI0 ht) htP hstep).mp (hall t' ⟨_, hp, ht'⟩)
  · intro hall t ht
    refine (forall_moment_of_taken (P := fun s => I s ∧ P s) ⟨hI0, hP0⟩ ?_ hall ht).2
    rintro s e s' ⟨hs, hsP⟩ hc hstep
    exact ⟨hI s e s' hs hstep, (hP s e s' hs hsP hstep).mpr hc⟩

/-- The same for steps that are never refused. -/
theorem forall_prefix_iff {f : σ → ε → σ} (hI0 : I s₀)
    (hI : ∀ s e, I s → I (f s e)) (hP0 : P s₀) (hP : ∀ s e, I s → P s → (P (f s e) ↔ C s e)) :
    (∀ es', es' <+: es → P (es'.foldl f s₀)) ↔ ∀ es' e, es' ++ [e] <+: es → C (es'.foldl f s₀) e := by
  have hrun := @forall_moment_iff σ ε (fun s e => some (f s e)) s₀ _ es I P C hI0
    (by
      rintro s e _ hs ⟨⟩
      exact hI s e hs)
    hP0
    (by
      rintro s e _ hs hPs ⟨⟩
      exact hP s e hs hPs)
    (run_some f s₀ es)
  constructor
  · intro h es' e hes
    refine hrun.mp ?_ _ e ⟨es', hes, run_some f s₀ es'⟩
    rintro t ⟨es'', hp, ht⟩
    cases (run_some f s₀ es'').symm.trans ht
    exact h es'' hp
  · intro h es' hes
    refine hrun.mpr ?_ _ ⟨es', hes, run_some f s₀ es'⟩
    rintro t e ⟨es'', hp, ht⟩
    cases (run_some f s₀ es'').symm.trans ht
    exact h es'' e hp

end BouchaudOS.Runs
