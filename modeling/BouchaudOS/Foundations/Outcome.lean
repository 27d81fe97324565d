import Mathlib

/-!
# Computations that are refused or go wrong

A computation gives a value, is refused with an error that the program reports, or
meets a fault: something the program must never do. A walk over a list stops at the
first element that does not give a value; an element is reached when every element
before it was accepted.
-/

namespace BouchaudOS

open List

inductive Outcome (ε φ α : Type)
  | ok (a : α)
  | err (e : ε)
  | fault (f : φ)
  deriving DecidableEq

namespace Outcome

variable {ε φ α β σ : Type}

instance : Monad (Outcome ε φ) where
  pure := .ok
  bind x g := match x with
    | .ok a => g a
    | .err e => .err e
    | .fault f => .fault f

def Safe (x : Outcome ε φ α) : Prop := ∀ f, x ≠ .fault f

def fault? : Outcome ε φ α → Option φ
  | .fault f => some f
  | _ => none

def refuse (p : Prop) [Decidable p] (e : ε) : Outcome ε φ Unit := if p then .err e else .ok ()

def require (p : Prop) [Decidable p] (f : φ) : Outcome ε φ Unit := if p then .ok () else .fault f

def ofOption (e : ε) : Option α → Outcome ε φ α
  | some a => .ok a
  | none => .err e

section

variable {x : Outcome ε φ α} {g : α → Outcome ε φ β} {a : α} {b : β} {e : ε} {f : φ} {p : Prop}
  [Decidable p] {o : Option α}

@[simp] theorem pure_eq_ok : (pure a : Outcome ε φ α) = .ok a := rfl

@[simp] theorem ok_bind : (.ok a >>= g : Outcome ε φ β) = g a := rfl

@[simp] theorem err_bind : (.err e >>= g : Outcome ε φ β) = .err e := rfl

@[simp] theorem fault_bind : (.fault f >>= g : Outcome ε φ β) = .fault f := rfl

@[simp] theorem safe_ok : (.ok a : Outcome ε φ α).Safe := fun _ h => nomatch h

@[simp] theorem safe_err : (.err e : Outcome ε φ α).Safe := fun _ h => nomatch h

@[simp] theorem not_safe_fault : ¬(.fault f : Outcome ε φ α).Safe := fun h => h f rfl

theorem fault?_eq_some : x.fault? = some f ↔ x = .fault f := by
  cases x <;> simp [fault?]

theorem bind_eq_ok : x >>= g = .ok b ↔ ∃ a, x = .ok a ∧ g a = .ok b := by
  cases x with
  | ok a => simp
  | err e => simp
  | fault f => simp

theorem safe_bind : (x >>= g).Safe ↔ x.Safe ∧ ∀ a, x = .ok a → (g a).Safe := by
  cases x with
  | ok a => simp
  | err e => simp
  | fault f => simp

@[simp] theorem refuse_eq_ok {u : Unit} : (refuse p e : Outcome ε φ Unit) = .ok u ↔ ¬p := by
  unfold refuse
  split <;> simp_all

@[simp] theorem safe_refuse : (refuse p e : Outcome ε φ Unit).Safe := by
  unfold refuse
  split
  · exact safe_err
  · exact safe_ok

@[simp] theorem require_eq_ok {u : Unit} : (require p f : Outcome ε φ Unit) = .ok u ↔ p := by
  unfold require
  split <;> simp_all

@[simp] theorem safe_require : (require p f : Outcome ε φ Unit).Safe ↔ p := by
  unfold require
  split <;> simp_all

@[simp] theorem ofOption_some : (ofOption e (some a) : Outcome ε φ α) = .ok a := rfl

@[simp] theorem ofOption_eq_ok : (ofOption e o : Outcome ε φ α) = .ok a ↔ o = some a := by
  cases o <;> simp [ofOption]

@[simp] theorem safe_ofOption : (ofOption e o : Outcome ε φ α).Safe := by
  cases o with
  | none => exact safe_err
  | some a => exact safe_ok

end

/-- Everything before an occurrence of the element was accepted. -/
def Reached (A : α → Prop) (l : List α) (a : α) : Prop :=
  ∃ pre post, l = pre ++ a :: post ∧ ∀ b ∈ pre, A b

variable {A C : α → Prop} {I : σ → Prop} {step : σ → α → Outcome ε φ σ} {l : List α} {s s' : σ} {a b : α}

theorem not_reached_nil : ¬Reached A [] a := by
  rintro ⟨pre, post, h, -⟩
  cases pre <;> cases h

theorem reached_cons : Reached A (b :: l) a ↔ a = b ∨ A b ∧ Reached A l a := by
  constructor
  · rintro ⟨pre, post, h, hpre⟩
    cases pre with
    | nil =>
      cases h
      exact .inl rfl
    | cons c pre =>
      cases h
      exact .inr ⟨hpre b mem_cons_self, pre, post, rfl, fun d hd => hpre d (mem_cons_of_mem _ hd)⟩
  · rintro (rfl | ⟨hb, pre, post, rfl, hpre⟩)
    · exact ⟨[], l, rfl, fun _ h => nomatch h⟩
    · refine ⟨b :: pre, post, rfl, fun d hd => ?_⟩
      rcases mem_cons.mp hd with rfl | hd
      · exact hb
      · exact hpre d hd

theorem Reached.mem (h : Reached A l a) : a ∈ l := by
  obtain ⟨pre, post, rfl, -⟩ := h
  simp

theorem reached_of_forall (h : ∀ b ∈ l, A b) (ha : a ∈ l) : Reached A l a := by
  obtain ⟨pre, post, rfl⟩ := append_of_mem ha
  exact ⟨pre, post, rfl, fun b hb => h b (mem_append_left _ hb)⟩

theorem Reached.of_range {A : ℕ → Prop} {n i j : ℕ} (h : Reached A (List.range n) i) (hj : j < i) : A j := by
  obtain ⟨pre, post, heq, hpre⟩ := h
  have hlt : pre.length < n := by
    have hlen := congrArg List.length heq
    simp at hlen
    omega
  have hget : (List.range n)[pre.length]? = some i := by
    rw [heq]
    simp
  have hi : pre.length = i := by simpa [hlt] using hget
  have htake := congrArg (List.take pre.length) heq
  rw [take_left, take_range] at htake
  apply hpre
  rw [← htake, hi, mem_range]
  omega

theorem foldlM_invariant (hstep : ∀ s a s', a ∈ l → I s → step s a = .ok s' → I s') (hs : I s)
    (h : l.foldlM step s = .ok s') : I s' := by
  induction l generalizing s with
  | nil =>
    cases h
    exact hs
  | cons a l ih =>
    obtain ⟨t, ht, h⟩ := bind_eq_ok.mp h
    exact ih (fun s b s' hb => hstep s b s' (mem_cons_of_mem _ hb)) (hstep s a t mem_cons_self hs ht) h

theorem foldl_of_foldlM {τ : Type} (view : σ → τ) (g : τ → α → τ)
    (hstep : ∀ s a s', a ∈ l → step s a = .ok s' → view s' = g (view s) a)
    (h : l.foldlM step s = .ok s') : view s' = l.foldl g (view s) := by
  induction l generalizing s with
  | nil =>
    cases h
    rfl
  | cons a l ih =>
    obtain ⟨t, ht, h⟩ := bind_eq_ok.mp h
    rw [foldl_cons, ← hstep s a t mem_cons_self ht]
    exact ih (fun s b s' hb => hstep s b s' (mem_cons_of_mem _ hb)) h

theorem forall_of_foldlM (hstep : ∀ s a s', a ∈ l → step s a = .ok s' → A a)
    (h : l.foldlM step s = .ok s') : ∀ a ∈ l, A a := by
  induction l generalizing s with
  | nil => exact fun _ h => nomatch h
  | cons b l ih =>
    obtain ⟨t, ht, h⟩ := bind_eq_ok.mp h
    intro a ha
    rcases mem_cons.mp ha with rfl | ha
    · exact hstep s a t mem_cons_self ht
    · exact ih (fun s b s' hb => hstep s b s' (mem_cons_of_mem _ hb)) h a ha

theorem safe_foldlM (hsafe : ∀ s a, a ∈ l → C a → (step s a).Safe)
    (hacc : ∀ s a s', a ∈ l → step s a = .ok s' → A a) (h : ∀ a, Reached A l a → C a) :
    (l.foldlM step s).Safe := by
  induction l generalizing s with
  | nil => exact safe_ok
  | cons b l ih =>
    rw [foldlM_cons, safe_bind]
    refine ⟨hsafe s b mem_cons_self (h b (reached_cons.mpr (.inl rfl))), fun t ht => ?_⟩
    have hb := hacc s b t mem_cons_self ht
    exact ih (fun s a ha => hsafe s a (mem_cons_of_mem _ ha))
      (fun s a s' ha => hacc s a s' (mem_cons_of_mem _ ha))
      fun a ha => h a (reached_cons.mpr (.inr ⟨hb, ha⟩))

theorem exists_foldlM_ok (hstep : ∀ s a, a ∈ l → I s → ∃ s', step s a = .ok s' ∧ I s') (hs : I s) :
    ∃ s', l.foldlM step s = .ok s' ∧ I s' := by
  induction l generalizing s with
  | nil => exact ⟨s, rfl, hs⟩
  | cons b l ih =>
    obtain ⟨t, ht, hI⟩ := hstep s b mem_cons_self hs
    obtain ⟨s', hs', hI'⟩ := ih (fun s a ha => hstep s a (mem_cons_of_mem _ ha)) hI
    refine ⟨s', ?_, hI'⟩
    rw [foldlM_cons, ht]
    exact hs'

/-- Conversely, when what is accepted does not stop the walk, every element that it
reaches is without fault. -/
theorem of_safe_foldlM (hsafe : ∀ s a, a ∈ l → I s → (step s a).Safe → C a)
    (hacc : ∀ s a, a ∈ l → I s → C a → A a → ∃ s', step s a = .ok s' ∧ I s') (hs : I s)
    (h : (l.foldlM step s).Safe) : ∀ a, Reached A l a → C a := by
  induction l generalizing s with
  | nil => exact fun a ha => absurd ha not_reached_nil
  | cons b l ih =>
    rw [foldlM_cons, safe_bind] at h
    have hb := hsafe s b mem_cons_self hs h.1
    intro a ha
    rcases reached_cons.mp ha with rfl | ⟨hA, ha⟩
    · exact hb
    · obtain ⟨t, ht, hI⟩ := hacc s b mem_cons_self hs hb hA
      exact ih (fun s a ha => hsafe s a (mem_cons_of_mem _ ha))
        (fun s a ha => hacc s a (mem_cons_of_mem _ ha)) hI (h.2 t ht) a ha

end Outcome

end BouchaudOS
