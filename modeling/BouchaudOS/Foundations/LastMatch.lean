import Mathlib

/-!
# Lists searched from the end

A list of overlapping pieces gives at each point the last piece that matches
there. Replacing every piece by some pieces, in place, changes what is found at
a point as it changes the pieces, one by one. A sweep of sorted intervals decides
whether they cover a range.
-/

namespace BouchaudOS

open List

variable {α β : Type*} {p : α → Bool} {q : β → Bool} {R : α → β → Prop}

section

variable (p : α → Bool)

/-- The last element that satisfies `p`. -/
def lastMatch (l : List α) : Option α := l.reverse.find? p

theorem lastMatch_append (l l' : List α) : lastMatch p (l ++ l') = (lastMatch p l').or (lastMatch p l) := by
  unfold lastMatch
  rw [reverse_append, find?_append]

@[simp] theorem lastMatch_nil : lastMatch p [] = none := rfl

theorem lastMatch_singleton (a : α) : lastMatch p [a] = if p a then some a else none := by
  cases h : p a <;> simp [lastMatch, h]

theorem lastMatch_guard {p : α → Bool} {c d : Prop} [Decidable c] [Decidable d] {a : α} (h : c ∧ p a ↔ d) :
    lastMatch p (if c then [a] else []) = if d then some a else none := by
  rw [← if_congr h rfl rfl]
  by_cases hc : c <;> simp [hc, lastMatch_singleton]

theorem lastMatch_concat (l : List α) (a : α) :
    lastMatch p (l ++ [a]) = if p a then some a else lastMatch p l := by
  rw [lastMatch_append, lastMatch_singleton]
  cases p a <;> rfl

end

variable {l : List α}

theorem lastMatch_eq_none : lastMatch p l = none ↔ ∀ a ∈ l, ¬p a := by
  simp [lastMatch]

theorem mem_of_lastMatch {a : α} (h : lastMatch p l = some a) : a ∈ l ∧ p a := by
  refine ⟨?_, find?_some h⟩
  exact mem_reverse.mp (mem_of_find?_eq_some h)

/-- Each piece is replaced by some pieces: what is found is related as the piece
found is to its own replacement. -/
theorem lastMatch_flatten {fs : List (List β)}
    (h : List.Forall₂ (fun a f => Option.Rel R (if p a then some a else none) (lastMatch q f)) l fs) :
    Option.Rel R (lastMatch p l) (lastMatch q fs.flatten) := by
  induction h with
  | nil => exact .none
  | @cons a f l fs ha _ ih =>
    rw [← singleton_append, lastMatch_append, lastMatch_singleton, flatten_cons, lastMatch_append]
    revert ih
    generalize lastMatch p l = x
    generalize lastMatch q fs.flatten = y
    intro ih
    cases ih with
    | none => exact ha
    | some hR => exact .some hR

section

variable {γ : Type*} [LinearOrder γ]

/-- Follow sorted intervals from a cursor on, up to `stop`. -/
def sweep (stop : γ) : γ → List (γ × γ) → Bool
  | _, [] => false
  | cursor, (start, fin) :: spans =>
    if cursor < start then false
    else if stop ≤ max cursor fin then true
    else sweep stop (max cursor fin) spans

variable {stop cursor : γ} {spans : List (γ × γ)}

theorem exists_of_sweep {x : γ} (h : sweep stop cursor spans = true)
    (hx : cursor ≤ x) (hx' : x < stop) : ∃ s ∈ spans, s.1 ≤ x ∧ x < s.2 := by
  induction spans generalizing cursor with
  | nil => cases h
  | cons s spans ih =>
    obtain ⟨start, fin⟩ := s
    rw [sweep] at h
    split at h
    · cases h
    · rename_i hstart
      by_cases hfin : x < fin
      · exact ⟨_, mem_cons_self, (not_lt.mp hstart).trans hx, hfin⟩
      · have hmax : max cursor fin ≤ x := max_le hx (not_lt.mp hfin)
        rw [if_neg (not_le.mpr (hmax.trans_lt hx'))] at h
        obtain ⟨s, hs, hsx⟩ := ih h hmax
        exact ⟨s, mem_cons_of_mem _ hs, hsx⟩

theorem sweep_of_forall (hsort : spans.Pairwise fun a b => a.1 ≤ b.1) (hlt : cursor < stop)
    (h : ∀ x, cursor ≤ x → x < stop → ∃ s ∈ spans, s.1 ≤ x ∧ x < s.2) :
    sweep stop cursor spans = true := by
  induction spans generalizing cursor with
  | nil =>
    obtain ⟨s, hs, -⟩ := h cursor le_rfl hlt
    cases hs
  | cons s spans ih =>
    obtain ⟨start, fin⟩ := s
    rw [pairwise_cons] at hsort
    have hstart : ¬cursor < start := by
      intro hc
      obtain ⟨s, hs, hle, -⟩ := h cursor le_rfl hlt
      rcases mem_cons.mp hs with rfl | hs
      · exact absurd hle (not_le.mpr hc)
      · exact absurd (hle.trans_lt hc) (not_lt.mpr (hsort.1 s hs))
    rw [sweep, if_neg hstart]
    split
    · rfl
    · rename_i hstop
      refine ih hsort.2 (not_le.mp hstop) fun x hx hx' => ?_
      obtain ⟨s, hs, hsx⟩ := h x ((le_max_left _ _).trans hx) hx'
      rcases mem_cons.mp hs with rfl | hs
      · exact absurd hsx.2 (not_lt.mpr ((le_max_right _ _).trans hx))
      · exact ⟨s, hs, hsx⟩

end

end BouchaudOS
