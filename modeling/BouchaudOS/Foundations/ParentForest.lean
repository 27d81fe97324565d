import Mathlib

/-!
# Forests given by parent links

A forest is stored as one link per node. `Climbs` follows the links up to a
root through nodes of a given kind; avoiding a node is the case in which that
node is not of the kind. Changing the link of a node keeps the forest as long
as the new parent climbs to the root without meeting that node.
-/

namespace BouchaudOS

variable {α : Type*} {up up' : α → α} {r s c x : α} {P Q : α → Prop}

/-- From `x` the links lead to `r`, and every node met satisfies `P`. -/
inductive Climbs (up : α → α) (r : α) (P : α → Prop) : α → Prop
  | root : P r → Climbs up r P r
  | step {x : α} : P x → Climbs up r P (up x) → Climbs up r P x

namespace Climbs

theorem holds (h : Climbs up r P x) : P x := by
  cases h with
  | root hr => exact hr
  | step hx _ => exact hx

theorem holds_root (h : Climbs up r P x) : P r := by
  induction h with
  | root hr => exact hr
  | step _ _ ih => exact ih

theorem mono (h : Climbs up r P x) (hPQ : ∀ y, P y → Q y) : Climbs up r Q x := by
  induction h with
  | root hr => exact .root (hPQ _ hr)
  | step hx _ ih => exact .step (hPQ _ hx) ih

theorem parent (h : Climbs up r P x) (hr : up r = r) : Climbs up r P (up x) := by
  cases h with
  | root hP =>
    rw [hr]
    exact .root hP
  | step _ h => exact h

theorem congr (h : Climbs up r P x) (he : ∀ y, P y → up' y = up y) : Climbs up' r P x := by
  induction h with
  | root hr => exact .root hr
  | step hx _ ih =>
    refine .step hx ?_
    rwa [he _ hx]

theorem and (hP : Climbs up r P x) (hQ : Climbs up r Q x) : Climbs up r (fun y => P y ∧ Q y) x := by
  induction hP with
  | root hr => exact .root ⟨hr, hQ.holds⟩
  | step hx _ ih =>
    cases hQ with
    | root hr => exact .root ⟨hx, hr⟩
    | step hy hQ => exact .step ⟨hx, hy⟩ (ih hQ)

theorem avoids_or_above (h : Climbs up r P x) (hs : s ≠ r) :
    Climbs up r (fun y => P y ∧ y ≠ s) x ∨ Climbs up r (fun y => P y ∧ y ≠ s) (up s) := by
  induction h with
  | root hr => exact .inl (.root ⟨hr, hs.symm⟩)
  | @step x hx _ ih =>
    rcases ih with ih | ih
    · by_cases hxs : x = s
      · exact .inr (hxs ▸ ih)
      · exact .inl (.step ⟨hx, hxs⟩ ih)
    · exact .inr ih

theorem above (h : Climbs up r P s) (hs : s ≠ r) : Climbs up r (fun y => P y ∧ y ≠ s) (up s) := by
  rcases h.avoids_or_above hs with h | h
  · exact absurd rfl h.holds.2
  · exact h

theorem eq_root_of_fixed (h : Climbs up r P x) (hx : up x = x) : x = r := by
  by_contra hne
  have habove := h.above hne
  rw [hx] at habove
  exact habove.holds.2 rfl

/-- The links of some nodes change, each to a parent that climbs without meeting
any of them: every node still climbs. -/
theorem relink {S : Set α} (he : ∀ y, y ∉ S → up' y = up y)
    (hS : ∀ y ∈ S, Climbs up r (· ∉ S) (up' y)) (h : Climbs up r (fun _ => True) x) :
    Climbs up' r (fun _ => True) x := by
  induction h with
  | root _ => exact .root trivial
  | @step x _ _ ih =>
    refine .step trivial ?_
    by_cases hx : x ∈ S
    · exact ((hS x hx).congr fun y hy => he y hy).mono fun _ _ => trivial
    · rwa [he x hx]

end Climbs

/-- From `x` the links meet `r` for the first time after `k` steps. -/
def Depth (up : α → α) (r : α) (k : ℕ) (x : α) : Prop :=
  up^[k] x = r ∧ ∀ j < k, up^[j] x ≠ r

namespace Depth

variable {k : ℕ}

theorem zero : Depth up r 0 r := ⟨rfl, fun j hj => absurd hj (Nat.not_lt_zero j)⟩

theorem succ (hx : x ≠ r) (h : Depth up r k (up x)) : Depth up r (k + 1) x := by
  refine ⟨h.1, fun j hj => ?_⟩
  cases j with
  | zero => exact hx
  | succ j => exact h.2 j (Nat.lt_of_succ_lt_succ hj)

theorem of_succ (h : Depth up r (k + 1) x) : x ≠ r ∧ Depth up r k (up x) :=
  ⟨h.2 0 (Nat.succ_pos k), h.1, fun j hj => h.2 (j + 1) (Nat.succ_lt_succ hj)⟩

theorem exists_of_iterate (h : up^[k] x = r) : ∃ j, Depth up r j x := by
  induction k generalizing x with
  | zero =>
    cases h
    exact ⟨0, zero⟩
  | succ k ih =>
    obtain ⟨j, hj⟩ := ih h
    by_cases hx : x = r
    · cases hx
      exact ⟨0, zero⟩
    · exact ⟨j + 1, hj.succ hx⟩

theorem unique {k' : ℕ} (h : Depth up r k x) (h' : Depth up r k' x) : k = k' := by
  rcases lt_trichotomy k k' with hlt | heq | hlt
  · exact absurd h.1 (h'.2 k hlt)
  · exact heq
  · exact absurd h'.1 (h.2 k' hlt)

theorem child {y : α} (h : Depth up r k x) (hy : up y = x) (hyr : y ≠ r) : Depth up r (k + 1) y :=
  succ hyr (hy.symm ▸ h)

/-- The nodes met before `r` are all different. -/
theorem lt_card [Fintype α] (h : Depth up r k x) : k < Fintype.card α := by
  have hinj : Function.Injective fun j : Fin (k + 1) => up^[j.val] x := by
    have hlt : ∀ a b : Fin (k + 1), a < b → up^[a.val] x ≠ up^[b.val] x := by
      intro a b hab he
      -- skipping the cycle, `r` would be met too early
      have hcut : up^[k - b.val + a.val] x = r := by
        rw [Function.iterate_add_apply, he, ← Function.iterate_add_apply]
        have : k - b.val + b.val = k := Nat.sub_add_cancel (Nat.le_of_lt_succ b.isLt)
        rw [this]
        exact h.1
      exact h.2 _ (by omega) hcut
    intro a b he
    rcases lt_trichotomy a b with hab | hab | hab
    · exact absurd he (hlt a b hab)
    · exact hab
    · exact absurd he.symm (hlt b a hab)
  have := Fintype.card_le_of_injective _ hinj
  rw [Fintype.card_fin] at this
  omega

end Depth

theorem Climbs.exists_depth (h : Climbs up r P x) : ∃ k, Depth up r k x := by
  induction h with
  | root _ => exact ⟨0, .zero⟩
  | @step x _ _ ih =>
    obtain ⟨k, hk⟩ := ih
    exact Depth.exists_of_iterate (k := k + 1) hk.1

end BouchaudOS
