import Mathlib

/-!
# Chains through links

A singly linked list is a first node and a link for each node, up to an end mark.
A chain says which nodes are met. Only the links of these nodes matter; a node is
taken out by giving its link to the node before it.
-/

namespace BouchaudOS

open List Function

variable {α : Type*} {nil : α} {next next' : α → α} {first b p : α} {l a : List α}

/-- Following the links from `first` meets the nodes of `l` and then the end mark. -/
def Chain (nil : α) (next : α → α) : α → List α → Prop
  | first, [] => first = nil
  | first, b :: l => first = b ∧ b ≠ nil ∧ Chain nil next (next b) l

namespace Chain

theorem congr (h : Chain nil next first l) (he : ∀ b ∈ l, next' b = next b) : Chain nil next' first l := by
  induction l generalizing first with
  | nil => exact h
  | cons b l ih =>
    obtain ⟨rfl, hb, hl⟩ := h
    refine ⟨rfl, hb, ?_⟩
    rw [he first mem_cons_self]
    exact ih hl fun c hc => he c (mem_cons_of_mem _ hc)

theorem eq_nil_iff (h : Chain nil next first l) : first = nil ↔ l = [] := by
  cases l with
  | nil => exact iff_of_true h rfl
  | cons b l =>
    obtain ⟨rfl, hb, -⟩ := h
    exact iff_of_false hb (cons_ne_nil _ _)

variable [DecidableEq α]

theorem cons (h : Chain nil next first l) (hb : b ≠ nil) (hl : b ∉ l) :
    Chain nil (update next b first) b (b :: l) := by
  refine ⟨rfl, hb, ?_⟩
  rw [update_self]
  exact h.congr fun c hc => update_of_ne (ne_of_mem_of_not_mem hc hl) _ _

/-- The node after `p` is taken out. -/
theorem unlink (h : Chain nil next first (a ++ p :: b :: l)) (hn : (a ++ p :: b :: l).Nodup) :
    Chain nil (update next p (next b)) first (a ++ p :: l) := by
  induction a generalizing first with
  | nil =>
    obtain ⟨rfl, hp, rfl, -, hl⟩ := h
    have hpl : first ∉ l := fun hm =>
      (nodup_cons.mp hn).1 (mem_cons_of_mem _ hm)
    refine ⟨rfl, hp, ?_⟩
    rw [update_self]
    exact hl.congr fun c hc => update_of_ne (ne_of_mem_of_not_mem hc hpl) _ _
  | cons c a ih =>
    obtain ⟨rfl, hc, hl⟩ := h
    obtain ⟨hnot, hn⟩ := nodup_cons.mp hn
    refine ⟨rfl, hc, ?_⟩
    have hcp : first ≠ p := by
      rintro rfl
      exact hnot (mem_append_right _ mem_cons_self)
    rw [update_of_ne hcp]
    exact ih hl hn

end Chain

end BouchaudOS
