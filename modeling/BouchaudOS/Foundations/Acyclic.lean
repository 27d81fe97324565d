import Mathlib

/-!
# Acyclic relations

A relation read as a graph of references. Edges that start at one node close a cycle
exactly when one of them leads back to the node; edges out of a node that nothing points
to close none. In a graph without cycles a finite set of nodes, each pointed to from the
set, is empty: nothing finite keeps itself alive.
-/

namespace BouchaudOS

open Relation

variable {α : Type*} {r r' : α → α → Prop} {x : α}

def Acyclic (r : α → α → Prop) : Prop := ∀ a, ¬ TransGen r a a

namespace Acyclic

theorem reflTransGen_cases {T : α → Prop} (hr : ∀ a b, r' a b → r a b ∨ a = x ∧ T b) {a b : α}
    (h : ReflTransGen r' a b) :
    ReflTransGen r a b ∨ ReflTransGen r a x ∧ ∃ t, T t ∧ ReflTransGen r t b := by
  induction h with
  | refl => exact .inl .refl
  | tail _ hedge ih =>
    rcases hr _ _ hedge with hold | ⟨rfl, ht⟩
    · rcases ih with hab | ⟨hax, t, ht, htb⟩
      · exact .inl (hab.tail hold)
      · exact .inr ⟨hax, t, ht, htb.tail hold⟩
    · rcases ih with hax | ⟨hax, -⟩ <;> exact .inr ⟨hax, _, ht, .refl⟩

theorem iff_of_edges_from {T : α → Prop} (hr : ∀ a b, r' a b ↔ r a b ∨ a = x ∧ T b)
    (h : Acyclic r) : Acyclic r' ↔ ∀ t, T t → ¬ ReflTransGen r t x := by
  constructor
  · intro h' t ht hpath
    have hback : ReflTransGen r' t x :=
      ReflTransGen.mono (fun a b hab => (hr a b).mpr (.inl hab)) t x hpath
    exact h' x (.head' ((hr x t).mpr (.inr ⟨rfl, ht⟩)) hback)
  · intro hT a ha
    obtain ⟨c, hac, hca⟩ := TransGen.head'_iff.mp ha
    rcases (hr a c).mp hac with hold | ⟨rfl, hc⟩
    · rcases reflTransGen_cases (fun a b => (hr a b).mp) hca with hback | ⟨hcx, t, ht, hta⟩
      · exact h a (.head' hold hback)
      · exact hT t ht ((hta.tail hold).trans hcx)
    · rcases reflTransGen_cases (fun a b => (hr a b).mp) hca with hback | ⟨hcx, -⟩
      · exact hT c hc hback
      · exact hT c hc hcx

theorem of_unreferenced {F : α → Prop} (hr : ∀ a b, r' a b → r a b ∨ F a)
    (hF : ∀ a b, F b → ¬ r' a b) (h : Acyclic r) : Acyclic r' := by
  have hold : ∀ {a b}, ¬ F a → r' a b → r a b := fun ha hab => (hr _ _ hab).resolve_right ha
  have hpath : ∀ {a b}, ¬ F a → TransGen r' a b → TransGen r a b := by
    intro a b ha hab
    induction hab with
    | single hedge => exact .single (hold ha hedge)
    | tail hab hedge ih =>
      obtain ⟨_, -, hlast⟩ := TransGen.tail'_iff.mp hab
      exact ih.tail (hold (fun hb => hF _ _ hb hlast) hedge)
  intro a ha
  obtain ⟨_, -, hlast⟩ := TransGen.tail'_iff.mp ha
  exact h a (hpath (fun hFa => hF _ _ hFa hlast) ha)

theorem eq_empty_of_referenced (h : Acyclic r) {S : Set α} (hfin : S.Finite)
    (hS : ∀ b ∈ S, ∃ a ∈ S, r a b) : S = ∅ := by
  by_contra hne
  have : IsStrictOrder α (TransGen r) :=
    { irrefl := h, trans := fun _ _ _ => TransGen.trans }
  have hwf : S.WellFoundedOn (TransGen r) := hfin.wellFoundedOn
  obtain ⟨b, hb⟩ := Set.nonempty_iff_ne_empty.mpr hne
  -- backwards along the references, which cannot go on for ever
  apply hwf.induction hb (P := fun _ => False)
  intro b hb ih
  obtain ⟨a, ha, hab⟩ := hS b hb
  exact ih a ha (.single hab)

end Acyclic

end BouchaudOS
