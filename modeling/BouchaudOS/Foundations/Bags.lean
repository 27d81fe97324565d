import Mathlib

/-!
# Sums over rows and bags of owned things

A table is a list of rows, each contributing to a sum, and a step changes one row. What a
system owns is a bag without repetition inside a set of what was handed out.
-/

namespace BouchaudOS.Bags

open List

theorem sum_map_set {α M : Type*} [AddCommMonoid M] (f : α → M) {l : List α} {i : ℕ} {a : α}
    (h : l[i]? = some a) (x : α) :
    ((l.set i x).map f).sum + f a = (l.map f).sum + f x := by
  induction l generalizing i with
  | nil => simp at h
  | cons b l ih =>
    cases i with
    | zero =>
      obtain rfl : b = a := by simpa using h
      rw [set_cons_zero, map_cons, sum_cons, map_cons, sum_cons]
      abel
    | succ i =>
      rw [set_cons_succ, map_cons, sum_cons, map_cons, sum_cons, add_assoc, add_assoc, ih (by simpa using h)]

theorem mem_sum_map {α β : Type*} {f : α → Multiset β} {l : List α} {b : β} :
    b ∈ (l.map f).sum ↔ ∃ a ∈ l, b ∈ f a := by
  induction l with
  | nil => simp
  | cons a l ih => simp [ih]

theorem mem_update_concat {α β : Type*} [DecidableEq α] {f : α → List β} {i j : α} {x y : β} :
    x ∈ Function.update f i (f i ++ [y]) j ↔ x ∈ f j ∨ j = i ∧ x = y := by
  rcases eq_or_ne j i with rfl | hj
  · simp
  · simp [hj]

theorem update_subset {α β : Type*} [DecidableEq α] {f : α → List β} {i : α} {l : List β} (h : l ⊆ f i) (j : α) :
    Function.update f i l j ⊆ f j := by
  rcases eq_or_ne j i with rfl | hj
  · simpa using h
  · simp [hj]

/-- Members of the bag that `g` sends to `a`. -/
def tally {α β : Type*} [DecidableEq β] (g : α → Option β) (s : Multiset α) (a : β) : ℕ :=
  s.countP fun x => g x = some a

section

variable {α β : Type*} [DecidableEq β] (g : α → Option β)

@[simp] theorem tally_zero (a : β) : tally g 0 a = 0 := rfl

@[simp] theorem tally_cons (x : α) (s : Multiset α) (a : β) :
    tally g (x ::ₘ s) a = tally g s a + if g x = some a then 1 else 0 := by
  rw [tally, tally, Multiset.countP_cons]

theorem tally_pos {s : Multiset α} {x : α} {a : β} (hx : x ∈ s) (hg : g x = some a) : 0 < tally g s a :=
  Multiset.countP_pos.mpr ⟨x, hx, hg⟩

end

/-- The bag has no repetition and stays inside what was handed out. -/
structure Owns {α : Type*} (bag : Multiset α) (given : Finset α) : Prop where
  nodup : bag.Nodup
  mem : ∀ a ∈ bag, a ∈ given

namespace Owns

variable {α : Type*} [DecidableEq α] {bag : Multiset α} {given : Finset α} {a : α}

theorem give (h : Owns bag given) (ha : a ∉ given) : Owns (a ::ₘ bag) (insert a given) := by
  constructor
  · exact Multiset.nodup_cons.mpr ⟨fun hm => ha (h.mem a hm), h.nodup⟩
  · intro b hb
    rcases Multiset.mem_cons.mp hb with rfl | hb
    · exact Finset.mem_insert_self b given
    · exact Finset.mem_insert_of_mem (h.mem b hb)

theorem take (h : Owns (a ::ₘ bag) given) : Owns bag (given.erase a) := by
  obtain ⟨ha, hbag⟩ := Multiset.nodup_cons.mp h.nodup
  refine ⟨hbag, ?_⟩
  intro b hb
  apply Finset.mem_erase_of_ne_of_mem
  · rintro rfl
    exact ha hb
  · exact h.mem b (Multiset.mem_cons_of_mem hb)

end Owns

end BouchaudOS.Bags
