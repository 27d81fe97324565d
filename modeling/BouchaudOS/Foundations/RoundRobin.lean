import Mathlib

/-!
# Round-robin service

Places `0, …, n - 1` are served in circular order from a cursor, which moves behind
each place that is served. A place that waits has at most `n - 1` places ahead of it,
and each of them is served at most once before it, whatever comes and goes.
-/

namespace BouchaudOS.RoundRobin

/-- How many places come before `x` from the cursor `c`. -/
def ahead (n c x : ℕ) : ℕ := if c ≤ x then x - c else x + n - c

/-- The place behind `e`. -/
def next (n e : ℕ) : ℕ := if e + 1 = n then 0 else e + 1

variable {n c e x y : ℕ}

theorem next_lt (he : e < n) : next n e < n := by
  unfold next
  split <;> omega

theorem ahead_inj (hc : c < n) (he : e < n) (hx : x < n) (h : ahead n c e = ahead n c x) : e = x := by
  unfold ahead at h
  split at h <;> split at h <;> omega

theorem ahead_lt_of_next (hc : c < n) (he : e < n) (hx : x < n) (hy : y < n)
    (h : ahead n c e < ahead n c x) (hnext : ahead n (next n e) y < ahead n (next n e) x) :
    ahead n c y < ahead n c x := by
  unfold ahead next at *
  grind

theorem ahead_next_self (he : e < n) (hx : x < n) : ahead n (next n e) x ≤ ahead n (next n e) e := by
  unfold ahead next
  split <;> split <;> split <;> omega

/-- Services from the cursor `c`, all of places before `x`. -/
inductive Served (n x : ℕ) : ℕ → List ℕ → Prop
  | nil (c : ℕ) : Served n x c []
  | cons {c e : ℕ} {l : List ℕ} : e < n → ahead n c e < ahead n c x → Served n x (next n e) l →
    Served n x c (e :: l)

theorem Served.nodup {l : List ℕ} (h : Served n x c l) (hc : c < n) (hx : x < n) :
    (∀ y ∈ l, y < n ∧ ahead n c y < ahead n c x) ∧ l.Nodup := by
  induction h with
  | nil c => exact ⟨by simp, List.nodup_nil⟩
  | @cons c e l he hlt _ ih =>
    obtain ⟨hall, hnodup⟩ := ih (next_lt he)
    refine ⟨List.forall_mem_cons.mpr ⟨⟨he, hlt⟩, fun y hy => ?_⟩, List.nodup_cons.mpr ⟨?_, hnodup⟩⟩
    · obtain ⟨hyn, hy⟩ := hall y hy
      exact ⟨hyn, ahead_lt_of_next hc he hx hyn hlt hy⟩
    · intro hmem
      exact absurd (hall e hmem).2 (not_lt.mpr (ahead_next_self he hx))

theorem findSome?_range {α : Type*} {f : ℕ → Option α} {m : ℕ} {a : α}
    (h : (List.range m).findSome? f = some a) : ∃ p < m, f p = some a ∧ ∀ q < p, f q = none := by
  induction m with
  | zero => simp at h
  | succ m ih =>
    rw [List.range_succ, List.findSome?_append] at h
    cases hm : (List.range m).findSome? f with
    | some b =>
      rw [hm] at h
      obtain ⟨p, hp, hfp, hq⟩ := ih (hm.trans h)
      exact ⟨p, by omega, hfp, hq⟩
    | none =>
      rw [hm] at h
      refine ⟨m, by omega, by simpa using h, fun q hq => ?_⟩
      exact List.findSome?_eq_none_iff.mp hm q (List.mem_range.mpr hq)

end BouchaudOS.RoundRobin
