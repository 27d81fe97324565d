import Mathlib

/-!
# Two copies of a versioned record

A record kept in two places, each readable or not, carries a version number;
the newest readable copy is the current one. An update overwrites one copy. It
is safe to interrupt as long as the copy it does not touch holds the current
record: `Guards` states exactly that, and the lemmas say which record is
current after the overwritten copy was lost, replaced by a newer record, or
replaced by one that compares older.
-/
namespace BouchaudOS.VersionedPair

open Function Option

instance neZero_two : NeZero 2 := ⟨two_ne_zero⟩

variable {ρ : Type*} (key : ρ → ℕ)

/-- The readable copy with the highest version; the first one on a tie. -/
def newest (p : Fin 2 → Option ρ) : Option ρ :=
  match p 0, p 1 with
  | some x, some y => some (if key x < key y then y else x)
  | some x, none => some x
  | none, some y => some y
  | none, none => none

/-- The copy to overwrite: an unreadable one, else the older one. -/
def stale (p : Fin 2 → Option ρ) : Fin 2 :=
  match p 0, p 1 with
  | some x, some y => if key x ≤ key y then 0 else 1
  | some _, none => 1
  | _, _ => 0

/-- `r` is current, and the copy other than `t` holds it. -/
structure Guards (p : Fin 2 → Option ρ) (t : Fin 2) (r : ρ) : Prop where
  other : p (1 - t) = some r
  current : newest key p = some r

/-- Two readable copies of one version are the same record. -/
def Consistent (p : Fin 2 → Option ρ) : Prop :=
  ∀ x y, p 0 = some x → p 1 = some y → key x = key y → x = y

variable {key} {p : Fin 2 → Option ρ} {t : Fin 2} {r n : ρ}

theorem eq_update_of_eq {q : Fin 2 → Option ρ} {x : Option ρ} (ht : q t = x)
    (ho : q (1 - t) = p (1 - t)) : q = Function.update p t x := by
  funext i
  have hi : i = t ∨ i = 1 - t := by omega
  rcases hi with rfl | rfl
  · rw [update_self, ht]
  · rw [update_of_ne (by omega), ho]

theorem eq_none_of_newest (h : newest key p = none) (i : Fin 2) : p i = none := by
  have hi : i = 0 ∨ i = 1 := by omega
  cases h0 : p 0 <;> cases h1 : p 1 <;> simp only [newest, h0, h1] at h
  · rcases hi with rfl | rfl
    · exact h0
    · exact h1
  all_goals cases h

theorem mem_of_newest (h : newest key p = some r) : ∃ i, p i = some r := by
  unfold newest at h
  split at h
  · split_ifs at h
    · exact ⟨1, by simp_all⟩
    · exact ⟨0, by simp_all⟩
  · exact ⟨0, by simp_all⟩
  · exact ⟨1, by simp_all⟩
  · cases h

theorem key_le_of_newest (h : newest key p = some r) (i : Fin 2) {x : ρ} (hx : p i = some x) :
    key x ≤ key r := by
  have hi : i = 0 ∨ i = 1 := by omega
  cases h0 : p 0 with
  | none =>
    rcases hi with rfl | rfl
    · rw [h0] at hx
      cases hx
    · have hr : r = x := by simpa [newest, h0, hx] using h.symm
      rw [hr]
  | some a =>
    cases h1 : p 1 with
    | none =>
      rcases hi with rfl | rfl
      · have hr : r = x := by simpa [newest, hx, h1] using h.symm
        rw [hr]
      · rw [h1] at hx
        cases hx
    | some b =>
      have hr : r = if key a < key b then b else a := by simpa [newest, h0, h1] using h.symm
      rcases hi with rfl | rfl
      · rw [h0, some.injEq] at hx
        subst hx hr
        split_ifs with hlt
        · exact hlt.le
        · exact le_rfl
      · rw [h1, some.injEq] at hx
        subst hx hr
        split_ifs with hlt
        · exact le_rfl
        · exact not_lt.mp hlt

theorem key_kept (h : newest key p = some r) {z : ρ} (hz : p (1 - stale key p) = some z) : key z = key r := by
  cases h0 : p 0 with
  | none =>
    cases h1 : p 1 with
    | none => simp [newest, h0, h1] at h
    | some y =>
      have hy : z = y := by simpa [stale, h0, h1] using hz.symm
      have hr : r = y := by simpa [newest, h0, h1] using h.symm
      rw [hy, hr]
  | some x =>
    cases h1 : p 1 with
    | none =>
      have hx : z = x := by simpa [stale, h0, h1] using hz.symm
      have hr : r = x := by simpa [newest, h0, h1] using h.symm
      rw [hx, hr]
    | some y =>
      simp only [newest, h0, h1, some.injEq] at h
      have hs : stale key p = if key x ≤ key y then 0 else 1 := by simp [stale, h0, h1]
      by_cases hle : key x ≤ key y
      · rw [hs, if_pos hle, sub_zero, h1, some.injEq] at hz
        subst hz h
        split_ifs <;> omega
      · rw [hs, if_neg hle, sub_self, h0, some.injEq] at hz
        subst hz h
        rw [if_neg (by omega)]

/-- Writing a record newer than the current one makes it current, whichever
copy receives it. -/
theorem newest_update_newer (h : ∀ r, newest key p = some r → key r < key n) (t : Fin 2) :
    newest key (Function.update p t (some n)) = some n := by
  have hlt : ∀ i x, p i = some x → key x < key n := by
    intro i x hx
    cases hr : newest key p with
    | none => simp [eq_none_of_newest hr i] at hx
    | some r => exact (key_le_of_newest hr i hx).trans_lt (h r hr)
  have ht : t = 0 ∨ t = 1 := by omega
  rcases ht with rfl | rfl
  · cases h1 : p 1 with
    | none => simp [newest, h1]
    | some y =>
      have := hlt 1 y h1
      simp [newest, h1]
      omega
  · cases h0 : p 0 with
    | none => simp [newest, h0]
    | some x =>
      have := hlt 0 x h0
      simp [newest, h0]
      omega

theorem Guards.newest_update_none (h : Guards key p t r) :
    newest key (Function.update p t none) = some r := by
  have ho := h.other
  have ht : t = 0 ∨ t = 1 := by omega
  rcases ht with rfl | rfl
  · have h1 : p 1 = some r := by simpa using ho
    simp [newest, h1]
  · have h0 : p 0 = some r := by simpa using ho
    simp [newest, h0]

/-- A record that compares older than the kept one stays unselected. -/
theorem newest_update_of_lt (ho : p (1 - t) = some r) (hn : key n < key r) :
    newest key (Function.update p t (some n)) = some r := by
  have ht : t = 0 ∨ t = 1 := by omega
  rcases ht with rfl | rfl
  · have h1 : p 1 = some r := by simpa using ho
    simp [newest, h1, hn]
  · have h0 : p 0 = some r := by simpa using ho
    simp [newest, h0]
    omega

theorem Consistent.guards_stale (hc : Consistent key p) (h : newest key p = some r) :
    Guards key p (stale key p) r := by
  refine ⟨?_, h⟩
  cases h0 : p 0 with
  | none =>
    cases h1 : p 1 with
    | none => simp [newest, h0, h1] at h
    | some y => simpa [newest, stale, h0, h1] using h
  | some x =>
    cases h1 : p 1 with
    | none => simpa [newest, stale, h0, h1] using h
    | some y =>
      simp only [newest, h0, h1, some.injEq] at h
      rcases lt_trichotomy (key x) (key y) with hlt | heq | hgt
      · simp [stale, h0, h1, hlt.le, ← h, hlt]
      · have hxy := hc x y h0 h1 heq
        subst hxy
        simp [stale, h0, h1, ← h]
      · simp [stale, h0, h1, ← h, not_le.mpr hgt, hgt.le]

theorem Consistent.update_none (p : Fin 2 → Option ρ) (t : Fin 2) :
    Consistent key (Function.update p t none) := by
  have ht : t = 0 ∨ t = 1 := by omega
  intro x y hx hy _
  rcases ht with rfl | rfl
  · simp at hx
  · simp at hy

theorem Consistent.update_some (h : ∀ x, p (1 - t) = some x → key x ≠ key n) :
    Consistent key (Function.update p t (some n)) := by
  have ht : t = 0 ∨ t = 1 := by omega
  intro x y hx hy he
  rcases ht with rfl | rfl
  · simp only [update_self, some.injEq] at hx
    exact absurd (hx ▸ he).symm (h y (by simpa using hy))
  · simp only [update_self, some.injEq] at hy
    exact absurd (hy ▸ he) (h x (by simpa using hx))

end BouchaudOS.VersionedPair
