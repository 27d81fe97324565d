import Mathlib

/-!
# Aligned blocks and the maximal ones of a set

A block of order `k` is an aligned run of `2 ^ k` numbers; `head k x` is the one
that holds `x`. The maximal full blocks of a set are determined by the set. Taking
a maximal block out of the set takes it out of them and changes nothing else;
adding a block whose twin is not one of them adds it and changes nothing else.
-/

namespace BouchaudOS.DyadicBlock

/-- The first number of the block of order `k` that holds `x`. -/
def head (k x : ℕ) : ℕ := x / 2 ^ k * 2 ^ k

def block (k b : ℕ) : Set ℕ := {x | head k x = b}

def twin (k b : ℕ) : ℕ := b ^^^ 2 ^ k

variable {F : Set ℕ} {b c j k n x top : ℕ}

theorem dvd_head (k x : ℕ) : 2 ^ k ∣ head k x := Nat.dvd_mul_left _ _

theorem head_of_dvd (h : 2 ^ k ∣ b) : head k b = b := Nat.div_mul_cancel h

theorem mem_block_self (h : 2 ^ k ∣ b) : b ∈ block k b := head_of_dvd h

theorem mem_block_iff (h : 2 ^ k ∣ b) : x ∈ block k b ↔ b ≤ x ∧ x < b + 2 ^ k := by
  obtain ⟨q, rfl⟩ := h
  rw [Nat.mul_comm (2 ^ k) q]
  constructor
  · intro hx
    have hx' : x / 2 ^ k * 2 ^ k = q * 2 ^ k := hx
    have hdm := Nat.div_add_mod x (2 ^ k)
    rw [Nat.mul_comm, hx'] at hdm
    omega
  · rintro ⟨h1, h2⟩
    have hdiv : x / 2 ^ k = q := by
      apply Nat.div_eq_of_lt_le
      · exact h1
      · rw [Nat.succ_mul]
        exact h2
    show x / 2 ^ k * 2 ^ k = q * 2 ^ k
    rw [hdiv]

theorem head_head (h : j ≤ k) (x : ℕ) : head k (head j x) = head k x := by
  obtain ⟨i, rfl⟩ := Nat.exists_eq_add_of_le h
  unfold head
  rw [Nat.pow_add, ← Nat.div_div_eq_div_mul, ← Nat.div_div_eq_div_mul,
    Nat.mul_div_cancel _ (Nat.two_pow_pos j)]

theorem twin_mul (k q : ℕ) : twin k (2 ^ k * q) = (q ^^^ 1) * 2 ^ k := by
  rw [twin, Nat.mul_comm, ← Nat.shiftLeft_eq, ← Nat.shiftLeft_eq, Nat.shiftLeft_xor_distrib,
    Nat.one_shiftLeft]

theorem head_succ_eq_iff (h : 2 ^ k ∣ b) :
    head (k + 1) x = head (k + 1) b ↔ head k x = b ∨ head k x = twin k b := by
  have hpos : 0 < 2 ^ k := Nat.two_pow_pos k
  obtain ⟨q, rfl⟩ := h
  have hsucc : ∀ y, head (k + 1) y = y / 2 ^ k / 2 * 2 ^ (k + 1) := by
    intro y
    rw [head, Nat.pow_succ, Nat.div_div_eq_div_mul]
  have hdiv : (q ^^^ 1) / 2 = q / 2 := by
    rw [Nat.xor_div_two]
    simp
  have hmod : (q ^^^ 1) % 2 = (q + 1) % 2 := Nat.xor_mod_two_eq
  rw [hsucc, hsucc, twin_mul, Nat.mul_comm (2 ^ k) q, Nat.mul_div_cancel _ hpos,
    Nat.mul_left_inj (Nat.two_pow_pos _).ne']
  unfold head
  rw [Nat.mul_left_inj hpos.ne', Nat.mul_left_inj hpos.ne']
  omega

theorem dvd_twin (h : 2 ^ k ∣ b) : 2 ^ k ∣ twin k b := by
  obtain ⟨q, rfl⟩ := h
  rw [twin_mul]
  exact Nat.dvd_mul_left _ _

theorem head_twin (h : 2 ^ k ∣ b) : head (k + 1) (twin k b) = head (k + 1) b :=
  (head_succ_eq_iff h).mpr (.inr (head_of_dvd (dvd_twin h)))

theorem twin_ne (k b : ℕ) : twin k b ≠ b := by
  intro h
  have h0 := congrArg (· ^^^ b) h
  simp only [twin, Nat.xor_self] at h0
  rw [Nat.xor_comm b, Nat.xor_assoc, Nat.xor_self, Nat.xor_zero] at h0
  exact (Nat.two_pow_pos k).ne' h0

theorem block_succ (h : 2 ^ k ∣ b) : block (k + 1) (head (k + 1) b) = block k b ∪ block k (twin k b) :=
  Set.ext fun _ => head_succ_eq_iff h

theorem twin_twin (k b : ℕ) : twin k (twin k b) = b := by
  rw [twin, twin, Nat.xor_assoc, Nat.xor_self, Nat.xor_zero]

theorem twin_of_dvd (h : 2 ^ (k + 1) ∣ b) : twin k b = b + 2 ^ k := by
  obtain ⟨q, rfl⟩ := h
  have hq : 2 * q ^^^ 1 = 2 * q + 1 := by
    have hdiv : (2 * q ^^^ 1) / 2 = q := by
      rw [Nat.xor_div_two]
      simp
    have hmod : (2 * q ^^^ 1) % 2 = (2 * q + 1) % 2 := Nat.xor_mod_two_eq
    omega
  rw [Nat.pow_succ, Nat.mul_assoc, twin_mul, hq, Nat.succ_mul, Nat.mul_comm]

theorem notMem_block_twin (h : x ∈ block k b) : x ∉ block k (twin k b) := by
  intro h'
  exact twin_ne k b ((show head k x = twin k b from h').symm.trans h)

theorem block_subset_of_le (hb : 2 ^ k ∣ b) (hj : j ≤ k) : block j b ⊆ block k b := by
  intro x hx
  show head k x = b
  rw [← head_head hj x, show head j x = b from hx, head_of_dvd hb]

theorem forall_mem_block_lt (h : 2 ^ k ∣ b) : (∀ x ∈ block k b, x < n) ↔ b + 2 ^ k ≤ n := by
  constructor
  · intro hall
    have hlast := hall (b + 2 ^ k - 1) ((mem_block_iff h).mpr (by omega))
    omega
  · intro hle x hx
    have := (mem_block_iff h).mp hx
    omega

def Full (F : Set ℕ) (k b : ℕ) : Prop := block k b ⊆ F

theorem Full.of_le (h : Full F k (head k x)) (hj : j ≤ k) : Full F j (head j x) := by
  intro y hy
  refine h ?_
  show head k y = head k x
  rw [← head_head hj y, show head j y = head j x from hy, head_head hj]

/-- A full block of order at most `top` that is in no larger one. -/
structure Maximal (top : ℕ) (F : Set ℕ) (k b : ℕ) : Prop where
  dvd : 2 ^ k ∣ b
  le : k ≤ top
  full : Full F k b
  not_full : k < top → ¬Full F (k + 1) (head (k + 1) b)

theorem Maximal.mem (h : Maximal top F k b) : b ∈ F := h.full (mem_block_self h.dvd)

theorem Maximal.eq (h : Maximal top F k b) (h' : Maximal top F j c) (hb : x ∈ block k b)
    (hc : x ∈ block j c) : j = k ∧ c = b := by
  have hlt : ∀ {k j b c : ℕ}, Maximal top F k b → Maximal top F j c → head k x = b → head j x = c →
      ¬k < j := by
    intro k j b c hk hj hb hc hlt
    refine hk.not_full (hlt.trans_le hj.le) ?_
    rw [← hb, head_head (Nat.le_succ k)]
    refine Full.of_le ?_ hlt
    rw [hc]
    exact hj.full
  have hjk : j = k := by
    have h1 := hlt h h' hb hc
    have h2 := hlt h' h hc hb
    omega
  subst hjk
  exact ⟨rfl, hc.symm.trans hb⟩

theorem exists_maximal (hb : 2 ^ k ∣ b) (hk : k ≤ top) (h : Full F k b) :
    ∃ j, k ≤ j ∧ Maximal top F j (head j b) := by
  have hclimb : ∀ n k, k + n = top → Full F k (head k b) → ∃ j, k ≤ j ∧ Maximal top F j (head j b) := by
    intro n
    induction n with
    | zero =>
      intro k hk h
      exact ⟨k, le_rfl, dvd_head k b, by omega, h, fun hlt => absurd hlt (by omega)⟩
    | succ n ih =>
      intro k hk h
      by_cases hup : Full F (k + 1) (head (k + 1) b)
      · obtain ⟨j, hj, hmax⟩ := ih (k + 1) (by omega) hup
        exact ⟨j, by omega, hmax⟩
      · refine ⟨k, le_rfl, dvd_head k b, by omega, h, fun _ => ?_⟩
        rwa [head_head (Nat.le_succ k)]
  refine hclimb (top - k) k (by omega) ?_
  rwa [head_of_dvd hb]

theorem maximal_diff (h : Maximal top F k b) :
    Maximal top (F \ block k b) j c ↔ Maximal top F j c ∧ ¬(j = k ∧ c = b) := by
  constructor
  · intro hc
    have hcF : c ∉ block k b := hc.mem.2
    refine ⟨⟨hc.dvd, hc.le, fun y hy => (hc.full hy).1, fun hlt hup => hc.not_full hlt ?_⟩, ?_⟩
    · obtain ⟨m, hm, hmax⟩ := exists_maximal (dvd_head _ _) hlt hup
      rw [head_head hm] at hmax
      have hdiff : Full (F \ block k b) m (head m c) := by
        intro y hy
        refine ⟨hmax.full hy, fun hyb => hcF ?_⟩
        obtain ⟨rfl, he⟩ := h.eq hmax hyb hy
        exact he
      exact hdiff.of_le hm
    · rintro ⟨rfl, rfl⟩
      exact hcF (mem_block_self h.dvd)
  · rintro ⟨hc, hne⟩
    refine ⟨hc.dvd, hc.le, fun y hy => ⟨hc.full hy, fun hyb => hne (h.eq hc hyb hy)⟩, ?_⟩
    exact fun hlt hup => hc.not_full hlt fun y hy => (hup hy).1

/-- With a block whose twin is not maximal, the block is the one more. -/
theorem maximal_union (hb : 2 ^ k ∣ b) (hk : k ≤ top) (hdisj : ∀ x ∈ block k b, x ∉ F)
    (htwin : k < top → ¬Maximal top F k (twin k b)) :
    Maximal top (F ∪ block k b) j c ↔ Maximal top F j c ∨ j = k ∧ c = b := by
  -- the block above does not fill up
  have hup : k < top → ¬Full (F ∪ block k b) (k + 1) (head (k + 1) b) := by
    intro hlt hfull
    have htw : Full F k (twin k b) := by
      intro y hy
      have hy' : head k y = twin k b := hy
      refine (hfull ((head_succ_eq_iff hb).mpr (.inr hy'))).resolve_right fun hyb => ?_
      exact twin_ne k b (hy'.symm.trans hyb)
    obtain ⟨m, hm, hmax⟩ := exists_maximal (dvd_twin hb) hk htw
    rcases hm.eq_or_lt with rfl | hlt'
    · rw [head_of_dvd (dvd_twin hb)] at hmax
      exact htwin hlt hmax
    · have hall := hmax.full.of_le (Nat.succ_le_of_lt hlt')
      rw [Nat.succ_eq_add_one, head_twin hb] at hall
      exact hdisj b (mem_block_self hb) (hall rfl)
  have hfull : Full (F ∪ block k b) k b := Set.subset_union_right
  constructor
  · intro hc
    by_cases hshare : ∃ x ∈ block j c, x ∈ block k b
    · obtain ⟨x, hxc, hxb⟩ := hshare
      have hc' : head j x = c := hxc
      have hb' : head k x = b := hxb
      right
      rcases lt_trichotomy j k with hlt | rfl | hlt
      · refine absurd ?_ (hc.not_full (hlt.trans_le hk))
        rw [← hc', head_head (Nat.le_succ j)]
        refine Full.of_le ?_ hlt
        rwa [hb']
      · exact ⟨rfl, hc'.symm.trans hb'⟩
      · refine absurd ?_ (hup (hlt.trans_le hc.le))
        rw [← hb', head_head (Nat.le_succ k)]
        refine Full.of_le ?_ hlt
        rw [hc', hb']
        exact hc.full
    · left
      refine ⟨hc.dvd, hc.le, fun y hy => ?_, fun hlt h => hc.not_full hlt (h.trans Set.subset_union_left)⟩
      exact (hc.full hy).resolve_right fun hyb => hshare ⟨y, hy, hyb⟩
  · rintro (hc | ⟨rfl, rfl⟩)
    · refine ⟨hc.dvd, hc.le, hc.full.trans Set.subset_union_left, fun hlt h => ?_⟩
      obtain ⟨x, hx, hxF⟩ := Set.not_subset.mp (hc.not_full hlt)
      have hxc : head (j + 1) x = head (j + 1) c := hx
      have hxb : head k x = b := (h hx).resolve_left hxF
      by_cases hkj : k ≤ j
      · refine hup (hkj.trans_lt hlt) ?_
        rw [← hxb, head_head (Nat.le_succ k), hxb]
        refine Full.of_le ?_ (Nat.succ_le_succ hkj)
        rw [hxc]
        exact h
      · have hcb : head k c = b := by
          rw [← head_head (show j + 1 ≤ k by omega) c, ← hxc, head_head (by omega), hxb]
        exact hdisj c hcb hc.mem
    · exact ⟨hb, hk, hfull, hup⟩

end BouchaudOS.DyadicBlock
