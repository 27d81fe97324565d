import Mathlib

/-!
# Extents of an address range

An extent is a base and a size. Extents are packed in a range when they are
aligned, not empty, inside the range and apart from each other; they cover it
when every address is in one of them. Splitting an extent, joining two that
touch, and moving the end of the range keep both. Arrays from which an entry is
removed by moving the last one in its place keep their entries.
-/

namespace BouchaudOS

open List

structure Extent where
  base : ℕ
  size : ℕ
  deriving DecidableEq

namespace Extent

def stop (e : Extent) : ℕ := e.base + e.size

def Holds (e : Extent) (x : ℕ) : Prop := e.base ≤ x ∧ x < e.stop

/-- No address is in both, for extents that are not empty. -/
def Apart (a b : Extent) : Prop := a.stop ≤ b.base ∨ b.stop ≤ a.base

def Touches (a b : Extent) : Prop := a.stop = b.base ∨ b.stop = a.base

instance : DecidableRel Touches := fun _ _ => inferInstanceAs (Decidable (_ ∨ _))

def join (a b : Extent) : Extent := ⟨min a.base b.base, a.size + b.size⟩

variable {a b c : Extent} {x : ℕ}

theorem Apart.symm (h : Apart a b) : Apart b a := Or.symm h

theorem Touches.symm (h : Touches a b) : Touches b a := Or.symm h

theorem Apart.not_holds (h : Apart a b) (ha : a.Holds x) : ¬b.Holds x := by
  rintro ⟨h1, h2⟩
  obtain ⟨h3, h4⟩ := ha
  rcases h with h | h <;> omega

theorem apart_of_not_holds (ha : 0 < a.size) (hb : 0 < b.size) (h : ∀ x, a.Holds x → ¬b.Holds x) :
    Apart a b := by
  by_contra hne
  unfold Apart stop at hne
  unfold Holds stop at h
  exact h (max a.base b.base) (by omega) (by omega)

theorem join_base_stop (h : Touches a b) :
    (join a b).base = min a.base b.base ∧ (join a b).stop = max a.stop b.stop := by
  refine ⟨rfl, ?_⟩
  unfold join stop
  unfold Touches stop at h
  simp only
  omega

theorem holds_join (h : Touches a b) : (join a b).Holds x ↔ a.Holds x ∨ b.Holds x := by
  unfold Holds join stop
  unfold Touches stop at h
  simp only
  omega

end Extent

open Extent

/-- Extents with borders at multiples of `g`, apart from each other, in `[lo, hi)`. -/
structure Packed (g lo hi : ℕ) (l : List Extent) : Prop where
  inside : ∀ e ∈ l, lo ≤ e.base ∧ e.stop ≤ hi
  pos : ∀ e ∈ l, 0 < e.size
  aligned : ∀ e ∈ l, g ∣ e.base ∧ g ∣ e.size
  apart : l.Pairwise Apart

/-- Every address of `[lo, hi)` is in an extent. -/
def Covers (lo hi : ℕ) (l : List Extent) : Prop :=
  ∀ x, lo ≤ x → x < hi → ∃ e ∈ l, e.Holds x

variable {g lo hi m n : ℕ} {l l' : List Extent} {a b : Extent}

namespace Packed

theorem nil (g lo hi : ℕ) : Packed g lo hi [] :=
  ⟨by simp, by simp, by simp, .nil⟩

theorem cons_iff : Packed g lo hi (a :: l) ↔
    (lo ≤ a.base ∧ a.stop ≤ hi) ∧ 0 < a.size ∧ (g ∣ a.base ∧ g ∣ a.size) ∧ (∀ e ∈ l, Apart a e) ∧
      Packed g lo hi l := by
  constructor
  · intro h
    have hapart := pairwise_cons.mp h.apart
    exact ⟨h.inside a mem_cons_self, h.pos a mem_cons_self, h.aligned a mem_cons_self,
      hapart.1, fun e he => h.inside e (mem_cons_of_mem _ he),
      fun e he => h.pos e (mem_cons_of_mem _ he),
      fun e he => h.aligned e (mem_cons_of_mem _ he), hapart.2⟩
  · rintro ⟨hin, hpos, hal, hapart, h⟩
    refine ⟨?_, ?_, ?_, pairwise_cons.mpr ⟨hapart, h.apart⟩⟩
    · exact forall_mem_cons.mpr ⟨hin, h.inside⟩
    · exact forall_mem_cons.mpr ⟨hpos, h.pos⟩
    · exact forall_mem_cons.mpr ⟨hal, h.aligned⟩

theorem perm (h : Packed g lo hi l) (hp : l.Perm l') : Packed g lo hi l' where
  inside e he := h.inside e (hp.mem_iff.mpr he)
  pos e he := h.pos e (hp.mem_iff.mpr he)
  aligned e he := h.aligned e (hp.mem_iff.mpr he)
  apart := (hp.pairwise_iff Apart.symm).mp h.apart

theorem sublist (h : Packed g lo hi l) (hs : l'.Sublist l) : Packed g lo hi l' where
  inside e he := h.inside e (hs.subset he)
  pos e he := h.pos e (hs.subset he)
  aligned e he := h.aligned e (hs.subset he)
  apart := h.apart.sublist hs

theorem split (h : Packed g lo hi (⟨m, n⟩ :: l)) {k : ℕ} (hk : 0 < k) (hkn : k < n) (hg : g ∣ k) :
    Packed g lo hi (⟨m, k⟩ :: ⟨m + k, n - k⟩ :: l) := by
  obtain ⟨hin, hpos, hal, hapart, hl⟩ := cons_iff.mp h
  unfold Extent.stop at hin
  simp only at hin hpos hal
  refine cons_iff.mpr ⟨?_, hk, ⟨hal.1, hg⟩, ?_, cons_iff.mpr ⟨?_, ?_, ?_, ?_, hl⟩⟩
  · unfold Extent.stop
    simp only
    omega
  · refine forall_mem_cons.mpr ⟨.inl le_rfl, fun e he => ?_⟩
    have := hapart e he
    unfold Apart Extent.stop at this ⊢
    simp only at this ⊢
    omega
  · unfold Extent.stop
    simp only
    omega
  · simp only
    omega
  · exact ⟨Nat.dvd_add hal.1 hg, (Nat.dvd_sub hal.2 hg)⟩
  · intro e he
    have := hapart e he
    unfold Apart Extent.stop at this ⊢
    simp only at this ⊢
    omega

theorem joined (h : Packed g lo hi (a :: b :: l)) (ht : Touches a b) : Packed g lo hi (join a b :: l) := by
  obtain ⟨hina, hposa, hala, haparta, hb⟩ := cons_iff.mp h
  obtain ⟨hinb, hposb, halb, hapartb, hl⟩ := cons_iff.mp hb
  obtain ⟨hbase, hstop⟩ := join_base_stop ht
  refine cons_iff.mpr ⟨?_, ?_, ⟨?_, Nat.dvd_add hala.2 halb.2⟩, fun e he => ?_, hl⟩
  · rw [hbase, hstop]
    exact ⟨le_min hina.1 hinb.1, max_le hina.2 hinb.2⟩
  · exact Nat.add_pos_left hposa _
  · rw [hbase]
    rcases min_choice a.base b.base with hm | hm <;> rw [hm]
    · exact hala.1
    · exact halb.1
  · have h1 := haparta e (mem_cons_of_mem _ he)
    have h2 := hapartb e he
    have hpos := hl.pos e he
    unfold Apart at h1 h2 ⊢
    unfold Touches at ht
    unfold Extent.stop at *
    omega

theorem push (h : Packed g lo hi l) (hlo : lo ≤ hi) (hhi : g ∣ hi) (hn : 0 < n) (hg : g ∣ n) :
    Packed g lo (hi + n) (⟨hi, n⟩ :: l) := by
  refine cons_iff.mpr ⟨⟨hlo, le_rfl⟩, hn, ⟨hhi, hg⟩, fun e he => .inr (h.inside e he).2, ?_⟩
  exact ⟨fun e he => ⟨(h.inside e he).1, (h.inside e he).2.trans (Nat.le_add_right _ _)⟩, h.pos,
    h.aligned, h.apart⟩

theorem pop (h : Packed g lo hi (a :: l)) (hstop : a.stop = hi) : Packed g lo a.base l := by
  obtain ⟨-, -, -, hapart, hl⟩ := cons_iff.mp h
  refine ⟨fun e he => ⟨(hl.inside e he).1, ?_⟩, hl.pos, hl.aligned, hl.apart⟩
  have h1 := hapart e he
  have h2 := (hl.inside e he).2
  have h3 := hl.pos e he
  unfold Apart at h1
  unfold Extent.stop at *
  omega

theorem sum_size_le (h : Packed g lo hi l) : (l.map Extent.size).sum ≤ hi - lo := by
  have hset : ∃ S : Finset ℕ, S.card = (l.map Extent.size).sum ∧ S ⊆ Finset.Ico lo hi ∧
      ∀ x, x ∈ S ↔ ∃ e ∈ l, e.Holds x := by
    induction l with
    | nil => exact ⟨∅, rfl, Finset.empty_subset _, by simp⟩
    | cons a l ih =>
      obtain ⟨hin, -, -, hapart, hl⟩ := cons_iff.mp h
      obtain ⟨S, hcard, hsub, hmem⟩ := ih hl
      have hdisj : Disjoint (Finset.Ico a.base a.stop) S := by
        refine Finset.disjoint_left.mpr fun x hx hxS => ?_
        obtain ⟨e, he, hxe⟩ := (hmem x).mp hxS
        exact (hapart e he).not_holds (Finset.mem_Ico.mp hx) hxe
      refine ⟨Finset.Ico a.base a.stop ∪ S, ?_, Finset.union_subset ?_ hsub, fun x => ?_⟩
      · rw [Finset.card_union_of_disjoint hdisj, hcard, Nat.card_Ico, map_cons, sum_cons,
          Extent.stop, Nat.add_sub_cancel_left]
      · exact Finset.Ico_subset_Ico hin.1 hin.2
      · rw [Finset.mem_union, hmem, Finset.mem_Ico]
        simp [Holds]
  obtain ⟨S, hcard, hsub, -⟩ := hset
  rw [← hcard, ← Nat.card_Ico]
  exact Finset.card_le_card hsub

theorem eq_nil_of_covers (h : Packed g lo hi l) (hc : Covers lo hi l) (hlo : lo ≤ hi)
    (hne : ∀ e ∈ l, e.stop ≠ hi) : hi = lo ∧ l = [] := by
  have heq : hi = lo := by
    by_contra hlt
    obtain ⟨e, he, h1, h2⟩ := hc (hi - 1) (by omega) (by omega)
    have h3 := (h.inside e he).2
    have h4 := hne e he
    omega
  refine ⟨heq, eq_nil_iff_forall_not_mem.mpr fun e he => ?_⟩
  have h1 := h.inside e he
  have h2 := h.pos e he
  unfold Extent.stop at h1
  omega

end Packed

namespace Covers

theorem perm (h : Covers lo hi l) (hp : l.Perm l') : Covers lo hi l' := by
  intro x h1 h2
  obtain ⟨e, he, hx⟩ := h x h1 h2
  exact ⟨e, hp.mem_iff.mp he, hx⟩

theorem split (h : Covers lo hi (⟨m, n⟩ :: l)) (k : ℕ) : Covers lo hi (⟨m, k⟩ :: ⟨m + k, n - k⟩ :: l) := by
  intro x h1 h2
  obtain ⟨e, he, hx⟩ := h x h1 h2
  rcases mem_cons.mp he with rfl | he
  · unfold Holds Extent.stop at hx
    simp only at hx
    by_cases hxk : x < m + k
    · exact ⟨_, mem_cons_self, hx.1, hxk⟩
    · refine ⟨_, mem_cons_of_mem _ mem_cons_self, ?_⟩
      unfold Holds Extent.stop
      simp only
      omega
  · exact ⟨e, mem_cons_of_mem _ (mem_cons_of_mem _ he), hx⟩

theorem joined (h : Covers lo hi (a :: b :: l)) (ht : Touches a b) : Covers lo hi (join a b :: l) := by
  intro x h1 h2
  obtain ⟨e, he, hx⟩ := h x h1 h2
  rcases mem_cons.mp he with rfl | he
  · exact ⟨_, mem_cons_self, (holds_join ht).mpr (.inl hx)⟩
  · rcases mem_cons.mp he with rfl | he
    · exact ⟨_, mem_cons_self, (holds_join ht).mpr (.inr hx)⟩
    · exact ⟨e, mem_cons_of_mem _ he, hx⟩

theorem push (h : Covers lo hi l) : Covers lo (hi + n) (⟨hi, n⟩ :: l) := by
  intro x h1 h2
  by_cases hx : x < hi
  · obtain ⟨e, he, hx⟩ := h x h1 hx
    exact ⟨e, mem_cons_of_mem _ he, hx⟩
  · exact ⟨_, mem_cons_self, not_lt.mp hx, h2⟩

theorem pop (h : Covers lo hi (a :: l)) (hle : a.base ≤ hi) : Covers lo a.base l := by
  intro x h1 h2
  obtain ⟨e, he, hx⟩ := h x h1 (h2.trans_le hle)
  rcases mem_cons.mp he with rfl | he
  · exact absurd hx.1 (not_le.mpr h2)
  · exact ⟨e, he, hx⟩

end Covers

/-- Remove entry `i`: the last one takes its place. -/
def swapRemove {α : Type*} (l : List α) (i : ℕ) : List α :=
  match l.getLast? with
  | none => []
  | some z => (l.set i z).dropLast

theorem perm_swapRemove {α : Type*} {l : List α} {i : ℕ} {x : α} (h : l[i]? = some x) :
    l.Perm (x :: swapRemove l i) := by
  obtain ⟨hi, rfl⟩ := List.getElem?_eq_some_iff.mp h
  obtain ⟨a, b, ha, hl⟩ : ∃ a b, a.length = i ∧ l = a ++ l[i] :: b :=
    ⟨l.take i, l.drop (i + 1), length_take_of_le hi.le, by simp⟩
  generalize l[i] = x at hl ⊢
  subst hl ha
  unfold swapRemove
  rcases eq_nil_or_concat' b with rfl | ⟨b, z, rfl⟩
  · simp
  · have hlast : (a ++ x :: (b ++ [z])).getLast? = some z := by
      rw [← cons_append, ← append_assoc, getLast?_concat]
    rw [hlast]
    have hset : (a ++ x :: (b ++ [z])).set a.length z = (a ++ z :: b) ++ [z] := by simp
    simp only [hset, dropLast_concat]
    exact perm_middle.trans (((perm_append_singleton z b).append_left a).cons x)

end BouchaudOS
