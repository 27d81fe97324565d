import Mathlib

/-!
# Putting a numbered stream together again

The elements of a stream carry consecutive numbers modulo `2 ^ 32`, from a base that may be
anywhere in the cycle. A receiver gets fragments, each at the number of its first element,
and holds what it has delivered with the number it expects next. As long as the stream is
shorter than half the cycle, numbers stand for offsets without ambiguity: what has been
delivered is a prefix of the stream, and stays one whichever fragment is appended.
-/

namespace BouchaudOS.Reassembly

open List UInt32

variable {α : Type*} {stream out data : List α} {base ack seq : UInt32}

/-- The fragment `data` stands in the stream at the number `seq`. -/
def Carries (stream : List α) (base seq : UInt32) (data : List α) : Prop :=
  ∃ o : ℕ, seq = base + ofNat o ∧ data <+: stream.drop o

/-- `out` is what comes before the number `ack`. -/
def Delivered (stream : List α) (base ack : UInt32) (out : List α) : Prop :=
  ∃ d : ℕ, d ≤ stream.length ∧ ack = base + ofNat d ∧ out = stream.take d

theorem delivered_start : Delivered stream base base [] :=
  ⟨0, Nat.zero_le _, by simp, rfl⟩

theorem carries_nil : Carries stream base seq [] := by
  refine ⟨(seq - base).toNat, ?_, nil_prefix⟩
  rw [UInt32.ofNat_toNat, UInt32.add_comm, UInt32.sub_add_cancel]

theorem Carries.exists_offset (h : Carries stream base seq data) (hne : data ≠ []) :
    ∃ o : ℕ, seq = base + ofNat o ∧ data <+: stream.drop o ∧ o + data.length ≤ stream.length := by
  obtain ⟨o, hseq, hpre⟩ := h
  have hle := hpre.length_le
  have hpos := length_pos_of_ne_nil hne
  rw [length_drop] at hle
  exact ⟨o, hseq, hpre, by omega⟩

theorem toNat_add_ofNat (o : ℕ) : (base + UInt32.ofNat o).toNat = (base.toNat + o) % 2 ^ 32 := by
  rw [UInt32.toNat_add, UInt32.toNat_ofNat', Nat.add_mod_mod]

theorem toNat_sub_offset {d o : ℕ} (h : o ≤ d) (hd : d < 2 ^ 32) :
    (base + UInt32.ofNat d - (base + UInt32.ofNat o)).toNat = d - o := by
  rw [UInt32.toNat_sub, toNat_add_ofNat, toNat_add_ofNat]
  omega

theorem toNat_sub_offset_ahead {d o : ℕ} (h : d < o) (ho : o < 2 ^ 32) :
    (base + UInt32.ofNat d - (base + UInt32.ofNat o)).toNat = 2 ^ 32 - (o - d) := by
  rw [UInt32.toNat_sub, toNat_add_ofNat, toNat_add_ofNat]
  omega

theorem ofNat_offset_inj {d o : ℕ} (hd : d < 2 ^ 32) (ho : o < 2 ^ 32)
    (h : base + ofNat d = base + ofNat o) : d = o := by
  have h' := congrArg toNat h
  rw [toNat_add_ofNat, toNat_add_ofNat] at h'
  omega

theorem prefix_take_append {d : ℕ} (h : data <+: stream.drop d) :
    stream.take d ++ data = stream.take (d + data.length) := by
  rw [take_add, prefix_iff_eq_take.mp h]
  simp

variable (hlen : stream.length < 2 ^ 31)
include hlen

theorem Delivered.eq_take (h : Delivered stream base ack out) : out = stream.take (ack - base).toNat := by
  obtain ⟨d, hd, rfl, rfl⟩ := h
  have hoff : (base + ofNat d - base).toNat = d := by
    have hbase := base.toNat_lt
    rw [UInt32.toNat_sub, toNat_add_ofNat]
    omega
  rw [hoff]

theorem Delivered.append (h : Delivered stream base ack out) (hc : Carries stream base ack data) :
    Delivered stream base (ack + ofNat data.length) (out ++ data) := by
  by_cases hne : data = []
  · subst hne
    simpa using h
  · obtain ⟨d, hd, rfl, rfl⟩ := h
    obtain ⟨o, ho, hpre, hend⟩ := hc.exists_offset hne
    obtain rfl := ofNat_offset_inj (by omega) (by omega) ho
    refine ⟨d + data.length, hend, ?_, prefix_take_append hpre⟩
    rw [UInt32.ofNat_add, UInt32.add_assoc]

/-- A fragment that begins earlier and goes past the number expected: its new part. -/
theorem Delivered.carries_drop (h : Delivered stream base ack out) (hc : Carries stream base seq data)
    (hskip : (ack - seq).toNat < data.length) :
    Carries stream base ack (data.drop (ack - seq).toNat) := by
  obtain ⟨d, hd, rfl, rfl⟩ := h
  obtain ⟨o, rfl, hpre, hend⟩ := hc.exists_offset (ne_nil_of_length_pos (by omega))
  rcases Nat.le_total o d with hod | hod
  · rw [toNat_sub_offset hod (by omega)]
    refine ⟨d, rfl, ?_⟩
    have := hpre.drop (d - o)
    rwa [drop_drop, Nat.add_sub_cancel' hod] at this
  · rcases Nat.eq_or_lt_of_le hod with rfl | hlt
    · rw [UInt32.sub_self, UInt32.toNat_zero, drop_zero]
      exact ⟨d, rfl, hpre⟩
    · -- seen from behind, a fragment ahead is more than half a cycle away
      rw [toNat_sub_offset_ahead hlt (by omega)] at hskip
      omega

end BouchaudOS.Reassembly
