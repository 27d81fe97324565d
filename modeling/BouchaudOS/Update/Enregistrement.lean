import Mathlib

/-!
# The A/B boot record

The pure policy of `system/update-core/src/ab.rs`: two system slots, the state
of each, and the operations that the loader and the kernel apply to the record
they share. An operation that refuses leaves the record to its caller
unchanged; one that succeeds returns the next record, with its sequence number
raised by one (modulo `2^64`).
-/
namespace BouchaudOS.Update

/-- The two system slots. -/
inductive Slot
  | A
  | B
  deriving DecidableEq, Repr

namespace Slot

def autre : Slot → Slot
  | A => B
  | B => A

def code : Slot → UInt8
  | A => 0
  | B => 1

@[simp] theorem autre_autre (s : Slot) : s.autre.autre = s := by cases s <;> rfl

@[simp] theorem autre_ne (s : Slot) : s.autre ≠ s := by cases s <;> decide

theorem eq_or_eq_autre (s t : Slot) : s = t ∨ s = t.autre := by
  cases s <;> cases t <;> decide

theorem eq_autre_of_ne {s t : Slot} (h : s ≠ t) : s = t.autre :=
  (eq_or_eq_autre s t).resolve_left h

end Slot

/-- State of a slot. -/
inductive Etat
  /-- Nothing bootable: never installed, or being written. -/
  | vide
  /-- Written, verified and durable; waits for its first boots. -/
  | candidat (essais : UInt8)
  /-- Booted and passed its health check at least once. -/
  | bon
  /-- Failed; not chosen again until it is installed anew. -/
  | mauvais
  deriving DecidableEq, Repr

def Etat.EstCandidat : Etat → Prop
  | candidat _ => True
  | _ => False

instance (e : Etat) : Decidable e.EstCandidat := by
  cases e <;> unfold Etat.EstCandidat <;> infer_instance

/-- A SHA-256 digest. -/
abbrev Image := Vector UInt8 32

structure InfoSlot where
  etat : Etat
  image : Image
  deriving DecidableEq, Repr

/-- What the loader reads to choose a slot. The two-element array `slots` of the
source is the pair of fields `slotA`, `slotB`. -/
@[ext] structure Enregistrement where
  sequence : UInt64
  actif : Slot
  slotA : InfoSlot
  slotB : InfoSlot
  deriving DecidableEq, Repr

inductive Refus
  | cibleActive
  | cibleEnCoursDExecution
  | imageNonVerifiee
  | candidatEnCours
  | etatInattendu
  | essaisNuls
  deriving DecidableEq, Repr

def InfoSlot.neuf : InfoSlot := ⟨.vide, Vector.replicate 32 0⟩

namespace Enregistrement

def slot (e : Enregistrement) : Slot → InfoSlot
  | .A => e.slotA
  | .B => e.slotB

/-- Replace the array element of one slot. -/
def avecSlot (e : Enregistrement) (s : Slot) (i : InfoSlot) : Enregistrement :=
  match s with
  | .A => { e with slotA := i }
  | .B => { e with slotB := i }

def avecEtat (e : Enregistrement) (s : Slot) (t : Etat) : Enregistrement :=
  e.avecSlot s { e.slot s with etat := t }

def initial (actif : Slot) (image : Image) : Enregistrement :=
  (Enregistrement.mk 1 actif .neuf .neuf).avecSlot actif ⟨.bon, image⟩

variable (e : Enregistrement)

def avecActif (s : Slot) : Enregistrement := { e with actif := s }

def suivant : Enregistrement := { e with sequence := e.sequence + 1 }

def commenceInstallation (cible enCours : Slot) : Except Refus Enregistrement :=
  if cible = enCours then .error .cibleEnCoursDExecution
  else if cible = e.actif then .error .cibleActive
  else if (e.slot cible).etat.EstCandidat then .error .candidatEnCours
  else .ok (e.suivant.avecSlot cible .neuf)

def marqueCandidat (cible : Slot) (image empreinteRelue : Image)
    (essais : UInt8) : Except Refus Enregistrement :=
  if cible = e.actif then .error .cibleActive
  else if (e.slot cible).etat ≠ .vide then .error .etatInattendu
  else if image ≠ empreinteRelue then .error .imageNonVerifiee
  else if essais = 0 then .error .essaisNuls
  else .ok (e.suivant.avecSlot cible ⟨.candidat essais, image⟩)

/-- The slot to boot, and the record to write before booting it. -/
def choisitBoot : Slot × Enregistrement :=
  let autre := e.actif.autre
  match (e.slot autre).etat with
  | .candidat essais =>
      if essais > 0 then (autre, e.suivant.avecEtat autre (.candidat (essais - 1)))
      -- attempts exhausted without a health check: roll back
      else (e.actif, e.suivant.avecEtat autre .mauvais)
  | _ => (e.actif, e)

/-- The system booted in `slot` passed its health check. -/
def santeOk (slot : Slot) : Enregistrement :=
  match (e.slot slot).etat with
  | .candidat _ => (e.suivant.avecEtat slot .bon).avecActif slot
  | _ => e

/-- The candidate failed its health check. -/
def santeKo (slot : Slot) : Enregistrement :=
  match (e.slot slot).etat with
  | .candidat _ => e.suivant.avecEtat slot .mauvais
  | _ => e

/-- Manual rollback to the previous version, if it is good. -/
def revient : Except Refus Enregistrement :=
  if (e.slot e.actif.autre).etat ≠ .bon then .error .etatInattendu
  else .ok (e.suivant.avecActif e.actif.autre)

@[simp] theorem slot_avecSlot_self (s : Slot) (i : InfoSlot) :
    (e.avecSlot s i).slot s = i := by cases s <;> rfl

@[simp] theorem slot_avecSlot_autre (s : Slot) (i : InfoSlot) :
    (e.avecSlot s i).slot s.autre = e.slot s.autre := by cases s <;> rfl

variable {s cible : Slot} {e n : Enregistrement}

section

variable (e : Enregistrement)

theorem slot_avecSlot_of_ne {t : Slot} (i : InfoSlot) (h : t ≠ s) : (e.avecSlot s i).slot t = e.slot t := by
  rw [Slot.eq_autre_of_ne h, slot_avecSlot_autre]

@[simp] theorem avecSlot_actif (s : Slot) (i : InfoSlot) :
    (e.avecSlot s i).actif = e.actif := by cases s <;> rfl

@[simp] theorem avecSlot_sequence (s : Slot) (i : InfoSlot) :
    (e.avecSlot s i).sequence = e.sequence := by cases s <;> rfl

@[simp] theorem slot_avecEtat_self (s : Slot) (t : Etat) :
    ((e.avecEtat s t).slot s).etat = t := by simp [avecEtat]

theorem slot_avecEtat_of_ne {u : Slot} (t : Etat) (h : u ≠ s) : (e.avecEtat s t).slot u = e.slot u :=
  slot_avecSlot_of_ne e _ h

@[simp] theorem avecEtat_actif (s : Slot) (t : Etat) : (e.avecEtat s t).actif = e.actif := avecSlot_actif ..

@[simp] theorem avecEtat_sequence (s : Slot) (t : Etat) :
    (e.avecEtat s t).sequence = e.sequence := avecSlot_sequence ..

@[simp] theorem suivant_slot (s : Slot) : e.suivant.slot s = e.slot s := by
  cases s <;> rfl

@[simp] theorem suivant_actif : e.suivant.actif = e.actif := rfl

@[simp] theorem suivant_sequence : e.suivant.sequence = e.sequence + 1 := rfl

end

@[simp] theorem initial_actif (a : Slot) (i : Image) : (initial a i).actif = a := by
  simp [initial]

section

variable (e : Enregistrement)

@[simp] theorem slot_avecActif (a s : Slot) : (e.avecActif a).slot s = e.slot s := by cases s <;> rfl

@[simp] theorem avecActif_actif (a : Slot) : (e.avecActif a).actif = a := rfl

@[simp] theorem avecActif_sequence (a : Slot) : (e.avecActif a).sequence = e.sequence := rfl

/-- The record designates a slot that booted and passed its health check. -/
def ActifBon : Prop := (e.slot e.actif).etat = .bon

end

instance (e : Enregistrement) : Decidable e.ActifBon := inferInstanceAs (Decidable (_ = _))

/-- `n` is one change after `e`: its active slot is still good and its sequence
number is the next one. -/
structure Suit (e n : Enregistrement) : Prop where
  actifBon : n.ActifBon
  sequence : n.sequence = e.sequence + 1

theorem Suit.sequence_ne (h : Suit e n) : e.sequence ≠ n.sequence := by
  rw [h.sequence]
  intro he
  have h1 : (1 : UInt64) = 0 := by simp at he
  exact absurd h1 (by decide)

theorem Suit.sequence_lt (h : Suit e n)
    (hs : e.sequence.toNat < 2 ^ 64 - 1) : e.sequence.toNat < n.sequence.toNat := by
  rw [h.sequence, UInt64.toNat_add]
  simp
  omega

theorem commenceInstallation_ok {enCours : Slot} (h : e.commenceInstallation cible enCours = .ok n) :
    cible ≠ enCours ∧ cible ≠ e.actif ∧ ¬(e.slot cible).etat.EstCandidat ∧
      n = e.suivant.avecSlot cible .neuf := by
  unfold commenceInstallation at h
  split_ifs at h with h1 h2 h3
  exact ⟨h1, h2, h3, (Except.ok.inj h).symm⟩

theorem marqueCandidat_ok {image relue : Image}
    {essais : UInt8} (h : e.marqueCandidat cible image relue essais = .ok n) :
    cible ≠ e.actif ∧ (e.slot cible).etat = .vide ∧ image = relue ∧ essais ≠ 0 ∧
      n = e.suivant.avecSlot cible ⟨.candidat essais, image⟩ := by
  unfold marqueCandidat at h
  split_ifs at h with h1 h2 h3 h4
  exact ⟨h1, not_not.mp h2, not_not.mp h3, h4, (Except.ok.inj h).symm⟩

theorem revient_ok (h : e.revient = .ok n) :
    (e.slot e.actif.autre).etat = .bon ∧ n = e.suivant.avecActif e.actif.autre := by
  unfold revient at h
  split_ifs at h with h1
  exact ⟨not_not.mp h1, (Except.ok.inj h).symm⟩

/-- The three outcomes of a boot: a candidate with attempts left, a candidate
whose attempts are exhausted, or nothing pending. -/
theorem choisitBoot_cases (e : Enregistrement) :
    (∃ essais, (e.slot e.actif.autre).etat = .candidat essais ∧ 0 < essais ∧
      e.choisitBoot = (e.actif.autre, e.suivant.avecEtat e.actif.autre (.candidat (essais - 1)))) ∨
    ((e.slot e.actif.autre).etat = .candidat 0 ∧
      e.choisitBoot = (e.actif, e.suivant.avecEtat e.actif.autre .mauvais)) ∨
    (¬(e.slot e.actif.autre).etat.EstCandidat ∧ e.choisitBoot = (e.actif, e)) := by
  cases h : (e.slot e.actif.autre).etat with
  | candidat essais =>
    by_cases h0 : 0 < essais
    · exact .inl ⟨essais, rfl, h0, by simp [choisitBoot, h, h0]⟩
    · have he : essais = 0 := UInt8.le_antisymm (UInt8.not_lt.mp h0) UInt8.zero_le
      subst he
      exact .inr (.inl ⟨rfl, by simp [choisitBoot, h]⟩)
  | vide => exact .inr (.inr ⟨by simp [Etat.EstCandidat], by simp [choisitBoot, h]⟩)
  | bon => exact .inr (.inr ⟨by simp [Etat.EstCandidat], by simp [choisitBoot, h]⟩)
  | mauvais => exact .inr (.inr ⟨by simp [Etat.EstCandidat], by simp [choisitBoot, h]⟩)

@[simp] theorem choisitBoot_actif (e : Enregistrement) : e.choisitBoot.2.actif = e.actif := by
  rcases choisitBoot_cases e with ⟨essais, -, -, hb⟩ | ⟨-, hb⟩ | ⟨-, hb⟩ <;> simp [hb]

theorem choisitBoot_autre (h : e.choisitBoot.1 ≠ e.actif) :
    ∃ essais, (e.slot e.choisitBoot.1).etat = .candidat essais ∧ 0 < essais ∧
      e.choisitBoot.2 = e.suivant.avecEtat e.choisitBoot.1 (.candidat (essais - 1)) := by
  rcases choisitBoot_cases e with ⟨essais, hc, h0, hb⟩ | ⟨-, hb⟩ | ⟨-, hb⟩
  · rw [hb]
    exact ⟨essais, hc, h0, rfl⟩
  · exact absurd (by rw [hb]) h
  · exact absurd (by rw [hb]) h

theorem choisitBoot_sequence (h : e.choisitBoot.1 ≠ e.actif) : e.choisitBoot.2.sequence = e.sequence + 1 := by
  obtain ⟨essais, -, -, hb⟩ := choisitBoot_autre h
  simp [hb]

theorem santeOk_cases (e : Enregistrement) (s : Slot) : ((e.slot s).etat.EstCandidat ∧
      e.santeOk s = (e.suivant.avecEtat s .bon).avecActif s) ∨
    (¬(e.slot s).etat.EstCandidat ∧ e.santeOk s = e) := by
  unfold santeOk
  cases h : (e.slot s).etat <;> simp [Etat.EstCandidat]

theorem santeKo_cases (e : Enregistrement) (s : Slot) :
    ((e.slot s).etat.EstCandidat ∧ e.santeKo s = e.suivant.avecEtat s .mauvais) ∨
    (¬(e.slot s).etat.EstCandidat ∧ e.santeKo s = e) := by
  unfold santeKo
  cases h : (e.slot s).etat <;> simp [Etat.EstCandidat]

theorem actifBon_initial (a : Slot) (i : Image) : (initial a i).ActifBon := by
  simp [ActifBon, initial]

theorem suit_commenceInstallation {enCours : Slot}
    (hb : e.ActifBon) (h : e.commenceInstallation cible enCours = .ok n) : Suit e n := by
  obtain ⟨-, hactif, -, rfl⟩ := commenceInstallation_ok h
  refine ⟨?_, by simp⟩
  rw [ActifBon, avecSlot_actif, suivant_actif, slot_avecSlot_of_ne _ _ hactif.symm, suivant_slot]
  exact hb

theorem suit_marqueCandidat {image relue : Image} {essais : UInt8} (hb : e.ActifBon)
    (h : e.marqueCandidat cible image relue essais = .ok n) : Suit e n := by
  obtain ⟨hactif, -, -, -, rfl⟩ := marqueCandidat_ok h
  refine ⟨?_, by simp⟩
  rw [ActifBon, avecSlot_actif, suivant_actif, slot_avecSlot_of_ne _ _ hactif.symm, suivant_slot]
  exact hb

theorem suit_revient (h : e.revient = .ok n) : Suit e n := by
  obtain ⟨hbon, rfl⟩ := revient_ok h
  exact ⟨by simpa [ActifBon] using hbon, rfl⟩

theorem suit_avecEtat (hb : e.ActifBon) (hs : s ≠ e.actif) (t : Etat) : Suit e (e.suivant.avecEtat s t) := by
  refine ⟨?_, by simp⟩
  rw [ActifBon, avecEtat_actif, suivant_actif, slot_avecEtat_of_ne _ _ hs.symm, suivant_slot]
  exact hb

theorem ne_actif_of_candidat (hb : e.ActifBon) (hc : (e.slot s).etat.EstCandidat) : s ≠ e.actif := by
  rintro rfl
  rw [show (e.slot e.actif).etat = .bon from hb] at hc
  exact hc

theorem suit_choisitBoot (hb : e.ActifBon) : e.choisitBoot.2 = e ∨ Suit e e.choisitBoot.2 := by
  rcases choisitBoot_cases e with ⟨essais, -, -, h⟩ | ⟨-, h⟩ | ⟨-, h⟩ <;> rw [h]
  · exact .inr (suit_avecEtat hb (Slot.autre_ne _) _)
  · exact .inr (suit_avecEtat hb (Slot.autre_ne _) _)
  · exact .inl rfl

theorem suit_santeOk (e : Enregistrement) (s : Slot) : e.santeOk s = e ∨ Suit e (e.santeOk s) := by
  rcases santeOk_cases e s with ⟨-, h⟩ | ⟨-, h⟩ <;> rw [h]
  · refine .inr ⟨?_, by simp⟩
    simp [ActifBon]
  · exact .inl rfl

theorem suit_santeKo (hb : e.ActifBon) (s : Slot) : e.santeKo s = e ∨ Suit e (e.santeKo s) := by
  rcases santeKo_cases e s with ⟨hc, h⟩ | ⟨-, h⟩ <;> rw [h]
  · exact .inr (suit_avecEtat hb (ne_actif_of_candidat hb hc) _)
  · exact .inl rfl

end Enregistrement

end BouchaudOS.Update
