import BouchaudOS.Update.Copies
import BouchaudOS.Update.Echecs
import BouchaudOS.Update.Passage

/-!
# The loader's decision

`decide` of `tools/reference/uefi-preboot-probe/src/ab.rs`, as a program on the
blocks of the META partition. The firmware's answers (which partitions exist,
the block size, the operator's key, the time stamp counter) are the fields of
an environment; the text journal is left out. Partition handles are abstract.
-/
namespace BouchaudOS.Update.Chargeur

open Bytes VersionedPair Enregistrement Echecs Function
open Prog hiding pure

variable {H : Type}

structure Partitions (H : Type) where
  metaHandle : Option H
  a : Option H
  b : Option H
  recovery : Option H

/-- What the firmware answers during one boot. -/
structure Environnement (H : Type) where
  /-- The Bouchaud partitions of the boot disk (`trouve_partitions`). -/
  partitions : Option (Partitions H)
  /-- Unique partition GUID of a handle, all zero when it is unreadable. -/
  uniqueGpt : H → Vector UInt8 16
  /-- The operator pressed the recovery key. -/
  toucheRecovery : Bool
  /-- Block size and last block of the META partition's medium. -/
  tailleBloc : ℕ
  dernierBloc : ℕ
  tsc : UInt64

open Environnement

inductive Decision (H : Type)
  /-- No META partition on this disk: the pre-A/B layout. -/
  | legacy
  /-- Boot this partition; `recovery` tells the recovery system from a slot. -/
  | boot (slot : Slot) (partition : H) (raison : String) (passage : Passage) (recovery : Bool)
  | recoveryRequired (motif : String)

/-- `rotate_left` on 64 bits. -/
def rotateLeft (x : UInt64) (n : UInt64) : UInt64 := (x <<< n) ||| (x >>> (64 - n))

def bootId (tsc sequence : UInt64) : UInt64 :=
  tsc ^^^ rotateLeft sequence 32 ^^^ 0xB0AB000000000000

def toute (_ : ℕ) : Bool := true

/-- The blocks of the two copies, relative to the partition. -/
def copiesMeta (i : Fin 2) : ℕ := i

namespace Environnement

variable (env : Environnement H)

def MediumUtilisable : Prop := octets ≤ env.tailleBloc ∧ 1 ≤ env.dernierBloc

instance : Decidable env.MediumUtilisable := inferInstanceAs (Decidable (_ ∧ _))

def litCopies : Prog ℕ (List UInt8) (Option (List UInt8 × List UInt8)) :=
  if env.MediumUtilisable then Update.litCopies copiesMeta else pure none

/-- Persist `e` into the older copy, flush, read back. -/
def persiste (e : Enregistrement) : Prog ℕ (List UInt8) Bool :=
  if env.MediumUtilisable then do
    match ← persisteCopies copiesMeta toute e with
    | .ok _ => pure true
    | .error _ => pure false
  else pure false

def litCompteur : Prog ℕ (List UInt8) UInt32 :=
  if env.dernierBloc < bloc then pure 0
  else do
    match ← litBloc bloc with
    | none => pure 0
    | some b => pure (decode b)

def ecritCompteur (n : UInt32) : Prog ℕ (List UInt8) Bool :=
  if env.dernierBloc < bloc then pure false
  else do
    let b := splice (List.replicate env.tailleBloc 0) 0 (encode n)
    if ← ecrit [(bloc, b)] then vidange toute else pure false

/-- RECOVERY when it exists, otherwise stop. -/
def recovery (p : Partitions H) (metaHandle : H) (raison : Raison) (motif : String)
    (e : Option Enregistrement) : Decision H :=
  match p.recovery with
  | none => .recoveryRequired motif
  | some h =>
    let slot := (e.map (·.actif)).getD .A
    let sequence := (e.map (·.sequence)).getD 0
    .boot slot h motif
      { slot := slot, raison := raison, essaisRestants := 0, sequenceMeta := sequence,
        bootId := bootId env.tsc sequence, metaUnique := env.uniqueGpt metaHandle } true

/-- Consume an attempt or roll back, durably, before booting: the reason, the
slot chosen and the record on disk. -/
def prepare (e : Enregistrement) : Prog ℕ (List UInt8) (Raison × Slot × Enregistrement) := do
  let (slot, apres) := e.choisitBoot
  if apres = e then pure (.actif, slot, e)
  else if ← env.persiste apres then
    pure (if slot ≠ e.actif then .candidatEssaiConsomme else .rollbackCandidatEpuise, slot, apres)
  -- never boot a candidate whose consumed attempt is not durable
  else if slot ≠ e.actif then pure (.persistanceImpossibleReplieActif, e.actif, e)
  else pure (.rollbackNonPersiste, slot, e)

/-- Boot the chosen slot's partition, with the handoff for the kernel. -/
def amorce (p : Partitions H) (metaHandle : H) (raison : Raison) (choisi : Slot)
    (surDisque : Enregistrement) : Decision H :=
  let essaisRestants :=
    match (surDisque.slot choisi).etat with
    | .candidat essais => essais
    | _ => 0
  let passage : Passage :=
    { slot := choisi, raison := raison, essaisRestants := essaisRestants,
      sequenceMeta := surDisque.sequence, bootId := bootId env.tsc surDisque.sequence,
      metaUnique := env.uniqueGpt metaHandle }
  match (match choisi with | .A => p.a | .B => p.b) with
  | some h => .boot choisi h raison.texte passage false
  | none =>
    env.recovery p metaHandle .recoveryRequise "partition_du_slot_absente" (some surDisque)

/-- The decision from the newest valid record. -/
def decideDepuis (p : Partitions H) (metaHandle : H) (e : Enregistrement) :
    Prog ℕ (List UInt8) (Decision H) := do
  let (raison, choisi, surDisque) ← env.prepare e
  let compteur ← env.litCompteur
  -- a broken active slot is not booted forever
  match avantBoot compteur (raison = .actif) (raison = .rollbackCandidatEpuise) with
  | .recovery =>
    pure (env.recovery p metaHandle .recoveryEchecsRepetes "echecs_repetes" (some surDisque))
  | .ecrire n => do
    if n ≠ compteur then
      let _ ← env.ecritCompteur n
    pure (env.amorce p metaHandle raison choisi surDisque)

/-- The decision from what was read of the two copies. -/
def decideLu (p : Partitions H) (metaHandle : H) (lu : Option (List UInt8 × List UInt8)) :
    Prog ℕ (List UInt8) (Decision H) :=
  let e := lu.bind fun c => selectionne (c.1.take octets) (c.2.take octets)
  if env.toucheRecovery then pure (env.recovery p metaHandle .recoveryDemandee "demandee" e)
  else match e with
    | none =>
      pure (env.recovery p metaHandle .recoveryRequise
        (if lu.isNone then "meta_illisible" else "deux_copies_invalides") none)
    | some e => env.decideDepuis p metaHandle e

def decide : Prog ℕ (List UInt8) (Decision H) :=
  match env.partitions with
  | none => pure .legacy
  | some p =>
    match p.metaHandle with
    | none => pure .legacy
    | some metaHandle => do
      let lu ← env.litCopies
      env.decideLu p metaHandle lu

end Environnement

variable (D : Device ℕ (List UInt8)) (e : Enregistrement) (p : Fin 2 → Option Enregistrement)

/-- How the preparation of a boot from record `e` ends, and the pair of copies
it leaves. -/
inductive Conclut : Raison × Slot × Enregistrement → (Fin 2 → Option Enregistrement) → Prop
  | actif : e.choisitBoot = (e.actif, e) → Conclut (.actif, e.actif, e) p
  | candidat : e.choisitBoot.1 ≠ e.actif → e.choisitBoot.2 ≠ e →
      Conclut (.candidatEssaiConsomme, e.choisitBoot.1, e.choisitBoot.2)
        (update p (stale version p) (some e.choisitBoot.2))
  | rollback : e.choisitBoot.1 = e.actif → e.choisitBoot.2 ≠ e →
      Conclut (.rollbackCandidatEpuise, e.actif, e.choisitBoot.2)
        (update p (stale version p) (some e.choisitBoot.2))
  | repli {q} : D.faulty → e.choisitBoot.1 ≠ e.actif → e.choisitBoot.2 ≠ e →
      Issue p (stale version p) e.choisitBoot.2 q →
      Conclut (.persistanceImpossibleReplieActif, e.actif, e) q
  | rollbackNonPersiste {q} : D.faulty → e.choisitBoot.1 = e.actif → e.choisitBoot.2 ≠ e →
      Issue p (stale version p) e.choisitBoot.2 q → Conclut (.rollbackNonPersiste, e.actif, e) q

variable (env : Environnement H) (oe : Option Enregistrement)

/-- The decisions possible when the loader finds `oe` on the pair `p`, with the
pair they leave. -/
inductive Verdict : Decision H → (Fin 2 → Option Enregistrement) → Prop
  | legacy : (env.partitions.bind (·.metaHandle)) = none → Verdict .legacy p
  /-- RECOVERY before any record was used. -/
  | recovery {parts m raison motif oe'} : raison.estRecovery = true →
      (env.toucheRecovery = true ∨ oe = none ∨ D.faulty ∨ ¬env.MediumUtilisable) →
      Verdict (env.recovery parts m raison motif oe') p
  | amorce {parts m e r q} : env.partitions = some parts → parts.metaHandle = some m →
      oe = some e → Conclut D e p r q → Verdict (env.amorce parts m r.1 r.2.1 r.2.2) q
  /-- The active slot failed to confirm its health too often. -/
  | echecs {parts m e r q} : oe = some e → Conclut D e p r q → r.1 = .actif →
      Verdict (env.recovery parts m .recoveryEchecsRepetes "echecs_repetes" (some r.2.2)) q

/-- The pair `q` is the one found, or one that the persist of a changed boot
record can leave. -/
def Laisse (q : Fin 2 → Option Enregistrement) : Prop :=
  q = p ∨ ∃ e, oe = some e ∧ e.choisitBoot.2 ≠ e ∧ Issue p (stale version p) e.choisitBoot.2 q

def Encadre (d : Disk ℕ (List UInt8)) : Prop :=
  ∀ d', (d' = d ∨ D.cut d d') → Laisse p oe (lus copiesMeta d')

/-- The copies are settled and show the pair `q`. -/
def Montre (q : Fin 2 → Option Enregistrement) (d : Disk ℕ (List UInt8)) : Prop :=
  CopiesPosees copiesMeta d ∧ lus copiesMeta d = q

variable {D e p env oe} {q : Fin 2 → Option Enregistrement} {d d' : Disk ℕ (List UInt8)}
  {I : Disk ℕ (List UInt8) → Prop} {W : ℕ → Prop}

theorem Montre.cut (h : Montre q d) (hc : D.cut d d') : Montre q d' := by
  have hs : CopiesPosees copiesMeta d' := copiesPosees_of_cut hc
  exact ⟨hs, (h.1.lus_eq hs fun i => D.cut_settled hc (h.1 i)).trans h.2⟩

theorem Montre.encadre (h : Montre q d) (hq : Laisse p oe q) : Encadre D p oe d := by
  intro d' hd
  have hm : Montre q d' := by
    rcases hd with rfl | hc
    · exact h
    · exact h.cut hc
  rwa [hm.2]

theorem encadre_of_atomique (hne : e.choisitBoot.2 ≠ e)
    (h : Atomique D copiesMeta p (stale version p) e.choisitBoot.2 d) :
    Encadre D p (some e) d := by
  intro d' hd
  refine .inr ⟨e, rfl, hne, ?_⟩
  rcases hd with rfl | hc
  · exact h.1
  · exact h.2 d' hc

variable {r : Raison × Slot × Enregistrement}

theorem Conclut.laisse (h : Conclut D e p r q) : Laisse p (some e) q := by
  cases h with
  | actif _ => exact .inl rfl
  | candidat _ hne => exact .inr ⟨e, rfl, hne, .inr (.inr rfl)⟩
  | rollback _ hne => exact .inr ⟨e, rfl, hne, .inr (.inr rfl)⟩
  | repli _ _ hne hi => exact .inr ⟨e, rfl, hne, hi⟩
  | rollbackNonPersiste _ _ hne hi => exact .inr ⟨e, rfl, hne, hi⟩

theorem Conclut.candidat_inv (h : Conclut D e p r q)
    (hr : r.1 = .candidatEssaiConsomme) : e.choisitBoot.1 ≠ e.actif ∧
      r = (.candidatEssaiConsomme, e.choisitBoot.1, e.choisitBoot.2) ∧
      q = update p (stale version p) (some e.choisitBoot.2) := by
  cases h with
  | candidat hne _ => exact ⟨hne, rfl, rfl⟩
  | actif _ => cases hr
  | rollback _ _ => cases hr
  | repli _ _ _ _ => cases hr
  | rollbackNonPersiste _ _ _ _ => cases hr

theorem Conclut.raison_of_ne (h : Conclut D e p r q) (hr : r.2.1 ≠ e.actif) : r.1 = .candidatEssaiConsomme := by
  cases h with
  | candidat _ _ => rfl
  | actif _ => exact absurd rfl hr
  | rollback _ _ => exact absurd rfl hr
  | repli _ _ _ _ => exact absurd rfl hr
  | rollbackNonPersiste _ _ _ _ => exact absurd rfl hr

theorem Conclut.not_recovery (h : Conclut D e p r q) : r.1.estRecovery = false := by
  cases h <;> rfl

theorem durable_of_lus {t : Fin 2} {n : Enregistrement} (hs : CopiesPosees copiesMeta d)
    (hl : lus copiesMeta d = update p t (some n)) :
    ∃ i, d.Settled (copiesMeta i) ∧ decodeBloc (d.durable (copiesMeta i)) = some n := by
  refine ⟨t, hs t, ?_⟩
  have ht : lus copiesMeta d t = some n := by rw [hl, update_self]
  rwa [lus, (hs t).read_eq] at ht

theorem version_ne_suivant (e : Enregistrement) (s : Slot) (t : Etat) :
    version e ≠ version (e.suivant.avecEtat s t) := by
  intro h
  simp only [version, avecEtat_sequence, suivant_sequence, UInt64.toNat_add, UInt64.toNat_one] at h
  omega

theorem version_ne_choisitBoot (h : e.choisitBoot.2 ≠ e) : version e ≠ version e.choisitBoot.2 := by
  rcases choisitBoot_cases e with ⟨essais, -, -, hb⟩ | ⟨-, hb⟩ | ⟨-, hb⟩
  · rw [hb]
    exact version_ne_suivant e _ _
  · rw [hb]
    exact version_ne_suivant e _ _
  · exact absurd (by rw [hb]) h

/-- An interrupted boot leaves consistent copies, and the record before or
after the change as the current one. -/
theorem Laisse.courant (hl : Laisse p (some e) q) (hc : Consistent version p)
    (he : newest version p = some e) :
    Consistent version q ∧ (newest version q = some e ∨
      (e.choisitBoot.2 ≠ e ∧ newest version q = some e.choisitBoot.2)) := by
  rcases hl with rfl | ⟨e1, he1, hsame, hi⟩
  · exact ⟨hc, .inl he⟩
  · cases he1
    have hg := hc.guards_stale he
    have hne := version_ne_choisitBoot hsame
    refine ⟨hi.coherentes hg hc hne, ?_⟩
    rcases hi.courant_of_ne hg hne with hcur | hcur
    · exact .inl hcur
    · exact .inr ⟨hsame, hcur⟩

theorem wp_persiste (hD : DetecteDechirure D copiesMeta) (hu : env.MediumUtilisable)
    {n : Enregistrement} (hn : n.ActifBon) (hs : CopiesPosees copiesMeta d) :
    wp D (Atomique D copiesMeta (lus copiesMeta d) (stale version (lus copiesMeta d)) n)
      (fun x => x ≤ 2)
      (fun b d' => CopiesPosees copiesMeta d' ∧ (b = false → D.faulty) ∧
        (b = true → lus copiesMeta d' =
          update (lus copiesMeta d) (stale version (lus copiesMeta d)) (some n)))
      (env.persiste n) d := by
  have h := (wp_persisteCopies (P := toute) hD (fun _ => rfl) hn hs rfl).and_inv
  rw [persiste, if_pos hu]
  refine wp_bind _ _ _ (h.mono (fun _ h => h) ?_ ?_)
  · rintro x rfl
    simp only [copiesMeta]
    omega
  · rintro (msg | u) d' ⟨hI, hA⟩
    · refine ⟨hI, hA.posees, fun _ => ?_, by simp⟩
      by_contra hf
      cases hA.reussit hf
    · exact ⟨hI, hA.posees, by simp, fun _ => hA.durable rfl⟩

theorem wp_prepare (hD : DetecteDechirure D copiesMeta) (hu : env.MediumUtilisable)
    (he : e.ActifBon) (hs : CopiesPosees copiesMeta d) :
    wp D (Encadre D (lus copiesMeta d) (some e)) (fun x => x ≤ 2)
      (fun r d' => CopiesPosees copiesMeta d' ∧ Conclut D e (lus copiesMeta d) r (lus copiesMeta d'))
      (env.prepare e) d := by
  have hd : Encadre D (lus copiesMeta d) (some e) d := Montre.encadre ⟨hs, rfl⟩ (.inl rfl)
  unfold prepare
  by_cases hsame : e.choisitBoot.2 = e
  · have hactif : e.choisitBoot = (e.actif, e) := by
      rcases choisitBoot_cases e with ⟨essais, -, -, h⟩ | ⟨-, h⟩ | ⟨-, h⟩
      · simp [h, Enregistrement.ext_iff] at hsame
      · simp [h, Enregistrement.ext_iff] at hsame
      · exact h
    simp only [hactif, if_true]
    exact ⟨hd, hs, .actif hactif⟩
  · have hn := ((suit_choisitBoot he).resolve_left hsame).actifBon
    simp only [hsame, if_false]
    refine wp_bind _ _ _ ((wp_persiste hD hu hn hs).and_inv.mono
      (fun _ => encadre_of_atomique hsame) (fun _ h => h) ?_)
    rintro b d' ⟨hI, hs', hf, hok⟩
    have hE : Encadre D (lus copiesMeta d) (some e) d' := encadre_of_atomique hsame hI
    cases b with
    | true =>
      refine ⟨hE, hs', ?_⟩
      rw [hok rfl]
      by_cases hslot : e.choisitBoot.1 = e.actif
      · simpa [hslot] using Conclut.rollback hslot hsame
      · simpa [hslot] using Conclut.candidat hslot hsame
    | false =>
      by_cases hslot : e.choisitBoot.1 = e.actif
      · simpa [hslot] using ⟨hE, hs', .rollbackNonPersiste (hf rfl) hslot hsame hI.1⟩
      · simpa [hslot] using ⟨hE, hs', .repli (hf rfl) hslot hsame hI.1⟩

theorem wp_litCompteur {Q : UInt32 → Disk ℕ (List UInt8) → Prop} (hI : I d)
    (hQ : ∀ c, Q c d) : wp D I W Q env.litCompteur d := by
  unfold litCompteur
  split
  · exact ⟨hI, hQ 0⟩
  · exact wp_bind _ _ _ (wp_litBloc hI ⟨hI, hQ _⟩ fun _ => ⟨hI, hQ 0⟩)

theorem Montre.write_compteur (h : Montre q d) (b : List UInt8) : Montre q (d.write [(bloc, b)]) := by
  have hne : ∀ i, bloc ≠ copiesMeta i := by
    intro i
    simp only [bloc, copiesMeta]
    omega
  refine ⟨fun i => (h.1 i).write (by simpa using hne i), ?_⟩
  rw [← h.2]
  funext i
  rw [lus, lus, Disk.read_write_of_notMem (by simpa using hne i)]

theorem Montre.flush (h : Montre q d) : Montre q (d.flush toute) := by
  refine ⟨fun i => Disk.flush_settled _ rfl, ?_⟩
  rw [← h.2]
  funext i
  simp [lus]

theorem Montre.fault (hD : DetecteDechirure D copiesMeta) (h : Montre q d)
    (hf : D.fault d d') : Montre q d' := by
  have hs := (hD.fault hf).1
  exact ⟨hs, (h.1.lus_eq hs fun i => (D.fault_settled hf (h.1 i)).2).trans h.2⟩

theorem wp_ecritCompteur (hD : DetecteDechirure D copiesMeta) (h : Montre q d) (n : UInt32) :
    wp D (Montre q) (fun x => x ≤ 2) (fun _ d' => Montre q d') (env.ecritCompteur n) d := by
  unfold ecritCompteur
  split
  · exact ⟨h, h⟩
  · have hw := h.write_compteur (splice (List.replicate env.tailleBloc 0) 0 (encode n))
    refine wp_bind _ _ _ (wp_ecrit h (by simp [bloc]) ⟨hw, ?_⟩ ?_)
    · exact wp_vidange hw ⟨hw.flush, hw.flush⟩ fun _ d' hf => ⟨hw.fault hD hf, hw.fault hD hf⟩
    · intro _ d' hf
      exact ⟨hw.fault hD hf, hw.fault hD hf, hw.fault hD hf⟩

/-- What holds while a decision is taken from the record `oe`, and once it is. -/
abbrev Decide (D : Device ℕ (List UInt8)) (env : Environnement H) (d : Disk ℕ (List UInt8))
    (oe : Option Enregistrement) : Prog ℕ (List UInt8) (Decision H) → Disk ℕ (List UInt8) → Prop :=
  wp D (Encadre D (lus copiesMeta d) oe) (fun x => x ≤ 2) fun dec d' =>
    CopiesPosees copiesMeta d' ∧ Verdict D (lus copiesMeta d) env oe dec (lus copiesMeta d')

theorem wp_decideDepuis {parts : Partitions H} {m : H} (hp : env.partitions = some parts)
    (hm : parts.metaHandle = some m) (hD : DetecteDechirure D copiesMeta)
    (hu : env.MediumUtilisable) (he : e.ActifBon) (hs : CopiesPosees copiesMeta d) :
    Decide D env d (some e) (env.decideDepuis parts m e) d := by
  refine wp_bind _ _ _ ((wp_prepare hD hu he hs).imp ?_)
  rintro ⟨raison, choisi, surDisque⟩ d' ⟨hs', hc⟩
  have hmontre : Montre (lus copiesMeta d') d' := ⟨hs', rfl⟩
  have hE : ∀ d'', Montre (lus copiesMeta d') d'' →
      Encadre D (lus copiesMeta d) (some e) d'' := fun _ h => h.encadre hc.laisse
  have hamorce {d''} (h : Montre (lus copiesMeta d') d'') :
      Decide D env d (some e) (.pure (env.amorce parts m raison choisi surDisque)) d'' :=
    ⟨hE _ h, h.1, h.2 ▸ .amorce hp hm rfl hc⟩
  refine wp_bind _ _ _ (wp_litCompteur (hE _ hmontre) fun compteur => ?_)
  cases hav : avantBoot compteur (raison = .actif) (raison = .rollbackCandidatEpuise) with
  | recovery =>
    have hactif : raison = .actif := by simpa using (avantBoot_recovery.mp hav).2.1
    exact ⟨hE _ hmontre, hs', .echecs rfl hc hactif⟩
  | ecrire n =>
    by_cases hn : n = compteur
    · simpa [hn] using hamorce hmontre
    · simp only [hn, ne_eq, not_false_eq_true, if_true]
      refine wp_bind _ _ _ ((wp_ecritCompteur hD hmontre n).mono hE (fun _ h => h) ?_)
      exact fun _ _ => hamorce

theorem wp_decide (env : Environnement H) (hD : DetecteDechirure D copiesMeta)
    (hs : CopiesPosees copiesMeta d) : Decide D env d (selection copiesMeta d) env.decide d := by
  have hd : Encadre D (lus copiesMeta d) (selection copiesMeta d) d :=
    Montre.encadre ⟨hs, rfl⟩ (.inl rfl)
  unfold Environnement.decide
  split
  · exact ⟨hd, hs, .legacy (by simp [*])⟩
  rename_i parts hp
  split
  · exact ⟨hd, hs, .legacy (by simp [*])⟩
  rename_i m hm
  have hnone (hc : D.faulty ∨ ¬env.MediumUtilisable) :
      Decide D env d (selection copiesMeta d) (env.decideLu parts m none) d := by
    unfold decideLu
    split
    · exact ⟨hd, hs, .recovery rfl (.inr (.inr hc))⟩
    · exact ⟨hd, hs, .recovery rfl (.inr (.inr hc))⟩
  by_cases hu : env.MediumUtilisable
  · rw [Environnement.litCopies, if_pos hu]
    refine wp_bind _ _ _ (wp_litCopies hd ?_ fun hf => hnone (.inl hf))
    unfold decideLu
    split
    · exact ⟨hd, hs, .recovery rfl (.inl ‹_›)⟩
    change wp D _ _ _ (match selection copiesMeta d with | none => _ | some e => _) d
    cases he : selection copiesMeta d with
    | none => exact ⟨he ▸ hd, hs, .recovery rfl (.inr (.inl rfl))⟩
    | some e => exact wp_decideDepuis hp hm hD hu (actifBon_of_selection he) hs
  · rw [Environnement.litCopies, if_neg hu]
    exact hnone (.inr hu)

variable {parts : Partitions H} {m h : H} {raison : Raison} {motif texte : String}
  {choisi s : Slot} {x : Enregistrement} {passage : Passage} {rec : Bool}

theorem recovery_eq_boot (hr : env.recovery parts m raison motif oe = .boot s h texte passage rec) :
    rec = true ∧ passage.raison = raison := by
  unfold recovery at hr
  split at hr
  · cases hr
  · cases hr
    exact ⟨rfl, rfl⟩

theorem amorce_eq_boot (ha : env.amorce parts m raison choisi x = .boot s h texte passage rec) :
    (rec = false ∧ choisi = s ∧ passage.slot = s ∧ passage.raison = raison ∧
      passage.sequenceMeta = x.sequence) ∨ (rec = true ∧ passage.raison = .recoveryRequise) := by
  unfold amorce at ha
  simp only at ha
  split at ha
  · cases ha
    exact .inl ⟨rfl, rfl, rfl, rfl, rfl⟩
  · exact .inr (recovery_eq_boot ha)

theorem Verdict.systeme (hv : Verdict D p env oe (.boot s h texte passage false) q) :
    ∃ e r, oe = some e ∧ Conclut D e p r q ∧ r.2.1 = s ∧ passage.slot = s ∧
      passage.raison = r.1 ∧ passage.sequenceMeta = r.2.2.sequence := by
  generalize hdec : Decision.boot s h texte passage false = dec at hv
  cases hv with
  | legacy _ => cases hdec
  | recovery _ _ => cases (recovery_eq_boot hdec.symm).1
  | echecs _ _ _ => cases (recovery_eq_boot hdec.symm).1
  | @amorce _ _ e r _ _ _ he hc =>
    rcases amorce_eq_boot hdec.symm with ⟨-, hs, hslot, hraison, hseq⟩ | ⟨hrec, -⟩
    · exact ⟨e, r, he, hc, hs, hslot, hraison, hseq⟩
    · cases hrec

theorem Verdict.estRecovery (hv : Verdict D p env oe (.boot s h texte passage true) q) :
    passage.raison.estRecovery = true := by
  generalize hdec : Decision.boot s h texte passage true = dec at hv
  cases hv with
  | legacy _ => cases hdec
  | recovery hr _ => rw [(recovery_eq_boot hdec.symm).2, hr]
  | echecs _ _ _ =>
    rw [(recovery_eq_boot hdec.symm).2]
    rfl
  | amorce _ _ _ _ =>
    rcases amorce_eq_boot hdec.symm with ⟨hrec, -⟩ | ⟨-, hr⟩
    · cases hrec
    · rw [hr]
      rfl

end BouchaudOS.Update.Chargeur
