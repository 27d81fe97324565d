import BouchaudOS.Update.Codec

/-!
# The handoff from the loader to the kernel

`system/update-core/src/passage.rs`: the loader tells the kernel which slot it
booted, why, and from which record. `commitSante` is what a health confirmation
does to the record now on disk.
-/
namespace BouchaudOS.Update

/-- Why the loader booted this slot. -/
inductive Raison
  /-- The active (known good) slot, nothing pending. -/
  | actif
  /-- A candidate, its attempt consumed and durable before the handoff. -/
  | candidatEssaiConsomme
  /-- The candidate ran out of attempts: rolled back to the active slot. -/
  | rollbackCandidatEpuise
  /-- Rollback chosen but the record could not be written. -/
  | rollbackNonPersiste
  /-- A candidate was due but its attempt could not be made durable. -/
  | persistanceImpossibleReplieActif
  /-- No valid metadata, or a slot partition is missing. -/
  | recoveryRequise
  /-- The operator asked for it at the boot prompt. -/
  | recoveryDemandee
  /-- The active slot failed to confirm health several boots in a row. -/
  | recoveryEchecsRepetes
  deriving DecidableEq, Repr

namespace Raison

def texte : Raison → String
  | actif => "actif"
  | candidatEssaiConsomme => "candidat_essai_consomme"
  | rollbackCandidatEpuise => "rollback_candidat_epuise"
  | rollbackNonPersiste => "rollback_non_persiste"
  | persistanceImpossibleReplieActif => "persistance_essai_impossible_repli_actif"
  | recoveryRequise => "recovery_requise"
  | recoveryDemandee => "recovery_demandee"
  | recoveryEchecsRepetes => "recovery_echecs_repetes"

def estRecovery : Raison → Bool
  | recoveryRequise | recoveryDemandee | recoveryEchecsRepetes => true
  | _ => false

end Raison

structure Passage where
  slot : Slot
  raison : Raison
  essaisRestants : UInt8
  sequenceMeta : UInt64
  bootId : UInt64
  metaUnique : Vector UInt8 16
  deriving DecidableEq, Repr

/-- Why a health commit is refused. -/
inductive RefusCommit
  /-- The record on disk is not the one the loader booted from. -/
  | metaChangee
  /-- The booted slot is neither a pending candidate nor the good active slot. -/
  | slotNiCandidatNiActif
  deriving DecidableEq, Repr

/-- What a health confirmation does to the record: `some n` is to be persisted,
`none` means that the booted slot is already the good active one. -/
def commitSante (p : Passage) (e : Enregistrement) : Except RefusCommit (Option Enregistrement) :=
  -- recovery is not a system: nothing it runs may confirm a slot
  if p.raison.estRecovery then .error .slotNiCandidatNiActif
  else if e.actif = p.slot ∧ (e.slot p.slot).etat = .bon then .ok none
  else if e.sequence ≠ p.sequenceMeta then .error .metaChangee
  else match (e.slot p.slot).etat with
    | .candidat _ =>
        if p.raison = .candidatEssaiConsomme then .ok (some (e.santeOk p.slot))
        else .error .slotNiCandidatNiActif
    | _ => .error .slotNiCandidatNiActif

/-- A commit that writes a record promotes the pending candidate it booted, on
the very record it booted from. -/
theorem commitSante_some {p : Passage} {e n : Enregistrement} (h : commitSante p e = .ok (some n)) :
    p.raison = .candidatEssaiConsomme ∧ e.sequence = p.sequenceMeta ∧
      (e.slot p.slot).etat.EstCandidat ∧ n = e.santeOk p.slot := by
  unfold commitSante at h
  cases he : (e.slot p.slot).etat with
  | candidat essais =>
    simp only [he, reduceCtorEq, and_false, if_false] at h
    split_ifs at h with hrec hseq hraison
    cases h
    exact ⟨hraison, not_not.mp hseq, trivial, rfl⟩
  | vide | bon | mauvais =>
    simp only [he, and_true, reduceCtorEq, and_false, if_false] at h
    split_ifs at h <;> cases h

theorem commitSante_of_actif {p : Passage} {e : Enregistrement}
    (hr : p.raison.estRecovery = false) (ha : e.actif = p.slot) (hb : e.ActifBon) :
    commitSante p e = .ok none := by
  have hbon : (e.slot p.slot).etat = .bon := ha ▸ hb
  simp [commitSante, hr, ha, hbon]

theorem commitSante_of_recovery {p : Passage} (hr : p.raison.estRecovery = true)
    (e : Enregistrement) : commitSante p e = .error .slotNiCandidatNiActif := by
  simp [commitSante, hr]

end BouchaudOS.Update
