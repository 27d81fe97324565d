import BouchaudOS.Update.Codec

/-!
# Unconfirmed boots of the active slot

`system/update-core/src/echecs.rs`: META block 2 counts the boots of the active
slot that no health check confirmed. Anything but a well-formed counter reads
as 0, so that an unreadable counter never sends a machine to recovery.
-/
namespace BouchaudOS.Update.Echecs

open Bytes

def octets : ℕ := 16

def bloc : ℕ := 2

def seuil : UInt32 := 3

def magic : List UInt8 := [0x42, 0x4f, 0x45, 0x43]

def corps (n : UInt32) : List UInt8 :=
  splice (splice (List.replicate octets 0) 0 magic) 4 (leBytes 4 n.toNat)

def encode (n : UInt32) : List UInt8 :=
  splice (corps n) 12 (leBytes 4 (crc32 (slice (corps n) 0 12)).toNat)

def decode (o : List UInt8) : UInt32 :=
  if o.length < octets ∨ slice o 0 4 ≠ magic ∨ slice o 8 4 ≠ [0, 0, 0, 0] then 0
  else if UInt32.ofNat (ofLeBytes (slice o 12 4)) ≠ crc32 (slice o 0 12) then 0
  else UInt32.ofNat (ofLeBytes (slice o 4 4))

/-- What the loader does with the counter, given the A/B decision. -/
inductive Avant
  /-- Write this value durably and boot as decided. -/
  | ecrire (n : UInt32)
  /-- Too many unconfirmed boots of the active slot. -/
  | recovery
  deriving DecidableEq, Repr

def avantBoot (compteur : UInt32) (actifNormal rollback : Bool) : Avant :=
  if rollback then .ecrire 0
  else if !actifNormal then .ecrire compteur
  else if compteur ≥ seuil then .recovery
  else .ecrire (compteur + 1)

/-- Recovery is chosen only for a normal boot of an active slot that failed to
confirm `seuil` times. -/
theorem avantBoot_recovery {compteur : UInt32} {actifNormal rollback : Bool} :
    avantBoot compteur actifNormal rollback = .recovery ↔
      rollback = false ∧ actifNormal = true ∧ seuil ≤ compteur := by
  unfold avantBoot
  cases rollback <;> cases actifNormal <;> simp

end BouchaudOS.Update.Echecs
