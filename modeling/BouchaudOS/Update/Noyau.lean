import BouchaudOS.Gpt
import BouchaudOS.Update.Copies
import BouchaudOS.Update.Echecs
import BouchaudOS.Update.Manifeste
import BouchaudOS.Update.Passage

/-!
# The kernel's update mechanism

`src/kernel/update/mod.rs`: the kernel finds the META partition the loader
used, confirms health, rolls back, and installs an image into the inactive
slot. Each entry point takes the kernel's static state and returns the new one
with its result; the log lines are left out. The running SHA-256 is modelled by
the bytes it was fed, the hash function and the signature check are parameters.
-/
namespace BouchaudOS.Update.Noyau

open Bytes Gpt
open Prog hiding pure

/-- What the mechanism is given. -/
structure Contexte where
  materiel : Materiel
  cles : List CleDeConfiance
  ed25519 : Vector UInt8 32 → List UInt8 → List UInt8 → Bool
  sha256 : List UInt8 → Image

/-- The type GUIDs of the Bouchaud partitions differ in one field. -/
def typeBouchaud (n : UInt16) : Guid :=
  ⟨0xB0DC8A5D, n, 0x4B0D, #v[0x9E, 0x21, 0x42, 0x4F, 0x55, 0x43, 0x48, 0x44]⟩

def typeMeta : Guid := typeBouchaud 2

def typeDuSlot : Slot → Guid
  | .A => typeBouchaud 3
  | .B => typeBouchaud 4

/-- Volumes that can carry the boot disk: NVMe, USB, the ATA boot disk. -/
def candidats : List Volume := [2, 3, 0]

structure Meta where
  support : SupportVolume
  premier : UInt64

def Meta.copie (m : Meta) (i : Fin 2) : Adresse := (m.support.volume, m.premier + UInt64.ofNat i)

def Meta.medium (m : Meta) (a : Adresse) : Bool := a.1 = m.support.volume

variable (ctx : Contexte)

/-- The first volume whose table lists the META partition of the handoff. -/
def chercheMeta (p : Passage) : List Volume → ProgBloc (Except String (SupportVolume × Partition))
  | [] => pure (.error "meta_introuvable")
  | volume :: reste =>
    let d := ctx.materiel.descripteur volume
    if !ctx.materiel.present volume then chercheMeta p reste
    else if d.blocs = 0 ∨ d.tailleBloc.toNat < octets then chercheMeta p reste
    else do
      let support : SupportVolume := ⟨volume, d.tailleBloc, d.blocs⟩
      match ← litTable support with
      | .error _ => chercheMeta p reste
      | .ok (parts, _) =>
        match parts.find? fun x => x.typeGuid = typeMeta ∧ x.unique.octets = p.metaUnique.toList with
        | none => chercheMeta p reste
        | some m =>
          if m.blocs < 2 then pure (.error "meta_trop_petite")
          else if !d.vidangeReelle then pure (.error "volume_sans_vidange_reelle")
          else pure (.ok (support, m))

/-- The partition entry that `trouveMeta` settles on. -/
def trouvePartitionMeta (p : Passage) : ProgBloc (Except String (SupportVolume × Partition)) :=
  if p.metaUnique = Vector.replicate 16 0 then pure (.error "meta_sans_identite")
  else chercheMeta ctx p candidats

def trouveMeta (p : Passage) : ExceptT String ProgBloc Meta := do
  let (support, m) ← ExceptT.mk (trouvePartitionMeta ctx p)
  return ⟨support, m.premier⟩

def lit (m : Meta) : ExceptT String ProgBloc Enregistrement := do
  match ← (litCopies m.copie : ProgBloc _) with
  | none => throw "meta_illisible"
  | some (c0, c1) =>
    match selectionne (c0.take octets) (c1.take octets) with
    | none => throw "deux_copies_invalides"
    | some e => return e

def persiste (m : Meta) (e : Enregistrement) : ExceptT String ProgBloc Unit :=
  ExceptT.mk (persisteCopies m.copie m.medium e)

/-- META block 2: unconfirmed boots of the active slot. The size of the
partition is not checked here. -/
def ecritCompteur (m : Meta) (n : UInt32) : ExceptT String ProgBloc Unit := do
  let b := splice (List.replicate m.support.tailleBloc.toNat 0) 0 (Echecs.encode n)
  let adresse : Adresse := (m.support.volume, m.premier + UInt64.ofNat Echecs.bloc)
  if !(← (ecrit [(adresse, b)] : ProgBloc _)) then throw "compteur_ecriture"
  if !(← (vidange m.medium : ProgBloc _)) then throw "compteur_vidange"

/-- Why an install step is refused. -/
inductive RefusInstall
  /-- Policy or capability state: wrong slot, no begin, out of the slot. -/
  | refuse (raison : String)
  /-- Malformed request (alignment, size). -/
  | argument (raison : String)
  /-- The device failed (write, flush, read back). -/
  | io (raison : String)
  deriving DecidableEq, Repr

/-- An installation session. -/
structure Installation where
  proprietaire : UInt32
  /-- From the signed manifest: what finish must find on the disk. -/
  attendu : Image
  attenduOctets : UInt64
  attenduEssais : UInt8
  /-- Bytes already read back (0: not started). -/
  verifie : UInt64
  cible : Slot
  volume : Volume
  tailleBloc : UInt64
  premier : UInt64
  octets : UInt64
  /-- The entry `premier` and `octets` were taken from, for the specification only. -/
  partition : Partition

/-- The static variables of the module. -/
structure EtatNoyau where
  passage : Option Passage
  committe : Bool
  installation : Option Installation
  /-- The bytes fed to the running SHA-256. -/
  verification : Option (List UInt8)

/-- The session, if the caller owns it. -/
def EtatNoyau.session (s : EtatNoyau) (appelant : UInt32) : Except RefusInstall Installation :=
  match s.installation with
  | none => .error (.refuse "sans_begin")
  | some inst =>
    if inst.proprietaire ≠ appelant then .error (.refuse "session_d_un_autre_processus")
    else .ok inst

def EtatNoyau.modifieSession (s : EtatNoyau) (f : Installation → Installation) : EtatNoyau :=
  { s with installation := s.installation.map f }

inductive Commit
  /-- The booted candidate is now the active, good slot. -/
  | committe
  /-- Already the good active slot: nothing written. -/
  | dejaSain
  deriving DecidableEq, Repr

def rollbackManuel (s : EtatNoyau) : ExceptT String ProgBloc Slot := do
  let some p := s.passage | throw "sans_passage"
  let m ← trouveMeta ctx p
  let e ← lit m
  match e.revient with
  | .error _ => throw "version_precedente_pas_bonne"
  | .ok n =>
    persiste m n
    ecritCompteur m 0
    return n.actif

def remetCompteur (s : EtatNoyau) : ExceptT String ProgBloc Unit := do
  let some p := s.passage | throw "sans_passage"
  let m ← trouveMeta ctx p
  ecritCompteur m 0

/-- The health commit on the record now on disk. -/
def commitSanteMeta (p : Passage) : ExceptT String ProgBloc Commit := do
  let m ← trouveMeta ctx p
  let e ← lit m
  match Update.commitSante p e with
  | .ok none =>
    ecritCompteur m 0
    return .dejaSain
  | .ok (some n) =>
    persiste m n
    ecritCompteur m 0
    return .committe
  | .error .metaChangee => throw "meta_changee_depuis_le_boot"
  | .error .slotNiCandidatNiActif => throw "slot_ni_candidat_ni_actif"

/-- Declare the running boot healthy. -/
def commitSante (s : EtatNoyau) : ProgBloc (Except String Commit × EtatNoyau) :=
  match s.passage with
  | none => pure (.error "sans_passage", s)
  | some p =>
    if s.committe then pure (.ok .dejaSain, s)
    else do
      let r ← (commitSanteMeta ctx p).run
      match r with
      | .ok .committe => pure (r, { s with committe := true })
      | _ => pure (r, s)

def texteManifeste : RefusManifeste → String
  | .aucuneCleDeConfiance => "aucune_cle_de_confiance"
  | .signatureNonFiable => "signature_non_fiable"
  | .format => "manifeste_non_canonique"

def texteCommence : Refus → String
  | .cibleEnCoursDExecution => "cible_en_cours_d_execution"
  | .cibleActive => "cible_active"
  | .candidatEnCours => "candidat_en_cours"
  | _ => "etat_inattendu"

def texteMarque : Refus → String
  | .imageNonVerifiee => "empreinte_differente"
  | .essaisNuls => "essais_nuls"
  | .cibleActive => "cible_active"
  | _ => "etat_inattendu"

/-- The session that a signed manifest opens, once the slot is empty on disk. -/
def prepareInstallation (appelant : UInt32) (cible : Slot) (texte signature : List UInt8)
    (s : EtatNoyau) : ExceptT RefusInstall ProgBloc Installation := do
  match Manifeste.verifieSigne ctx.ed25519 texte signature ctx.cles with
  | .error refus => throw (.refuse (texteManifeste refus))
  | .ok (signe, _) =>
    let some p := s.passage | throw (.refuse "sans_passage")
    let m ← traduit .refuse (trouveMeta ctx p).run
    let e ← traduit .io (lit m).run
    match e.commenceInstallation cible p.slot with
    | .error refus => throw (.refuse (texteCommence refus))
    | .ok n =>
      let (parts, _) ← traduit (fun _ => .io "gpt") (litTable m.support)
      match parts.find? fun x => x.typeGuid = typeDuSlot cible with
      | none => throw (.refuse "slot_introuvable")
      | some part =>
        let octets := part.blocs * m.support.tailleBloc
        if signe.octets > octets then throw (.refuse "image_plus_grande_que_le_slot")
        else
          -- the slot becomes empty on disk before any byte of it is overwritten
          traduit .io (persiste m n).run
          return { proprietaire := appelant, verifie := 0, attendu := signe.empreinte,
                   attenduOctets := signe.octets, attenduEssais := signe.essais,
                   cible := cible, volume := m.support.volume,
                   tailleBloc := m.support.tailleBloc, premier := part.premier,
                   octets := octets, partition := part }

def installationCommence (appelant : UInt32) (cible : Slot) (texte signature : List UInt8)
    (s : EtatNoyau) : ProgBloc (Except RefusInstall Unit × EtatNoyau) := do
  match ← (prepareInstallation ctx appelant cible texte signature s).run with
  | .error refus => pure (.error refus, s)
  | .ok inst => pure (.ok (), { s with installation := some inst, verification := none })

def installationEcrit (appelant : UInt32) (decalage : UInt64) (donnees : List UInt8)
    (s : EtatNoyau) : ProgBloc (Except RefusInstall Unit × EtatNoyau) :=
  match s.session appelant with
  | .error refus => pure (.error refus, s)
  | .ok inst =>
    let t := inst.tailleBloc
    if donnees = [] ∨ decalage % t ≠ 0 ∨ donnees.length % t.toNat ≠ 0 then
      pure (.error (.argument "non_aligne"), s)
    else if 2 ^ 64 ≤ decalage.toNat + donnees.length then pure (.error (.refuse "hors_slot"), s)
    else if inst.octets.toNat < decalage.toNat + donnees.length then
      pure (.error (.refuse "hors_slot"), s)
    else do
      let n := donnees.length / t.toNat
      -- any write invalidates a readback in progress
      let s := { s.modifieSession fun i => { i with verifie := 0 } with verification := none }
      if ← ecritBlocs inst.volume t.toNat (inst.premier + decalage / t) n donnees then
        pure (.ok (), s)
      else pure (.error (.io "ecriture"), s)

/-- Read the next chunk of the slot; no request is made for no block. -/
def relecture (longueur : UInt64) (inst : Installation) : ProgBloc (Option (List UInt8)) :=
  let t := inst.tailleBloc
  let reste := longueur - inst.verifie
  let blocs := min ((reste + t - 1) / t) (1024 * 1024 / t)
  if blocs = 0 then pure (some [])
  else litBlocs inst.volume t.toNat (inst.premier + inst.verifie / t) blocs.toNat

/-- Feed the useful part of a chunk to the running hash. -/
def nourrit (appelant : UInt32) (longueur : UInt64) (inst : Installation) (tampon : List UInt8)
    (s : EtatNoyau) : Except RefusInstall UInt64 × EtatNoyau :=
  let utile := min tampon.length (longueur - inst.verifie).toNat
  match s.verification with
  | none => (.error (.refuse "verification_interrompue"), s)
  | some lu =>
    let s := { s with verification := some (lu ++ tampon.take utile) }
    match s.session appelant with
    | .error _ => (.error (.refuse "session_perdue"), s)
    | .ok i =>
      let verifie := i.verifie + UInt64.ofNat utile
      (.ok (longueur - verifie), s.modifieSession fun i => { i with verifie := verifie })

/-- The next step of a read-back; `s` has it started. -/
def verifieSuite (appelant : UInt32) (longueur : UInt64) (inst : Installation) (s : EtatNoyau) :
    ProgBloc (Except RefusInstall UInt64 × EtatNoyau) :=
  if inst.verifie ≥ longueur then pure (.ok 0, s)
  else do
    match ← relecture longueur inst with
    | none => pure (.error (.io "relecture"), s)
    | some tampon => pure (nourrit appelant longueur inst tampon s)

/-- Read back the next chunk (at most 1 MiB) of the first `longueur` bytes of the
slot. The first call flushes the device. -/
def installationVerifie (appelant : UInt32) (longueur : UInt64) (s : EtatNoyau) :
    ProgBloc (Except RefusInstall UInt64 × EtatNoyau) :=
  match s.session appelant with
  | .error refus => pure (.error refus, s)
  | .ok inst =>
    if longueur = 0 ∨ longueur > inst.octets then pure (.error (.argument "longueur"), s)
    else if inst.verifie = 0 then do
      if ← vidangeVolume ctx.materiel inst.volume then
        verifieSuite appelant longueur inst { s with verification := some [] }
      else pure (.error (.io "vidange"), s)
    else verifieSuite appelant longueur inst s

/-- Mark the target as a candidate once its digest is the signed one. -/
def marque (inst : Installation) (p : Passage) (relue : Image) : ExceptT RefusInstall ProgBloc Unit := do
  let m ← traduit .refuse (trouveMeta ctx p).run
  let e ← traduit .io (lit m).run
  match e.marqueCandidat inst.cible inst.attendu relue inst.attenduEssais with
  | .error refus => throw (.refuse (texteMarque refus))
  | .ok n => traduit .io (persiste m n).run

def installationTermine (appelant : UInt32) (empreinte : Image) (longueur : UInt64)
    (essais : UInt8) (s : EtatNoyau) : ProgBloc (Except RefusInstall Unit × EtatNoyau) :=
  match s.session appelant with
  | .error refus => pure (.error refus, s)
  | .ok inst =>
    -- the caller may not change what was signed
    if empreinte ≠ inst.attendu ∨ longueur ≠ inst.attenduOctets ∨ essais ≠ inst.attenduEssais then
      pure (.error (.refuse "differe_du_manifeste_signe"), s)
    else if longueur = 0 ∨ inst.verifie ≠ longueur then
      pure (.error (.refuse "relecture_incomplete"), s)
    else match s.verification with
      | none => pure (.error (.refuse "relecture_incomplete"), s)
      | some lu =>
        match s.passage with
        | none => pure (.error (.refuse "sans_passage"), s)
        | some p => do
          match ← (marque ctx inst p (ctx.sha256 lu)).run with
          | .error refus => pure (.error refus, s)
          | .ok _ => pure (.ok (), { s with installation := none, verification := none })

inductive Appel
  | commitSante
  | rollbackManuel
  | remetCompteur
  | commence (appelant : UInt32) (cible : Slot) (texte signature : List UInt8)
  | ecrit (appelant : UInt32) (decalage : UInt64) (donnees : List UInt8)
  | verifie (appelant : UInt32) (longueur : UInt64)
  | termine (appelant : UInt32) (empreinte : Image) (longueur : UInt64) (essais : UInt8)

def reussi {ε α : Type} : Except ε α → Bool
  | .ok _ => true
  | .error _ => false

/-- Run an entry point: whether it succeeded, and the state it leaves. -/
def Appel.execute (s : EtatNoyau) : Appel → ProgBloc (Bool × EtatNoyau)
  | .commitSante => do
    let (r, s) ← Noyau.commitSante ctx s
    pure (reussi r, s)
  | .rollbackManuel => do
    let r ← (Noyau.rollbackManuel ctx s).run
    pure (reussi r, s)
  | .remetCompteur => do
    let r ← (Noyau.remetCompteur ctx s).run
    pure (reussi r, s)
  | .commence appelant cible texte signature => do
    let (r, s) ← installationCommence ctx appelant cible texte signature s
    pure (reussi r, s)
  | .ecrit appelant decalage donnees => do
    let (r, s) ← installationEcrit appelant decalage donnees s
    pure (reussi r, s)
  | .verifie appelant longueur => do
    let (r, s) ← installationVerifie ctx appelant longueur s
    pure (reussi r, s)
  | .termine appelant empreinte longueur essais => do
    let (r, s) ← installationTermine ctx appelant empreinte longueur essais s
    pure (reussi r, s)

/-- The kernel's state and the disks. -/
structure Systeme where
  etat : EtatNoyau
  disques : Disk Adresse (List UInt8)

/-- A call runs to its end, on a device that may fail anywhere. -/
def Systeme.Appelle (D : Device Adresse (List UInt8)) (a : Appel) (x : Systeme) (ok : Bool)
    (y : Systeme) : Prop :=
  Run D (a.execute ctx x.etat, x.disques) (.pure (ok, y.etat), y.disques)

end BouchaudOS.Update.Noyau
