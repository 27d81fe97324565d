import BouchaudOS.Bloc
import BouchaudOS.Persist.Table

/-!
# The persistent zone: synchronisation and mount

`src/fs/persistance/{volume,format,index,io,montage}.rs`: the zone is the last
128 MiB of the data volume, with two superblocks and two halves, each a table
and contents. A synchronisation writes a snapshot into the half that is not
active, waits for the barrier and commits with one superblock. A zone of the
first format has a header in sector 0, a table from sector 1 and no half.

Sectors are counted from the start of the zone. The mount is modelled up to the
list of nodes it restores; what it does with them is the affair of the RAMFS.
Counters, timings and log lines are left out.
-/
namespace BouchaudOS.Persist

open Bytes
open Prog hiding pure

/-- `SECTEURS_TABLE`. -/
def secteursTable : ℕ := entreesMax * tailleEntree / tailleSecteur

/-- `SECTEUR_CONTENU`: first content sector of the first format. -/
def secteurContenu : ℕ := 1 + secteursTable

/-- `SECTEURS_ZONE`. -/
def secteursZone : ℕ := 262144

/-- `SECTEURS_SUPERBLOCS`. -/
def secteursSuperblocs : ℕ := 2

/-- `SECTEURS_DEMI`. -/
def secteursDemi : ℕ := (secteursZone - secteursSuperblocs) / 2

def debutDemi (demi : Fin 2) : ℕ := secteursSuperblocs + demi.val * secteursDemi

def contenuDemi (demi : Fin 2) : ℕ := debutDemi demi + secteursTable

def finDemi (demi : Fin 2) : ℕ := debutDemi demi + secteursDemi

/-- `Volume::DONNEES`. -/
def volumePersistant : Volume := 1

/-- A volume whose blocks are not sectors counts as empty. -/
def volumeSecteurs (m : Materiel) : UInt64 :=
  if (m.descripteur volumePersistant).tailleBloc ≠ 512 then 0
  else (m.descripteur volumePersistant).blocs

/-- First sector of the zone on the volume. -/
def debut (m : Materiel) : Option UInt64 :=
  let secteurs := volumeSecteurs m
  if secteurs ≤ UInt64.ofNat (secteursZone + secteurContenu) then none
  else some (secteurs - UInt64.ofNat secteursZone)

def secteur (base : UInt64) (r : ℕ) : Adresse := (volumePersistant, base + UInt64.ofNat r)

def volumeLit (base : UInt64) (r n : ℕ) : ProgBloc (Option (List UInt8)) :=
  litBlocs volumePersistant tailleSecteur (base + UInt64.ofNat r) n

def volumeEcrit (base : UInt64) (r n : ℕ) (donnees : List UInt8) : ProgBloc Bool :=
  ecritBlocs volumePersistant tailleSecteur (base + UInt64.ofNat r) n donnees

def volumeBarriere (m : Materiel) : ProgBloc Bool := vidangeVolume m volumePersistant

/-- What the last synchronisation wrote for one entry. -/
structure SurDisque where
  chemin : Chaine
  secteur : ℕ
  longueur : ℕ
  sceau : UInt64 × UInt64
  deriving DecidableEq

/-- Two FNV-like digests of a content. -/
def sceau (contenu : List UInt8) : UInt64 × UInt64 :=
  contenu.foldl
    (fun s o => ((s.1 ^^^ o.toUInt64) * 0x00000100000001b3, (s.2 ^^^ o.toUInt64) * 0x886400000000003d))
    (0xcbf29ce484222325, 0x9e3779b97f4a7c15)

structure Etat where
  /-- `DISQUE`: what the disk is known to hold. -/
  disque : List SurDisque
  /-- `V1_FIN_SECTEUR`: the extent of a live zone of the first format, or zero. -/
  v1Fin : UInt64

def Etat.demarrage : Etat := ⟨[], 0⟩

def Etat.oublieLeDisque (s : Etat) : Etat := { s with disque := [] }

def Etat.oublieLaV1 (s : Etat) : Etat := { s with v1Fin := 0 }

/-- Is this content already on the disk, at this very place? -/
def Etat.dejaEcrite (s : Etat) (index : ℕ) (chemin : Chaine) (secteur longueur : ℕ)
    (sceauCourant : UInt64 × UInt64) : Bool :=
  match s.disque[index]? with
  | some connu => connu = ⟨chemin, secteur, longueur, sceauCourant⟩
  | none => false

def Etat.demiRecouvreLaV1 (s : Etat) (demi : Fin 2) : Bool :=
  s.v1Fin ≠ 0 && debutDemi demi ≤ s.v1Fin.toNat

/-- The half to write, sparing a live zone of the first format. -/
def Etat.demiSure (s : Etat) (demiPrevue : Fin 2) : Option (Fin 2) :=
  if !s.demiRecouvreLaV1 demiPrevue then some demiPrevue
  else if !s.demiRecouvreLaV1 (1 - demiPrevue) then some (1 - demiPrevue)
  else none

/-- The superblock to mount. An unreadable sector counts as no superblock. -/
def superblocCourant (base : UInt64) : ProgBloc (Option (Fin 2 × Superbloc)) := do
  let a ← volumeLit base 0 1
  let b ← volumeLit base 1 1
  pure (choisit (a.bind Superbloc.decode) (b.bind Superbloc.decode))

/-- Write one content at sector `r`, unless it has no sector or is already there. -/
def ecritContenu (base : UInt64) (s : Etat) (index : ℕ) (e : SnapshotEntree) (r : ℕ) : ProgBloc Bool :=
  if secteursDe e.contenu.length = 0 then pure true
  else if s.dejaEcrite index e.chemin r e.contenu.length (sceau e.contenu) then pure true
  else
    volumeEcrit base r (secteursDe e.contenu.length) (bourre e.contenu (secteursDe e.contenu.length))

/-- Write the contents one after the other from sector `r` on; `none` when a
path or a content does not fit, or a write fails. -/
def ecritContenus (base : UInt64) (s : Etat) (fin : ℕ) :
    ℕ → List SnapshotEntree → ℕ → ProgBloc (Option (ℕ × List SurDisque))
  | _, [], r => pure (some (r, []))
  | index, e :: es, r =>
    if cheminMax ≤ e.chemin.octets.length then pure none
    else if fin < r + secteursDe e.contenu.length then pure none
    else do
      let ok ← ecritContenu base s index e r
      if !ok then pure none
      else
        match ← ecritContenus base s fin (index + 1) es (r + secteursDe e.contenu.length) with
        | none => pure none
        | some (r', nouveau) =>
          pure (some (r', ⟨e.chemin, r, e.contenu.length, sceau e.contenu⟩ :: nouveau))

def ecritTable (base : UInt64) (demi : Fin 2) (es : List SnapshotEntree) : ProgBloc Bool :=
  if secteursTableUtiles es.length = 0 then pure true
  else volumeEcrit base (debutDemi demi) (secteursTableUtiles es.length) (table es)

/-- Write the contents and the table of a half: the sector behind the last
content and what is now known of the disk. -/
def ecritDemi (base : UInt64) (s : Etat) (demi : Fin 2) (es : List SnapshotEntree) :
    ProgBloc (Option (ℕ × List SurDisque)) := do
  match ← ecritContenus base s (finDemi demi) 0 es (contenuDemi demi) with
  | none => pure none
  | some (r, nouveau) =>
    let ok ← ecritTable base demi es
    if !ok then pure none else pure (some (r, nouveau))

/-- The commit: one sector between two barriers, whose results are not used. -/
def commet (m : Materiel) (base : UInt64) (emplacement : Fin 2) (superbloc : Superbloc) : ProgBloc Bool := do
  let _ ← volumeBarriere m
  let ok ← volumeEcrit base emplacement.val 1 superbloc.encode
  if !ok then pure false
  else
    let _ ← volumeBarriere m
    pure true

/-- `SANS_ZONE`. -/
def sansZone : ℤ := -2

/-- The superblock of a snapshot. -/
def superblocDe (generation : UInt64) (demi : Fin 2) (es : List SnapshotEntree) (r : ℕ) : Superbloc where
  generation := generation
  demi := demi
  entrees := UInt32.ofNat es.length
  secteursContenu := UInt64.ofNat (r - contenuDemi demi)
  sommeTable := sommeControle (table es)

/-- Write a snapshot and commit it: the number of entries, or a negative code. -/
def synchroniseSnapshot (m : Materiel) (es : List SnapshotEntree) (s : Etat) : ProgBloc (ℤ × Etat) :=
  match debut m with
  | none => pure (sansZone, s.oublieLeDisque)
  | some base =>
    if entreesMax < es.length then pure (-1, s.oublieLeDisque)
    else do
      let courant ← superblocCourant base
      let (emplacement, demiPrevue, generation) := prochain courant
      match s.demiSure demiPrevue with
      | none => pure (-1, s.oublieLeDisque)
      | some demi =>
        match ← ecritDemi base s demi es with
        | none => pure (-1, s.oublieLeDisque)
        | some (r, nouveau) =>
          let ok ← commet m base emplacement (superblocDe generation demi es r)
          if !ok then pure (-1, s.oublieLeDisque)
          else pure ((es.length : ℤ), ⟨nouveau, 0⟩)

def magie : List UInt8 := [0x42, 0x4f, 0x50, 0x45, 0x52, 0x53, 0x49, 0x31]

/-- A node to restore. -/
inductive Lue
  | dossier (chemin : Chaine) (metadonnees : Meta)
  | fichier (chemin : Chaine) (metadonnees : Option Meta) (contenu : List UInt8)
  deriving DecidableEq

def entreesDe (table : List UInt8) (nombre : ℕ) : List EntreeTable :=
  (List.range nombre).map fun i => .decode (slice table (i * tailleEntree) tailleEntree)

/-- Sectors of a content, from the size the table gives (64-bit arithmetic). -/
def EntreeTable.secteurs (e : EntreeTable) : ℕ := ((e.taille + 511) / 512).toNat

/-- The node of one entry: `none` when it is not restored or unreadable. -/
def litEntree (base : UInt64) (e : EntreeTable) (r : ℕ) : ProgBloc (Option Lue) :=
  if !aRestaurer e.chemin e.taille e.metadonnees then pure none
  else
    match e.metadonnees.filter Meta.dossier with
    | some m => pure (some (.dossier e.chemin m))
    | none => do
      match ← volumeLit base r e.secteurs with
      | none => pure none
      | some tampon => pure (some (.fichier e.chemin e.metadonnees (tampon.take e.taille.toNat)))

/-- The nodes of the entries, and the sector behind the last content. -/
def litEntrees (base : UInt64) : List EntreeTable → ℕ → ProgBloc (List Lue × ℕ)
  | [], r => pure ([], r)
  | e :: es, r => do
    let lue ← litEntree base e r
    let (suite, fin) ← litEntrees base es (r + e.secteurs)
    pure (lue.toList ++ suite, fin)

/-- `secteur.saturating_sub(base)`, on 64 bits. -/
def etendueV1 (base : UInt64) (r : ℕ) : UInt64 :=
  let secteur := base + UInt64.ofNat r
  if base ≤ secteur then secteur - base else 0

/-- Follow a table, once its checksum is right where one is known. Without a
checksum the zone has the first format, and its extent is noted. -/
def releveTable (base : UInt64) (s : Etat) (nombre secteurTable premierContenu : ℕ)
    (sommeAttendue : Option UInt32) : ProgBloc (List Lue × Etat) := do
  match ← volumeLit base secteurTable (secteursTableUtiles nombre) with
  | none => pure ([], s)
  | some table =>
    if sommeAttendue.any fun attendue => sommeControle table ≠ attendue then pure ([], s)
    else
      let (lues, r) ← litEntrees base (entreesDe table nombre) premierContenu
      pure (lues, if sommeAttendue.isNone then { s with v1Fin := etendueV1 base r } else s)

def nombreInvalide (nombre : ℕ) : Bool := nombre = 0 || entreesMax < nombre

/-- What a mount restores from the zone at `base`, and the state it leaves. -/
def releveZone (base : UInt64) (s : Etat) : ProgBloc (List Lue × Etat) := do
  let s := s.oublieLeDisque
  match ← superblocCourant base with
  | some (_, superbloc) =>
    let s := s.oublieLaV1
    let nombre := superbloc.entrees.toNat
    if nombreInvalide nombre then pure ([], s)
    else
      releveTable base s nombre (debutDemi superbloc.demi) (contenuDemi superbloc.demi)
        (some superbloc.sommeTable)
  | none =>
    match ← volumeLit base 0 1 with
    | none => pure ([], s.oublieLaV1)
    | some entete =>
      if slice entete 0 8 ≠ magie then pure ([], s.oublieLaV1)
      else
        let nombre := ofLeBytes (slice entete 12 4)
        if nombreInvalide nombre then pure ([], s)
        else releveTable base s nombre 1 secteurContenu none

end BouchaudOS.Persist
