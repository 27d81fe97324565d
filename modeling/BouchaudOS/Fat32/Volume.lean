import BouchaudOS.Bloc
import BouchaudOS.Foundations.Checked
import BouchaudOS.Foundations.DeviceState
import BouchaudOS.Fat32.Geometrie
import BouchaudOS.Fat32.Noms

/-!
# Writing a FAT32 volume

`src/fs/fat32.rs`: a volume is opened, then directories and files are added to it. Sectors
are counted from the start of the partition, in 32 bits: a cluster or sector number that does
not fit stops the kernel. An error leaves the volume where it stopped. A loop that the source
leaves by `return` is a recursion over the turns that remain.
-/

namespace BouchaudOS

/-- `Support::lit`: as many whole blocks as the buffer holds, at least one. -/
def SupportVolume.lit (s : SupportVolume) (lba : UInt64) (octets : ℕ) : ProgBloc (Option (List UInt8)) :=
  if octets / s.tailleBloc.toNat = 0 then .pure none
  else litBlocs s.volume s.tailleBloc.toNat lba (octets / s.tailleBloc.toNat)

/-- `Support::ecrit`. -/
def SupportVolume.ecrit (s : SupportVolume) (lba : UInt64) (donnees : List UInt8) : ProgBloc Bool :=
  if donnees.length / s.tailleBloc.toNat = 0 then .pure false
  else ecritBlocs s.volume s.tailleBloc.toNat lba (donnees.length / s.tailleBloc.toNat) donnees

namespace Fat32

open Bytes Checked

inductive Erreur
  | secteurInvalide
  | volumeTropPetit
  | volumeTropGrand
  | plusDAmas
  | lectureRefusee
  | ecritureRefusee
  | repertoirePlein
  | nomInvalide
  deriving DecidableEq, Repr

/-- How an operation stops: with an error, or with the kernel. -/
inductive Arret
  | erreur (e : Erreur)
  | faute (f : Fault)
  deriving DecidableEq, Repr

/-- A volume being written (`Volume`). -/
structure VolumeFat where
  support : SupportVolume
  /-- First block of the partition. -/
  decalage : UInt64
  params : Parametres
  /-- Next cluster to try. -/
  curseur : ℕ
  /-- Free clusters, where they are known. -/
  libres : Option ℕ
  deriving DecidableEq, Repr

abbrev Vol (α : Type) := StProg Adresse (List UInt8) Arret VolumeFat α

/-- A checked computation. -/
def verifie : Guarded ℕ → Vol ℕ
  | .ok a => pure a
  | .err e => nomatch e
  | .fault f => throw (.faute f)

/-- `secteur_de_l_amas`, on 32 bits. -/
def Parametres.debutDeLAmas (g : Parametres) (amas : ℕ) : Guarded ℕ := do
  let rang ← Checked.sub amas premierAmas
  let avant ← fit 32 (rang * g.secteursParAmas)
  fit 32 (g.premierSecteurDonnees + avant)

/-- Read a sector. The sums that give its number are checked here, where they are used. -/
def litSecteur (somme : ℕ) : Vol (List UInt8) := do
  let v ← get
  let secteur ← verifie (fit 32 somme)
  match ← StProg.device (v.support.lit (v.decalage + UInt64.ofNat secteur) v.params.octetsParSecteur) with
  | some bloc => pure bloc
  | none => throw (.erreur .lectureRefusee)

@[inherit_doc litSecteur]
def ecritSecteur (somme : ℕ) (donnees : List UInt8) : Vol Unit := do
  let v ← get
  let secteur ← verifie (fit 32 somme)
  if ← StProg.device (v.support.ecrit (v.decalage + UInt64.ofNat secteur) donnees) then pure ()
  else throw (.erreur .ecritureRefusee)

/-- Read an entry of the FAT. -/
def fat (amas : ℕ) : Vol ℕ := do
  let v ← get
  let bloc ← litSecteur (v.params.secteursReserves + amas / v.params.parSecteur)
  pure (ofLeBytes (slice bloc (amas % v.params.parSecteur * 4) 4) % 2 ^ 28)

/-- Write an entry in one copy of the FAT. -/
def poseCopie (amas valeur copie : ℕ) : Vol Unit := do
  let v ← get
  let secteur := v.params.secteursReserves + copie * v.params.secteursParFat + amas / v.params.parSecteur
  let bloc ← litSecteur secteur
  ecritSecteur secteur (splice bloc (amas % v.params.parSecteur * 4) (leBytes 4 (valeur % 2 ^ 28)))

def poseFat (amas valeur : ℕ) : Vol Unit := do
  let v ← get
  (List.range v.params.fats).forM (poseCopie amas valeur)

def Parametres.vide (g : Parametres) : List UInt8 := List.replicate g.octetsParSecteur 0

def effaceAmas (amas : ℕ) : Vol Unit := do
  let v ← get
  let debut ← verifie (v.params.debutDeLAmas amas)
  (List.range v.params.secteursParAmas).forM fun i => ecritSecteur (debut + i) v.params.vide

/-- The clusters from `amas` on, `n` of them: the first free one is taken. -/
def alloueDepuis : ℕ → ℕ → Vol ℕ
  | 0, _ => throw (.erreur .plusDAmas)
  | n + 1, amas => do
    if (← fat amas) = 0 then
      poseFat amas finDeChaine
      let curseur ← verifie (fit 32 (amas + 1))
      modify fun v => { v with curseur := curseur, libres := v.libres.map (· - 1) }
      effaceAmas amas
      pure amas
    else alloueDepuis n (amas + 1)

/-- Take a free cluster, mark it as the end of a chain and clear it. -/
def alloue : Vol ℕ := do
  let v ← get
  let fin ← verifie (fit 32 (v.params.amas + premierAmas))
  let depart := max v.curseur premierAmas
  alloueDepuis (fin - depart) depart

def EstLien (valeur : ℕ) : Prop := premierAmas ≤ valeur ∧ valeur < finDeChaine - 7

instance (valeur : ℕ) : Decidable (EstLien valeur) := inferInstanceAs (Decidable (_ ∧ _))

/-- The next cluster of a chain, a new one where it ends. -/
def suivant (amas : ℕ) : Vol ℕ := do
  let valeur ← fat amas
  if EstLien valeur then pure valeur
  else
    let neuf ← alloue
    poseFat amas neuf
    pure neuf

def emplacements (bloc : List UInt8) : List (List UInt8) :=
  (List.range (bloc.length / 32)).map fun i => slice bloc (i * 32) 32

/-- First of `k` free slots in a row: `i` slots have been seen, the last `libres` are free. -/
def premierePlace (k : ℕ) : List (List UInt8) → ℕ → ℕ → Option ℕ
  | [], _, _ => none
  | e :: es, i, libres =>
    let libres := if Libre e then libres + 1 else 0
    if k ≤ libres then some (i + 1 - k) else premierePlace k es (i + 1) libres

/-- Put the entries in the first sector with room for all of them, among `n` sectors from
`secteur` on. -/
def poseEntrees (entrees : List (List UInt8)) : ℕ → ℕ → Vol Bool
  | 0, _ => pure false
  | n + 1, secteur => do
    let bloc ← litSecteur secteur
    match premierePlace entrees.length (emplacements bloc) 0 0 with
    | some premier =>
      ecritSecteur secteur (splice bloc (premier * 32) entrees.flatten)
      pure true
    | none => poseEntrees entrees n (secteur + 1)

/-- The clusters of a directory from `amas` on, for at most `n` turns. -/
def ajouteDepuis (entrees : List (List UInt8)) : ℕ → ℕ → Vol Unit
  | 0, _ => throw (.erreur .repertoirePlein)
  | n + 1, amas => do
    let v ← get
    let debut ← verifie (v.params.debutDeLAmas amas)
    if ← poseEntrees entrees v.params.secteursParAmas debut then pure ()
    else
      let suite ← suivant amas
      ajouteDepuis entrees n suite

/-- Add entries to a directory, which grows where it has no room. -/
def ajouteEntrees (repertoire : ℕ) (entrees : List (List UInt8)) : Vol Unit := do
  let v ← get
  ajouteDepuis entrees (max v.params.amas 1) repertoire

/-- Search the slots of a sector: `some` when the search is over. -/
def chercheParmi (court : List UInt8) : List (List UInt8) → Option (Option ℕ)
  | [] => none
  | e :: es =>
    if octet e 0 = 0 then some none
    else if octet e 0 = 0xE5 ∨ octet e 11 = attrNomLong then chercheParmi court es
    else if e.take 11 = court then some (some (amasDe e))
    else chercheParmi court es

/-- Search `n` sectors from `secteur` on. -/
def chercheSecteurs (court : List UInt8) : ℕ → ℕ → Vol (Option (Option ℕ))
  | 0, _ => pure none
  | n + 1, secteur => do
    let bloc ← litSecteur secteur
    match chercheParmi court (emplacements bloc) with
    | some r => pure (some r)
    | none => chercheSecteurs court n (secteur + 1)

/-- Search the clusters of a directory from `amas` on, for at most `n` turns. -/
def chercheDepuis (court : List UInt8) : ℕ → ℕ → Vol (Option ℕ)
  | 0, _ => pure none
  | n + 1, amas => do
    let v ← get
    let debut ← verifie (v.params.debutDeLAmas amas)
    match ← chercheSecteurs court v.params.secteursParAmas debut with
    | some r => pure r
    | none =>
      let valeur ← fat amas
      if EstLien valeur then chercheDepuis court n valeur else pure none

/-- The first cluster of the entry with a short name; the entry may be any one. -/
def cherche (repertoire : ℕ) (court : List UInt8) : Vol (Option ℕ) := do
  let v ← get
  chercheDepuis court (max v.params.amas 1) repertoire

/-- The short names `.` and `..`. -/
def point : List UInt8 := 0x2E :: List.replicate 10 0x20

@[inherit_doc point]
def deuxPoints : List UInt8 := 0x2E :: 0x2E :: List.replicate 9 0x20

/-- The first two entries of a directory; the parent of a directory of the root is zero. -/
def entreesInitiales (racine parent amas : ℕ) : List (List UInt8) :=
  [entreeCourte point attrRepertoire amas 0,
    entreeCourte deuxPoints attrRepertoire (if parent = racine then 0 else parent) 0]

def NomInvalide (nom : Nom) : Prop := nom.octets = [] ∨ 255 < nom.octets.length

instance (nom : Nom) : Decidable (NomInvalide nom) := inferInstanceAs (Decidable (_ ∨ _))

/-- Create a directory, or return the one that exists. -/
def creeRepertoire (parent : ℕ) (nom : Nom) : Vol ℕ := do
  if NomInvalide nom then throw (.erreur .nomInvalide)
  else match ← cherche parent (nomCourt nom 1) with
    | some existant => pure existant
    | none =>
      let amas ← alloue
      let v ← get
      ajouteEntrees amas (entreesInitiales v.params.amasRacine parent amas)
      ajouteEntrees parent (entreesDe nom attrRepertoire amas 0)
      pure amas

/-- Write the bytes of a cluster, sector by sector, up to their end. -/
def ecritAmas (amas : ℕ) (donnees : List UInt8) : Vol Unit := do
  let v ← get
  let taille := v.params.octetsParSecteur
  let debut ← verifie (v.params.debutDeLAmas amas)
  (List.range v.params.secteursParAmas).forM fun i =>
    -- from here on the source has left the loop
    if donnees.length ≤ i * taille then pure ()
    else ecritSecteur (debut + i) ((slice donnees (i * taille) taille).takeD taille 0)

/-- Write what remains of a file from the cluster `courant` on. -/
def ecritSuite : ℕ → ℕ → List UInt8 → Vol Unit
  | 0, _, _ => pure ()
  | n + 1, courant, reste => do
    let v ← get
    ecritAmas courant (reste.take v.params.octetsParAmas)
    if reste.drop v.params.octetsParAmas = [] then pure ()
    else
      let neuf ← alloue
      poseFat courant neuf
      ecritSuite n neuf (reste.drop v.params.octetsParAmas)

/-- Write the data of a file: its first cluster, zero when it is empty. -/
def ecritDonnees (donnees : List UInt8) : Vol ℕ := do
  if donnees = [] then pure 0
  else
    let premier ← alloue
    ecritSuite donnees.length premier donnees
    pure premier

def ecritFichier (parent : ℕ) (nom : Nom) (donnees : List UInt8) : Vol Unit := do
  if NomInvalide nom then throw (.erreur .nomInvalide)
  else if 2 ^ 32 - 1 < donnees.length then throw (.erreur .volumeTropGrand)
  else
    let v ← get
    let _ ← verifie (fit 32 v.params.octetsParAmas)
    let premier ← ecritDonnees donnees
    ajouteEntrees parent (entreesDe nom attrArchive premier donnees.length)

/-- The geometry that a boot sector gives, once every field is checked. -/
def parametresLus (s : List UInt8) : Option Parametres :=
  let octets := ofLeBytes (slice s 11 2)
  let spa := ofLeBytes (slice s 13 1)
  let reserves := ofLeBytes (slice s 14 2)
  let fats := ofLeBytes (slice s 16 1)
  let total := ofLeBytes (slice s 32 4)
  let secteursParFat := ofLeBytes (slice s 36 4)
  let racine := ofLeBytes (slice s 44 4)
  let occupe := secteursParFat * fats + reserves
  let amas := (total - occupe) / spa
  if octets ∉ [512, 1024, 2048, 4096] then none
  -- the powers of two of eight bits
  else if spa ∉ [1, 2, 4, 8, 16, 32, 64, 128] ∨ 65536 < spa * octets then none
  else if secteursParFat = 0 ∨ fats = 0 ∨ reserves = 0 then none
  else if 2 ^ 32 ≤ occupe ∨ total ≤ occupe then none
  else if amas = 0 then none
  else if racine < premierAmas ∨ min (amas + premierAmas) (2 ^ 32 - 1) ≤ racine then none
  else
    some
      { octetsParSecteur := octets, secteursParAmas := spa, secteursReserves := reserves,
        fats := fats, secteursParFat := secteursParFat, secteursTotal := total, amas := amas,
        premierSecteurDonnees := occupe, amasRacine := racine }

/-- The volume that `ouvre` starts from. -/
def VolumeFat.vierge (s : SupportVolume) (decalage : UInt64) (g : Parametres) : VolumeFat :=
  { support := s, decalage := decalage, params := g, curseur := premierAmas, libres := none }

/-- Open a volume that is already formatted. -/
def ouvre (s : SupportVolume) (decalage : UInt64) : ProgBloc (Except Erreur VolumeFat) := do
  match ← s.lit decalage s.tailleBloc.toNat with
  | none => pure (.error .lectureRefusee)
  | some bloc =>
    match parametresLus bloc with
    | none => pure (.error .secteurInvalide)
    | some g => pure (.ok (.vierge s decalage g))

end Fat32

end BouchaudOS
