import Mathlib

/-!
# Caches that may be dropped

When the snapshot does not fit the zone, whole labelled trees are dropped, the
largest one first, until the rest fits. If nothing that may be dropped is left,
nothing is dropped at all.
-/

namespace BouchaudOS.CacheJetable

/-- A file: its size, and the outermost labelled tree it is in. -/
structure Fichier where
  octets : ℕ
  groupe : Option ℕ
  deriving DecidableEq

structure Limites where
  entreesMax : ℕ
  secteursMax : ℕ
  tailleSecteur : ℕ

inductive Verdict
  | toutTient
  | ecarte (arbres fichiers octets : ℕ)
  | neTientPas
  deriving DecidableEq

def secteurs (octets tailleSecteur : ℕ) : ℕ := (octets + tailleSecteur - 1) / tailleSecteur

namespace Limites

variable (limites : Limites)

def total (fichiers : List Fichier) : ℕ :=
  (fichiers.map fun f => secteurs f.octets limites.tailleSecteur).sum

def tient (entrees total : ℕ) : Bool := entrees ≤ limites.entreesMax && total ≤ limites.secteursMax

end Limites

/-- What dropping a tree gives back. -/
structure Candidat where
  groupe : ℕ
  secteurs : ℕ
  fichiers : ℕ
  octets : ℕ

/-- The tree of number `g`. -/
def candidat (limites : Limites) (fichiers : List Fichier) (g : ℕ) : Candidat :=
  let siens := fichiers.filter fun f => f.groupe = some g
  ⟨g, limites.total siens, siens.length, (siens.map Fichier.octets).sum⟩

def Candidat.mieux (c : Candidat) : Option Candidat → Bool
  | none => true
  | some m => m.secteurs < c.secteurs || (c.secteurs = m.secteurs && m.fichiers < c.fichiers)

/-- The best tree that is still there. -/
def meilleur (limites : Limites) (fichiers : List Fichier) (groupes : ℕ) (ecartes : ℕ → Bool) :
    Option Candidat :=
  (List.range groupes).foldl
    (fun m g =>
      let c := candidat limites fichiers g
      if ecartes g || c.fichiers = 0 || !c.mieux m then m else some c)
    none

/-- What has been dropped, and what remains. -/
structure Ecart where
  ecartes : ℕ → Bool
  arbres : ℕ
  fichiers : ℕ
  octets : ℕ
  entrees : ℕ
  total : ℕ

/-- The loop of `selectionne`; every turn drops one tree. -/
def boucle (limites : Limites) (fichiers : List Fichier) (groupes : ℕ) : ℕ → Ecart → Verdict × (ℕ → Bool)
  | 0, _ => (.neTientPas, fun _ => false)
  | n + 1, e =>
    match meilleur limites fichiers groupes e.ecartes with
    | none => (.neTientPas, fun _ => false)
    | some c =>
      let e : Ecart :=
        { ecartes := Function.update e.ecartes c.groupe true
          arbres := e.arbres + 1
          fichiers := e.fichiers + c.fichiers
          octets := e.octets + c.octets
          entrees := e.entrees - c.fichiers
          total := e.total - c.secteurs }
      if limites.tient e.entrees e.total then (.ecarte e.arbres e.fichiers e.octets, e.ecartes)
      else boucle limites fichiers groupes n e

/-- Which of the trees `0 .. groupes` to drop. -/
def selectionne (limites : Limites) (fichiers : List Fichier) (groupes : ℕ) : Verdict × (ℕ → Bool) :=
  if limites.tient fichiers.length (limites.total fichiers) then (.toutTient, fun _ => false)
  else
    boucle limites fichiers groupes (groupes + 1)
      ⟨fun _ => false, 0, 0, 0, fichiers.length, limites.total fichiers⟩

theorem selectionne_of_tient {limites : Limites} {fichiers : List Fichier}
    (h : limites.tient fichiers.length (limites.total fichiers) = true) (groupes : ℕ) :
    selectionne limites fichiers groupes = (.toutTient, fun _ => false) := if_pos h

end BouchaudOS.CacheJetable
