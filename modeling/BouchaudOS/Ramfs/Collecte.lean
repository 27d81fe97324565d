import BouchaudOS.Persist.Table
import BouchaudOS.Ramfs.Arbre

/-!
# Collecting the persistent tree

A synchronisation walks the tree below `/persist` in the order of the table and
retains every file and directory whose path fits in an entry. The walk of the
source has no bound; here it has fuel for as many levels as the table has nodes,
which a tree cannot exhaust. The walk depends on the children of the directories
it enters and on nothing else.
-/

namespace BouchaudOS.Ramfs

open List

open Persist (Meta cheminMax)

def nomPersist : List UInt8 := [112, 101, 114, 115, 105, 115, 116]

/-- `RACINE`. -/
def cheminPersist : List UInt8 := FileSystem.barre :: nomPersist

/-- `NOM_ETIQUETTE`: "CACHEDIR.TAG". -/
def nomEtiquette : List UInt8 := [67, 65, 67, 72, 69, 68, 73, 82, 46, 84, 65, 71]

/-- `SIGNATURE`: "Signature: 8a477f597d28d172789f06886806bc55". -/
def signature : List UInt8 :=
  [83, 105, 103, 110, 97, 116, 117, 114, 101, 58, 32, 56, 97, 52, 55, 55, 102, 53, 57, 55, 100, 50,
    56, 100, 49, 55, 50, 55, 56, 57, 102, 48, 54, 56, 56, 54, 56, 48, 54, 98, 99, 53, 53]

/-- A file or directory that is retained, and where to find it. -/
structure Entree where
  chemin : List UInt8
  noeud : Idx
  longueur : ℕ
  metadonnees : Meta
  groupe : Option ℕ
  deriving DecidableEq

def joint (pre nom : List UInt8) : List UInt8 :=
  if pre = [] then nom else pre ++ FileSystem.barre :: nom

def Node.metadonnees (n : Node) : Meta := ⟨n.kind = .dir, n.mode, n.uid, n.gid⟩

/-- Visit nodes one after the other, with the number of groups so far. -/
def parcours (visite : ℕ → Idx → List Entree × ℕ) : List Idx → ℕ → List Entree × ℕ
  | [], g => ([], g)
  | i :: is, g =>
    let r := visite g i
    let r' := parcours visite is r.2
    (r.1 ++ r'.1, r'.2)

namespace FileSystem

variable (fs : FileSystem)

/-- The children of a directory, in the order of the table. -/
@[irreducible]
def enfants (dossier : Idx) : List Idx :=
  (List.finRange maxNodes).filter fun i =>
    (fs.nodes i).used && (fs.nodes i).parent = dossier && i ≠ dossier

/-- Is the child found a label of the cache directories? -/
def estEtiquette : Option Idx → Bool
  | none => false
  | some i => (fs.nodes i).kind = .file && (fs.nodes i).name.octets = nomEtiquette &&
      signature.isPrefixOf (fs.nodes i).content

def porteUneEtiquette (dossier : Idx) : Bool :=
  fs.estEtiquette (fs.findChild dossier nomEtiquette)

/-- The group of a directory: the outermost labelled tree it is in. -/
def groupeDe (i : Idx) (groupe : Option ℕ) (g : ℕ) : Option ℕ × ℕ :=
  match groupe with
  | some h => (some h, g)
  | none => if fs.porteUneEtiquette i then (some g, g + 1) else (none, g)

def entreeDe (i : Idx) (chemin : List UInt8) (longueur : ℕ) (groupe : Option ℕ) : List Entree :=
  if chemin.length < cheminMax then [⟨chemin, i, longueur, (fs.nodes i).metadonnees, groupe⟩] else []

/-- One child: a directory comes before what it holds. -/
def visite (descend : Idx → List UInt8 → Option ℕ → ℕ → List Entree × ℕ) (pre : List UInt8)
    (groupe : Option ℕ) (g : ℕ) (i : Idx) : List Entree × ℕ :=
  let chemin := joint pre (fs.nodes i).name.octets
  match (fs.nodes i).kind with
  | .dir =>
    let r := fs.groupeDe i groupe g
    let r' := descend i chemin r.1 r.2
    (fs.entreeDe i chemin 0 r.1 ++ r'.1, r'.2)
  | .file => (fs.entreeDe i chemin (fs.nodes i).content.length groupe, g)

/-- `collecte_sous_garde`, for a number of levels. -/
def collecte : ℕ → Idx → List UInt8 → Option ℕ → ℕ → List Entree × ℕ
  | 0, _, _, _, g => ([], g)
  | k + 1, dossier, pre, groupe, g =>
    parcours (fs.visite (collecte k) pre groupe) (fs.enfants dossier) g

def collecteSous : Option Idx → List Entree
  | none => []
  | some racine => (fs.collecte maxNodes racine [] none 0).1

def rassemble : List Entree := fs.collecteSous (fs.resolve cheminPersist 0)

/-- What a synchronisation takes of the tree: the entries with their contents. -/
def instantane : List (Entree × List UInt8) :=
  fs.rassemble.map fun e => (e, (fs.nodes e.noeud).content.take e.longueur)

variable {fs fs' : FileSystem} {d i : Idx} {n : List UInt8}

theorem mem_enfants : i ∈ fs.enfants d ↔ (fs.nodes i).used = true ∧ fs.parents i = d ∧ i ≠ d := by
  unfold enfants parents
  simp [and_assoc]

theorem resolve_cheminPersist : fs.resolve cheminPersist 0 = fs.findChild 0 nomPersist := by
  have hcomp : composants cheminPersist = [nomPersist] := by decide
  have hne : cheminPersist ≠ [] := by decide
  unfold resolve
  rw [if_neg hne, hcomp, foldlM_cons]
  have havance : fs.avance (depart cheminPersist 0) nomPersist = fs.findChild 0 nomPersist := by
    unfold avance
    rw [if_neg (by decide), if_neg (by decide)]
    rfl
  rw [havance]
  cases fs.findChild 0 nomPersist <;> rfl

/-- The directory has the same children in both tables, and they are the same. -/
def Voit (fs fs' : FileSystem) (d : Idx) : Prop :=
  fs'.enfants d = fs.enfants d ∧ ∀ i ∈ fs.enfants d, (fs'.nodes i).sansDate = (fs.nodes i).sansDate

theorem Voit.findChild_eq (h : Voit fs fs' d) (hd : fs.parents d ≠ d) (hd' : fs'.parents d ≠ d) :
    fs'.findChild d n = fs.findChild d n := by
  refine findChild_congr fun i => ?_
  have hmem : ∀ {f : FileSystem}, f.parents d ≠ d → (f.Porte d n i ↔
      i ∈ f.enfants d ∧ (f.nodes i).name.octets = n) := by
    intro f hf
    rw [mem_enfants]
    refine ⟨fun hp => ⟨⟨hp.1, hp.2.1, ?_⟩, hp.2.2⟩, fun hm => ⟨hm.1.1, hm.1.2.1, hm.2⟩⟩
    rintro rfl
    exact hf hp.2.1
  rw [hmem hd, hmem hd', h.1]
  refine and_congr_right fun hi => ?_
  rw [(Node.sansDate_eq_iff.mp (h.2 i hi)).2.2.2.1]

theorem Voit.porteUneEtiquette_eq (h : Voit fs fs' d) (hd : fs.parents d ≠ d)
    (hd' : fs'.parents d ≠ d) : fs'.porteUneEtiquette d = fs.porteUneEtiquette d := by
  have htrouve : ∀ o, fs.findChild d nomEtiquette = o → fs'.estEtiquette o = fs.estEtiquette o := by
    intro o ho
    cases o with
    | none => rfl
    | some i =>
      have hp := (findChild_eq_some.mp ho).1
      have hi : i ∈ fs.enfants d := by
        refine mem_enfants.mpr ⟨hp.1, hp.2.1, ?_⟩
        rintro rfl
        exact hd hp.2.1
      have hsame := Node.sansDate_eq_iff.mp (h.2 i hi)
      simp only [estEtiquette, hsame]
  unfold porteUneEtiquette
  rw [h.findChild_eq hd hd']
  exact htrouve _ rfl

variable {f : ℕ → Idx → List Entree × ℕ} {is : List Idx} {D : Idx → Prop} {r : Idx}

theorem parcours_congr {f' : ℕ → Idx → List Entree × ℕ}
    (h : ∀ i ∈ is, ∀ g, f' g i = f g i) (g : ℕ) : parcours f' is g = parcours f is g := by
  induction is generalizing g with
  | nil => rfl
  | cons i is ih =>
    simp only [parcours]
    rw [h i mem_cons_self, ih fun j hj => h j (mem_cons_of_mem _ hj)]

def Clos (fs : FileSystem) (D : Idx → Prop) : Prop :=
  ∀ d, D d → ∀ i ∈ fs.enfants d, (fs.nodes i).kind = .dir → D i

/-- The walk is the same in two tables that agree on the directories it enters. -/
theorem collecte_congr (hclos : fs.Clos D) (hvoit : ∀ d, D d → Voit fs fs' d)
    (k : ℕ) (hd : D d) (pre : List UInt8) (groupe : Option ℕ) (g : ℕ) :
    fs'.collecte k d pre groupe g = fs.collecte k d pre groupe g := by
  induction k generalizing d pre groupe g with
  | zero => rfl
  | succ k ih =>
    simp only [collecte]
    rw [(hvoit d hd).1]
    refine parcours_congr (fun i hi g => ?_) g
    have hsame := Node.sansDate_eq_iff.mp ((hvoit d hd).2 i hi)
    have hmeta : (fs'.nodes i).metadonnees = (fs.nodes i).metadonnees := by simp only [Node.metadonnees, hsame]
    unfold visite entreeDe
    simp only [hsame, hmeta]
    cases hk : (fs.nodes i).kind with
    | file => rfl
    | dir =>
      have hDi := hclos d hd i hi hk
      obtain ⟨-, hpar, hne⟩ := mem_enfants.mp hi
      have hself : fs.parents i ≠ i := fun he => hne (he.symm.trans hpar)
      have hself' : fs'.parents i ≠ i := by
        unfold parents
        rw [hsame.2.2.1]
        exact hself
      have hgroupe : fs'.groupeDe i groupe g = fs.groupeDe i groupe g := by
        unfold groupeDe
        rw [(hvoit i hDi).porteUneEtiquette_eq hself hself']
      simp only [hgroupe, ih hDi]

theorem mem_parcours {g : ℕ} {e : Entree} (h : e ∈ (parcours f is g).1) : ∃ i ∈ is, ∃ g', e ∈ (f g' i).1 := by
  induction is generalizing g with
  | nil => cases h
  | cons i is ih =>
    simp only [parcours, mem_append] at h
    rcases h with h | h
    · exact ⟨i, mem_cons_self, g, h⟩
    · obtain ⟨j, hj, g', hg⟩ := ih h
      exact ⟨j, mem_cons_of_mem _ hj, g', hg⟩

theorem exists_subset_parcours (hi : i ∈ is) (g : ℕ) : ∃ g', (f g' i).1 ⊆ (parcours f is g).1 := by
  induction is generalizing g with
  | nil => cases hi
  | cons j is ih =>
    rcases mem_cons.mp hi with rfl | hi
    · exact ⟨g, subset_append_left _ _⟩
    · obtain ⟨g', hg⟩ := ih hi (f g j).2
      exact ⟨g', List.Subset.trans hg (subset_append_right _ _)⟩

theorem noeud_of_mem_collecte (hclos : fs.Clos D) {k : ℕ} (hd : D d)
    {pre : List UInt8} {groupe : Option ℕ} {g : ℕ} {e : Entree}
    (h : e ∈ (fs.collecte k d pre groupe g).1) : ∃ d', D d' ∧ e.noeud ∈ fs.enfants d' := by
  induction k generalizing d pre groupe g with
  | zero => cases h
  | succ k ih =>
    obtain ⟨i, hi, g', he⟩ := mem_parcours h
    have hentree : ∀ {c : List UInt8} {l : ℕ} {o : Option ℕ}, e ∈ fs.entreeDe i c l o → e.noeud = i := by
      intro c l o hm
      unfold entreeDe at hm
      split at hm
      · rw [mem_singleton.mp hm]
      · cases hm
    unfold visite at he
    cases hk : (fs.nodes i).kind with
    | file =>
      simp only [hk] at he
      exact ⟨d, hd, (hentree he).symm ▸ hi⟩
    | dir =>
      simp only [hk, mem_append] at he
      rcases he with he | he
      · exact ⟨d, hd, (hentree he).symm ▸ hi⟩
      · exact ih (hclos d hd i hi hk) he

variable (hr : fs.findChild 0 nomPersist = some r)

include hr

theorem rassemble_eq : fs.rassemble = (fs.collecte maxNodes r [] none 0).1 := by
  rw [rassemble, resolve_cheminPersist, hr, collecteSous]

/-- The snapshot is the same in two tables with one persistent root, that agree on
the directories below it. -/
theorem instantane_congr (hr' : fs'.findChild 0 nomPersist = some r) (hclos : fs.Clos D) (hD : D r)
    (hvoit : ∀ d, D d → Voit fs fs' d) : fs'.instantane = fs.instantane := by
  unfold instantane
  rw [rassemble_eq hr, rassemble_eq hr', collecte_congr hclos hvoit maxNodes hD]
  refine map_congr_left fun e he => ?_
  obtain ⟨d, hd, hm⟩ := noeud_of_mem_collecte hclos hD he
  rw [(Node.sansDate_eq_iff.mp ((hvoit d hd).2 _ hm)).2.2.2.2.1]

end FileSystem

end BouchaudOS.Ramfs
