import Mathlib

/-!
# The RAMFS node table

The file system is a fixed table of nodes, each with a link to its parent. Paths
are walked by searching the table for a child of a given name. A modification
below the persistent root is counted, for the deferred writer to see.

An index is below `MAX_NODES` by its type, so the bound checks of the source are
not repeated. The session and the clock are what the source reads of them.
-/

namespace BouchaudOS.Ramfs

/-- `MAX_NODES`. -/
def maxNodes : ℕ := 4096

/-- `NAME_LEN`: the longest name, in bytes. -/
def nameLen : ℕ := 255

/-- `MAX_FILE_SIZE`. -/
def maxFileSize : ℕ := 64 * 1024 * 1024

instance : NeZero maxNodes := ⟨by decide⟩

abbrev Idx := Fin maxNodes

inductive NodeKind
  | file
  | dir
  deriving DecidableEq

/-- The first `name_len` bytes of a name. -/
structure Nom where
  octets : List UInt8
  borne : octets.length ≤ nameLen
  deriving DecidableEq

namespace Nom

def vide : Nom := ⟨[], Nat.zero_le _⟩

/-- `nom_acceptable`. -/
def Acceptable (name : List UInt8) : Prop := name ≠ [] ∧ name.length ≤ nameLen

instance (name : List UInt8) : Decidable (Acceptable name) :=
  inferInstanceAs (Decidable (_ ∧ _))

/-- `set_name`: the name stored, if it is accepted. -/
def lit (name : List UInt8) : Option Nom :=
  if h : Acceptable name then some ⟨name, h.2⟩ else none

theorem lit_eq_some {name : List UInt8} {n : Nom} : lit name = some n ↔ name ≠ [] ∧ n.octets = name := by
  unfold lit
  constructor
  · intro h
    split at h
    · rename_i ha
      cases h
      exact ⟨ha.1, rfl⟩
    · cases h
  · rintro ⟨hne, rfl⟩
    exact dif_pos ⟨hne, n.borne⟩

theorem lit_eq_none {name : List UInt8} : lit name = none ↔ ¬Acceptable name := by
  unfold lit
  split
  · rename_i ha
    exact iff_of_false (fun h => nomatch h) (not_not_intro ha)
  · rename_i ha
    exact iff_of_true rfl ha

theorem ext_octets {a b : Nom} (h : a.octets = b.octets) : a = b := by
  cases a
  cases b
  cases h
  rfl

end Nom

structure Node where
  used : Bool
  kind : NodeKind
  parent : Idx
  name : Nom
  content : List UInt8
  mode : UInt16
  uid : UInt16
  gid : UInt16
  mtime : UInt64
  deriving DecidableEq

namespace Node

def empty : Node := ⟨false, .file, 0, .vide, [], 0o644, 0, 0, 0⟩

def sansDate (n : Node) : Node := { n with mtime := 0 }

def sansPlace (n : Node) : Node := { n with parent := 0, name := .vide, mtime := 0 }

theorem sansDate_eq_iff {n m : Node} : n.sansDate = m.sansDate ↔
    n.used = m.used ∧ n.kind = m.kind ∧ n.parent = m.parent ∧ n.name = m.name ∧
      n.content = m.content ∧ n.mode = m.mode ∧ n.uid = m.uid ∧ n.gid = m.gid := by
  simp [sansDate]

theorem sansPlace_of_sansDate {n m : Node} (h : n.sansDate = m.sansDate) : n.sansPlace = m.sansPlace := by
  have := sansDate_eq_iff.mp h
  simp [sansPlace, this]

end Node

/-- The session's user and the clock. -/
structure Contexte where
  uid : UInt16
  unixTime : UInt64

namespace Contexte

def gid (ctx : Contexte) : UInt16 := ctx.uid

def isRoot (ctx : Contexte) : Bool := ctx.uid = 0

end Contexte

/-- The table, the nodes with an immutable extent on disk, the persistent root
once it is mounted, and the count of modifications below it. -/
structure FileSystem where
  nodes : Idx → Node
  disque : Idx → Bool
  racine : Option Idx
  generation : UInt64

/-- Errors of the operations on paths. -/
inductive Erreur
  | parentNotADirectory
  | alreadyExists
  | invalidName
  | noFreeInode
  | permissionDenied
  | introuvable
  | cheminInvalide
  deriving DecidableEq

namespace FileSystem

variable (ctx : Contexte) (fs : FileSystem)

def modifie (i : Idx) (f : Node → Node) : FileSystem :=
  { fs with nodes := Function.update fs.nodes i (f (fs.nodes i)) }

/-- `note_racine_persistante`: what is below that node is counted from now on. -/
def noteRacinePersistante (racine : Idx) : FileSystem := { fs with racine := some racine }

/-- `note_modification`. -/
def noteModification : FileSystem := { fs with generation := fs.generation + 1 }

/-- The loop of `sous_persistant`. -/
def remonte (racine : Idx) : ℕ → Idx → Bool
  | 0, _ => false
  | n + 1, idx =>
    if idx = racine then true
    else if idx = 0 then false
    else remonte racine n (fs.nodes idx).parent

/-- `sous_persistant`: at most 64 links are followed. -/
def sousPersistant (idx : Idx) : Bool :=
  match fs.racine with
  | none => false
  | some r => fs.remonte r 64 idx

def touche (idx : Idx) : FileSystem :=
  let fs := fs.modifie idx fun n => { n with mtime := ctx.unixTime }
  if fs.sousPersistant idx then fs.noteModification else fs

/-- The first node of the table with that parent and name. -/
@[irreducible]
def findChild (parent : Idx) (name : List UInt8) : Option Idx :=
  Fin.find? fun i =>
    (fs.nodes i).used && (fs.nodes i).parent = parent && (fs.nodes i).name.octets = name

/-- The first free node behind the root. -/
@[irreducible]
def allocNode : Option (Idx × FileSystem) :=
  (Fin.find? fun i => i ≠ 0 && !(fs.nodes i).used).map fun i =>
    (i, fs.modifie i fun _ => { Node.empty with used := true, mtime := ctx.unixTime })

/-- What `mkdir_at` and `touch_at` do once no child has the name: check it, take a
node, fill it and touch the parent. -/
def cree (kind : NodeKind) (mode : UInt16) (parent : Idx) (name : List UInt8) :
    Except Erreur (Idx × FileSystem) :=
  match Nom.lit name with
  | none => .error .invalidName
  | some nom =>
    match fs.allocNode ctx with
    | none => .error .noFreeInode
    | some (idx, fs) =>
      let fs := fs.modifie idx fun n =>
        { n with kind := kind, parent := parent, mode := mode, uid := ctx.uid, gid := ctx.gid, name := nom }
      .ok (idx, fs.touche ctx parent)

def mkdirAt (parent : Idx) (name : List UInt8) : Except Erreur (Idx × FileSystem) :=
  if (fs.nodes parent).kind ≠ .dir then .error .parentNotADirectory
  else if (fs.findChild parent name).isSome then .error .alreadyExists
  else fs.cree ctx .dir 0o755 parent name

def touchAt (parent : Idx) (name : List UInt8) : Except Erreur (Idx × FileSystem) :=
  if (fs.nodes parent).kind ≠ .dir then .error .parentNotADirectory
  else
    match fs.findChild parent name with
    | some existing => .ok (existing, fs)
    | none => fs.cree ctx .file 0o644 parent name

def etiquetteMemfd : List UInt8 := [109, 101, 109, 102, 100, 58]

variable (idx : Idx)

/-- `est_anonyme`. -/
def estAnonyme : Bool :=
  idx ≠ 0 && (fs.nodes idx).used && (fs.nodes idx).parent = idx &&
    etiquetteMemfd.isPrefixOf (fs.nodes idx).name.octets

def libereNoeud : FileSystem :=
  if idx = 0 ∨ (fs.nodes idx).used = false then fs
  else
    let fs := if fs.sousPersistant idx then fs.noteModification else fs
    fs.modifie idx fun n => { n with used := false, content := [] }

/-- The content replaced, unless it is too long. -/
def writeNodeBytes (data : List UInt8) : Bool × FileSystem :=
  if maxFileSize < data.length then (false, fs)
  else
    let fs := { fs with disque := Function.update fs.disque idx false }
    (true, (fs.modifie idx fun n => { n with content := data }).touche ctx idx)

def appendNode (text : List UInt8) : FileSystem :=
  if fs.disque idx then fs
  else if maxFileSize < (fs.nodes idx).content.length + (text.length + 1) then fs
  else
    (fs.modifie idx fun n =>
      { n with content := (if n.content = [] then [] else n.content ++ [10]) ++ text }).touche ctx idx

@[irreducible]
def isEmptyDir : Bool :=
  (Fin.find? fun i => (fs.nodes i).used && i ≠ idx && (fs.nodes i).parent = idx).isNone

def barre : UInt8 := 47

def composants (path : List UInt8) : List (List UInt8) :=
  (path.splitOn barre).filter (· ≠ [])

def point : List UInt8 := [46]

def pointPoint : List UInt8 := [46, 46]

/-- One component of a walk. -/
def avance (current : Idx) (comp : List UInt8) : Option Idx :=
  if comp = point then some current
  else if comp = pointPoint then some (fs.nodes current).parent
  else fs.findChild current comp

def depart (path : List UInt8) (cwd : Idx) : Idx := if path.head? = some barre then 0 else cwd

def resolve (path : List UInt8) (cwd : Idx) : Option Idx :=
  if path = [] then some cwd else (composants path).foldlM fs.avance (depart path cwd)

/-- The rights of the session on a node. -/
def can (idx : Idx) (want : UInt16) : Bool :=
  ctx.isRoot ||
    (let n := fs.nodes idx
     let bits := if ctx.uid = n.uid then (n.mode >>> 6) &&& 0o7
       else if ctx.gid = n.gid then (n.mode >>> 3) &&& 0o7
       else n.mode &&& 0o7
     (bits &&& want) = want)

def permR : UInt16 := 4

def permW : UInt16 := 2

def permX : UInt16 := 1

/-- One component of a walk that checks the right to cross each directory. -/
def avanceChecked (current : Idx) (comp : List UInt8) : Except Erreur Idx :=
  if comp = point then .ok current
  else if !fs.can ctx current permX then .error .permissionDenied
  else if comp = pointPoint then .ok (fs.nodes current).parent
  else
    match fs.findChild current comp with
    | some i => .ok i
    | none => .error .introuvable

def resolveChecked (path : List UInt8) (cwd : Idx) : Except Erreur Idx :=
  if path = [] then .ok cwd
  else (composants path).foldlM (fs.avanceChecked ctx) (depart path cwd)

end FileSystem

/-- The directory part of a path. -/
inductive Dossier
  | courant
  | racine
  | chemin (path : List UInt8)
  deriving DecidableEq

def sansBarres : List UInt8 → List UInt8
  | [] => []
  | c :: reste => c :: reste.rdropWhile (· == FileSystem.barre)

/-- A path cut at its last separator. -/
def coupe (path : List UInt8) : Option (Dossier × List UInt8) :=
  let path := sansBarres path
  if path = [] ∨ path = [FileSystem.barre] then none
  else
    let name := path.rtakeWhile (· != FileSystem.barre)
    match path.rdropWhile (· != FileSystem.barre) with
    | [] => some (.courant, path)
    | [_] => some (.racine, name)
    | avant => some (.chemin avant.dropLast, name)

namespace FileSystem

variable (ctx : Contexte) (fs : FileSystem) (path : List UInt8)

def resolveParentName (cwd : Idx) : Option (Idx × List UInt8) :=
  match coupe path with
  | none => none
  | some (.courant, name) => some (cwd, name)
  | some (.racine, name) => some (0, name)
  | some (.chemin p, name) => (fs.resolve p cwd).map (·, name)

def resolveParentNameChecked (cwd : Idx) : Except Erreur (Idx × List UInt8) :=
  match coupe path with
  | none => .error .cheminInvalide
  | some (.courant, name) => .ok (cwd, name)
  | some (.racine, name) => .ok (0, name)
  | some (.chemin p, name) => (fs.resolveChecked ctx p cwd).map (·, name)

end FileSystem

end BouchaudOS.Ramfs
