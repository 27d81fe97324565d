import BouchaudOS.Foundations.Utf8
import BouchaudOS.Persist.Superbloc

/-!
# The table of the persistent zone

`src/fs/persistance/{meta,codec,io}.rs`: one entry of 256 bytes for each file
or directory, with its path, its size and its metadata. The place of a content
is not stored: contents follow each other in the order of the table, each
aligned on a sector.
-/
namespace BouchaudOS.Persist

open Bytes List

/-- `ENTREES_MAX`. -/
def entreesMax : ℕ := 2048

/-- `TAILLE_ENTREE`. -/
def tailleEntree : ℕ := 256

/-- `CHEMIN_MAX`: the size follows the path. -/
def cheminMax : ℕ := tailleEntree - 16

/-- `DEBUT_META`. -/
def debutMeta : ℕ := 248

/-- What the table keeps of a node besides its path and its size. -/
structure Meta where
  dossier : Bool
  mode : UInt16
  uid : UInt16
  gid : UInt16
  deriving DecidableEq, Repr

namespace Meta

def genreFichier : UInt8 := 0x46

def genreDossier : UInt8 := 0x44

def versionMeta : UInt8 := 1

def encode (m : Meta) : List UInt8 :=
  [if m.dossier then genreDossier else genreFichier, versionMeta] ++
    leBytes 2 m.mode.toNat ++ leBytes 2 m.uid.toNat ++ leBytes 2 m.gid.toNat

/-- `none` for an unknown kind or version: the entry is then read as one of the
format before the metadata. -/
def decode (brut : List UInt8) : Option Meta :=
  if brut.length < 8 ∨ brut.getD 1 0 ≠ versionMeta then none
  else if brut.getD 0 0 = genreFichier ∨ brut.getD 0 0 = genreDossier then
    some
      { dossier := brut.getD 0 0 = genreDossier
        mode := UInt16.ofNat (ofLeBytes (slice brut 2 2)) &&& 0o7777
        uid := UInt16.ofNat (ofLeBytes (slice brut 4 2))
        gid := UInt16.ofNat (ofLeBytes (slice brut 6 2)) }
  else none

/-- The metadata with the twelve bits of the mode that are read back. -/
def douzeBits (m : Meta) : Meta := { m with mode := m.mode &&& 0o7777 }

theorem length_encode (m : Meta) : m.encode.length = 8 := by simp [encode]

theorem decode_encode (m : Meta) : decode m.encode = some m.douzeBits := by
  have hmode : slice m.encode 2 2 = leBytes 2 m.mode.toNat := rfl
  have huid : slice m.encode 4 2 = leBytes 2 m.uid.toNat := rfl
  have hgid : slice m.encode 6 2 = leBytes 2 m.gid.toNat := rfl
  have h0 : m.encode.getD 0 0 = if m.dossier then genreDossier else genreFichier := rfl
  have h1 : m.encode.getD 1 0 = versionMeta := rfl
  unfold decode
  rw [if_neg (by rw [length_encode, h1]; simp), hmode, huid, hgid, h0]
  cases hd : m.dossier
  · simp [douzeBits, hd, genreFichier, genreDossier]
  · simp [douzeBits, hd]

end Meta

def chaine (octets : List UInt8) : Chaine := .lossy (octets.takeWhile (· ≠ 0))

def aRestaurer (chemin : Chaine) (taille : UInt64) (m : Option Meta) : Bool :=
  !chemin.octets.isEmpty && (0 < taille || m.isSome)

/-- A file or directory of a snapshot. -/
structure SnapshotEntree where
  chemin : Chaine
  contenu : List UInt8
  metadonnees : Meta
  deriving DecidableEq

open SnapshotEntree

/-- What is read of one entry of the table. -/
structure EntreeTable where
  chemin : Chaine
  taille : UInt64
  metadonnees : Option Meta
  deriving DecidableEq

def entreeNulle : List UInt8 := List.replicate tailleEntree 0

@[simp] theorem length_entreeNulle : entreeNulle.length = 256 := length_replicate

def SnapshotEntree.corps (e : SnapshotEntree) : List UInt8 :=
  splice (splice entreeNulle 0 e.chemin.octets) cheminMax (leBytes 8 e.contenu.length)

def SnapshotEntree.encode (e : SnapshotEntree) : List UInt8 :=
  splice e.corps debutMeta e.metadonnees.encode

def EntreeTable.decode (brut : List UInt8) : EntreeTable where
  chemin := chaine (slice brut 0 cheminMax)
  taille := UInt64.ofNat (ofLeBytes (slice brut cheminMax 8))
  metadonnees := Meta.decode (slice brut debutMeta 8)

theorem takeWhile_ne_zero_append (l : List UInt8) (m : ℕ) :
    (l ++ List.replicate m 0).takeWhile (· ≠ 0) = l.takeWhile (· ≠ 0) := by
  induction l with
  | nil => cases m <;> simp [replicate_succ]
  | cons b l ih =>
    by_cases hb : b = 0
    · simp [hb]
    · simpa [hb] using ih

section

variable {e : SnapshotEntree} (h : e.chemin.octets.length < cheminMax)
include h

theorem length_chemin_pose : (splice entreeNulle 0 e.chemin.octets).length = 256 := by
  have hmax : cheminMax = 240 := rfl
  rw [length_splice (by simp; omega), length_entreeNulle]

theorem length_corps : e.corps.length = 256 := by
  have hl := length_chemin_pose h
  rw [corps, length_splice (by simp [hl, cheminMax, tailleEntree]), hl]

theorem length_encode : e.encode.length = tailleEntree := by
  have hl := length_corps h
  rw [encode, length_splice (by simp [hl, Meta.length_encode, debutMeta]), hl]
  rfl

theorem slice_encode_corps {k n : ℕ} (hk : k + n ≤ debutMeta) : slice e.encode k n = slice e.corps k n :=
  slice_splice_disjoint (by simp [length_corps h, Meta.length_encode, debutMeta]) (.inl hk)

theorem slice_chemin :
    slice e.encode 0 cheminMax =
      e.chemin.octets ++ List.replicate (cheminMax - e.chemin.octets.length) 0 := by
  have hmax : cheminMax = 240 := rfl
  have hl := length_chemin_pose h
  rw [slice_encode_corps h (by simp [hmax, debutMeta]), corps,
    slice_splice_disjoint (by simp [hl, hmax]) (.inl (by omega)), slice_zero, splice,
    take_zero, nil_append, entreeNulle, drop_replicate, take_append,
    take_of_length_le h.le, take_replicate]
  congr 2
  simp [tailleEntree]
  omega

/-- An entry is read back with its path up to the first NUL and twelve bits of
its mode. -/
theorem decode_encode :
    EntreeTable.decode e.encode =
      ⟨e.chemin.jusquaNul, UInt64.ofNat e.contenu.length, some e.metadonnees.douzeBits⟩ := by
  have hmeta : slice e.encode debutMeta 8 = e.metadonnees.encode :=
    slice_splice_self (Meta.length_encode _).symm (by simp [length_corps h, Meta.length_encode, debutMeta])
  have htaille : slice e.encode cheminMax 8 = leBytes 8 e.contenu.length := by
    rw [slice_encode_corps h (by decide), corps,
      slice_splice_self (by simp) (by simp [length_chemin_pose h, cheminMax, tailleEntree])]
  have hchemin : chaine (slice e.encode 0 cheminMax) = e.chemin.jusquaNul := by
    rw [slice_chemin h, chaine, takeWhile_ne_zero_append]
    exact Chaine.ext' (Utf8.lossy_of_valid e.chemin.jusquaNul.valide)
  unfold EntreeTable.decode
  rw [hchemin, htaille, hmeta, Meta.decode_encode, ofLeBytes_leBytes]
  congr 1
  apply UInt64.toNat_inj.mp
  simp

end

/-- Sectors that `nombre` entries need. -/
def secteursTableUtiles (nombre : ℕ) : ℕ := (nombre * tailleEntree + tailleSecteur - 1) / tailleSecteur

/-- Sectors that a content of `longueur` bytes needs. -/
def secteursDe (longueur : ℕ) : ℕ := (longueur + tailleSecteur - 1) / tailleSecteur

def bourre (o : List UInt8) (secteurs : ℕ) : List UInt8 :=
  o ++ List.replicate (secteurs * tailleSecteur - o.length) 0

def table (es : List SnapshotEntree) : List UInt8 :=
  bourre (es.map encode).flatten (secteursTableUtiles es.length)

theorem length_bourre {o : List UInt8} {n : ℕ} (h : o.length ≤ n * tailleSecteur) :
    (bourre o n).length = n * tailleSecteur := by
  simp [bourre]
  omega

theorem le_secteursDe (n : ℕ) : n ≤ secteursDe n * tailleSecteur := by
  unfold secteursDe tailleSecteur
  omega

theorem le_secteursTableUtiles (n : ℕ) : n * tailleEntree ≤ secteursTableUtiles n * tailleSecteur := by
  unfold secteursTableUtiles tailleSecteur
  omega

def CheminsTiennent (es : List SnapshotEntree) : Prop :=
  ∀ e ∈ es, e.chemin.octets.length < cheminMax

variable {es : List SnapshotEntree}

theorem length_flatten_encode (h : CheminsTiennent es) :
    (es.map encode).flatten.length = es.length * tailleEntree := by
  induction es with
  | nil => simp
  | cons e es ih =>
    rw [map_cons, flatten_cons, length_append, length_encode (h e (by simp)),
      ih fun e' he' => h e' (by simp [he']), length_cons]
    ring

theorem length_table (h : CheminsTiennent es) :
    (table es).length = secteursTableUtiles es.length * tailleSecteur := by
  apply length_bourre
  rw [length_flatten_encode h]
  exact le_secteursTableUtiles _

/-- An entry stands in the table at its own place. -/
theorem slice_table (h : CheminsTiennent es) (i : ℕ) (hi : i < es.length) :
    slice (table es) (i * tailleEntree) tailleEntree = (es.get ⟨i, hi⟩).encode := by
  have hflat : ∀ (es : List SnapshotEntree) (i : ℕ), CheminsTiennent es → (hi : i < es.length) →
      slice (es.map encode).flatten (i * tailleEntree) tailleEntree = (es.get ⟨i, hi⟩).encode := by
    intro es
    induction es with
    | nil => exact fun i _ hi => absurd hi (Nat.not_lt_zero i)
    | cons e es ih =>
      intro i h hi
      have he := length_encode (h e (by simp))
      rw [map_cons, flatten_cons]
      cases i with
      | zero =>
        rw [slice_append_left (by omega), Nat.zero_mul, slice_zero, take_of_length_le he.le]
        rfl
      | succ i =>
        rw [slice_append_right (by rw [he, Nat.succ_mul]; omega), he, Nat.succ_mul, Nat.add_sub_cancel]
        exact ih i (fun e' he' => h e' (by simp [he'])) (by simpa using hi)
  have hle : i * tailleEntree + tailleEntree ≤ es.length * tailleEntree := by
    rw [← Nat.succ_mul]
    exact Nat.mul_le_mul_right _ hi
  rw [table, bourre, slice_append_left (by rw [length_flatten_encode h]; exact hle), hflat es i h hi]

end BouchaudOS.Persist
