import BouchaudOS.Foundations.Bytes

/-!
# Names and directory entries

`src/fs/fat32.rs`: every name has a short form of eleven bytes. A name that is not
already one is also written in long-name entries, thirteen UTF-16 units each, the last
part first, which stand before the short entry and carry its checksum. The code always
asks for the first alias of a short form.
-/

namespace BouchaudOS.Fat32

open Bytes

/-- A name, as its characters. -/
abbrev Nom := List Char

/-- The UTF-16 units of a character. -/
def utf16 (c : Char) : List UInt16 :=
  if c.toNat < 0x10000 then [UInt16.ofNat c.toNat]
  else
    [UInt16.ofNat (0xD800 + (c.toNat - 0x10000) / 0x400), UInt16.ofNat (0xDC00 + (c.toNat - 0x10000) % 0x400)]

namespace Nom

def octets (nom : Nom) : List UInt8 := nom.flatMap String.utf8EncodeChar

/-- `encode_utf16`. -/
def unites (nom : Nom) : List UInt16 := nom.flatMap utf16

end Nom

/-- Position of the last `c`. -/
def rfind (c : UInt8) : List UInt8 → Option ℕ
  | [] => none
  | x :: o =>
    match rfind c o with
    | some i => some (i + 1)
    | none => if x = c then some 0 else none

/-- What stands before and behind the last point, unless the name starts with it. -/
def coupe (o : List UInt8) : List UInt8 × List UInt8 :=
  match rfind 0x2E o with
  | some point => if 0 < point then (o.take point, o.drop (point + 1)) else (o, [])
  | none => (o, [])

def majuscule (c : UInt8) : Bool := 0x41 ≤ c && c ≤ 0x5A

def chiffre (c : UInt8) : Bool := 0x30 ≤ c && c ≤ 0x39

/-- The byte that stands for `c` in a short name. -/
def permis (c : UInt8) : UInt8 :=
  if majuscule c || chiffre c then c
  else if 0x61 ≤ c ∧ c ≤ 0x7A then c - 32
  else if c ∈ [0x21, 0x23, 0x24, 0x25, 0x26, 0x27, 0x28, 0x29, 0x2D, 0x40, 0x5E, 0x5F, 0x60, 0x7B,
      0x7D, 0x7E] then c
  else 0x5F

def octet83 (c : UInt8) : Bool :=
  c = 0x2E || majuscule c || chiffre c || c ∈ [0x5F, 0x2D, 0x7E, 0x21, 0x23, 0x24, 0x25, 0x26]

def tientEn83 (nom : Nom) : Bool :=
  let p := coupe nom.octets
  !(p.1.isEmpty || 8 < p.1.length || 3 < p.2.length) && nom.octets.all octet83

/-- Decimal digits, the lowest first; at most `n` of them. -/
def chiffres : ℕ → ℕ → List UInt8
  | 0, _ => []
  | _ + 1, 0 => []
  | n + 1, v + 1 => UInt8.ofNat (0x30 + (v + 1) % 10) :: chiffres n ((v + 1) / 10)

/-- `~1`, `~2`, … -/
def suffixe (index : ℕ) : List UInt8 := 0x7E :: (chiffres 7 (max index 1)).reverse

def nomCourt (nom : Nom) (index : ℕ) : List UInt8 :=
  let p := coupe nom.octets
  let s := if !tientEn83 nom || 1 < index then suffixe index else []
  let base := ((p.1.filter fun c => c ≠ 0x20 ∧ c ≠ 0x2E).map permis).take (8 - s.length)
  (base ++ s).takeD 8 0x20 ++ ((p.2.take 3).map permis).takeD 3 0x20

def sommeNomCourt (court : List UInt8) : UInt8 :=
  court.foldl (fun somme octet => ((somme &&& 1) <<< 7) + (somme >>> 1) + octet) 0

/-- Unit `k` of a long name: one zero behind the name, then filling. -/
def remplie (u : List UInt16) (k : ℕ) : UInt16 :=
  match u[k]? with
  | some x => x
  | none => if k = u.length then 0 else 0xFFFF

/-- The thirteen units of part `i` of a long name. -/
def morceau (u : List UInt16) (i : ℕ) : List UInt16 :=
  (List.range 13).map fun j => remplie u (i * 13 + j)

def octetsDUnites (u : List UInt16) : List UInt8 := u.flatMap fun x => leBytes 2 x.toNat

/-- `ATTR_NOM_LONG`. -/
def attrNomLong : UInt8 := 0x0F

/-- `ATTR_REPERTOIRE`. -/
def attrRepertoire : UInt8 := 0x10

/-- `ATTR_ARCHIVE`. -/
def attrArchive : UInt8 := 0x20

/-- A long-name entry: the units stand at offsets 1, 14 and 28. -/
def entreeLongue (ordre somme : UInt8) (m : List UInt16) : List UInt8 :=
  ordre :: octetsDUnites (m.take 5) ++ [attrNomLong, 0, somme] ++
    octetsDUnites ((m.drop 5).take 6) ++ [0, 0] ++ octetsDUnites (m.drop 11)

def morceaux (u : List UInt16) : ℕ := max ((u.length + 12) / 13) 1

/-- The number of part `i`, counted from one; the last one carries a mark. -/
def ordreDe (u : List UInt16) (i : ℕ) : UInt8 :=
  UInt8.ofNat (i + 1) ||| (if i + 1 = morceaux u then 0x40 else 0)

/-- The long-name entries, in the order in which they are written. -/
def entreesNomLong (nom : Nom) (court : List UInt8) : List (List UInt8) :=
  (List.range (morceaux nom.unites)).reverse.map fun i =>
    entreeLongue (ordreDe nom.unites i) (sommeNomCourt court) (morceau nom.unites i)

def date : ℕ := (2026 - 1980) * 512 + 32 + 1

def entreeCourte (court : List UInt8) (attributs : UInt8) (amas taille : ℕ) : List UInt8 :=
  court ++ [attributs, 0, 0, 0, 0] ++ leBytes 2 date ++ leBytes 2 date ++ leBytes 2 (amas / 65536) ++
    [0, 0] ++ leBytes 2 date ++ leBytes 2 amas ++ leBytes 4 taille

/-- The entries of a name: its long-name entries where it needs some, then the short one. -/
def entreesDe (nom : Nom) (attributs : UInt8) (amas taille : ℕ) : List (List UInt8) :=
  (if tientEn83 nom then [] else entreesNomLong nom (nomCourt nom 1)) ++
    [entreeCourte (nomCourt nom 1) attributs amas taille]

/-- Byte `k` of an entry. -/
def octet (e : List UInt8) (k : ℕ) : UInt8 := e.getD k 0

def Libre (e : List UInt8) : Prop := octet e 0 = 0 ∨ octet e 0 = 0xE5

instance (e : List UInt8) : Decidable (Libre e) := inferInstanceAs (Decidable (_ ∨ _))

def amasDe (e : List UInt8) : ℕ := ofLeBytes (slice e 20 2) * 65536 + ofLeBytes (slice e 26 2)

theorem length_entreeCourte {court : List UInt8} {attributs : UInt8} {amas taille : ℕ}
    (h : court.length = 11) : (entreeCourte court attributs amas taille).length = 32 := by
  simp [entreeCourte, h]

@[simp] theorem length_nomCourt (nom : Nom) (index : ℕ) : (nomCourt nom index).length = 11 := by
  unfold nomCourt
  simp only [List.length_append, List.takeD_length]

theorem length_octetsDUnites (u : List UInt16) : (octetsDUnites u).length = 2 * u.length := by
  induction u with
  | nil => rfl
  | cons x u ih => simp [octetsDUnites, leBytes] at ih ⊢; omega

theorem length_of_mem_entreesDe {nom : Nom} {attributs : UInt8} {amas taille : ℕ} :
    ∀ e ∈ entreesDe nom attributs amas taille, e.length = 32 := by
  intro e he
  rcases List.mem_append.mp he with he | he
  · split at he
    · simp at he
    · obtain ⟨i, -, rfl⟩ := List.mem_map.mp he
      simp [entreeLongue, length_octetsDUnites, morceau]
  · rw [List.mem_singleton.mp he]
    exact length_entreeCourte (length_nomCourt _ _)

end BouchaudOS.Fat32
