import BouchaudOS.Foundations.Bytes
import BouchaudOS.Foundations.Utf8
import BouchaudOS.Memoire.Espace
import BouchaudOS.Memoire.Vma

/-!
# The executable loader

`src/kernel/process/elf.rs`: the header and the program headers of an ELF file are
read either from the file in memory (`parse`) or from its first bytes (`parse_node`),
and the segments are mapped at once (`load`) or promised (`load_node_lazy`). The two
loaders walk over the program headers twice, first to check the segments and then to
install them.

A product of two 16-bit fields fits in 64 bits. Byte buffers are counted by their
size; the name of the interpreter is counted by its length once decoded. What a
segment puts into the pages is left out: no decision depends on it.
-/

namespace BouchaudOS.Elf

open Bytes Espace Memoire

abbrev Issue := Outcome String Faute

/-- The bytes of a file; a slice is shorter than `2 ^ 63`. -/
structure Fichier where
  octets : List UInt8
  borne : octets.length < 2 ^ 63

namespace Fichier

variable (f : Fichier)

/-- `logical_len` -/
def taille : ℕ := f.octets.length

/-- `read_at` when it fills the buffer. The device may fail. -/
def readAt (panne : ℕ → ℕ → Bool) (offset n : ℕ) : Option (List UInt8) :=
  if n = 0 then some []
  else if offset + n ≤ f.taille ∧ panne offset n = false then some (slice f.octets offset n)
  else none

end Fichier

def ELF_MAGIC : List UInt8 := [0x7F, 0x45, 0x4C, 0x46]
def ELFCLASS64 : UInt8 := 2
def ELFDATA2LSB : UInt8 := 1
def EM_X86_64 : ℕ := 62
def ET_EXEC : ℕ := 2
def ET_DYN : ℕ := 3
def PT_LOAD : ℕ := 1
def PT_INTERP : ℕ := 3
def PT_PHDR : ℕ := 6
def PT_TLS : ℕ := 7
def PF_X : ℕ := 1
def PF_W : ℕ := 2

structure ProgramHeader where
  kind : ℕ
  flags : ℕ
  offset : ℕ
  vaddr : ℕ
  filesz : ℕ
  memsz : ℕ
  align : ℕ
  deriving DecidableEq

structure ElfHeader where
  kind : ℕ
  entry : ℕ
  phoff : ℕ
  phentsize : ℕ
  phnum : ℕ
  headers : List ProgramHeader
  deriving DecidableEq

structure LoadedImage where
  base : ℕ
  entry : ℕ
  phdrAddr : ℕ
  phentsize : ℕ
  phnum : ℕ
  fin : ℕ
  interp : Option (List UInt8)
  tls : Option (ℕ × ℕ × ℕ × ℕ)
  deriving DecidableEq

/-- `read_u16`, `read_u32` and `read_u64`: `n` bytes, least significant first. -/
def readLe (n : ℕ) (data : List UInt8) (offset : ℕ) : Issue ℕ :=
  if offset + n ≤ data.length then .ok (ofLeBytes (slice data offset n)) else .fault .indice

/-- `&data[debut..fin]` -/
def tranche (data : List UInt8) (debut fin : ℕ) : Issue (List UInt8) :=
  if debut ≤ fin ∧ fin ≤ data.length then .ok (slice data debut (fin - debut)) else .fault .indice

/-- A buffer of `n` bytes, for a file of `total` bytes. -/
def tampon (total n : ℕ) : Issue Unit := Outcome.require (n ≤ total + 2 ^ 20) .tampon

variable (data : List UInt8)

/-- The header at `phoff + index * phentsize`. -/
def lisProgramHeader (phoff phentsize index : ℕ) : Issue ProgramHeader := do
  let base ← ajoute phoff (index * phentsize)
  let bout ← ajoute base 56
  Outcome.refuse (data.length < bout) "en-tetes de programme hors du fichier"
  let kind ← readLe 4 data base
  let flags ← readLe 4 data (base + 4)
  let offset ← readLe 8 data (base + 8)
  let vaddr ← readLe 8 data (base + 16)
  let filesz ← readLe 8 data (base + 32)
  let memsz ← readLe 8 data (base + 40)
  let align ← readLe 8 data (base + 48)
  pure { kind, flags, offset, vaddr, filesz, memsz, align }

/-- The loop of `parse`. -/
def lisProgramHeaders (phoff phentsize phnum : ℕ) : Issue (List ProgramHeader) :=
  (List.range phnum).foldlM (fun headers index => do
    let ph ← lisProgramHeader data phoff phentsize index
    pure (headers ++ [ph])) []

/-- The tests that `parse` makes on the first bytes, with the kind of file. -/
def verifieEntete : Issue ℕ := do
  Outcome.refuse (data.length < 64) "fichier trop court pour un ELF64"
  Outcome.refuse (slice data 0 4 ≠ ELF_MAGIC) "signature ELF absente"
  Outcome.refuse (data.getD 4 0 ≠ ELFCLASS64) "ELF 32 bits non supporte (ELFCLASS64 attendu)"
  Outcome.refuse (data.getD 5 0 ≠ ELFDATA2LSB) "ELF gros-boutiste non supporte"
  let kind ← readLe 2 data 16
  let machine ← readLe 2 data 18
  Outcome.refuse (machine ≠ EM_X86_64) "architecture non supportee (x86-64 attendu)"
  Outcome.refuse (kind ≠ ET_EXEC ∧ kind ≠ ET_DYN) "type ELF non executable (ET_EXEC ou ET_DYN attendu)"
  pure kind

def parse : Issue ElfHeader := do
  let kind ← verifieEntete data
  let entry ← readLe 8 data 24
  let phoff ← readLe 8 data 32
  let phentsize ← readLe 2 data 54
  let phnum ← readLe 2 data 56
  Outcome.refuse (phentsize < 56) "taille d'en-tete de programme invalide"
  let headers ← lisProgramHeaders data phoff phentsize phnum
  pure { kind, entry, phoff, phentsize, phnum, headers }

def parseNode (panne : ℕ → ℕ → Bool) (f : Fichier) : Issue ElfHeader := do
  let ehdr ← Outcome.ofOption "fichier trop court pour un ELF64" (f.readAt panne 0 64)
  Outcome.refuse (slice ehdr 0 4 ≠ ELF_MAGIC) "signature ELF absente"
  let phoff ← readLe 8 ehdr 32
  let phentsize ← readLe 2 ehdr 54
  let phnum ← readLe 2 ehdr 56
  Outcome.refuse (phentsize < 56) "taille d'en-tete de programme invalide"
  Outcome.refuse (2 ^ 64 ≤ phentsize * phnum ∨ 2 ^ 64 ≤ phoff + phentsize * phnum) "Phdr overflow"
  let need := phoff + phentsize * phnum
  Outcome.refuse (f.taille < need) "en-tetes de programme hors du fichier"
  tampon f.taille (max need 64)
  let metadata ← Outcome.ofOption "lecture metadata ELF incomplete" (f.readAt panne 0 (max need 64))
  parse metadata

/-- Page table flags of a segment; none if it may be written and executed. -/
def pageFlags (flags : ℕ) : Option ℕ :=
  if flags &&& PF_W ≠ 0 ∧ flags &&& PF_X ≠ 0 then none
  else
    let value := PTE_PRESENT ||| PTE_USER
    let value := if flags &&& PF_W ≠ 0 then value ||| PTE_WRITE else value
    some (if flags &&& PF_X = 0 then value ||| PTE_NO_EXEC else value)

def nomInterp (raw : List UInt8) : List UInt8 := Utf8.lossy (raw.takeWhile (· != 0))

/-- What the loaders do differently: the check of a segment, reading the interpreter's
name, and installing a segment, which gives the end of its pages. -/
structure Chargeur (σ : Type) where
  verifie : ProgramHeader → Issue Unit
  interp : ProgramHeader → Issue (List UInt8)
  segment : σ → ProgramHeader → Issue (σ × ℕ)

/-- What is known in the course of the second walk. -/
structure Avancee (σ : Type) where
  cible : σ
  interp : Option (List UInt8)
  tls : Option (ℕ × ℕ × ℕ × ℕ)
  imageEnd : ℕ
  phdrAddr : ℕ

variable {σ : Type} (ch : Chargeur σ) (base : ℕ)

def installe (e : Avancee σ) (ph : ProgramHeader) : Issue (Avancee σ) :=
  if ph.kind = PT_INTERP then do
    let nom ← ch.interp ph
    pure { e with interp := some nom }
  else if ph.kind = PT_TLS then do
    let a ← ajoute base ph.vaddr
    pure { e with tls := some (a, ph.filesz, ph.memsz, max ph.align 1) }
  else if ph.kind = PT_PHDR then do
    let a ← ajoute base ph.vaddr
    pure { e with phdrAddr := a }
  else if ph.kind = PT_LOAD ∧ ph.memsz ≠ 0 then do
    let (cible, pageEnd) ← ch.segment e.cible ph
    pure { e with cible := cible, imageEnd := max e.imageEnd pageEnd }
  else pure e

/-- The address of the headers: without `PT_PHDR`, where the file's beginning goes. -/
def adressePhdr (h : ElfHeader) (phdrAddr : ℕ) : Issue ℕ :=
  if phdrAddr = 0 then ajoute base h.phoff else pure phdrAddr

/-- What follows the second walk. -/
def conclut (h : ElfHeader) (e : Avancee σ) : Issue (LoadedImage × σ) := do
  Outcome.refuse (e.imageEnd = 0) "aucun segment PT_LOAD chargeable"
  let phdrAddr ← adressePhdr base h e.phdrAddr
  let entry ← ajoute base h.entry
  pure ({ base, entry, phdrAddr, phentsize := h.phentsize, phnum := h.phnum, fin := e.imageEnd,
          interp := e.interp, tls := e.tls }, e.cible)

def charges (h : ElfHeader) : List ProgramHeader := h.headers.filter (·.kind = PT_LOAD)

def charge (h : ElfHeader) (cible : σ) : Issue (LoadedImage × σ) := do
  (charges h).foldlM (fun _ ph => ch.verifie ph) ()
  let e ← h.headers.foldlM (installe ch base) ⟨cible, none, none, 0, 0⟩
  conclut base h e

def baseDe (hint : ℕ) (h : ElfHeader) : ℕ := if h.kind = ET_DYN then hint else 0

def horsCreneau : String :=
  "segment hors du creneau utilisateur (relier en PIE ou avec -Ttext-segment=0x400000000000)"

variable (c : Creneau) (panne : ℕ → ℕ → Bool) (node : ℕ) (f : Fichier) (base : ℕ)

def verifiePromesse (ph : ProgramHeader) : Issue Unit := do
  let start ← ajoute base ph.vaddr
  Outcome.refuse (2 ^ 64 ≤ start + ph.memsz) "segment overflow"
  Outcome.refuse (¬c.isUserAddr start ∨ ¬c.isUserAddr (start + ph.memsz)) horsCreneau
  Outcome.refuse (ph.memsz < ph.filesz ∨ f.taille < min (ph.offset + ph.filesz) (2 ^ 64 - 1))
    "segment PT_LOAD hors du fichier"

def interpDuNoeud (ph : ProgramHeader) : Issue (List UInt8) := do
  tampon f.taille ph.filesz
  let raw ← Outcome.ofOption "PT_INTERP hors du fichier" (f.readAt panne ph.offset ph.filesz)
  tampon f.taille (nomInterp raw).length
  pure (nomInterp raw)

variable (identite : ℕ → ℕ)

/-- The promise of a segment, under the identity that is drawn for it. -/
def promet (promesses : List Vma) (ph : ProgramHeader) : Issue (List Vma × ℕ) := do
  let vaddr ← ajoute base ph.vaddr
  let fin ← ajoute vaddr ph.memsz
  let pageEnd ← arrondi fin
  let drapeaux ← Outcome.ofOption "segment inscriptible et executable refuse (W^X)" (pageFlags ph.flags)
  pure (overlay promesses ⟨identite promesses.length, pageDe vaddr, pageEnd, drapeaux,
    .file node vaddr ph.offset ph.filesz⟩, pageEnd)

def paresseux : Chargeur (List Vma) where
  verifie := verifiePromesse c f base
  interp := interpDuNoeud panne f
  segment := promet node base identite

def loadNodeLazy (baseHint : ℕ) (promesses : List Vma) : Issue (LoadedImage × List Vma) := do
  let h ← parseNode panne f
  charge (paresseux c panne node f (baseDe baseHint h) identite) (baseDe baseHint h) h promesses

variable (memoire : Memoire) (f : Fichier) (base : ℕ)

def verifieSegment (ph : ProgramHeader) : Issue Unit := do
  let start ← ajoute base ph.vaddr
  let fin ← ajoute start ph.memsz
  Outcome.refuse (¬c.isUserAddr start ∨ ¬c.isUserAddr fin) horsCreneau

def interpEnMemoire (ph : ProgramHeader) : Issue (List UInt8) := do
  let fin ← ajoute ph.offset ph.filesz
  Outcome.refuse (f.taille < fin) "PT_INTERP hors du fichier"
  let raw ← tranche f.octets ph.offset fin
  tampon f.taille (nomInterp raw).length
  pure (nomInterp raw)

/-- The loop that writes zeros from `debut` on, one buffer at a time. -/
def videBss (e : Feuilles) (debut taille : ℕ) : Issue Unit :=
  if 0 < taille then do
    let pas := min taille (2 ^ 20)
    tampon f.taille pas
    (List.range ((taille + pas - 1) / pas)).foldlM (fun _ k => do
      let a ← ajoute debut (k * pas)
      let _ ← write e a (min pas (taille - k * pas))
      pure ()) ()
  else pure ()

/-- The kind that the pages of a segment are counted under. -/
def FILE_PRIVATE : ℕ := 2 <<< 9

/-- Copies the file's part of a segment that is mapped, writes the zeros that follow
and sets the rights of its pages. -/
def remplitSegment (e : Feuilles) (ph : ProgramHeader) (vaddr pageEnd : ℕ) : Issue (Feuilles × ℕ) := do
  let fileEnd ← ajoute ph.offset ph.filesz
  Outcome.refuse (f.taille < fileEnd) "segment PT_LOAD hors du fichier"
  let contenu ← tranche f.octets ph.offset fileEnd
  let ok ← write e vaddr contenu.length
  Outcome.refuse (ok = false) "ecriture du segment impossible"
  let bssStart ← ajoute vaddr ph.filesz
  let bssLen ← retranche ph.memsz ph.filesz
  videBss f e bssStart bssLen
  let drapeaux ← Outcome.ofOption "segment inscriptible et executable refuse (W^X)" (pageFlags ph.flags)
  let e ← prepareProtect e (pageDe vaddr) (pageEnd - pageDe vaddr) drapeaux
  pure (e, pageEnd)

def installeSegment (e : Feuilles) (ph : ProgramHeader) : Issue (Feuilles × ℕ) := do
  let vaddr ← ajoute base ph.vaddr
  let fin ← ajoute vaddr ph.memsz
  let pageEnd ← arrondi fin
  let longueur ← retranche pageEnd (pageDe vaddr)
  let (ok, e) ← mapAllocAccounted memoire e (pageDe vaddr) longueur
    (PTE_PRESENT ||| PTE_USER ||| PTE_WRITE) FILE_PRIVATE
  Outcome.refuse (ok = false) "memoire physique insuffisante pour le segment"
  remplitSegment f e ph vaddr pageEnd

def immediat : Chargeur Feuilles where
  verifie := verifieSegment c base
  interp := interpEnMemoire f
  segment := installeSegment memoire f base

def load (e : Feuilles) (baseHint : ℕ) : Issue (LoadedImage × Feuilles) := do
  let h ← parse f.octets
  charge (immediat c memoire f (baseDe baseHint h)) (baseDe baseHint h) h e

end BouchaudOS.Elf
