import BouchaudOS.Memoire.Espace
import BouchaudOS.Memoire.Vma

/-!
# The memory calls of a process

`src/compat/linux/mem.rs` and `src/kernel/process/thread/processus.rs`: the state that
the lock of a process's memory protects, and the calls that reserve, release and
protect ranges of it. A call is cut where it gives up the lock: what the locked part
takes off the page tables and off the lists of shared and clean pages is handed back
afterwards.

The page tables are a parameter. So are the files, the screen and the answer of the
fault handler, which changes pages but no area. The identity that is drawn for an area
is an argument.
-/

namespace BouchaudOS.Mm

open Espace Memoire

inductive Errno
  | EINVAL
  | ENOMEM
  | EEXIST
  | EACCES
  | ENODEV
  | EBADF
  | EFAULT
  deriving DecidableEq

/-- A call is not refused but gives an error; it may meet a fault. -/
abbrev Issue := Outcome Empty Faute

structure Cle where
  node : ℕ
  offset : ℕ
  generation : ℕ
  deriving DecidableEq

structure CleanPageMapping where
  virt : ℕ
  key : Cle
  deriving DecidableEq

structure Partage where
  base : ℕ
  length : ℕ
  node : ℕ
  deriving DecidableEq

structure MmState (σ : Type) where
  space : σ
  brkStart : ℕ
  brk : ℕ
  mmapNext : ℕ
  partages : List Partage
  limiteAs : ℕ
  promesses : List Vma
  cleanPages : List CleanPageMapping
  deriving DecidableEq

/-- The operations on page tables that the calls use. -/
structure Pagination (σ : Type) where
  mappedPages : σ → ℕ
  translate : σ → ℕ → Option ℕ
  prepareUnmap : σ → ℕ → ℕ → Issue (σ × List ℕ)
  finishUnmap : σ → List ℕ → σ
  prepareProtect : σ → ℕ → ℕ → ℕ → Issue σ

/-- What the locked part of a call leaves to hand back: frames, shared nodes and clean
pages. -/
structure Retrait where
  frames : List ℕ
  noeuds : List ℕ
  cles : List Cle

def Retrait.vide : Retrait := ⟨[], [], []⟩

variable {σ : Type} (p : Pagination σ) (mm : MmState σ)

/-- The frames go back to the allocator; the nodes and pages go back to their caches. -/
def acheve (r : Retrait) : MmState σ :=
  match r.frames with
  | [] => mm
  | frames => { mm with space := p.finishUnmap mm.space frames }

/-- Clean pages of the range, taken off the list. -/
def retireCleanPages (addr len : ℕ) : MmState σ × List Cle :=
  let fin := min (addr + len) (2 ^ 64 - 1)
  let dans := fun m : CleanPageMapping => addr ≤ m.virt && m.virt < fin
  ({ mm with cleanPages := mm.cleanPages.filter fun m => !dans m }, (mm.cleanPages.filter dans).map (·.key))

/-- What is left of a shared range when another one is punched out of it. -/
def Partage.perce (addr fin : ℕ) (q : Partage) : List Partage :=
  let qFin := min (q.base + q.length) (2 ^ 64 - 1)
  if fin ≤ q.base ∨ qFin ≤ addr then [q]
  else
    (if addr - q.base ≠ 0 then [⟨q.base, addr - q.base, q.node⟩] else []) ++
      (if qFin - fin ≠ 0 then [⟨fin, qFin - fin, q.node⟩] else [])

/-- The shared ranges without `[addr, addr + len)`: a range that is gone gives its
reference back, one that is cut in two takes another. -/
def retirePartages (addr len : ℕ) : MmState σ × List ℕ × List ℕ :=
  let fin := min (addr + len) (2 ^ 64 - 1)
  let restes := mm.partages.map fun q => (q, q.perce addr fin)
  ({ mm with partages := (restes.map (·.2)).flatten },
    (restes.filter fun r => r.2.length = 0).map (·.1.node),
    (restes.filter fun r => r.2.length = 2).map (·.1.node))

def ajouteSature (a b : ℕ) : ℕ := min (a + b) (2 ^ 64 - 1)

/-- The total length of spans in order of their beginnings, those that meet joined. -/
def sommeUnion (start fin total : ℕ) : List (ℕ × ℕ) → ℕ
  | [] => ajouteSature total (fin - start)
  | (d, f) :: l =>
    if d ≤ fin then sommeUnion start (max fin f) total l
    else sommeUnion d f (ajouteSature total (fin - start)) l

def octetsVirtuels (regions : List Vma) : ℕ :=
  match (regions.map fun v => (v.debut, v.fin)).insertionSort fun a b => a.1 ≤ b.1 with
  | [] => 0
  | (d, f) :: l => sommeUnion d f 0 l

def tailleAs : ℕ := max (octetsVirtuels mm.promesses) (p.mappedPages mm.space * PAGE_SIZE)

def tientSousLimite (croissance : ℕ) : Issue Bool :=
  if mm.limiteAs = 0 then pure true
  else do
    let taille ← ajoute (tailleAs p mm) croissance
    pure (taille ≤ mm.limiteAs)

def PROT_NONE : ℕ := 0
def PROT_READ : ℕ := 1
def PROT_WRITE : ℕ := 2
def PROT_EXEC : ℕ := 4

def MAP_SHARED : ℕ := 0x01
def MAP_PRIVATE : ℕ := 0x02
def MAP_FIXED : ℕ := 0x10
def MAP_ANONYMOUS : ℕ := 0x20
def MAP_NORESERVE : ℕ := 0x4000
def MAP_POPULATE : ℕ := 0x8000
def MAP_FIXED_NOREPLACE : ℕ := 0x100000

def PTE_WRITE_THROUGH : ℕ := 1 <<< 3

def protToFlags (prot : ℕ) : ℕ :=
  if prot = PROT_NONE then PTE_PRESENT ||| PTE_NO_EXEC
  else
    let flags := PTE_PRESENT ||| PTE_USER
    let flags := if prot &&& PROT_WRITE ≠ 0 then flags ||| PTE_WRITE else flags
    if prot &&& PROT_EXEC = 0 then flags ||| PTE_NO_EXEC else flags

def protToFlagsVerifie (prot : ℕ) : Option ℕ :=
  if prot &&& PROT_WRITE ≠ 0 ∧ prot &&& PROT_EXEC ≠ 0 then none else some (protToFlags prot)

variable (id : ℕ) (mm : MmState σ) (addr : ℕ)

/-- `sys_brk` up to the end of the locked part, with the new break. -/
def brkSection : Issue (ℕ × MmState σ × Retrait) :=
  if addr = 0 ∨ addr < mm.brkStart then pure (mm.brk, mm, .vide)
  else if mm.brk < addr then do
    let start ← arrondi mm.brk
    let fin ← arrondi addr
    if start < fin then do
      let tient ← tientSousLimite p mm (fin - start)
      if tient then
        pure (addr, { mm with
          brk := addr
          promesses := remplace mm.promesses ⟨id, start, fin, protToFlags (PROT_READ ||| PROT_WRITE), .zero⟩ },
          .vide)
      else pure (mm.brk, mm, .vide)
    else pure (addr, { mm with brk := addr }, .vide)
  else if addr < mm.brk then do
    let start ← arrondi addr
    let fin ← arrondi mm.brk
    if start < fin then do
      let (space, frames) ← p.prepareUnmap mm.space start (fin - start)
      pure (addr, { mm with brk := addr, space := space, promesses := retire mm.promesses start fin },
        { Retrait.vide with frames := frames })
    else pure (addr, { mm with brk := addr }, .vide)
  else pure (addr, { mm with brk := addr }, .vide)

def sysBrk : Issue (ℕ × MmState σ) := do
  let (result, mm, retrait) ← brkSection p id mm addr
  pure (result, acheve p mm retrait)

def plageUserValide (c : Creneau) (base length : ℕ) : Bool :=
  length ≠ 0 && base + length < 2 ^ 64 && decide (c.isUserAddr base) && decide (c.isUserAddr (base + length - 1))

def chevauche (regions : List Vma) (debut fin : ℕ) : Bool := regions.any fun v => v.chevauche debut fin

def alignUp (value : ℕ) : Option ℕ := if value + 4095 < 2 ^ 64 then some (pageDe (value + 4095)) else none

/-- The end of the last area that meets the range, if one does. -/
def collisionFin (regions : List Vma) (debut fin : ℕ) : Option ℕ :=
  ((regions.filter fun v => v.chevauche debut fin).map (·.fin)).max?

theorem lt_of_collisionFin {regions : List Vma} {debut fin d : ℕ} (h : collisionFin regions debut fin = some d) :
    debut < d := by
  obtain ⟨v, hv, rfl⟩ := List.mem_map.mp (List.max?_mem h)
  have hch := (List.mem_filter.mp hv).2
  simp only [Vma.chevauche, Bool.and_eq_true, decide_eq_true_eq] at hch
  exact hch.2

/-- The loop of `trouve_trou`: each candidate is past the areas met by the one before. -/
def chercheTrou (regions : List Vma) (longueur limite candidat : ℕ) : Option ℕ :=
  if 2 ^ 64 ≤ candidat + longueur then none
  else if _hle : limite < candidat + longueur then none
  else
    match hcol : collisionFin regions candidat (candidat + longueur) with
    | none => some candidat
    | some fin =>
      if fin + PAGE_SIZE + 4095 < 2 ^ 64 then
        chercheTrou regions longueur limite (pageDe (fin + PAGE_SIZE + 4095))
      else none
termination_by limite + 1 - candidat
decreasing_by
  have hlt := lt_of_collisionFin hcol
  unfold pageDe PAGE_SIZE
  omega

def trouveTrou (regions : List Vma) (depart longueur limite : ℕ) : Option ℕ :=
  (alignUp depart).bind (chercheTrou regions longueur limite)

/-- The base of a new mapping and the next place to search from. -/
def choisitBaseMmap (c : Creneau) (regions : List Vma) (mmapNext addr length flags : ℕ) :
    Except Errno (ℕ × ℕ) :=
  if flags &&& (MAP_FIXED ||| MAP_FIXED_NOREPLACE) ≠ 0 then
    if addr = 0 ∨ addr % PAGE_SIZE ≠ 0 then .error .EINVAL
    else if 2 ^ 64 ≤ addr + length then .error .ENOMEM
    else if plageUserValide c addr length = false then .error .ENOMEM
    else if flags &&& MAP_FIXED_NOREPLACE ≠ 0 ∧ chevauche regions addr (addr + length) then .error .EEXIST
    else .ok (addr, mmapNext)
  else if addr ≠ 0 ∧ plageUserValide c (pageDe addr) length ∧
      chevauche regions (pageDe addr) (pageDe addr + length) = false then .ok (pageDe addr, mmapNext)
  else
    match trouveTrou regions mmapNext length (c.base + USER_SPACE_SIZE) with
    | none => .error .ENOMEM
    | some base =>
      if base + length + PAGE_SIZE < 2 ^ 64 then .ok (base, base + length + PAGE_SIZE) else .error .ENOMEM

inductive FdKind
  | file (node : ℕ)
  | framebuffer
  | autre

/-- The files, the screen of the process and the fault handler. -/
structure Environ (σ : Type) where
  logicalLen : ℕ → ℕ
  diskBacked : ℕ → Bool
  ecran : Option ℕ
  lfbPhys : Option ℕ
  peuple : MmState σ → ℕ → σ × List CleanPageMapping × Bool

/-- A mapping that is decided but not yet made. -/
structure Plan where
  base : ℕ
  length : ℕ
  drapeaux : ℕ
  backing : Backing
  /-- The node that the mapping takes a reference on. -/
  partage : Option ℕ
  /-- Is the mapping counted against the limit of the process? -/
  limite : Bool
  /-- May the pages be populated at once? -/
  populate : Bool

variable (c : Creneau) (p : Pagination σ) (env : Environ σ)

/-- The first tests of `sys_mmap`, with the rounded length. -/
def verifieMmap (length prot flags offset : ℕ) : Except Errno ℕ :=
  if length = 0 ∨ prot &&& (2 ^ 32 - 1 - (PROT_READ ||| PROT_WRITE ||| PROT_EXEC)) ≠ 0 then .error .EINVAL
  else if flags &&& (MAP_SHARED ||| MAP_PRIVATE) ≠ MAP_SHARED ∧
      flags &&& (MAP_SHARED ||| MAP_PRIVATE) ≠ MAP_PRIVATE then .error .EINVAL
  else if 2 ^ 64 ≤ length + 4095 then .error .ENOMEM
  else if flags &&& MAP_ANONYMOUS = 0 ∧ offset % PAGE_SIZE ≠ 0 then .error .EINVAL
  else .ok (pageDe (length + 4095))

/-- Rights and backing of a mapping whose base is chosen. -/
def planMmap (base length prot flags : ℕ) (fdKind : Option FdKind) (offset : ℕ) : Except Errno Plan :=
  match protToFlagsVerifie prot with
  | none => .error .EACCES
  | some drapeaux =>
    let populate := flags &&& MAP_POPULATE ≠ 0 && prot ≠ PROT_NONE
    if flags &&& MAP_ANONYMOUS ≠ 0 then .ok ⟨base, length, drapeaux, .zero, none, true, populate⟩
    else
      match fdKind with
      | some .framebuffer =>
        match env.ecran with
        | some node =>
          .ok ⟨base, length, drapeaux, .sharedFile node base offset length, some node, false, populate⟩
        | none =>
          match env.lfbPhys with
          | some phys =>
            .ok ⟨base, length, drapeaux ||| PTE_WRITE_THROUGH, .framebuffer phys base offset, none, false, false⟩
          | none => .error .ENODEV
      | some (.file node) =>
        let fileSize := min (env.logicalLen node - offset) length
        if flags &&& MAP_SHARED ≠ 0 then
          if prot &&& PROT_WRITE ≠ 0 ∧ env.diskBacked node then .error .EACCES
          else .ok ⟨base, length, drapeaux, .sharedFile node base offset fileSize, some node, true, populate⟩
        else .ok ⟨base, length, drapeaux, .file node base offset fileSize, none, true, populate⟩
      | some .autre => .error .ENODEV
      | none => .error .EBADF

/-- `installe_vma`: a fixed mapping first removes what is in its range. -/
def installeVma (id : ℕ) (mm : MmState σ) (plan : Plan) (fixed : Bool) : Issue (MmState σ × Retrait) := do
  let fin ← ajoute plan.base plan.length
  let region : Vma := ⟨id, plan.base, fin, plan.drapeaux, plan.backing⟩
  if fixed then do
    let (mm, noeuds, _) := retirePartages mm plan.base plan.length
    let (mm, cles) := retireCleanPages mm plan.base plan.length
    let (space, frames) ← p.prepareUnmap mm.space plan.base plan.length
    pure ({ mm with space := space, promesses := remplace (retire mm.promesses plan.base fin) region },
      ⟨frames, noeuds, cles⟩)
  else pure ({ mm with promesses := remplace mm.promesses region }, .vide)

def tientPlan (mm : MmState σ) (plan : Plan) (fixed : Bool) : Issue Bool :=
  if plan.limite && !fixed then tientSousLimite p mm plan.length else pure true

/-- The list of shared ranges, with a mapping that takes a reference. -/
def avecPartage (mm : MmState σ) (plan : Plan) : MmState σ :=
  match plan.partage with
  | some node => { mm with partages := mm.partages ++ [⟨plan.base, plan.length, node⟩] }
  | none => mm

/-- Makes a mapping that is decided. -/
def poseMmap (id : ℕ) (mm : MmState σ) (plan : Plan) (fixed : Bool) :
    Issue (Except Errno Plan × MmState σ × Retrait) := do
  let tient ← tientPlan p mm plan fixed
  if tient then do
    let (mm, retrait) ← installeVma p id mm plan fixed
    pure (.ok plan, avecPartage mm plan, retrait)
  else pure (.error .ENOMEM, mm, .vide)

/-- The part of `sys_mmap` under the lock. -/
def mmapSection (id : ℕ) (mm : MmState σ) (addr length prot flags : ℕ) (fdKind : Option FdKind) (offset : ℕ) :
    Issue (Except Errno Plan × MmState σ × Retrait) :=
  match verifieMmap length prot flags offset with
  | .error e => pure (.error e, mm, .vide)
  | .ok length =>
    match choisitBaseMmap c mm.promesses mm.mmapNext addr length flags with
    | .error e => pure (.error e, mm, .vide)
    | .ok (base, mmapNext) =>
      match planMmap env base length prot flags fdKind offset with
      | .error e => pure (.error e, { mm with mmapNext := mmapNext }, .vide)
      | .ok plan => poseMmap p id { mm with mmapNext := mmapNext } plan (flags &&& MAP_FIXED ≠ 0)

def peuplePage (mm : MmState σ) (page : ℕ) : MmState σ × Bool :=
  let (space, propres, ok) := env.peuple mm page
  ({ mm with space := space, cleanPages := mm.cleanPages ++ propres }, ok)

/-- The loop that populates a mapping, up to the first page that cannot be. -/
def peuplePages (mm : MmState σ) : List ℕ → MmState σ × Bool
  | [] => (mm, true)
  | page :: l =>
    let (mm, ok) := peuplePage env mm page
    if ok then peuplePages mm l else (mm, false)

/-- What follows the locked part: the pages are populated if the call asks for it. -/
def acheveMmap (resultat : Except Errno Plan) (mm : MmState σ) : Except Errno ℕ × MmState σ :=
  match resultat with
  | .error e => (.error e, mm)
  | .ok plan =>
    if plan.populate then
      let (mm, ok) := peuplePages env mm ((pages plan.base (plan.base + plan.length)).map (· * PAGE_SIZE))
      (if ok then .ok plan.base else .error .ENOMEM, mm)
    else (.ok plan.base, mm)

def sysMmap (id : ℕ) (mm : MmState σ) (addr length prot flags : ℕ) (fdKind : Option FdKind) (offset : ℕ) :
    Issue (Except Errno ℕ × MmState σ) := do
  let (resultat, mm, retrait) ← mmapSection c p env id mm addr length prot flags fdKind offset
  pure (acheveMmap env resultat (acheve p mm retrait))

end BouchaudOS.Mm
