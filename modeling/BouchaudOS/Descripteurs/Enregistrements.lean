import BouchaudOS.Descripteurs.Table
import BouchaudOS.Descripteurs.Verrous

/-!
# Record locks and the descriptors of their files

`fcntl_verrou`, `sys_close`, `sys_dup2` and `sys_dup3` of `src/compat/linux/file.rs`, and
what `execve` (`proc.rs`) and the end of a process (`lifecycle.rs`) do to descriptors and
locks. A process loses its locks on a file when it closes any descriptor of the file.
`sys_close` sees to it; the other calls that close a descriptor do not.
-/

namespace BouchaudOS.Descripteurs

open Genre

/-- `struct flock`. -/
structure Flock where
  lType : ℤ
  lWhence : ℤ
  lStart : ℤ
  lLen : ℤ
  lPid : ℤ
  deriving DecidableEq

def Genre.code : Genre → ℤ
  | rdlck => 0
  | wrlck => 1
  | unlck => 2

def Genre.ofCode (n : ℤ) : Option Genre :=
  if n = 0 then some rdlck else if n = 1 then some wrlck else if n = 2 then some unlck else none

inductive Commande
  | getlk
  | setlk
  | setlkw
  deriving DecidableEq

/-- Descriptors by process, sizes of files, locks. -/
structure Systeme where
  files : ℕ → FdTable FileDesc
  tailles : ℕ → ℕ
  verrous : List Verrou

/-- A request: the file, the kind of lock, the first byte and the length. -/
structure Requete where
  noeud : ℕ
  genre : Genre
  debut : ℕ
  longueur : ℕ
  deriving DecidableEq

inductive Reponse
  | zero
  | interroge (sortie : Flock)
  deriving DecidableEq

namespace Systeme

/-- Where the range of a request starts to count. -/
def origine (s : Systeme) (d : FileDesc) (noeud : ℕ) (lWhence : ℤ) : Option ℤ :=
  if lWhence = 0 then some 0
  else if lWhence = 1 then some d.offset
  else if lWhence = 2 then some (s.tailles noeud)
  else none

/-- The range, of which a negative length tells the bytes before the start. -/
def plage (base : ℤ) (f : Flock) : ℤ × ℤ :=
  if f.lLen < 0 then (base + f.lStart + f.lLen, -f.lLen) else (base + f.lStart, f.lLen)

/-- `fcntl_verrou` up to the lock table. -/
def requete (s : Systeme) (pid : ℕ) (fd : ℤ) (f : Flock) : Except Errno Requete :=
  match Genre.ofCode f.lType with
  | none => .error .einval
  | some genre =>
    match (s.files pid).get fd with
    | none => .error .ebadf
    | some d =>
      match d.kind with
      | .file noeud =>
        match s.origine d noeud f.lWhence with
        | none => .error .einval
        | some base =>
          if (plage base f).1 < 0 then .error .einval
          else .ok ⟨noeud, genre, (plage base f).1.toNat, (plage base f).2.toNat⟩
      | _ => .error .einval

/-- The answer to `F_GETLK`. -/
def reponse (f : Flock) : Option (Genre × ℕ × ℕ × ℕ) → Flock
  | none => { f with lType := unlck.code }
  | some (genre, debut, longueur, pid) => ⟨genre.code, 0, debut, longueur, pid⟩

/-- `fcntl_verrou`; `lu` is what user memory holds at the address of the request, and
`inscriptible` tells whether the answer can be written there. `F_SETLKW` looks again until
its patience is over: between two looks nothing changes here. -/
def fcntlVerrou (s : Systeme) (pid : ℕ) (fd : ℤ) (commande : Commande) (lu : Option Flock)
    (inscriptible : Bool) : Except Errno Reponse × Systeme :=
  match lu with
  | none => (.error .efault, s)
  | some f =>
    match s.requete pid fd f with
    | .error x => (.error x, s)
    | .ok r =>
      match commande with
      | .getlk =>
        let sortie := reponse f (interroge s.verrous r.noeud pid r.genre r.debut r.longueur)
        (if inscriptible then .ok (.interroge sortie) else .error .efault, s)
      | _ =>
        match pose s.verrous r.noeud pid r.genre r.debut r.longueur with
        | (.accorde, verrous) => (.ok .zero, { s with verrous := verrous })
        | (.occupe, _) => (.error (if commande = .setlkw then .edeadlk else .eagain), s)

def poseTable (s : Systeme) (pid : ℕ) (t : FdTable FileDesc) : Systeme :=
  { s with files := Function.update s.files pid t }

def sysClose (s : Systeme) (pid : ℕ) (fd : ℤ) : Except Errno Reponse × Systeme :=
  let ferme := (s.files pid).close fd
  let s' := s.poseTable pid ferme.2
  let s'' :=
    match ((s.files pid).get fd).map FileDesc.kind with
    | some (.file noeud) => { s' with verrous := libereFichier s.verrous noeud pid }
    | _ => s'
  (if ferme.1 then .ok .zero else .error .ebadf, s'')

/-- A table call whose failure changes nothing; what it takes out of the table is dropped. -/
def rendTable {β : Type} (s : Systeme) (pid : ℕ) :
    Except Errno (β × FdTable FileDesc) → Except Errno Reponse × Systeme
  | .error x => (.error x, s)
  | .ok (_, t) => (.ok .zero, s.poseTable pid t)

/-- The clone of a descriptor, with its flag `FD_CLOEXEC`. -/
def clone (cloexec : Bool) (d : FileDesc) : FileDesc := { d with cloexec := cloexec }

def dup2 (s : Systeme) (pid : ℕ) (old new : ℤ) : Except Errno (Option FileDesc × FdTable FileDesc) :=
  (s.files pid).sysDup2 (clone false) old new

def dup3 (s : Systeme) (pid : ℕ) (old new : ℤ) (flags : Flags) :
    Except Errno (Option FileDesc × FdTable FileDesc) :=
  (s.files pid).sysDup3 (clone (flags &&& oCloexec ≠ 0)) old new flags

def sort (s : Systeme) (pid : ℕ) : Systeme :=
  { s with verrous := libereProcessus s.verrous pid }.poseTable pid (s.files pid).prendTout.2

end Systeme

/-- A call of a process. Besides the calls on locks and those that close descriptors, calls
that open, move or copy descriptors, and changes of the size of a file. -/
inductive Appel
  | fcntl (pid : ℕ) (fd : ℤ) (commande : Commande) (lu : Option Flock) (inscriptible : Bool)
  | close (pid : ℕ) (fd : ℤ)
  | dup2 (pid : ℕ) (old new : ℤ)
  | dup3 (pid : ℕ) (old new : ℤ) (flags : Flags)
  | execve (pid : ℕ)
  | exit (pid : ℕ)
  | ouvre (pid : ℕ) (desc : FileDesc)
  | dup (pid : ℕ) (fd : ℤ)
  | fork (pid fils : ℕ)
  | lseek (pid : ℕ) (fd : ℤ) (offset : ℕ)
  | taille (noeud taille : ℕ)

namespace Systeme

def execute (s : Systeme) : Appel → Except Errno Reponse × Systeme
  | .fcntl pid fd commande lu inscriptible => s.fcntlVerrou pid fd commande lu inscriptible
  | .close pid fd => s.sysClose pid fd
  | .dup2 pid old new => s.rendTable pid (s.dup2 pid old new)
  | .dup3 pid old new flags => s.rendTable pid (s.dup3 pid old new flags)
  | .execve pid => s.rendTable pid (.ok ((s.files pid).closeOnExec FileDesc.cloexec))
  | .exit pid => (.ok .zero, s.sort pid)
  | .ouvre pid desc => s.rendTable pid (.ok ((s.files pid).insert desc))
  | .dup pid fd => s.rendTable pid ((s.files pid).sysDup (clone false) fd)
  | .fork pid fils => (.ok .zero, s.poseTable fils (s.files pid))
  | .lseek pid fd offset =>
    (.ok .zero, s.poseTable pid ((s.files pid).modify fd fun d => { d with offset := offset }))
  | .taille noeud taille => (.ok .zero, { s with tailles := Function.update s.tailles noeud taille })

/-- The descriptors that a call closes, and the process they belong to. -/
def fermes (s : Systeme) : Appel → ℕ × List FileDesc
  | .close pid fd => (pid, ((s.files pid).get fd).toList)
  | .dup2 pid old new => (pid, ((s.dup2 pid old new).toOption.bind Prod.fst).toList)
  | .dup3 pid old new flags => (pid, ((s.dup3 pid old new flags).toOption.bind Prod.fst).toList)
  | .execve pid => (pid, ((s.files pid).closeOnExec FileDesc.cloexec).1)
  | .exit pid => (pid, (s.files pid).prendTout.1.filterMap id)
  | _ => (0, [])

/-- Processes with these descriptors and files of these sizes, before any lock. -/
def neuf (files : ℕ → FdTable FileDesc) (tailles : ℕ → ℕ) : Systeme := ⟨files, tailles, []⟩

def SansVerrou (s : Systeme) (pid : ℕ) (l : List FileDesc) : Prop :=
  ∀ d ∈ l, ∀ noeud, d.kind = .file noeud → ∀ g b, ¬ Tient s.verrous noeud pid g b

/-- A byte of the request that another process has locked in its way. -/
def Bloque (s : Systeme) (pid : ℕ) (r : Requete) : Prop :=
  r.genre ≠ unlck ∧ ∃ b < sansFin, DansPlage r.debut r.longueur b ∧ EnConflit s.verrous r.noeud pid r.genre b

/-- The answer to a valid request: refused, or reported, when it is blocked and only then;
a request that is granted changes exactly its bytes, and the others change nothing. -/
def Repond (s : Systeme) (pid : ℕ) (commande : Commande) (r : Requete)
    (x : Except Errno Reponse × Systeme) : Prop :=
  match commande with
  | .getlk => x.2 = s ∧ ∀ sortie, x.1 = .ok (.interroge sortie) → (sortie.lType ≠ unlck.code ↔ s.Bloque pid r)
  | _ => ((∃ e, x.1 = .error e) ↔ s.Bloque pid r) ∧ (s.Bloque pid r → x.2 = s) ∧
      (¬ s.Bloque pid r → ∀ n p g, ∀ b < sansFin, (Tient x.2.verrous n p g b ↔
        if n = r.noeud ∧ p = pid ∧ DansPlage r.debut r.longueur b then g = r.genre ∧ r.genre ≠ unlck
        else Tient s.verrous n p g b))

/-- What the step must do. -/
structure Conforme (s : Systeme) (a : Appel) : Prop where
  exclusif : Exclusif (s.execute a).2.verrous
  repond : ∀ pid fd commande f inscriptible r, a = .fcntl pid fd commande (some f) inscriptible →
    s.requete pid fd f = .ok r → s.Repond pid commande r (s.execute a)
  ferme : (s.execute a).2.SansVerrou (s.fermes a).1 (s.fermes a).2

/-- Bounds that fit in an `i64`. -/
def Bornes (s : Systeme) (a : Appel) : Prop :=
  ∀ pid fd commande f inscriptible r, a = .fcntl pid fd commande (some f) inscriptible →
    s.requete pid fd f = .ok r → r.debut + r.longueur < 2 ^ 63

/-- The states that the calls lead to from processes without locks, as long as the bounds of
their requests fit. -/
inductive Atteint : Systeme → Prop
  | neuf (files : ℕ → FdTable FileDesc) (tailles : ℕ → ℕ) : Atteint (neuf files tailles)
  | pas {s : Systeme} {a : Appel} (h : Atteint s) (hb : s.Bornes a) : Atteint (s.execute a).2

/-- The step does not ask `F_GETLK` about the removal of a lock where another process has
one for writing, and closes by `dup2`, `dup3` or `execve` no descriptor of a file on which
its process has a lock. -/
def Propre (s : Systeme) : Appel → Prop
  | .fcntl pid fd .getlk (some f) true => ∀ r, s.requete pid fd f = .ok r → r.genre = unlck →
      ∀ b < sansFin, DansPlage r.debut r.longueur b → ¬ EnConflit s.verrous r.noeud pid unlck b
  | .dup2 pid old new => s.SansVerrou pid (s.fermes (.dup2 pid old new)).2
  | .dup3 pid old new flags => s.SansVerrou pid (s.fermes (.dup3 pid old new flags)).2
  | .execve pid => s.SansVerrou pid (s.fermes (.execve pid)).2
  | _ => True

variable {s : Systeme} {pid : ℕ} {fd : ℤ} {commande : Commande} {f : Flock} {r : Requete}
  {inscriptible : Bool} {lu : Option Flock} {a : Appel}

section

variable (hs : Saine s.verrous) (hb : r.debut + r.longueur < 2 ^ 63)

include hs hb

/-- `F_GETLK` reports a lock exactly when one is in conflict with the request. -/
theorem reponse_interroge :
    (reponse f (interroge s.verrous r.noeud pid r.genre r.debut r.longueur)).lType ≠ unlck.code ↔
      ∃ b < sansFin, DansPlage r.debut r.longueur b ∧ EnConflit s.verrous r.noeud pid r.genre b := by
  rw [← conflitDans_borne_iff hs hb]
  unfold interroge
  cases hc : conflitDans s.verrous r.noeud pid r.genre r.debut (borne r.debut r.longueur) with
  | none => simp [reponse]
  | some v =>
    have hgenre := (hs.plein v (List.mem_of_find?_eq_some hc)).2.2
    simp only [Option.map_some, reponse, Option.isSome_some, iff_true]
    cases hg : v.genre with
    | rdlck => decide
    | wrlck => decide
    | unlck => exact absurd hg hgenre

theorem repond_getlk (hr : s.requete pid fd f = .ok r) :
    s.Repond pid .getlk r (s.fcntlVerrou pid fd .getlk (some f) inscriptible) ↔
      (inscriptible = true → r.genre = unlck → ∀ b < sansFin, DansPlage r.debut r.longueur b →
        ¬ EnConflit s.verrous r.noeud pid unlck b) := by
  have hrep := @reponse_interroge s pid f r hs hb
  cases inscriptible with
  | false => simp [Repond, fcntlVerrou, hr]
  | true =>
    simp only [Repond, fcntlVerrou, hr, if_true, true_and, Except.ok.injEq, Reponse.interroge.injEq,
      forall_eq', hrep, Bloque, true_implies]
    by_cases hg : r.genre = unlck
    · simp [hg]
    · simp [hg]

theorem repond_setlk (hr : s.requete pid fd f = .ok r) (hc : commande ≠ .getlk) :
    s.Repond pid commande r (s.fcntlVerrou pid fd commande (some f) inscriptible) := by
  obtain ⟨-, hrefus, -, hpose⟩ := @pose_spec s.verrous r.noeud pid r.debut r.longueur r.genre hs hb
  have hfcntl : s.fcntlVerrou pid fd commande (some f) inscriptible =
      match pose s.verrous r.noeud pid r.genre r.debut r.longueur with
      | (.accorde, verrous) => (.ok .zero, { s with verrous := verrous })
      | (.occupe, _) => (.error (if commande = .setlkw then .edeadlk else .eagain), s) := by
    cases commande with
    | getlk => exact absurd rfl hc
    | setlk => simp [fcntlVerrou, hr]
    | setlkw => simp [fcntlVerrou, hr]
  have hpartie : s.Repond pid .setlk r (s.fcntlVerrou pid fd commande (some f) inscriptible) := by
    rw [hfcntl]
    rcases hq : pose s.verrous r.noeud pid r.genre r.debut r.longueur with ⟨q, verrous⟩
    rw [hq] at hrefus hpose
    cases q with
    | accorde =>
      have hlibre : ¬ s.Bloque pid r := fun h => absurd (hrefus.mpr h) nofun
      exact ⟨by simp [hlibre], fun h => absurd h hlibre, fun _ => hpose rfl⟩
    | occupe =>
      have hbloque : s.Bloque pid r := hrefus.mp rfl
      exact ⟨by simp [hbloque], fun _ => rfl, fun h => absurd hbloque h⟩
  cases commande with
  | getlk => exact absurd rfl hc
  | setlk => exact hpartie
  | setlkw => exact hpartie

end

@[simp] theorem verrous_poseTable (s : Systeme) (pid : ℕ) (t : FdTable FileDesc) :
    (s.poseTable pid t).verrous = s.verrous := rfl

@[simp] theorem verrous_rendTable {β : Type} (x : Except Errno (β × FdTable FileDesc)) :
    (s.rendTable pid x).2.verrous = s.verrous := by
  cases x <;> rfl

theorem verrous_sysClose (s : Systeme) (pid : ℕ) (fd : ℤ) : (s.sysClose pid fd).2.verrous =
      match ((s.files pid).get fd).map FileDesc.kind with
      | some (.file noeud) => libereFichier s.verrous noeud pid
      | _ => s.verrous := by
  unfold sysClose
  split <;> rfl

theorem saine_fcntlVerrou (hs : Saine s.verrous) (hb : s.Bornes (.fcntl pid fd commande lu inscriptible)) :
    Saine (s.fcntlVerrou pid fd commande lu inscriptible).2.verrous := by
  unfold fcntlVerrou
  split
  · exact hs
  split
  · exact hs
  rename_i r hr
  have hlt := hb _ _ _ _ _ r rfl hr
  split
  · exact hs
  have hpose := (@pose_spec s.verrous r.noeud pid r.debut r.longueur r.genre hs hlt).1
  split
  · rename_i hp
    rw [hp] at hpose
    exact hpose
  · exact hs

theorem saine_execute (hs : Saine s.verrous) (hb : s.Bornes a) : Saine (s.execute a).2.verrous := by
  cases a with
  | fcntl pid fd commande lu inscriptible => exact saine_fcntlVerrou hs hb
  | close pid fd =>
    rw [execute, verrous_sysClose]
    split
    · exact hs.filter _
    · exact hs
  | exit pid => exact hs.filter _
  | _ => simpa [execute] using hs

theorem ferme_iff {s' : Systeme} (h : s'.verrous = s.verrous) (l : List FileDesc) :
    s'.SansVerrou pid l ↔ s.SansVerrou pid l := by
  unfold SansVerrou
  rw [h]

theorem sansVerrou_sysClose (s : Systeme) (pid : ℕ) (fd : ℤ) :
    (s.sysClose pid fd).2.SansVerrou pid ((s.files pid).get fd).toList := by
  intro d hd noeud hk g b ht
  rw [Option.mem_toList] at hd
  rw [verrous_sysClose, hd] at ht
  simp only [Option.map_some, hk] at ht
  exact (tient_libereFichier.mp ht).2 ⟨rfl, rfl⟩

theorem sansVerrou_sort (s : Systeme) (pid : ℕ) (l : List FileDesc) : (s.sort pid).SansVerrou pid l := by
  intro d _ noeud _ g b ht
  exact (tient_libereProcessus.mp ht).2 rfl

theorem conforme_fcntl_iff (hs : Saine s.verrous)
    (hb : s.Bornes (.fcntl pid fd commande (some f) inscriptible))
    (hexcl : Exclusif (s.execute (.fcntl pid fd commande (some f) inscriptible)).2.verrous) :
    s.Conforme (.fcntl pid fd commande (some f) inscriptible) ↔
      s.Propre (.fcntl pid fd commande (some f) inscriptible) := by
  have hrepond : s.Conforme (.fcntl pid fd commande (some f) inscriptible) ↔
      ∀ r, s.requete pid fd f = .ok r →
        s.Repond pid commande r (s.fcntlVerrou pid fd commande (some f) inscriptible) := by
    constructor
    · intro h r hr
      exact h.repond pid fd commande f inscriptible r rfl hr
    · intro h
      refine ⟨hexcl, ?_, fun d hd => nomatch hd⟩
      rintro _ _ _ _ _ r ⟨⟩ hr
      exact h r hr
  rw [hrepond]
  by_cases hc : commande = .getlk
  · subst hc
    have hgetlk : (∀ r, s.requete pid fd f = .ok r →
        s.Repond pid .getlk r (s.fcntlVerrou pid fd .getlk (some f) inscriptible)) ↔
        ∀ r, s.requete pid fd f = .ok r → inscriptible = true → r.genre = unlck → ∀ b < sansFin,
          DansPlage r.debut r.longueur b → ¬ EnConflit s.verrous r.noeud pid unlck b :=
      forall₂_congr fun r hr => repond_getlk hs (hb _ _ _ _ _ r rfl hr) hr
    rw [hgetlk]
    cases inscriptible with
    | false => simp [Propre]
    | true => simp [Propre]
  · have htout : ∀ r, s.requete pid fd f = .ok r →
        s.Repond pid commande r (s.fcntlVerrou pid fd commande (some f) inscriptible) :=
      fun r hr => repond_setlk hs (hb _ _ _ _ _ r rfl hr) hr hc
    refine iff_of_true htout ?_
    cases commande with
    | getlk => exact absurd rfl hc
    | setlk => trivial
    | setlkw => trivial

theorem conforme_iff (hs : Saine s.verrous) (hb : s.Bornes a) : s.Conforme a ↔ s.Propre a := by
  have hexcl := (saine_execute hs hb).exclusif
  -- a call that makes no request
  have hautre : (∀ pid fd c f i, a ≠ .fcntl pid fd c (some f) i) →
      (s.Conforme a ↔ (s.execute a).2.SansVerrou (s.fermes a).1 (s.fermes a).2) := fun hne =>
    ⟨fun h => h.ferme, fun h => ⟨hexcl, fun pid fd c f i _ ha => absurd ha (hne pid fd c f i), h⟩⟩
  -- a call that closes nothing
  have hrien : ∀ s' : Systeme, s'.SansVerrou 0 [] := fun s' d hd => nomatch hd
  cases a with
  | fcntl pid fd commande lu inscriptible =>
    cases lu with
    | none =>
      rw [hautre (by simp)]
      exact iff_of_true (hrien _) (by cases commande <;> trivial)
    | some f => exact conforme_fcntl_iff hs hb hexcl
  | close pid fd =>
    rw [hautre (by simp)]
    exact iff_of_true (sansVerrou_sysClose s pid fd) trivial
  | exit pid =>
    rw [hautre (by simp)]
    exact iff_of_true (sansVerrou_sort s pid _) trivial
  | dup2 pid old new =>
    rw [hautre (by simp)]
    exact ferme_iff (verrous_rendTable _) _
  | dup3 pid old new flags =>
    rw [hautre (by simp)]
    exact ferme_iff (verrous_rendTable _) _
  | execve pid =>
    rw [hautre (by simp)]
    exact ferme_iff (verrous_rendTable _) _
  | _ =>
    rw [hautre (by simp)]
    exact iff_of_true (hrien _) trivial

theorem Atteint.saine (h : s.Atteint) : Saine s.verrous := by
  induction h with
  | neuf files tailles => exact saine_nil
  | pas _ hb ih => exact saine_execute ih hb

/-- File 7 under numbers 0 and 1 of every process, and file 8 under number 2. -/
def troisDescripteurs : ℕ → FdTable FileDesc := fun _ =>
  ⟨[some ⟨.file 7, 0, 2, false⟩, some ⟨.file 7, 0, 2, false⟩, some ⟨.file 8, 0, 2, true⟩]⟩

/-- A request of process 1 for a lock for writing on the first ten bytes of file 7. -/
def verrouille : Appel := .fcntl 1 0 .setlk (some ⟨1, 0, 0, 10, 0⟩) true

def unVerrou : Systeme := ((neuf troisDescripteurs fun _ => 0).execute verrouille).2

end Systeme

end BouchaudOS.Descripteurs
