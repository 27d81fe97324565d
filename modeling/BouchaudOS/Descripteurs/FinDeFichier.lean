import BouchaudOS.Descripteurs.Canal
import BouchaudOS.Foundations.Runs

/-!
# End of file and broken pipes

Processes that share pipes and socket pairs: `pipe`, `socketpair`, `dup`, `dup2`, `dup3`,
`fork`, `execve`, `exit`, `close`, descriptors passed by `sendmsg` and `recvmsg`, and `read`
and `write`, of `src/compat/linux/file.rs`, `net.rs` and `proc.rs`. Each section under a lock
is one step; what a call does between its sections is in its phase.

An object counts the descriptors that read it and those that write it. A clone counts
before it is seen, and a descriptor that is dropped outside the lock of its table is counted
until its own section: counts are never below the number of descriptors there are.
-/

namespace BouchaudOS.Descripteurs

open List Option FdTable PipeState

/-- What a descriptor counts for in an object. -/
inductive Extremite
  | tube (t : ℕ) (lecture : Bool)
  | lecteur (c : ℕ)
  | ecrivain (c : ℕ)
  deriving DecidableEq

/-- An end of a socket pair reads one direction and writes the other. -/
def FdKind.extremites : FdKind → List Extremite
  | .pipe t lecture => [.tube t lecture]
  | .socketPair entrant sortant => [.lecteur entrant, .ecrivain sortant]
  | _ => []

def extremites (l : List FileDesc) : List Extremite := l.flatMap fun d => d.kind.extremites

namespace Bouts

/-- Where a call is. `ferme` drops descriptors that were taken out of a table, or that could
not be passed on, and returns `r`. -/
inductive Phase
  | lectureTube (t count : ℕ) (inscriptible : Bool)
  | lectureTubePlein (t count : ℕ) (inscriptible : Bool)
  | lecturePaire (c count : ℕ) (inscriptible : Bool)
  | ecritureTube (t : ℕ) (data : List UInt8)
  | ecriturePaire (c : ℕ) (data : List UInt8)
  | copie (pid c : ℕ) (payload : List UInt8) (aPasser : List ℤ) (droits : List FileDesc)
  | envoi (c : ℕ) (payload : List UInt8) (droits : List FileDesc)
  | reception (pid c len capacite : ℕ) (inscriptible cloexec : Bool)
  | installe (pid : ℕ) (recus : List FileDesc) (cloexec : Bool) (n : ℕ)
  | fork (table : FdTable FileDesc)
  | ferme (reste : List Extremite) (r : Except Errno ℕ)
  | rendu (r : Except Errno ℕ)
  deriving DecidableEq

namespace Phase

/-- The descriptors that a call holds, to pass them on. -/
def enVol : Phase → List FileDesc
  | copie _ _ _ _ droits | envoi _ _ droits => droits
  | installe _ recus _ _ => recus
  | fork table => table.entries.reduceOption
  | _ => []

def aLacher : Phase → List Extremite
  | ferme reste _ => reste
  | _ => []

/-- How many of the descriptors of a call count for this end. -/
def compte (x : Extremite) (p : Phase) : ℕ := (extremites p.enVol).count x + p.aLacher.count x

/-- The direction of a socket pair that a call keeps alive. -/
def canal : Phase → Option ℕ
  | lecturePaire c _ _ | ecriturePaire c _ | copie _ c _ _ _ | envoi c _ _
  | reception _ c _ _ _ _ => some c
  | _ => none

end Phase

inductive Pas
  | pipe (pid : ℕ) (flags : Flags)
  | socketpair (pid : ℕ) (flags : Flags) (cloexec : Bool)
  | dup (pid : ℕ) (fd : ℤ)
  | dup2 (pid : ℕ) (old new : ℤ)
  | dup3 (pid : ℕ) (old new : ℤ) (flags : Flags)
  | fork (pid : ℕ)
  | execve (pid : ℕ)
  | exit (pid : ℕ)
  | close (pid : ℕ) (fd : ℤ)
  | read (pid : ℕ) (fd : ℤ) (count : ℕ) (inscriptible : Bool)
  | write (pid : ℕ) (fd : ℤ) (data : List UInt8)
  | sendmsg (pid : ℕ) (fd : ℤ) (payload : List UInt8) (aPasser : List ℤ)
  | recvmsg (pid : ℕ) (fd : ℤ) (len capacite : ℕ) (inscriptible cloexec : Bool)
  | suite (i : ℕ)
  | renonce (i : ℕ)
  | detruit (c : ℕ)

end Bouts

open Bouts

structure Bouts where
  tubes : List PipeState
  canaux : List (Canal FileDesc)
  tables : List (FdTable FileDesc)
  appels : List Phase

namespace Bouts

def neuf (n : ℕ) : Bouts := ⟨[], [], List.replicate n .vide, []⟩

/-- The count of an object. -/
def compteur (s : Bouts) : Extremite → ℕ
  | .tube t true => s.tubes[t]?.elim 0 readers
  | .tube t false => s.tubes[t]?.elim 0 writers
  | .lecteur c => s.canaux[c]?.elim 0 Canal.lecteurs
  | .ecrivain c => s.canaux[c]?.elim 0 Canal.ecrivains

/-- `FdKind::retain`, for one object. -/
def retient (s : Bouts) : Extremite → Bouts
  | .tube t true =>
    { s with tubes := s.tubes.modify t fun p => { p with readers := p.readers + 1 } }
  | .tube t false =>
    { s with tubes := s.tubes.modify t fun p => { p with writers := p.writers + 1 } }
  | .lecteur c =>
    { s with canaux := s.canaux.modify c fun k => { k with lecteurs := k.lecteurs + 1 } }
  | .ecrivain c =>
    { s with canaux := s.canaux.modify c fun k =>
        { k with ecrivains := k.ecrivains + 1, octets.eof := false } }

/-- `FdKind::release`, for one object. -/
def relache (s : Bouts) : Extremite → Bouts
  | .tube t true =>
    { s with tubes := s.tubes.modify t fun p => { p with readers := p.readers - 1 } }
  | .tube t false =>
    { s with tubes := s.tubes.modify t fun p => { p with writers := p.writers - 1 } }
  | .lecteur c =>
    { s with canaux := s.canaux.modify c fun k => { k with lecteurs := k.lecteurs - 1 } }
  | .ecrivain c =>
    { s with canaux := s.canaux.modify c fun k =>
        { k with
          ecrivains := k.ecrivains - 1
          octets.eof := k.octets.eof || k.ecrivains - 1 = 0 } }

section

variable (s : Bouts)

def poseTube (t : ℕ) (p : PipeState) : Bouts := { s with tubes := s.tubes.set t p }

def poseCanal (c : ℕ) (k : Canal FileDesc) : Bouts :=
  { s with canaux := s.canaux.set c k }

def poseTable (pid : ℕ) (t : FdTable FileDesc) : Bouts :=
  { s with tables := s.tables.set pid t }

def lance (p : Phase) : Bouts := { s with appels := s.appels ++ [p] }

def va (i : ℕ) (p : Phase) : Bouts := { s with appels := s.appels.set i p }

end

def clone (cloexec : Bool) (d : FileDesc) : FileDesc := { d with cloexec := cloexec }

section

variable (s : Bouts)

section

variable (pid : ℕ) (t : FdTable FileDesc)

def sysPipe (flags : Flags) : Bouts :=
  let tube := s.tubes.length
  let cloexec := flags &&& oCloexec ≠ 0
  let t₁ := (t.insert ⟨.pipe tube true, 0, flags, cloexec⟩).2
  let t₂ := (t₁.insert ⟨.pipe tube false, 0, flags, cloexec⟩).2
  ({ s with tubes := s.tubes ++ [new] }.poseTable pid t₂).lance (.rendu (.ok 0))

def sysSocketpair (flags : Flags) (cloexec : Bool) : Bouts :=
  let aToB := s.canaux.length
  let bToA := s.canaux.length + 1
  let t₁ := (t.insert ⟨.socketPair bToA aToB, 0, flags, cloexec⟩).2
  let t₂ := (t₁.insert ⟨.socketPair aToB bToA, 0, flags, cloexec⟩).2
  ({ s with canaux := s.canaux ++ [Canal.neuf, Canal.neuf] }.poseTable pid t₂).lance (.rendu (.ok 0))

def sysDup (fd : ℤ) : Bouts :=
  match t.get fd with
  | none => s
  | some d =>
    let r := t.insert (clone false d)
    ((d.kind.extremites.foldl retient s).poseTable pid r.2).lance (.rendu (.ok r.1))

/-- `dup2` and `dup3` of a number that is open; the descriptor that was at `new` is dropped
outside the lock. -/
def remplace (d : FileDesc) (new : ℕ) (cloexec : Bool) : Bouts :=
  let r := t.set new (clone cloexec d)
  ((d.kind.extremites.foldl retient s).poseTable pid r.2).lance (.ferme (extremites r.1.toList) (.ok new))

def sysDup2 (old new : ℤ) : Bouts :=
  if new < 0 ∨ old = new then s
  else
    match t.get old with
    | none => s
    | some d => s.remplace pid t d new.toNat false

def sysDup3 (old new : ℤ) (flags : Flags) : Bouts :=
  if new < 0 ∨ old = new ∨ flags &&& ~~~oCloexec ≠ 0 then s
  else
    match t.get old with
    | none => s
    | some d => s.remplace pid t d new.toNat (flags &&& oCloexec ≠ 0)

end

/-- The table is cloned under its lock; the child comes later. -/
def sysFork (t : FdTable FileDesc) : Bouts :=
  ((extremites t.entries.reduceOption).foldl retient s).lance (.fork t)

def sysExecve (pid : ℕ) (t : FdTable FileDesc) : Bouts :=
  let r := t.closeOnExec FileDesc.cloexec
  (s.poseTable pid r.2).lance (.ferme (extremites r.1) (.ok 0))

def sysExit (pid : ℕ) (t : FdTable FileDesc) : Bouts :=
  (s.poseTable pid t.prendTout.2).lance (.ferme (extremites t.prendTout.1.reduceOption) (.ok 0))

/-- A descriptor is dropped under the lock of its table. -/
def sysClose (pid : ℕ) (t : FdTable FileDesc) (fd : ℤ) : Bouts :=
  match t.get fd with
  | none => s
  | some d => d.kind.extremites.foldl relache (s.poseTable pid (t.close fd).2)

end

/-- What `read` does with the object it resolved. -/
def phaseLecture (kind : FdKind) (count : ℕ) (inscriptible : Bool) : Phase :=
  if count = 0 then .rendu (.ok 0)
  else
    match kind with
    | .pipe t true => .lectureTube t count inscriptible
    | .pipe _ false => .rendu (.error .ebadf)
    | .socketPair entrant _ => .lecturePaire entrant count inscriptible
    | _ => .rendu (.error .einval)

def phaseEcriture (kind : FdKind) (data : List UInt8) : Phase :=
  if data = [] then .rendu (.ok 0)
  else
    match kind with
    | .pipe t false => .ecritureTube t data
    | .pipe _ true => .rendu (.error .ebadf)
    | .socketPair _ sortant => .ecriturePaire sortant data
    | _ => .rendu (.error .einval)

def phaseEnvoi (pid : ℕ) (kind : FdKind) (payload : List UInt8) (aPasser : List ℤ) : Phase :=
  match kind with
  | .socketPair _ sortant => .copie pid sortant payload aPasser []
  | _ => .rendu (.error .einval)

def phaseReception (pid : ℕ) (kind : FdKind) (len capacite : ℕ) (inscriptible cloexec : Bool) : Phase :=
  match kind with
  | .socketPair entrant _ =>
    if len = 0 then .rendu (.ok 0) else .reception pid entrant len capacite inscriptible cloexec
  | _ => .rendu (.error .einval)

section

variable (s : Bouts)

/-- A call on a number that is open. -/
def surNumero (t : FdTable FileDesc) (fd : ℤ) (phase : FdKind → Phase) : Bouts :=
  match t.get fd with
  | none => s.lance (.rendu (.error .ebadf))
  | some d => s.lance (phase d.kind)

/-- The next section of a call. -/
def poursuit (i : ℕ) : Phase → Option Bouts
  | .lectureTube t count inscriptible =>
    s.tubes[t]?.map fun p =>
      if p.buffer ≠ [] then s.va i (.lectureTubePlein t count inscriptible)
      else if p.writers = 0 then s.va i (.rendu (.ok 0))
      else s
  | .lectureTubePlein t count inscriptible =>
    s.tubes[t]?.map fun p =>
      (s.poseTube t (p.draine count).2).va i
        (.rendu (if inscriptible then .ok (p.draine count).1.length else .error .efault))
  | .lecturePaire c count inscriptible =>
    s.canaux[c]?.map fun k =>
      match k.draine count with
      | none => s
      | some (octets, k') => (s.poseCanal c k').va i
          (.rendu (if inscriptible then .ok octets.length else .error .efault))
  | .ecritureTube t data =>
    s.tubes[t]?.map fun p =>
      match p.propose data with
      | (.rompu, _) => s.va i (.rendu (.error .epipe))
      | (.place 0, _) => s
      | (.place (n + 1), p') => (s.poseTube t p').va i (.rendu (.ok (n + 1)))
  | .ecriturePaire c data =>
    s.canaux[c]?.map fun k =>
      match k.propose data with
      | (.rompu, _) => s.va i (.rendu (.error .epipe))
      | (.place 0, _) => s
      | (.place (n + 1), k') => (s.poseCanal c k').va i (.rendu (.ok (n + 1)))
  | .copie pid c payload (fd :: reste) droits =>
    s.tables[pid]?.map fun t =>
      match t.get fd with
      | none => s.va i (.ferme (extremites droits) (.error .ebadf))
      | some d => (d.kind.extremites.foldl retient s).va i (.copie pid c payload reste (droits ++ [d]))
  | .copie _ c payload [] droits =>
    if payload = [] then
      some (s.va i (.ferme (extremites droits) (if droits = [] then .ok 0 else .error .einval)))
    else some (s.va i (.envoi c payload droits))
  | .envoi c payload droits =>
    s.canaux[c]?.map fun k =>
      match k.envoie payload droits with
      | (.rompu, _) => s.va i (.ferme (extremites droits) (.error .epipe))
      | (.place 0, _) => s
      | (.place (n + 1), k') => (s.poseCanal c k').va i (.rendu (.ok (n + 1)))
  | .reception pid c len capacite inscriptible cloexec =>
    s.canaux[c]?.map fun k =>
      match k.recoit len capacite with
      | none => s
      | some (octets, recus, k') => (s.poseCanal c k').va i
          (if inscriptible then .installe pid recus cloexec octets.length
            else .ferme (extremites recus) (.error .efault))
  | .installe pid (d :: reste) cloexec n =>
    s.tables[pid]?.map fun t =>
      (s.poseTable pid (t.insert (clone cloexec d)).2).va i (.installe pid reste cloexec n)
  | .installe _ [] _ n => some (s.va i (.rendu (.ok n)))
  | .fork t => some ({ s with tables := s.tables ++ [t] }.va i (.rendu (.ok s.tables.length)))
  | .ferme (x :: reste) r => some ((s.relache x).va i (.ferme reste r))
  | .ferme [] r => some (s.va i (.rendu r))
  | .rendu _ => none

/-- A call that waits returns `EAGAIN`, and a `fork` may fail; what they hold is dropped. -/
def abandonne (i : ℕ) : Phase → Option Bouts
  | .lectureTube _ _ _ | .lecturePaire _ _ _ | .ecritureTube _ _ | .ecriturePaire _ _
  | .reception _ _ _ _ _ _ => some (s.va i (.rendu (.error .eagain)))
  | .envoi _ _ droits => some (s.va i (.ferme (extremites droits) (.error .eagain)))
  | .fork t => some (s.va i (.ferme (extremites t.entries.reduceOption) (.error .eagain)))
  | _ => none

/-- How many descriptors count for this end, in tables, in flight and in calls, those being
dropped included. -/
def vivants (x : Extremite) : ℕ :=
  (s.tables.map (somme fun d => d.kind.extremites.count x)).sum +
  (s.canaux.map fun k => (extremites k.descripteurs).count x).sum +
  (s.appels.map (Phase.compte x)).sum

/-- No descriptor and no call designates this direction of a socket pair. -/
def Abandonne (c : ℕ) : Prop :=
  s.vivants (.lecteur c) = 0 ∧ s.vivants (.ecrivain c) = 0 ∧ ∀ p ∈ s.appels, p.canal ≠ some c

end

instance (s : Bouts) (c : ℕ) : Decidable (s.Abandonne c) :=
  inferInstanceAs (Decidable (_ ∧ _ ∧ _))

/-- A direction that nothing designates goes with the descriptors in flight in it. -/
def detruit (s : Bouts) (c : ℕ) (k : Canal FileDesc) : Bouts :=
  (s.poseCanal c { k with descripteurs := [] }).lance (.ferme (extremites k.descripteurs) (.ok 0))

def execute (s : Bouts) : Pas → Option Bouts
  | .pipe pid flags => s.tables[pid]?.map fun t => s.sysPipe pid t flags
  | .socketpair pid flags cloexec => s.tables[pid]?.map fun t => s.sysSocketpair pid t flags cloexec
  | .dup pid fd => s.tables[pid]?.map fun t => s.sysDup pid t fd
  | .dup2 pid old new => s.tables[pid]?.map fun t => s.sysDup2 pid t old new
  | .dup3 pid old new flags => s.tables[pid]?.map fun t => s.sysDup3 pid t old new flags
  | .fork pid => s.tables[pid]?.map fun t => s.sysFork t
  | .execve pid => s.tables[pid]?.map fun t => s.sysExecve pid t
  | .exit pid => s.tables[pid]?.map fun t => s.sysExit pid t
  | .close pid fd => s.tables[pid]?.map fun t => s.sysClose pid t fd
  | .read pid fd count inscriptible => s.tables[pid]?.map fun t =>
      s.surNumero t fd fun kind => phaseLecture kind count inscriptible
  | .write pid fd data => s.tables[pid]?.map fun t =>
      s.surNumero t fd fun kind => phaseEcriture kind data
  | .sendmsg pid fd payload aPasser => s.tables[pid]?.map fun t =>
      s.surNumero t fd fun kind => phaseEnvoi pid kind payload aPasser
  | .recvmsg pid fd len capacite inscriptible cloexec => s.tables[pid]?.map fun t =>
      s.surNumero t fd fun kind => phaseReception pid kind len capacite inscriptible cloexec
  | .suite i => s.appels[i]?.bind (s.poursuit i)
  | .renonce i => s.appels[i]?.bind (s.abandonne i)
  | .detruit c => s.canaux[c]?.bind fun k =>
      if s.Abandonne c then some (s.detruit c k) else none

section

variable {α : Type*} {l : List α} {f : α → α} {g : α → ℕ}

theorem elim_modify_same (h : ∀ a, g (f a) = g a) (i j : ℕ) :
    (l.modify i f)[j]?.elim 0 g = l[j]?.elim 0 g := by
  rw [getElem?_modify]
  by_cases hj : i = j
  · cases l[j]? <;> simp [hj, h]
  · simp [hj]

theorem elim_modify_succ {i : ℕ} (hi : i < l.length) (h : ∀ a, g (f a) = g a + 1) (j : ℕ) :
    (l.modify i f)[j]?.elim 0 g = l[j]?.elim 0 g + if j = i then 1 else 0 := by
  by_cases hj : j = i
  · subst hj
    simp [getElem?_eq_getElem hi, h]
  · simp [hj, Ne.symm hj]

theorem elim_modify_pred (h : ∀ a, g (f a) = g a - 1) (i j : ℕ) :
    (l.modify i f)[j]?.elim 0 g = l[j]?.elim 0 g - if j = i then 1 else 0 := by
  rw [getElem?_modify]
  by_cases hj : j = i
  · cases l[j]? <;> simp [hj, h]
  · simp [hj, Ne.symm hj]

variable {a : α} {β : Type*}

theorem elim_set {i : ℕ} {b : α} (h : l[i]? = some a) (hg : g b = g a) (j : ℕ) :
    (l.set i b)[j]?.elim 0 g = l[j]?.elim 0 g := by
  by_cases hj : i = j
  · subst hj
    rw [List.getElem?_set_self (List.getElem?_eq_some_iff.mp h).1, h]
    exact hg
  · rw [getElem?_set_ne hj]

theorem map_modify_of_eq {g : α → β} (h : ∀ a, g (f a) = g a) (i : ℕ) : (l.modify i f).map g = l.map g := by
  apply ext_getElem?
  intro j
  rw [getElem?_map, getElem?_map, getElem?_modify]
  by_cases hj : i = j
  · cases l[j]? <;> simp [hj, h]
  · simp [hj]

theorem mem_modify {i : ℕ} (h : a ∈ l.modify i f) : a ∈ l ∨ ∃ b ∈ l, a = f b := by
  obtain ⟨j, hj⟩ := mem_iff_getElem?.mp h
  rw [getElem?_modify] at hj
  obtain ⟨b, hb, rfl⟩ := map_eq_some_iff.mp hj
  split_ifs
  · exact .inr ⟨b, mem_of_getElem? hb, rfl⟩
  · exact .inl (mem_of_getElem? hb)

theorem of_map_eq_some {o : Option α} {f : α → β} {b : β} {P : β → Prop}
    (hb : o.map f = some b) (h : ∀ a, o = some a → P (f a)) : P b := by
  obtain ⟨a, ha, rfl⟩ := map_eq_some_iff.mp hb
  exact h a ha

end

variable {s s' : Bouts} {i : ℕ} {x y : Extremite} {f : Bouts → Extremite → Bouts}

def Present (s : Bouts) : Extremite → Prop
  | .tube t _ => t < s.tubes.length
  | .lecteur c | .ecrivain c => c < s.canaux.length

theorem present_of_pos (h : 0 < s.compteur x) : s.Present x := by
  have helim : ∀ {α : Type} {l : List α} {i : ℕ} {g : α → ℕ}, 0 < l[i]?.elim 0 g → i < l.length := by
    intro α l i g h
    by_contra hi
    rw [getElem?_eq_none (not_lt.mp hi)] at h
    exact absurd h (lt_irrefl 0)
  rcases x with ⟨t, _ | _⟩ | c | c <;> exact helim h

theorem compteur_retient (hx : s.Present x) (y : Extremite) :
    (s.retient x).compteur y = s.compteur y + if y = x then 1 else 0 := by
  rcases x with ⟨t, _ | _⟩ | c | c <;> rcases y with ⟨t', _ | _⟩ | c' | c' <;>
    simp [retient, compteur, elim_modify_same, elim_modify_succ hx]

theorem compteur_relache (x y : Extremite) :
    (s.relache x).compteur y = s.compteur y - if y = x then 1 else 0 := by
  rcases x with ⟨t, _ | _⟩ | c | c <;> rcases y with ⟨t', _ | _⟩ | c' | c' <;>
    simp [relache, compteur, elim_modify_same, elim_modify_pred]

/-- Tables, calls and descriptors are the same. -/
structure Neutre (s s' : Bouts) : Prop where
  tables : s'.tables = s.tables
  appels : s'.appels = s.appels
  vivants : ∀ y, s'.vivants y = s.vivants y

theorem Neutre.trans {s'' : Bouts} (h : Neutre s s') (h' : Neutre s' s'') : Neutre s s'' :=
  ⟨h'.tables.trans h.tables, h'.appels.trans h.appels, fun y => (h'.vivants y).trans (h.vivants y)⟩

theorem neutre_retient (s : Bouts) (x : Extremite) : Neutre s (s.retient x) := by
  rcases x with ⟨t, _ | _⟩ | c | c <;>
    refine ⟨rfl, rfl, fun y => ?_⟩ <;>
    simp [vivants, retient, map_modify_of_eq]

theorem neutre_relache (s : Bouts) (x : Extremite) : Neutre s (s.relache x) := by
  rcases x with ⟨t, _ | _⟩ | c | c <;>
    refine ⟨rfl, rfl, fun y => ?_⟩ <;>
    simp [vivants, relache, map_modify_of_eq]

theorem neutre_foldl (hf : ∀ s x, Neutre s (f s x))
    (xs : List Extremite) (s : Bouts) : Neutre s (xs.foldl f s) := by
  induction xs generalizing s with
  | nil => exact ⟨rfl, rfl, fun _ => rfl⟩
  | cons x xs ih => exact (hf s x).trans (ih _)

theorem present_retient (s : Bouts) (x y : Extremite) : (s.retient x).Present y ↔ s.Present y := by
  rcases x with ⟨t, _ | _⟩ | c | c <;> cases y <;> simp [Present, retient]

variable {xs : List Extremite} {pid c count : ℕ} {t t' : FdTable FileDesc} {k k' : Canal FileDesc}
  {p q : Phase} {d : FileDesc} {inscriptible : Bool}

/-- What the count of an end is above the descriptors that count for it. -/
def marge (s : Bouts) (x : Extremite) : ℤ := s.compteur x - s.vivants x

theorem marge_foldl_retient (h : ∀ x ∈ xs, s.Present x) (y : Extremite) :
    (xs.foldl retient s).marge y = s.marge y + xs.count y := by
  induction xs generalizing s with
  | nil => simp
  | cons x xs ih =>
    have hxs : ∀ x' ∈ xs, (s.retient x).Present x' := fun x' hx' =>
      (s.present_retient x x').mpr (h x' (mem_cons_of_mem x hx'))
    have hx := compteur_retient (h x mem_cons_self) y
    rw [foldl_cons, ih hxs, count_cons, marge, marge, (neutre_retient s x).vivants, hx]
    rcases eq_or_ne y x with rfl | hy
    · simp
      omega
    · simp [hy, hy.symm]

theorem le_marge_relache (s : Bouts) (x y : Extremite) :
    s.marge y ≤ (s.relache x).marge y + if y = x then 1 else 0 := by
  rw [marge, marge, (neutre_relache s x).vivants, compteur_relache]
  split_ifs <;> omega

theorem le_marge_foldl_relache (xs : List Extremite) (s : Bouts) (y : Extremite) :
    s.marge y ≤ (xs.foldl relache s).marge y + xs.count y := by
  induction xs generalizing s with
  | nil => simp
  | cons x xs ih =>
    have hx := le_marge_relache s x y
    have hxs := ih (s.relache x)
    rcases eq_or_ne y x with rfl | hy
    · simp at hx ⊢
      omega
    · simp [hy, hy.symm] at hx ⊢
      omega

/-- What a descriptor counts for an end. -/
abbrev poids (x : Extremite) (d : FileDesc) : ℕ := d.kind.extremites.count x

theorem count_extremites (l : List FileDesc) (x : Extremite) :
    (extremites l).count x = (l.map fun d => d.kind.extremites.count x).sum := by
  simp [extremites, count_flatMap, Function.comp_def]

theorem somme_eq (t : FdTable FileDesc) (x : Extremite) :
    t.somme (poids x) = (extremites t.entries.reduceOption).count x := by
  rw [count_extremites]
  unfold somme
  induction t.entries with
  | nil => rfl
  | cons e l ih =>
    cases e with
    | none => simpa [List.reduceOption] using ih
    | some d => simpa [List.reduceOption] using ih

theorem marge_poseTable (h : s.tables[pid]? = some t) (t' : FdTable FileDesc) (x : Extremite) :
    (s.poseTable pid t').marge x = s.marge x + t.somme (poids x) - t'.somme (poids x) := by
  have hsum := Bags.sum_map_set (somme (poids x)) h t'
  have hc : (s.poseTable pid t').compteur x = s.compteur x := rfl
  rw [marge, marge, hc]
  unfold poids at *
  simp only [vivants, poseTable]
  omega

theorem marge_va (h : s.appels[i]? = some p) (q : Phase) (x : Extremite) :
    (s.va i q).marge x = s.marge x + p.compte x - q.compte x := by
  have hsum := Bags.sum_map_set (Phase.compte x) h q
  have hc : (s.va i q).compteur x = s.compteur x := rfl
  rw [marge, marge, hc]
  simp only [vivants, va]
  omega

theorem marge_lance (s : Bouts) (p : Phase) (x : Extremite) :
    (s.lance p).marge x = s.marge x - p.compte x := by
  have hc : (s.lance p).compteur x = s.compteur x := rfl
  rw [marge, marge, hc]
  simp [vivants, lance]
  omega

/-- Counts cover what there is, and a direction is ended only without writers. -/
structure Sain (s : Bouts) : Prop where
  compte : ∀ x, s.vivants x ≤ s.compteur x
  fins : ∀ k ∈ s.canaux, k.octets.eof = true → k.ecrivains = 0

theorem Sain.present (h : s.Sain) (hx : 0 < s.vivants x) : s.Present x :=
  present_of_pos (lt_of_lt_of_le hx (h.compte x))

/-- A direction that is ended has no writer. -/
def Fins (s : Bouts) : Prop := ∀ k ∈ s.canaux, k.octets.eof = true → k.ecrivains = 0

theorem fins_retient (h : s.Fins) (x : Extremite) : (s.retient x).Fins := by
  rcases x with ⟨t, _ | _⟩ | c | c
  · exact h
  · exact h
  all_goals
    intro k' hk'
    rcases mem_modify hk' with hk | ⟨k, hk, rfl⟩
    · exact h k' hk
  · exact h k hk
  · exact nofun

theorem fins_relache (h : s.Fins) (x : Extremite) : (s.relache x).Fins := by
  rcases x with ⟨t, _ | _⟩ | c | c
  · exact h
  · exact h
  all_goals
    intro k' hk'
    rcases mem_modify hk' with hk | ⟨k, hk, rfl⟩
    · exact h k' hk
  · exact h k hk
  · intro heof
    rcases Bool.or_eq_true_iff.mp heof with heof | heof
    · have hk0 := h k hk heof
      show k.ecrivains - 1 = 0
      omega
    · exact of_decide_eq_true heof

theorem fins_foldl (hf : ∀ {s : Bouts}, s.Fins → ∀ x, (f s x).Fins)
    (h : s.Fins) (xs : List Extremite) : (xs.foldl f s).Fins := by
  induction xs generalizing s with
  | nil => exact h
  | cons x xs ih => exact ih (hf h x)

theorem Sain.of_marge (h : s.Sain) (hb : ∀ x, s.marge x ≤ s'.marge x) (hf : s'.Fins) : s'.Sain := by
  refine ⟨fun x => ?_, hf⟩
  have h1 := h.compte x
  have h2 := hb x
  unfold marge at h2
  omega

theorem Sain.lance (h : s.Sain) (hp : ∀ x, p.compte x = 0) : (s.lance p).Sain := by
  refine h.of_marge (fun x => ?_) h.fins
  simp [marge_lance, hp]

theorem Sain.va (h : s.Sain) (hi : s.appels[i]? = some p)
    (hpq : ∀ x, q.compte x ≤ p.compte x) : (s.va i q).Sain := by
  refine h.of_marge (fun x => ?_) h.fins
  have hx := hpq x
  rw [marge_va hi]
  omega

variable {p' : PipeState} {q' : Phase} {octets data : List UInt8} {fd : ℤ} {e : Pas}

theorem compteur_poseTube {t : ℕ} {p : PipeState} (h : s.tubes[t]? = some p)
    (hr : p'.readers = p.readers) (hw : p'.writers = p.writers) (x : Extremite) :
    (s.poseTube t p').compteur x = s.compteur x := by
  rcases x with ⟨t', _ | _⟩ | c | c
  · exact elim_set h hw t'
  · exact elim_set h hr t'
  · rfl
  · rfl

theorem Sain.tube {t : ℕ} {p : PipeState} (h : s.Sain)
    (ht : s.tubes[t]? = some p) (hr : p'.readers = p.readers) (hw : p'.writers = p.writers)
    (hi : s.appels[i]? = some q) (hq : ∀ x, q'.compte x ≤ q.compte x) :
    ((s.poseTube t p').va i q').Sain := by
  have hpose : (s.poseTube t p').Sain := by
    refine h.of_marge (fun x => ?_) h.fins
    rw [marge, marge, compteur_poseTube ht hr hw]
    exact le_rfl
  exact hpose.va hi hq

/-- A section that does not count. -/
structure Garde (k k' : Canal FileDesc) : Prop where
  lecteurs : k'.lecteurs = k.lecteurs
  ecrivains : k'.ecrivains = k.ecrivains
  eof : k'.octets.eof = k.octets.eof

theorem marge_poseCanal (h : s.canaux[c]? = some k) (hg : Garde k k') (x : Extremite) :
    (s.poseCanal c k').marge x = s.marge x + (extremites k.descripteurs).count x -
      (extremites k'.descripteurs).count x := by
  have hsum := Bags.sum_map_set (fun k : Canal FileDesc => (extremites k.descripteurs).count x) h k'
  have hc : (s.poseCanal c k').compteur x = s.compteur x := by
    rcases x with ⟨t', _ | _⟩ | c' | c'
    · rfl
    · rfl
    · exact elim_set h hg.lecteurs c'
    · exact elim_set h hg.ecrivains c'
  rw [marge, marge, hc]
  simp only [vivants, poseCanal]
  omega

theorem fins_poseCanal (h : s.Fins) (hk : s.canaux[c]? = some k) (hg : Garde k k') :
    (s.poseCanal c k').Fins := by
  intro k1 hk1 heof
  rcases mem_or_eq_of_mem_set hk1 with hk1 | rfl
  · exact h k1 hk1 heof
  · rw [hg.ecrivains]
    exact h k (mem_of_getElem? hk) (hg.eof ▸ heof)

theorem Sain.canal (h : s.Sain) (hk : s.canaux[c]? = some k) (hg : Garde k k') (hi : s.appels[i]? = some q)
    (hq : ∀ x, (extremites k'.descripteurs).count x + q'.compte x ≤
      (extremites k.descripteurs).count x + q.compte x) :
    ((s.poseCanal c k').va i q').Sain := by
  refine h.of_marge (fun x => ?_) (fins_poseCanal h.fins hk hg)
  have hx := hq x
  rw [marge_va (s := s.poseCanal c k') hi, marge_poseCanal hk hg]
  omega

theorem Garde.propose (k : Canal FileDesc) (data : List UInt8) :
    Garde k (k.propose data).2 ∧ (k.propose data).2.descripteurs = k.descripteurs := by
  unfold Canal.propose
  split
  · exact ⟨⟨rfl, rfl, rfl⟩, rfl⟩
  · exact ⟨⟨rfl, rfl, rfl⟩, rfl⟩

theorem Garde.envoie (k : Canal FileDesc) (payload : List UInt8) (droits : List FileDesc) :
    Garde k (k.envoie payload droits).2 := by
  unfold Canal.envoie
  split
  · exact ⟨rfl, rfl, rfl⟩
  split
  · exact ⟨rfl, rfl, rfl⟩
  · exact ⟨rfl, rfl, rfl⟩

theorem Garde.draine (h : k.draine count = some (octets, k')) :
    Garde k k' ∧ k'.descripteurs = k.descripteurs ∧ octets = k.octets.buffer.take count := by
  unfold Canal.draine at h
  split at h
  · cases h
  · cases h
    exact ⟨⟨rfl, rfl, rfl⟩, rfl, rfl⟩

theorem Garde.recoit {len capacite : ℕ}
    {recus : List FileDesc} (h : k.recoit len capacite = some (octets, recus, k')) :
    Garde k k' ∧ recus ++ k'.descripteurs = k.descripteurs := by
  unfold Canal.recoit at h
  split at h
  · cases h
  · cases h
    exact ⟨⟨rfl, rfl, rfl⟩, take_append_drop _ _⟩

theorem somme_le_vivants (h : t ∈ s.tables) (x : Extremite) : t.somme (poids x) ≤ s.vivants x := by
  have hle := single_le_sum (by simp) _ (mem_map_of_mem (f := somme (poids x)) h)
  unfold vivants poids at *
  omega

theorem compte_rendu (r : Except Errno ℕ) (x : Extremite) : (Phase.rendu r).compte x = 0 := rfl

theorem compte_ferme (l : List FileDesc) (r : Except Errno ℕ) (x : Extremite) :
    (Phase.ferme (extremites l) r).compte x = (extremites l).count x := Nat.zero_add _

theorem elim_concat {α : Type*} (l : List α) (a : α) (g : α → ℕ) (j : ℕ) :
    (l ++ [a])[j]?.elim 0 g = l[j]?.elim 0 g + if l.length = j then g a else 0 := by
  rcases lt_trichotomy j l.length with hj | rfl | hj
  · rw [getElem?_append_left hj, if_neg (by omega)]
    rfl
  · simp
  · rw [getElem?_eq_none (by simp; omega), getElem?_eq_none (by omega),
      if_neg (by omega)]
    rfl

theorem marge_tubeNeuf (s : Bouts) (x : Extremite) :
    ({ s with tubes := s.tubes ++ [new] } : Bouts).marge x = s.marge x +
      [Extremite.tube s.tubes.length true, .tube s.tubes.length false].count x := by
  have hv : ({ s with tubes := s.tubes ++ [new] } : Bouts).vivants x = s.vivants x := rfl
  rw [marge, marge, hv]
  rcases x with ⟨t, _ | _⟩ | c | c <;>
    simp [compteur, elim_concat, new, count_cons] <;> omega

theorem marge_canauxNeufs (s : Bouts) (x : Extremite) :
    ({ s with canaux := s.canaux ++ [Canal.neuf, Canal.neuf] } : Bouts).marge x =
      s.marge x + [Extremite.lecteur (s.canaux.length + 1), .ecrivain s.canaux.length,
        .lecteur s.canaux.length, .ecrivain (s.canaux.length + 1)].count x := by
  have hdeux : s.canaux ++ [Canal.neuf, Canal.neuf] = s.canaux ++ [Canal.neuf] ++ [Canal.neuf] := by
    simp
  have hv : ({ s with canaux := s.canaux ++ [Canal.neuf, Canal.neuf] } : Bouts).vivants x = s.vivants x := by
    simp [vivants, Canal.neuf, extremites]
  rw [marge, marge, hv, hdeux]
  rcases x with ⟨t, _ | _⟩ | c | c
  · simp [compteur]
  · simp [compteur]
  all_goals
    simp only [compteur, elim_concat]
    simp [Canal.neuf, count_cons]
    omega

section

variable (h : s.Sain) (ht : s.tables[pid]? = some t)

include h ht

theorem Sain.present_of_get (hd : t.get fd = some d) : ∀ x ∈ d.kind.extremites, s.Present x := by
  intro x hx
  have hcount := count_pos_iff.mpr hx
  have hsomme := t.le_somme (poids x) (get_eq_some_iff.mp hd).2
  exact h.present (lt_of_lt_of_le hcount (hsomme.trans (somme_le_vivants (mem_of_getElem? ht) x)))

/-- Ends are counted, and then a table takes the descriptors they are of. -/
theorem Sain.pose {s1 : Bouts} (htables : s1.tables = s.tables)
    (hmarge : ∀ x, s1.marge x = s.marge x + xs.count x) (hfins : s1.Fins)
    (hbilan : ∀ x, t'.somme (poids x) + p.compte x = t.somme (poids x) + xs.count x) :
    ((s1.poseTable pid t').lance p).Sain := by
  refine h.of_marge (fun x => ?_) hfins
  have hb := hbilan x
  rw [marge_lance, marge_poseTable (htables ▸ ht), hmarge]
  omega

theorem Sain.clone (hxs : ∀ x ∈ xs, s.Present x)
    (hbilan : ∀ x, t'.somme (poids x) + p.compte x = t.somme (poids x) + xs.count x) :
    (((xs.foldl retient s).poseTable pid t').lance p).Sain :=
  h.pose ht (neutre_foldl neutre_retient xs s).tables (marge_foldl_retient hxs)
    (fins_foldl fins_retient h.fins xs) hbilan

theorem Sain.sysPipe (flags : Flags) : (s.sysPipe pid t flags).Sain := by
  refine h.pose ht rfl (marge_tubeNeuf s) h.fins fun x => ?_
  rw [somme_insert, somme_insert, compte_rendu]
  simp only [poids, FdKind.extremites, count_cons, count_nil]
  omega

theorem Sain.sysSocketpair (flags : Flags) (cloexec : Bool) : (s.sysSocketpair pid t flags cloexec).Sain := by
  have hfins : Fins { s with canaux := s.canaux ++ [Canal.neuf, Canal.neuf] } := by
    intro k hk heof
    rcases mem_append.mp hk with hk | hk
    · exact h.fins k hk heof
    · have hneuf : k = Canal.neuf := by simpa using hk
      subst hneuf
      cases heof
  refine h.pose ht rfl (marge_canauxNeufs s) hfins fun x => ?_
  rw [somme_insert, somme_insert, compte_rendu]
  simp only [poids, FdKind.extremites, count_cons, count_nil]
  omega

theorem Sain.sysDup (fd : ℤ) : (s.sysDup pid t fd).Sain := by
  unfold Bouts.sysDup
  split
  · exact h
  · rename_i d hd
    refine h.clone ht (h.present_of_get ht hd) fun x => ?_
    rw [somme_insert, compte_rendu]
    rfl

theorem Sain.remplace (hd : t.get fd = some d) (new : ℕ) (cloexec : Bool) :
    (s.remplace pid t d new cloexec).Sain := by
  refine h.clone ht (h.present_of_get ht hd) fun x => ?_
  have hset := t.somme_set (poids x) new (Bouts.clone cloexec d)
  have hancien : ∀ o : Option FileDesc, (extremites o.toList).count x =
      o.elim 0 (poids x) := by
    rintro (_ | e)
    · rfl
    · simp [extremites]
  rw [compte_ferme, hancien, hset]
  rfl

theorem Sain.sysDup2 (old new : ℤ) : (s.sysDup2 pid t old new).Sain := by
  unfold Bouts.sysDup2
  split
  · exact h
  split
  · exact h
  · rename_i d hd
    exact h.remplace ht hd _ _

theorem Sain.sysDup3 (old new : ℤ) (flags : Flags) : (s.sysDup3 pid t old new flags).Sain := by
  unfold Bouts.sysDup3
  split
  · exact h
  split
  · exact h
  · rename_i d hd
    exact h.remplace ht hd _ _

theorem Sain.sysFork : (s.sysFork t).Sain := by
  have hxs : ∀ x ∈ extremites t.entries.reduceOption, s.Present x := by
    intro x hx
    have hcount := count_pos_iff.mpr hx
    rw [← somme_eq] at hcount
    exact h.present (lt_of_lt_of_le hcount (somme_le_vivants (mem_of_getElem? ht) x))
  refine h.of_marge (fun x => ?_) (fins_foldl fins_retient h.fins _)
  unfold Bouts.sysFork
  rw [marge_lance, marge_foldl_retient hxs]
  simp [Phase.compte, Phase.enVol, Phase.aLacher]

theorem Sain.retire {l : List FileDesc} (r : Except Errno ℕ)
    (hbilan : ∀ x, t'.somme (poids x) + (extremites l).count x = t.somme (poids x)) :
    ((s.poseTable pid t').lance (.ferme (extremites l) r)).Sain := by
  have hmarge : ∀ x, s.marge x = s.marge x + ([] : List Extremite).count x := by simp
  refine h.pose ht rfl hmarge h.fins fun x => ?_
  rw [compte_ferme, hbilan]
  rfl

theorem Sain.sysExecve : (s.sysExecve pid t).Sain := by
  refine h.retire ht _ fun x => ?_
  rw [count_extremites]
  exact somme_closeOnExec _ _ t

theorem Sain.sysExit : (s.sysExit pid t).Sain := by
  refine h.retire ht _ fun x => ?_
  rw [somme_eq t x]
  exact Nat.zero_add _

theorem Sain.sysClose (fd : ℤ) : (s.sysClose pid t fd).Sain := by
  unfold Bouts.sysClose
  split
  · exact h
  rename_i d hd
  refine h.of_marge (fun x => ?_) (fins_foldl fins_relache (s := s.poseTable pid (t.close fd).2) h.fins _)
  have hclose := somme_close (poids x) hd
  have hx := le_marge_foldl_relache d.kind.extremites (s.poseTable pid (t.close fd).2) x
  rw [marge_poseTable ht] at hx
  unfold poids at *
  omega

end

theorem Sain.surNumero {phase : FdKind → Phase} (h : s.Sain) (fd : ℤ)
    (hphase : ∀ kind x, (phase kind).compte x = 0) : (s.surNumero t fd phase).Sain := by
  unfold Bouts.surNumero
  split
  · exact h.lance (compte_rendu _)
  · exact h.lance (hphase _)

theorem compte_phaseLecture (kind : FdKind) (count : ℕ) (inscriptible : Bool) (x : Extremite) :
    (phaseLecture kind count inscriptible).compte x = 0 := by
  unfold phaseLecture
  split
  · rfl
  split <;> rfl

theorem compte_phaseEcriture (kind : FdKind) (data : List UInt8) (x : Extremite) :
    (phaseEcriture kind data).compte x = 0 := by
  unfold phaseEcriture
  split
  · rfl
  split <;> rfl

theorem compte_phaseEnvoi (pid : ℕ) (payload : List UInt8) (aPasser : List ℤ) (kind : FdKind)
    (x : Extremite) : (phaseEnvoi pid kind payload aPasser).compte x = 0 := by
  unfold phaseEnvoi
  split <;> rfl

theorem compte_phaseReception (pid len capacite : ℕ) (inscriptible cloexec : Bool) (kind : FdKind)
    (x : Extremite) : (phaseReception pid kind len capacite inscriptible cloexec).compte x = 0 := by
  unfold phaseReception
  split
  · split <;> rfl
  · rfl

theorem extremites_append (l l' : List FileDesc) :
    extremites (l ++ l') = extremites l ++ extremites l' := flatMap_append

theorem extremites_singleton (d : FileDesc) : extremites [d] = d.kind.extremites :=
  append_nil _

theorem readers_propose (p : PipeState) (data : List UInt8) :
    (p.propose data).2.readers = p.readers ∧ (p.propose data).2.writers = p.writers := by
  unfold propose
  split <;> exact ⟨rfl, rfl⟩

theorem Sain.vaClone (h : s.Sain) (hxs : ∀ x ∈ xs, s.Present x) (hi : s.appels[i]? = some p)
    (hbilan : ∀ x, q.compte x = p.compte x + xs.count x) :
    ((xs.foldl retient s).va i q).Sain := by
  have hn := neutre_foldl neutre_retient xs s
  refine h.of_marge (fun x => ?_) (fins_foldl fins_retient h.fins xs)
  rw [marge_va (hn.appels ▸ hi), marge_foldl_retient hxs, hbilan]
  omega

/-- A descriptor that was received enters the table. -/
theorem Sain.installe {n : ℕ} {reste : List FileDesc} {cloexec : Bool} (h : s.Sain) (ht : s.tables[pid]? = some t)
    (hi : s.appels[i]? = some (.installe pid (d :: reste) cloexec n)) :
    ((s.poseTable pid (t.insert (Bouts.clone cloexec d)).2).va i (.installe pid reste cloexec n)).Sain := by
  refine h.of_marge (fun x => ?_) h.fins
  have hd : (Phase.installe pid (d :: reste) cloexec n).compte x =
      d.kind.extremites.count x + (Phase.installe pid reste cloexec n).compte x := by
    simp [Phase.compte, Phase.enVol, Phase.aLacher, extremites]
  have hclone : poids x (Bouts.clone cloexec d) = d.kind.extremites.count x := rfl
  rw [marge_va (s := s.poseTable pid _) hi, marge_poseTable ht, somme_insert, hclone, hd]
  omega

theorem Sain.naissance (h : s.Sain) (hi : s.appels[i]? = some (.fork t)) :
    ({ s with tables := s.tables ++ [t] }.va i (.rendu (.ok s.tables.length))).Sain := by
  refine h.of_marge (fun x => ?_) h.fins
  have hfork : (Phase.fork t).compte x = t.somme fun d => d.kind.extremites.count x := by
    rw [somme_eq]
    rfl
  have hc : ({ s with tables := s.tables ++ [t] } : Bouts).compteur x = s.compteur x := rfl
  rw [marge_va (s := { s with tables := s.tables ++ [t] }) hi, compte_rendu, hfork, marge, marge, hc]
  simp [vivants]
  omega

/-- A descriptor that is dropped no longer counts for one of its ends. -/
theorem Sain.lache {reste : List Extremite} {r : Except Errno ℕ} (h : s.Sain)
    (hi : s.appels[i]? = some (.ferme (x :: reste) r)) :
    ((s.relache x).va i (.ferme reste r)).Sain := by
  refine h.of_marge (fun y => ?_) (fins_relache h.fins x)
  have hmarge := le_marge_relache s x y
  have hx : (Phase.ferme (x :: reste) r).compte y =
      (Phase.ferme reste r).compte y + if y = x then 1 else 0 := by
    rcases eq_or_ne y x with rfl | hy
    · simp [Phase.compte, Phase.enVol, Phase.aLacher]
      omega
    · simp [Phase.compte, Phase.enVol, Phase.aLacher, hy, Ne.symm hy]
  rw [marge_va ((neutre_relache s x).appels ▸ hi), hx]
  split_ifs at hmarge ⊢ <;> omega

theorem Sain.poursuit (h : s.Sain) (hi : s.appels[i]? = some p) (hs : s.poursuit i p = some s') : s'.Sain := by
  have hrendu : ∀ r, (s.va i (.rendu r)).Sain := fun r => h.va hi fun x => Nat.zero_le _
  cases p with
  | lectureTube t count inscriptible =>
    obtain ⟨q, hq, rfl⟩ := map_eq_some_iff.mp hs
    split
    · exact h.va hi fun x => le_rfl
    split
    · exact hrendu _
    · exact h
  | lectureTubePlein t count inscriptible =>
    obtain ⟨q, hq, rfl⟩ := map_eq_some_iff.mp hs
    exact h.tube hq rfl rfl hi fun x => Nat.zero_le _
  | lecturePaire c count inscriptible =>
    obtain ⟨k, hk, rfl⟩ := map_eq_some_iff.mp hs
    split
    · exact h
    · rename_i octets k' hd
      obtain ⟨hg, hdesc, -⟩ := Garde.draine hd
      exact h.canal hk hg hi fun x => by rw [hdesc]; exact le_rfl
  | ecritureTube t data =>
    obtain ⟨q, hq, rfl⟩ := map_eq_some_iff.mp hs
    split
    · exact hrendu _
    · exact h
    · rename_i n q' hp
      obtain ⟨hr, hw⟩ := readers_propose q data
      rw [hp] at hr hw
      exact h.tube hq hr hw hi fun x => Nat.zero_le _
  | ecriturePaire c data =>
    obtain ⟨k, hk, rfl⟩ := map_eq_some_iff.mp hs
    split
    · exact hrendu _
    · exact h
    · rename_i n k' hp
      obtain ⟨hg, hdesc⟩ := Garde.propose k data
      rw [hp] at hg hdesc
      exact h.canal hk hg hi fun x => by rw [hdesc]; exact le_rfl
  | copie pid c payload aPasser droits =>
    cases aPasser with
    | nil =>
      simp only [Bouts.poursuit] at hs
      split at hs
      · cases hs
        exact h.va hi fun x => (compte_ferme droits _ x).le
      · cases hs
        exact h.va hi fun x => le_rfl
    | cons fd reste =>
      obtain ⟨t, ht, rfl⟩ := map_eq_some_iff.mp hs
      split
      · exact h.va hi fun x => (compte_ferme droits _ x).le
      · rename_i d hd
        refine h.vaClone (h.present_of_get ht hd) hi fun x => ?_
        simp only [Phase.compte, Phase.enVol, Phase.aLacher, extremites_append, count_append,
          extremites_singleton]
        omega
  | envoi c payload droits =>
    obtain ⟨k, hk, rfl⟩ := map_eq_some_iff.mp hs
    split
    · exact h.va hi fun x => (compte_ferme droits _ x).le
    · exact h
    · rename_i n k' hp
      have hg := Garde.envoie k payload droits
      obtain ⟨-, -, -, -, hdesc⟩ := Canal.envoie_place (congrArg Prod.fst hp)
      rw [hp] at hg hdesc
      refine h.canal hk hg hi fun x => ?_
      rw [hdesc, extremites_append, count_append]
      exact le_rfl
  | reception pid c len capacite inscriptible cloexec =>
    obtain ⟨k, hk, rfl⟩ := map_eq_some_iff.mp hs
    split
    · exact h
    · rename_i octets recus k' hr
      obtain ⟨hg, hdesc⟩ := Garde.recoit hr
      refine h.canal hk hg hi fun x => ?_
      rw [← hdesc, extremites_append, count_append]
      split
      · simp only [Phase.compte, Phase.enVol, Phase.aLacher]
        omega
      · rw [compte_ferme]
        omega
  | installe pid recus cloexec n =>
    cases recus with
    | nil =>
      cases hs
      exact hrendu _
    | cons d reste =>
      obtain ⟨t, ht, rfl⟩ := map_eq_some_iff.mp hs
      exact h.installe ht hi
  | fork t =>
    cases hs
    exact h.naissance hi
  | ferme reste r =>
    cases reste with
    | nil =>
      cases hs
      exact hrendu _
    | cons x reste =>
      cases hs
      exact h.lache hi
  | rendu r => cases hs

theorem Sain.abandonne (h : s.Sain) (hi : s.appels[i]? = some p) (hs : s.abandonne i p = some s') : s'.Sain := by
  unfold Bouts.abandonne at hs
  split at hs
  case h_6 =>
    cases hs
    exact h.va hi fun x => (compte_ferme _ _ x).le
  case h_7 =>
    cases hs
    exact h.va hi fun x => (compte_ferme _ _ x).le
  case h_8 => cases hs
  all_goals
    cases hs
    exact h.va hi fun x => Nat.zero_le _

theorem Sain.detruit (h : s.Sain) (hk : s.canaux[c]? = some k) : (s.detruit c k).Sain := by
  have hg : Garde k { k with descripteurs := [] } := ⟨rfl, rfl, rfl⟩
  refine h.of_marge (fun x => ?_) (fins_poseCanal h.fins hk hg)
  rw [Bouts.detruit, marge_lance, compte_ferme, marge_poseCanal hk hg]
  simp [extremites]

theorem Sain.execute (h : s.Sain) (hs : s.execute e = some s') : s'.Sain := by
  cases e with
  | pipe pid flags => exact of_map_eq_some hs fun t ht => h.sysPipe ht flags
  | socketpair pid flags cloexec => exact of_map_eq_some hs fun t ht => h.sysSocketpair ht flags cloexec
  | dup pid fd => exact of_map_eq_some hs fun t ht => h.sysDup ht fd
  | dup2 pid old new => exact of_map_eq_some hs fun t ht => h.sysDup2 ht old new
  | dup3 pid old new flags => exact of_map_eq_some hs fun t ht => h.sysDup3 ht old new flags
  | fork pid => exact of_map_eq_some hs fun t ht => h.sysFork ht
  | execve pid => exact of_map_eq_some hs fun t ht => h.sysExecve ht
  | exit pid => exact of_map_eq_some hs fun t ht => h.sysExit ht
  | close pid fd => exact of_map_eq_some hs fun t ht => h.sysClose ht fd
  | read pid fd count inscriptible =>
    exact of_map_eq_some hs fun t _ => h.surNumero fd fun kind => compte_phaseLecture kind count inscriptible
  | write pid fd data =>
    exact of_map_eq_some hs fun t _ => h.surNumero fd fun kind => compte_phaseEcriture kind data
  | sendmsg pid fd payload aPasser =>
    exact of_map_eq_some hs fun t _ => h.surNumero fd (compte_phaseEnvoi pid payload aPasser)
  | recvmsg pid fd len capacite inscriptible cloexec =>
    exact of_map_eq_some hs fun t _ => h.surNumero fd (compte_phaseReception pid len capacite inscriptible cloexec)
  | suite i =>
    obtain ⟨p, hi, hp⟩ := bind_eq_some_iff.mp hs
    exact h.poursuit hi hp
  | renonce i =>
    obtain ⟨p, hi, hp⟩ := bind_eq_some_iff.mp hs
    exact h.abandonne hi hp
  | detruit c =>
    obtain ⟨k, hk, hc⟩ := bind_eq_some_iff.mp hs
    split at hc
    · cases hc
      exact h.detruit hk
    · cases hc

theorem sain_neuf (n : ℕ) : (neuf n).Sain := by
  refine ⟨fun x => ?_, nofun⟩
  simp [vivants, neuf, somme, vide]

section

variable (s : Bouts)

/-- A descriptor that counts for this end is in a table, in flight, or held by a call that
passes it on. -/
def Existe (x : Extremite) : Prop :=
  (∃ t ∈ s.tables, ∃ j d, t.slot j = some d ∧ x ∈ d.kind.extremites) ∨
  (∃ k ∈ s.canaux, ∃ d ∈ k.descripteurs, x ∈ d.kind.extremites) ∨
  ∃ p ∈ s.appels, ∃ d ∈ p.enVol, x ∈ d.kind.extremites

def TubeFini (t : ℕ) : Prop :=
  (∀ p, s.tubes[t]? = some p → p.buffer = []) ∧ ¬ s.Existe (.tube t false)

/-- The direction of a socket pair is empty and nothing can write to it. -/
def CanalFini (c : ℕ) : Prop :=
  (∀ k, s.canaux[c]? = some k → k.octets.buffer = []) ∧ ¬ s.Existe (.ecrivain c)

/-- A read of more than no bytes that returns 0 found the end of the stream, and a write that
returns `EPIPE` found no reader. -/
def Honnete (e : Pas) (s' : Bouts) : Prop :=
  match e with
  | .suite i =>
    match s.appels[i]? with
    | some (.lectureTube t count _) | some (.lectureTubePlein t count _) =>
      count ≠ 0 → s'.appels[i]? = some (.rendu (.ok 0)) → s.TubeFini t
    | some (.lecturePaire c count _) =>
      count ≠ 0 → s'.appels[i]? = some (.rendu (.ok 0)) → s.CanalFini c
    | some (.ecritureTube t _) =>
      s'.appels[i]? = some (.rendu (.error .epipe)) → ¬ s.Existe (.tube t true)
    | some (.ecriturePaire c _) =>
      s'.appels[i]? = some (.rendu (.error .epipe)) → ¬ s.Existe (.lecteur c)
    | _ => True
  | _ => True

/-- When a read of a pipe takes its bytes, the pipe is not empty, or nothing can write to it. -/
def Convient : Pas → Prop
  | .suite i =>
    match s.appels[i]? with
    | some (.lectureTubePlein t count inscriptible) =>
      count ≠ 0 → inscriptible = true →
        (∃ p, s.tubes[t]? = some p ∧ p.buffer ≠ []) ∨ ¬ s.Existe (.tube t false)
    | _ => True
  | _ => True

end

theorem vivants_pos_of_existe (h : s.Existe x) : 0 < s.vivants x := by
  unfold vivants
  rcases h with ⟨t, ht, j, d, hd, hx⟩ | ⟨k, hk, d, hd, hx⟩ | ⟨p, hp, d, hd, hx⟩
  · have hle := (t.le_somme (poids x) hd).trans (somme_le_vivants ht x)
    exact (count_pos_iff.mpr hx).trans_le hle
  · have hpos : 0 < (extremites k.descripteurs).count x :=
      count_pos_iff.mpr (mem_flatMap.mpr ⟨d, hd, hx⟩)
    have hsum := single_le_sum (by simp) _
      (mem_map_of_mem (f := fun k : Canal FileDesc => (extremites k.descripteurs).count x) hk)
    omega
  · have hpos : 0 < (extremites p.enVol).count x :=
      count_pos_iff.mpr (mem_flatMap.mpr ⟨d, hd, hx⟩)
    have hsum := single_le_sum (by simp) _ (mem_map_of_mem (f := Phase.compte x) hp)
    have hle : (extremites p.enVol).count x ≤ p.compte x := Nat.le_add_right _ _
    omega

theorem Sain.not_existe (h : s.Sain) (hx : s.compteur x = 0) : ¬ s.Existe x := by
  intro hex
  have h1 := vivants_pos_of_existe hex
  have h2 := h.compte x
  omega

theorem appels_va (hi : s.appels[i]? = some p) (q : Phase) : (s.va i q).appels[i]? = some q :=
  List.getElem?_set_self (List.getElem?_eq_some_iff.mp hi).1

theorem compteur_tube {t : ℕ} {p : PipeState} (h : s.tubes[t]? = some p) :
    s.compteur (.tube t true) = p.readers ∧ s.compteur (.tube t false) = p.writers := by
  simp [compteur, h]

theorem compteur_canal (h : s.canaux[c]? = some k) :
    s.compteur (.lecteur c) = k.lecteurs ∧ s.compteur (.ecrivain c) = k.ecrivains := by
  simp [compteur, h]

/-- The first section of a read of a pipe decides on what it sees. -/
theorem honnete_lectureTube {t : ℕ} (h : s.Sain) (hi : s.appels[i]? = some (.lectureTube t count inscriptible))
    (hs : s.poursuit i (.lectureTube t count inscriptible) = some s')
    (hr : s'.appels[i]? = some (.rendu (.ok 0))) : s.TubeFini t := by
  obtain ⟨p, hp, rfl⟩ := map_eq_some_iff.mp hs
  split at hr
  · rw [appels_va hi] at hr
    cases hr
  rename_i hvide
  split at hr
  · rename_i hw
    refine ⟨fun q hq => ?_, h.not_existe ((compteur_tube hp).2.trans hw)⟩
    cases hp.symm.trans hq
    exact not_not.mp hvide
  · rw [hi] at hr
    cases hr

/-- The last section of a read of a pipe does not. -/
theorem honnete_lectureTubePlein_iff {t : ℕ} (hi : s.appels[i]? = some (.lectureTubePlein t count inscriptible))
    (hs : s.poursuit i (.lectureTubePlein t count inscriptible) = some s') (hcount : count ≠ 0) :
    (s'.appels[i]? = some (.rendu (.ok 0)) → s.TubeFini t) ↔
      (inscriptible = true → (∃ p, s.tubes[t]? = some p ∧ p.buffer ≠ []) ∨ ¬ s.Existe (.tube t false)) := by
  obtain ⟨p, hp, rfl⟩ := map_eq_some_iff.mp hs
  have hrendu : ∀ r, ((s.poseTube t (p.draine count).2).va i (.rendu r)).appels[i]? =
      some (.rendu r) := fun r => appels_va (s := s.poseTube t (p.draine count).2) hi _
  rw [hrendu]
  cases inscriptible with
  | false => simp
  | true =>
    have hvide : (p.draine count).1.length = 0 ↔ p.buffer = [] := by
      rw [length_eq_zero_iff]
      exact (take_eq_nil_iff).trans (or_iff_right hcount)
    have hok : some (Phase.rendu (.ok (p.draine count).1.length)) = some (Phase.rendu (.ok 0)) ↔
        p.buffer = [] := by
      rw [← hvide]
      simp
    simp only [if_true, hok, forall_const, TubeFini]
    constructor
    · intro hfini
      by_cases hb : p.buffer = []
      · exact .inr (hfini hb).2
      · exact .inl ⟨p, hp, hb⟩
    · rintro (⟨q, hq, hb⟩ | hex) hb'
      · cases hp.symm.trans hq
        exact absurd hb' hb
      · refine ⟨fun q hq => ?_, hex⟩
        cases hp.symm.trans hq
        exact hb'

theorem honnete_lecturePaire (h : s.Sain) (hcount : count ≠ 0)
    (hi : s.appels[i]? = some (.lecturePaire c count inscriptible))
    (hs : s.poursuit i (.lecturePaire c count inscriptible) = some s')
    (hr : s'.appels[i]? = some (.rendu (.ok 0))) : s.CanalFini c := by
  obtain ⟨k, hk, rfl⟩ := map_eq_some_iff.mp hs
  split at hr
  · rw [hi] at hr
    cases hr
  rename_i octets k' hd
  obtain ⟨-, -, rfl⟩ := Garde.draine hd
  rw [appels_va (s := s.poseCanal c k') hi] at hr
  have hvide : k.octets.buffer = [] := by
    cases inscriptible with
    | false => simp at hr
    | true => simpa [hcount] using hr
  -- the read did not wait on an empty buffer, so the last writer has closed
  have heof : k.octets.eof = true := by
    unfold Canal.draine at hd
    split at hd
    · cases hd
    · rename_i hne
      simpa [OctetsCanal.isEmpty, hvide] using hne
  refine ⟨fun q hq => ?_, h.not_existe ?_⟩
  · cases hk.symm.trans hq
    exact hvide
  · rw [(compteur_canal hk).2]
    exact h.fins k (mem_of_getElem? hk) heof

theorem honnete_ecritureTube {t : ℕ} (h : s.Sain) (hi : s.appels[i]? = some (.ecritureTube t data))
    (hs : s.poursuit i (.ecritureTube t data) = some s')
    (hr : s'.appels[i]? = some (.rendu (.error .epipe))) : ¬ s.Existe (.tube t true) := by
  obtain ⟨p, hp, rfl⟩ := map_eq_some_iff.mp hs
  split at hr
  · rename_i hrompu
    refine h.not_existe ((compteur_tube hp).1.trans ?_)
    unfold propose at hrompu
    split at hrompu
    · assumption
    · cases hrompu
  · rw [hi] at hr
    cases hr
  · rename_i n p' hp'
    rw [appels_va (s := s.poseTube t p') hi] at hr
    cases hr

theorem honnete_ecriturePaire (h : s.Sain) (hi : s.appels[i]? = some (.ecriturePaire c data))
    (hs : s.poursuit i (.ecriturePaire c data) = some s')
    (hr : s'.appels[i]? = some (.rendu (.error .epipe))) : ¬ s.Existe (.lecteur c) := by
  obtain ⟨k, hk, rfl⟩ := map_eq_some_iff.mp hs
  split at hr
  · rename_i hrompu
    refine h.not_existe ((compteur_canal hk).1.trans ?_)
    unfold Canal.propose at hrompu
    split at hrompu
    · assumption
    · cases hrompu
  · rw [hi] at hr
    cases hr
  · rename_i n k' hk'
    rw [appels_va (s := s.poseCanal c k') hi] at hr
    cases hr

theorem honnete_iff_convient (h : s.Sain) (hs : s.execute e = some s') : s.Honnete e s' ↔ s.Convient e := by
  cases e with
  | suite i =>
    obtain ⟨p, hi, hp⟩ := bind_eq_some_iff.mp hs
    simp only [Honnete, Convient, hi]
    cases p with
    | lectureTube t count inscriptible =>
      exact iff_of_true (fun _ => honnete_lectureTube h hi hp) trivial
    | lectureTubePlein t count inscriptible =>
      exact forall_congr' fun hcount => honnete_lectureTubePlein_iff hi hp hcount
    | lecturePaire c count inscriptible =>
      exact iff_of_true (fun hcount => honnete_lecturePaire h hcount hi hp) trivial
    | ecritureTube t data => exact iff_of_true (honnete_ecritureTube h hi hp) trivial
    | ecriturePaire c data => exact iff_of_true (honnete_ecriturePaire h hi hp) trivial
    | _ => rfl
  | _ => rfl

/-- In every run, every read that returns 0 and every write that returns `EPIPE` is truthful
exactly when, each time a read of a pipe takes its bytes, there are bytes or no descriptor
can write any. -/
theorem fin_de_fichier_honnete {n : ℕ} {es : List Pas} {s : Bouts}
    (h : Runs.run execute (neuf n) es = some s) :
    (∀ t e t', Runs.Taken execute (neuf n) es t e → t.execute e = some t' → t.Honnete e t') ↔
      ∀ t e, Runs.Taken execute (neuf n) es t e → t.Convient e := by
  have hsain : ∀ t e, Runs.Taken execute (neuf n) es t e → t.Sain := by
    rintro t e ⟨es', -, ht⟩
    exact Runs.run_invariant (fun _ _ _ => Sain.execute) (sain_neuf n) ht
  constructor
  · rintro hall t e ht
    obtain ⟨t', ht'⟩ := Runs.exists_step_of_taken h ht
    exact (honnete_iff_convient (hsain t e ht) ht').mp (hall t e t' ht ht')
  · intro hall t e t' ht ht'
    exact (honnete_iff_convient (hsain t e ht) ht').mpr (hall t e ht)

/-- One process writes a byte to a pipe, reads it, closes the end it wrote to, and reads
again. -/
def tubeFerme : List Pas :=
  [.pipe 0 0, .write 0 1 [7], .suite 1, .read 0 0 8 true, .suite 2, .suite 2, .close 0 1,
    .read 0 0 8 true, .suite 3]

theorem fin_de_fichier_honnete_tubeFerme :
    ∃ s, Runs.run execute (neuf 1) tubeFerme = some s ∧
      ((∀ t e t', Runs.Taken execute (neuf 1) tubeFerme t e → t.execute e = some t' → t.Honnete e t') ↔
        ∀ t e, Runs.Taken execute (neuf 1) tubeFerme t e → t.Convient e) := by
  obtain ⟨s, hs⟩ := isSome_iff_exists.mp (by decide : (Runs.run execute (neuf 1) tubeFerme).isSome = true)
  exact ⟨s, hs, fin_de_fichier_honnete hs⟩

/-- Two readers of a pipe that holds one byte: both see that it is not empty, one takes the
byte, and the other returns 0 although the writing end is open. -/
theorem deux_lecteurs_fausse_fin :
    (Runs.run execute (neuf 1) [.pipe 0 0, .write 0 1 [7], .suite 1, .read 0 0 8 true,
        .read 0 0 8 true, .suite 2, .suite 3, .suite 2, .suite 3]).map
      (fun s => (s.appels.drop 2, s.compteur (.tube 0 false), s.vivants (.tube 0 false))) =
      some ([.rendu (.ok 1), .rendu (.ok 0)], 1, 1) := by
  decide

end Bouts

end BouchaudOS.Descripteurs
