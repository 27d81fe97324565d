import BouchaudOS.Descripteurs.Table
import BouchaudOS.Foundations.Runs
import BouchaudOS.Ramfs.Noeuds

/-!
# Positions in open files

`open`, `read`, `write`, `lseek` and `close` of `src/compat/linux/file.rs` on regular files,
with `dup`, `dup2`, `dup3` and the copy of the table by `fork`. A position belongs to the
descriptor, and a copy of a descriptor has a position of its own. Descriptors that come from
one `open` agree on it as long as only one of them is used.

Calls are executed one after the other. Every descriptor is marked with the number of the
`open` it comes from, which no call reads.
-/

namespace BouchaudOS.Descripteurs

open Function FdTable Option

/-- The content of a file, and whether it is on a disk, where it cannot be written. -/
structure Fichier where
  contenu : List UInt8
  disque : Bool
  deriving DecidableEq

namespace Fichier

/-- `backing::read_at`; a disk may give fewer bytes than asked for. -/
def readAt (f : Fichier) (offset wanted limite : ℕ) : List UInt8 :=
  let octets := (f.contenu.drop offset).take wanted
  if f.disque then octets.take limite else octets

/-- `data` written at `start`, after zeros if the file ends before. -/
def ecrit (f : Fichier) (start : ℕ) (data : List UInt8) : Fichier :=
  let fin := start + data.length
  let etendu := f.contenu ++ List.replicate (fin - f.contenu.length) 0
  { f with contenu := etendu.take start ++ data ++ etendu.drop fin }

end Fichier

/-- A descriptor with a number that no call reads. -/
structure Suivi where
  desc : FileDesc
  marque : ℕ
  deriving DecidableEq

open Suivi

namespace Suivi

/-- The clone of a descriptor, with its flag `FD_CLOEXEC`. -/
def clone (cloexec : Bool) (d : Suivi) : Suivi := { d with desc := { d.desc with cloexec := cloexec } }

def place (offset : ℕ) (d : Suivi) : Suivi := { d with desc := { d.desc with offset := offset } }

def append (d : Suivi) : Bool := d.desc.flags &&& oAppend ≠ 0

end Suivi

abbrev Systemefichiers := ℕ → Fichier

/-- The end of `read`: the bytes are written to user memory if it can be, and the position
goes past them. -/
def rendLus (t : FdTable Suivi) (fd : ℤ) (offset : ℕ) (data : List UInt8) (inscriptible : Bool) :
    Except Errno (List UInt8) × FdTable Suivi :=
  if inscriptible then (.ok data, t.modify fd (place (offset + data.length)))
  else (.error .efault, t)

/-- `read`, with the bytes it gives. Objects without a position are left out: they answer
`einval` here. -/
def sysRead (t : FdTable Suivi) (fs : Systemefichiers) (fd : ℤ) (count limite : ℕ)
    (inscriptible : Bool) : Except Errno (List UInt8) × FdTable Suivi :=
  if count = 0 then (.ok [], t)
  else
    match t.get fd with
    | none => (.error .ebadf, t)
    | some d =>
      match d.desc.kind with
      | .file node =>
        let total := (fs node).contenu.length
        if total ≤ d.desc.offset then (.ok [], t)
        else
          rendLus t fd d.desc.offset
            ((fs node).readAt d.desc.offset (min count (total - d.desc.offset)) limite) inscriptible
      | .instantane contenu =>
        if contenu.length ≤ d.desc.offset then (.ok [], t)
        else
          rendLus t fd d.desc.offset ((contenu.drop d.desc.offset).take count) inscriptible
      | .dir _ => (.error .eisdir, t)
      | _ => (.error .einval, t)

def debutEcriture (d : Suivi) (f : Fichier) : ℕ :=
  if d.append then f.contenu.length else d.desc.offset

/-- `write` of bytes that could be read from user memory, with their number. -/
def sysWrite (t : FdTable Suivi) (fs : Systemefichiers) (fd : ℤ) (lu : Option (List UInt8)) :
    Except Errno ℕ × FdTable Suivi × Systemefichiers :=
  match lu with
  | none => (.error .efault, t, fs)
  | some data =>
    if data = [] then (.ok 0, t, fs)
    else
      match t.get fd with
      | none => (.error .ebadf, t, fs)
      | some d =>
        match d.desc.kind with
        | .file node =>
          if (fs node).disque then (.error .erofs, t, fs)
          else
            let start := debutEcriture d (fs node)
            if Ramfs.maxFileSize < start + data.length then (.error .efbig, t, fs)
            else (.ok data.length, t.modify fd (place (start + data.length)),
              Function.update fs node ((fs node).ecrit start data))
        | .dir _ => (.error .eisdir, t, fs)
        | .instantane _ => (.error .ebadf, t, fs)
        | _ => (.error .einval, t, fs)

/-- The size that `lseek` knows of an object; none for those that have no position. -/
def taille (fs : Systemefichiers) : FdKind → Option ℕ
  | .file node => some (fs node).contenu.length
  | .instantane contenu => some contenu.length
  | .console | .pipe _ _ => none
  | _ => some 0

/-- `SEEK_SET`, `SEEK_CUR`, `SEEK_END`. -/
def origineLseek (d : Suivi) (size whence : ℕ) : Option ℕ :=
  match whence with
  | 0 => some 0
  | 1 => some d.desc.offset
  | 2 => some size
  | _ => none

/-- `lseek`. There is no answer when the sum overflows, which stops the kernel. -/
def sysLseek (t : FdTable Suivi) (fs : Systemefichiers) (fd offset : ℤ) (whence : ℕ) :
    Option (Except Errno ℕ × FdTable Suivi) :=
  match t.get fd with
  | none => some (.error .ebadf, t)
  | some d =>
    match taille fs d.desc.kind with
    | none => some (.error .espipe, t)
    | some size =>
      match origineLseek d size whence with
      | none => some (.error .einval, t)
      | some base =>
        if 2 ^ 63 ≤ base + offset ∨ base + offset < -2 ^ 63 then none
        else if base + offset < 0 then some (.error .einval, t)
        else some (.ok (base + offset).toNat, t.modify fd (place (base + offset).toNat))

/-- The table changes at most the position of number `fd`. -/
def Deplace (t : FdTable Suivi) (fd : ℤ) (t' : FdTable Suivi) : Prop :=
  ∃ o, ∀ j : ℕ, t'.slot j = if fd = j then (t.slot j).map (place o) else t.slot j

theorem Deplace.modify (t : FdTable Suivi) (fd : ℤ) (o : ℕ) : Deplace t fd (t.modify fd (place o)) :=
  ⟨o, fun j => t.slot_modify fd (place o) j⟩

theorem Deplace.refl (t : FdTable Suivi) (fd : ℤ) : Deplace t fd t := by
  refine ⟨((t.slot fd.toNat).map fun d => d.desc.offset).getD 0, fun j => ?_⟩
  split_ifs with hj
  · subst hj
    cases h : t.slot j with
    | none => rfl
    | some d => simp [h, place]
  · rfl

variable {t t' : FdTable Suivi} {d' d : Suivi} {fs : Systemefichiers} {fd : ℤ}

theorem get_modify (h : t.get fd = some d) (f : Suivi → Suivi) : (t.modify fd f).get fd = some (f d) := by
  obtain ⟨hfd, hd⟩ := get_eq_some_iff.mp h
  refine get_eq_some_iff.mpr ⟨hfd, ?_⟩
  rw [slot_modify, if_pos (Int.toNat_of_nonneg hfd).symm, hd]
  rfl

/-- The table stays, or the position of number `fd` goes on. -/
def Avance (t : FdTable Suivi) (fd : ℤ) (t' : FdTable Suivi) : Prop :=
  t' = t ∨ ∃ d n, t.get fd = some d ∧ t' = t.modify fd (place (d.desc.offset + n))

theorem avance_rendLus (hd : t.get fd = some d) (data : List UInt8) (inscriptible : Bool) :
    Avance t fd (rendLus t fd d.desc.offset data inscriptible).2 := by
  unfold rendLus
  split_ifs
  · exact .inr ⟨d, data.length, hd, rfl⟩
  · exact .inl rfl

theorem avance_sysRead (t : FdTable Suivi) (fs : Systemefichiers) (fd : ℤ) (count limite : ℕ)
    (inscriptible : Bool) : Avance t fd (sysRead t fs fd count limite inscriptible).2 := by
  unfold sysRead
  split_ifs
  · exact .inl rfl
  split
  · exact .inl rfl
  rename_i d hd
  split
  · dsimp only
    split_ifs
    · exact .inl rfl
    · exact avance_rendLus hd _ inscriptible
  · split_ifs
    · exact .inl rfl
    · exact avance_rendLus hd _ inscriptible
  · exact .inl rfl
  · exact .inl rfl

theorem Avance.deplace (h : Avance t fd t') : Deplace t fd t' := by
  rcases h with rfl | ⟨d, n, -, rfl⟩
  · exact .refl t' fd
  · exact .modify t fd _

theorem Avance.le (h : Avance t fd t') (hd : t.get fd = some d) (hd' : t'.get fd = some d') :
    d.desc.offset ≤ d'.desc.offset := by
  rcases h with rfl | ⟨d₀, n, hd₀, rfl⟩
  · cases hd.symm.trans hd'
    exact le_rfl
  · cases hd.symm.trans hd₀
    cases (get_modify hd _).symm.trans hd'
    exact Nat.le_add_right _ _

theorem deplace_sysWrite (t : FdTable Suivi) (fs : Systemefichiers) (fd : ℤ)
    (lu : Option (List UInt8)) : Deplace t fd (sysWrite t fs fd lu).2.1 := by
  unfold sysWrite
  split
  · exact .refl t fd
  split_ifs
  · exact .refl t fd
  split
  · exact .refl t fd
  split
  · dsimp only
    split_ifs
    · exact .refl t fd
    · exact .refl t fd
    · exact .modify t fd _
  all_goals exact .refl t fd

/-- A write that gives no bytes to the file leaves the position. -/
theorem sysWrite_sans_octet {lu : Option (List UInt8)} (h : ∀ n, (sysWrite t fs fd lu).1 ≠ .ok (n + 1)) :
    (sysWrite t fs fd lu).2.1 = t := by
  unfold sysWrite at h ⊢
  cases lu with
  | none => rfl
  | some data =>
    cases data with
    | nil => rfl
    | cons b data =>
      simp only [reduceCtorEq, if_false] at h ⊢
      split
      · rfl
      rename_i d hd
      rw [hd] at h
      dsimp only at h
      split
      · rename_i hk
        rw [hk] at h
        dsimp only at h ⊢
        split_ifs at h ⊢
        · rfl
        · rfl
        · exact absurd rfl (h data.length)
      all_goals rfl

theorem deplace_sysLseek {fd offset : ℤ} {whence : ℕ}
    {r : Except Errno ℕ} (h : sysLseek t fs fd offset whence = some (r, t')) : Deplace t fd t' := by
  unfold sysLseek at h
  split at h
  · cases h
    exact .refl t fd
  split at h
  · cases h
    exact .refl t fd
  split at h
  · cases h
    exact .refl t fd
  split_ifs at h
  · cases h
    exact .refl t fd
  · cases h
    exact .modify t fd _

/-- A table for each process, the files, the number of the next `open`, and where the last
write through each `open` ended, since the last `lseek` through it. No call reads the last
two. -/
structure Monde where
  tables : ℕ → FdTable Suivi
  fs : Systemefichiers
  prochaine : ℕ
  derniere : ℕ → ℕ

/-- A call on regular files. -/
inductive AppelFichier
  | ouvre (pid node : ℕ) (flags : Flags)
  | dup (pid : ℕ) (fd : ℤ)
  | dup2 (pid : ℕ) (old new : ℤ)
  | dup3 (pid : ℕ) (old new : ℤ) (flags : Flags)
  | fork (pid fils : ℕ)
  | read (pid : ℕ) (fd : ℤ) (count limite : ℕ) (inscriptible : Bool)
  | write (pid : ℕ) (fd : ℤ) (lu : Option (List UInt8))
  | lseek (pid : ℕ) (fd offset : ℤ) (whence : ℕ)
  | close (pid : ℕ) (fd : ℤ)

def AppelFichier.copie : AppelFichier → Bool
  | dup _ _ | dup2 _ _ _ | dup3 _ _ _ _ | fork _ _ | close _ _ => true
  | _ => false

namespace Monde

def neuf (fs : Systemefichiers) : Monde := ⟨fun _ => .vide, fs, 0, fun _ => 0⟩

def poseTable (s : Monde) (pid : ℕ) (t : FdTable Suivi) : Monde :=
  { s with tables := Function.update s.tables pid t }

/-- `open` of a regular file that exists. -/
def sysOpen (s : Monde) (pid node : ℕ) (flags : Flags) : Monde :=
  let f := s.fs node
  let acces := flags &&& 3
  if f.disque ∧ (acces = 1 ∨ acces = 2 ∨ flags &&& oTrunc ≠ 0) then s
  else
    let f' : Fichier := if flags &&& oTrunc ≠ 0 then { f with contenu := [] } else f
    let offset := if flags &&& oAppend ≠ 0 then f'.contenu.length else 0
    let desc : Suivi := ⟨⟨.file node, offset, flags, flags &&& oCloexec ≠ 0⟩, s.prochaine⟩
    { s.poseTable pid ((s.tables pid).insert desc).2 with
      fs := Function.update s.fs node f'
      prochaine := s.prochaine + 1 }

def rendTable {β : Type} (s : Monde) (pid : ℕ) : Except Errno (β × FdTable Suivi) → Monde
  | .error _ => s
  | .ok (_, t) => s.poseTable pid t

variable (s : Monde)

/-- The end of the last write through the `open` of number `fd`. -/
def note (pid : ℕ) (fd : ℤ) (fin : Suivi → ℕ) : Monde :=
  match (s.tables pid).get fd with
  | none => s
  | some d => { s with derniere := Function.update s.derniere d.marque (fin d) }

def write (pid : ℕ) (fd : ℤ) (lu : Option (List UInt8)) : Monde :=
  let r := sysWrite (s.tables pid) s.fs fd lu
  let s' : Monde := { s.poseTable pid r.2.1 with fs := r.2.2 }
  match r.1 with
  | .ok (_ + 1) => s'.note pid fd fun d => d.desc.offset
  | _ => s'

def lseek (pid : ℕ) (fd offset : ℤ) (whence : ℕ) : Option Monde :=
  match sysLseek (s.tables pid) s.fs fd offset whence with
  | none => none
  | some (_, t) => some ((s.poseTable pid t).note pid fd fun _ => 0)

def execute : AppelFichier → Option Monde
  | .ouvre pid node flags => some (s.sysOpen pid node flags)
  | .dup pid fd => some (s.rendTable pid ((s.tables pid).sysDup (clone false) fd))
  | .dup2 pid old new => some (s.rendTable pid ((s.tables pid).sysDup2 (clone false) old new))
  | .dup3 pid old new flags =>
    some (s.rendTable pid ((s.tables pid).sysDup3 (clone (flags &&& oCloexec ≠ 0)) old new flags))
  | .fork pid fils => some (s.poseTable fils (s.tables pid))
  | .read pid fd count limite inscriptible =>
    some (s.poseTable pid (sysRead (s.tables pid) s.fs fd count limite inscriptible).2)
  | .write pid fd lu => some (s.write pid fd lu)
  | .lseek pid fd offset whence => s.lseek pid fd offset whence
  | .close pid fd => some (s.poseTable pid ((s.tables pid).close fd).2)

/-- A descriptor of `open` number `m` is at position `o`. -/
def Place (m o : ℕ) : Prop :=
  ∃ pid i d, (s.tables pid).slot i = some d ∧ d.marque = m ∧ d.desc.offset = o

/-- All descriptors of one `open` are at the same position. -/
def Partage : Prop := ∀ m o o', s.Place m o → s.Place m o' → o = o'

/-- No descriptor is before the end of the last write through its `open`: the next write
through it overwrites nothing of that one. -/
def SansRecouvrement : Prop := ∀ m o, s.Place m o → s.derniere m ≤ o

/-- No other descriptor comes from the same `open`. -/
def Seul (pid : ℕ) (fd : ℤ) : Prop :=
  ∀ d, (s.tables pid).get fd = some d → ∀ pid' i d', (s.tables pid').slot i = some d' →
    d'.marque = d.marque → pid' = pid ∧ (i : ℤ) = fd

def position (pid : ℕ) (fd : ℤ) : Option ℕ :=
  ((s.tables pid).get fd).map fun d => d.desc.offset

/-- The call leaves the position where it is, or no other descriptor shares it. -/
def Convient (a : AppelFichier) : Prop :=
  match a with
  | .read pid fd _ _ _ | .write pid fd _ | .lseek pid fd _ _ =>
    (∀ s', s.execute a = some s' → s'.position pid fd = s.position pid fd) ∨ s.Seul pid fd
  | _ => True

/-- Marks come from an `open` that was made. -/
structure Connu (s : Monde) : Prop where
  marques : ∀ m o, s.Place m o → m < s.prochaine
  fraiche : ∀ m, s.prochaine ≤ m → s.derniere m = 0

def Accorde (s : Monde) : Prop := s.Partage ∧ s.SansRecouvrement

variable {s s' : Monde} {pid : ℕ} {fd : ℤ}

theorem tables_poseTable_self (s : Monde) (pid : ℕ) (t : FdTable Suivi) :
    (s.poseTable pid t).tables pid = t := update_self ..

theorem tables_poseTable_of_ne {pid' : ℕ} (h : pid' ≠ pid) (t : FdTable Suivi) :
    (s.poseTable pid t).tables pid' = s.tables pid' := update_of_ne h ..

variable {t : FdTable Suivi} {m o : ℕ} {fin : Suivi → ℕ} {a : AppelFichier}

theorem place_poseTable (h : (s.poseTable pid t).Place m o) :
    (∃ i d, t.slot i = some d ∧ d.marque = m ∧ d.desc.offset = o) ∨
      ∃ pid' i d, pid' ≠ pid ∧ (s.tables pid').slot i = some d ∧ d.marque = m ∧ d.desc.offset = o := by
  obtain ⟨pid', i, d, hd, hm, ho⟩ := h
  by_cases hp : pid' = pid
  · subst hp
    rw [tables_poseTable_self] at hd
    exact .inl ⟨i, d, hd, hm, ho⟩
  · rw [tables_poseTable_of_ne hp] at hd
    exact .inr ⟨pid', i, d, hp, hd, hm, ho⟩

theorem place_of_copies (ht : ∀ i d, t.slot i = some d → s.Place d.marque d.desc.offset)
    (h : (s.poseTable pid t).Place m o) : s.Place m o := by
  rcases place_poseTable h with ⟨i, d, hd, rfl, rfl⟩ | ⟨pid', i, d, -, hd, hm, ho⟩
  · exact ht i d hd
  · exact ⟨pid', i, d, hd, hm, ho⟩

theorem accorde_of_place (hp : ∀ m o, s'.Place m o → s.Place m o)
    (hd : s'.derniere = s.derniere) (h : s.Accorde) : s'.Accorde := by
  refine ⟨fun m o o' ho ho' => h.1 m o o' (hp m o ho) (hp m o' ho'), fun m o ho => ?_⟩
  rw [hd]
  exact h.2 m o (hp m o ho)

theorem connu_of_place (hp : ∀ m o, s'.Place m o → s.Place m o)
    (hd : s'.derniere = s.derniere) (hn : s'.prochaine = s.prochaine) (h : s.Connu) : s'.Connu where
  marques := fun m o ho => hn ▸ h.marques m o (hp m o ho)
  fraiche := fun m hm => hd ▸ h.fraiche m (hn ▸ hm)

variable {β : Type} {x whence : ℕ} {offset : ℤ} {desc : Suivi}

theorem place_rendTable {r : Except Errno (β × FdTable Suivi)} {cloexec : Bool}
    (hr : ∀ x t, r = .ok (x, t) → Copies (clone cloexec) (s.tables pid) t)
    (h : (s.rendTable pid r).Place m o) : s.Place m o := by
  cases r with
  | error x => exact h
  | ok r =>
    refine place_of_copies (fun j d hd => ?_) h
    obtain ⟨j', d', hd', hcopie⟩ := hr r.1 r.2 rfl j d hd
    rcases hcopie with rfl | rfl
    · exact ⟨pid, j', d, hd', rfl, rfl⟩
    · exact ⟨pid, j', d', hd', rfl, rfl⟩

theorem rendTable_reste (s : Monde) (pid : ℕ) (r : Except Errno (β × FdTable Suivi)) :
    (s.rendTable pid r).derniere = s.derniere ∧ (s.rendTable pid r).prochaine = s.prochaine := by
  cases r <;> exact ⟨rfl, rfl⟩

theorem place_of_tables (ht : s'.tables = s.tables) (h : s'.Place m o) : s.Place m o := by
  unfold Place at h ⊢
  rwa [ht] at h

theorem place_get {d : Suivi} (h : (s.tables pid).get fd = some d) : s.Place d.marque d.desc.offset :=
  ⟨pid, _, d, (get_eq_some_iff.mp h).2, rfl, rfl⟩

@[simp] theorem tables_note (s : Monde) (pid : ℕ) (fd : ℤ) (fin : Suivi → ℕ) :
    (s.note pid fd fin).tables = s.tables := by
  unfold note
  split <;> rfl

/-- Any other mark keeps its note, and that of the number gets the new one. -/
theorem sansRecouvrement_note (hautres : ∀ m x, s.Place m x →
      (∃ d, (s.tables pid).get fd = some d ∧ d.marque = m) ∨ s.derniere m ≤ x)
    (hfin : ∀ d, (s.tables pid).get fd = some d → ∀ x, s.Place d.marque x → fin d ≤ x) :
    (s.note pid fd fin).SansRecouvrement := by
  intro m x hx
  have hx' := place_of_tables (tables_note s pid fd fin) hx
  unfold note
  cases hd : (s.tables pid).get fd with
  | none => exact (hautres m x hx').resolve_left (by simp [hd])
  | some d =>
    dsimp only
    by_cases hm : m = d.marque
    · subst hm
      rw [update_self]
      exact hfin d hd x hx'
    · rw [update_of_ne hm]
      refine (hautres m x hx').resolve_left ?_
      rintro ⟨d', hd', hm'⟩
      cases hd.symm.trans hd'
      exact hm hm'.symm

theorem Connu.note (h : s.Connu) : (s.note pid fd fin).Connu := by
  unfold Monde.note
  cases hd : (s.tables pid).get fd with
  | none => exact h
  | some d =>
    refine ⟨h.marques, fun m hm => ?_⟩
    have hlt := h.marques d.marque d.desc.offset (place_get hd)
    dsimp only at hm ⊢
    rw [update_of_ne (by omega)]
    exact h.fraiche m hm

section

variable (ht : Deplace (s.tables pid) fd t) (hs : s'.tables = (s.poseTable pid t).tables)

include ht hs

theorem slot_deplace : ∃ o, ∀ pid' j : ℕ, (s'.tables pid').slot j =
      if pid' = pid ∧ fd = j then ((s.tables pid').slot j).map (place o)
      else (s.tables pid').slot j := by
  obtain ⟨o, ho⟩ := ht
  refine ⟨o, fun pid' j => ?_⟩
  rw [hs]
  by_cases hp : pid' = pid
  · subst hp
    rw [tables_poseTable_self, ho]
    simp
  · rw [tables_poseTable_of_ne hp, if_neg fun h => hp h.1]

theorem place_deplace (h : s'.Place m x) :
    s.Place m x ∨ ∃ d, (s.tables pid).get fd = some d ∧ d.marque = m ∧
      (s'.tables pid).get fd = some (d.place x) := by
  obtain ⟨o, hslot⟩ := slot_deplace ht hs
  obtain ⟨pid', j, d', hd', rfl, rfl⟩ := h
  by_cases hj : pid' = pid ∧ fd = j
  · obtain ⟨rfl, rfl⟩ := hj
    have hmap := hd'
    rw [hslot, if_pos ⟨rfl, rfl⟩] at hmap
    obtain ⟨d, hd, rfl⟩ := map_eq_some_iff.mp hmap
    exact .inr ⟨d, by rw [get_natCast, hd], rfl, by rw [get_natCast, hd']; rfl⟩
  · rw [hslot, if_neg hj] at hd'
    exact .inl ⟨pid', j, d', hd', rfl, rfl⟩

/-- A position that is moved stays shared exactly when it is not shared, or not moved. -/
theorem partage_deplace_iff (hP : s.Partage) :
    s'.Partage ↔ s'.position pid fd = s.position pid fd ∨ s.Seul pid fd := by
  obtain ⟨o, hslot⟩ := slot_deplace ht hs
  constructor
  · intro hP'
    by_cases hseul : s.Seul pid fd
    · exact .inr hseul
    unfold Seul at hseul
    push Not at hseul
    obtain ⟨d, hd, pid', j, d', hd', hm, hailleurs⟩ := hseul
    obtain ⟨hfd, hi⟩ := get_eq_some_iff.mp hd
    have hget : (s'.tables pid).get fd = some (d.place o) := by
      refine get_eq_some_iff.mpr ⟨hfd, ?_⟩
      rw [hslot, if_pos ⟨rfl, (Int.toNat_of_nonneg hfd).symm⟩, hi]
      rfl
    -- another descriptor keeps the old position
    have hd'' : (s'.tables pid').slot j = some d' := by
      rw [hslot, if_neg fun h => hailleurs h.1 h.2.symm, hd']
    have hneuf := hP' d.marque o d'.desc.offset (place_get hget) ⟨pid', j, d', hd'', hm, rfl⟩
    have hancien := hP d.marque d.desc.offset d'.desc.offset (place_get hd) ⟨pid', j, d', hd', hm, rfl⟩
    simp [position, hd, hget, place, hneuf, hancien]
  · rintro (hmeme | hseul) m x y hx hy
    · have hplace : ∀ x, s'.Place m x → s.Place m x := by
        intro x hx
        rcases place_deplace ht hs hx with hx | ⟨d, hd, rfl, hget⟩
        · exact hx
        · simp only [position, hd, hget, place, map_some, some.injEq] at hmeme
          exact hmeme ▸ place_get hd
      exact hP m x y (hplace x hx) (hplace y hy)
    · -- the moved descriptor is alone, and nothing changed among the others
      have hneuf : ∀ d x, (s.tables pid).get fd = some d → s'.Place d.marque x → x = o := by
        rintro d x hd ⟨pid', j, d', hd', hm, rfl⟩
        rw [hslot] at hd'
        split_ifs at hd' with hj
        · obtain ⟨d0, -, rfl⟩ := map_eq_some_iff.mp hd'
          rfl
        · obtain ⟨rfl, hj'⟩ := hseul d hd pid' j d' hd' hm
          exact absurd ⟨rfl, hj'.symm⟩ hj
      rcases place_deplace ht hs hx with hx' | ⟨d, hd, rfl, -⟩
      · rcases place_deplace ht hs hy with hy' | ⟨d, hd, rfl, -⟩
        · exact hP m x y hx' hy'
        · exact (hneuf d x hd hx).trans (hneuf d y hd hy).symm
      · exact (hneuf d x hd hx).trans (hneuf d y hd hy).symm

theorem Connu.deplace (h : s.Connu) (hd : s'.derniere = s.derniere)
    (hn : s'.prochaine = s.prochaine) : s'.Connu where
  marques := by
    intro m x hx
    rw [hn]
    rcases place_deplace ht hs hx with hx | ⟨d, hd, rfl, -⟩
    · exact h.marques m x hx
    · exact h.marques d.marque d.desc.offset (place_get hd)
  fraiche := fun m hm => hd ▸ h.fraiche m (hn ▸ hm)

theorem sansRecouvrement_deplace (h : s.SansRecouvrement) (hd : s'.derniere = s.derniere)
    (hfin : ∀ d, (s'.tables pid).get fd = some d → ∀ x, s'.Place d.marque x → fin d ≤ x) :
    (s'.note pid fd fin).SansRecouvrement := by
  refine sansRecouvrement_note (fun m x hx => ?_) hfin
  rcases place_deplace ht hs hx with hx | ⟨d, -, hm, hget⟩
  · rw [hd]
    exact .inr (h m x hx)
  · exact .inl ⟨d.place x, hget, hm⟩

/-- A move of which the note is kept. -/
theorem accorde_note_iff (h : s.Accorde) (hd : s'.derniere = s.derniere) (hfin : ∀ d, fin d ≤ d.desc.offset) :
    (s'.note pid fd fin).Accorde ↔
      (s'.note pid fd fin).position pid fd = s.position pid fd ∨ s.Seul pid fd := by
  have hs' : (s'.note pid fd fin).tables = (s.poseTable pid t).tables := by
    rw [tables_note, hs]
  rw [← partage_deplace_iff ht hs' h.1]
  refine ⟨And.left, fun hP => ⟨hP, ?_⟩⟩
  refine sansRecouvrement_deplace ht hs h.2 hd fun d hget x hx => ?_
  have hnote := (tables_note s' pid fd fin).symm
  have hmeme := hP d.marque d.desc.offset x (place_of_tables hnote (place_get hget)) (place_of_tables hnote hx)
  exact hmeme ▸ hfin d

end

theorem accorde_read_iff (h : s.Accorde) (count limite : ℕ) (inscriptible : Bool)
    (hs : s' = s.poseTable pid (sysRead (s.tables pid) s.fs fd count limite inscriptible).2) :
    s'.Accorde ↔ s'.position pid fd = s.position pid fd ∨ s.Seul pid fd := by
  have ha := avance_sysRead (s.tables pid) s.fs fd count limite inscriptible
  have htables : s'.tables = (s.poseTable pid
      (sysRead (s.tables pid) s.fs fd count limite inscriptible).2).tables := congrArg _ hs
  rw [← partage_deplace_iff ha.deplace htables h.1]
  refine ⟨And.left, fun hP => ⟨hP, fun m x hx => ?_⟩⟩
  have hderniere : s'.derniere = s.derniere := by
    rw [hs]
    rfl
  rw [hderniere]
  rcases place_deplace ha.deplace htables hx with hx | ⟨d, hd, rfl, hget⟩
  · exact h.2 m x hx
  · rw [htables, tables_poseTable_self] at hget
    exact (h.2 d.marque d.desc.offset (place_get hd)).trans (ha.le hd hget)

theorem accorde_immobile (h : s.Accorde) (ht : s'.tables = s.tables) (hd : s'.derniere = s.derniere) :
    s'.Accorde ↔ s'.position pid fd = s.position pid fd ∨ s.Seul pid fd := by
  have hposition : s'.position pid fd = s.position pid fd := by
    unfold position
    rw [ht]
  exact iff_of_true (accorde_of_place (fun m x => place_of_tables ht) hd h) (.inl hposition)

theorem accorde_write_iff (h : s.Accorde) (lu : Option (List UInt8)) : (s.write pid fd lu).Accorde ↔
      (s.write pid fd lu).position pid fd = s.position pid fd ∨ s.Seul pid fd := by
  have ht := deplace_sysWrite (s.tables pid) s.fs fd lu
  unfold write
  dsimp only
  split
  · exact accorde_note_iff ht rfl h rfl fun d => le_rfl
  · rename_i hr
    have hmeme := sysWrite_sans_octet fun n hn => hr n hn
    refine accorde_immobile h ?_ rfl
    rw [hmeme]
    exact update_eq_self pid s.tables

theorem accorde_lseek_iff (h : s.Accorde) (hs : s.lseek pid fd offset whence = some s') :
    s'.Accorde ↔ s'.position pid fd = s.position pid fd ∨ s.Seul pid fd := by
  unfold lseek at hs
  split at hs
  · cases hs
  · rename_i r t hr
    cases hs
    exact accorde_note_iff (deplace_sysLseek hr) rfl h rfl fun d => Nat.zero_le _

/-- A descriptor inserted under a mark of its own adds its place and no other. -/
theorem place_insert (hmarque : desc.marque = s.prochaine)
    (htables : s'.tables = (s.poseTable pid ((s.tables pid).insert desc).2).tables)
    (hx : s'.Place m x) : s.Place m x ∨ m = s.prochaine ∧ x = desc.desc.offset := by
  obtain ⟨i, t, hins, -, -, hslot⟩ := (s.tables pid).insertAtLeast_spec desc 0
  rw [show (s.tables pid).insert desc = (i, t) from hins] at htables
  rcases place_poseTable (place_of_tables htables hx) with ⟨j, d, hd, rfl, rfl⟩ | ⟨pid', j, d, -, hd, hm, ho⟩
  · rw [hslot] at hd
    split_ifs at hd
    · cases hd
      exact .inr ⟨hmarque, rfl⟩
    · exact .inl ⟨pid, j, d, hd, rfl, rfl⟩
  · exact .inl ⟨pid', j, d, hd, hm, ho⟩

theorem accorde_insert (hc : s.Connu) (hmarque : desc.marque = s.prochaine)
    (htables : s'.tables = (s.poseTable pid ((s.tables pid).insert desc).2).tables)
    (hderniere : s'.derniere = s.derniere) (hprochaine : s'.prochaine = s.prochaine + 1) :
    s'.Connu ∧ (s.Accorde → s'.Accorde) := by
  have hplace : ∀ m x, s'.Place m x → s.Place m x ∨ m = s.prochaine ∧ x = desc.desc.offset :=
    fun m x => place_insert hmarque htables
  have hneuf : ∀ x, ¬ s.Place s.prochaine x := fun x hx => lt_irrefl _ (hc.marques _ x hx)
  refine ⟨⟨fun m x hx => ?_, fun m hm => ?_⟩, fun h => ⟨fun m x y hx hy => ?_, fun m x hx => ?_⟩⟩
  · rw [hprochaine]
    rcases hplace m x hx with hx | ⟨rfl, -⟩
    · exact Nat.lt_succ_of_lt (hc.marques m x hx)
    · exact Nat.lt_succ_self _
  · rw [hderniere]
    exact hc.fraiche m (by omega)
  · rcases hplace m x hx with hx | ⟨rfl, rfl⟩ <;> rcases hplace _ y hy with hy | ⟨hm, rfl⟩
    · exact h.1 m x y hx hy
    · subst hm
      exact absurd hx (hneuf x)
    · exact absurd hy (hneuf y)
    · rfl
  · rw [hderniere]
    rcases hplace m x hx with hx | ⟨rfl, -⟩
    · exact h.2 m x hx
    · rw [hc.fraiche _ le_rfl]
      exact Nat.zero_le _

theorem accorde_sysOpen (hc : s.Connu) (pid node : ℕ) (flags : Flags) :
    (s.sysOpen pid node flags).Connu ∧ (s.Accorde → (s.sysOpen pid node flags).Accorde) := by
  unfold sysOpen
  dsimp only
  split
  · exact ⟨hc, id⟩
  · exact accorde_insert hc rfl rfl rfl rfl

/-- Copies and closings make no new place. -/
theorem place_copie (ha : a.copie = true) (hs : s.execute a = some s') :
    (∀ m o, s'.Place m o → s.Place m o) ∧ s'.derniere = s.derniere ∧ s'.prochaine = s.prochaine := by
  cases a with
  | dup pid fd =>
    cases hs
    exact ⟨fun m o => place_rendTable fun x t => copies_sysDup, rendTable_reste _ _ _⟩
  | dup2 pid old new =>
    cases hs
    exact ⟨fun m o => place_rendTable fun x t => copies_sysDup2, rendTable_reste _ _ _⟩
  | dup3 pid old new flags =>
    cases hs
    exact ⟨fun m o => place_rendTable fun x t => copies_sysDup3, rendTable_reste _ _ _⟩
  | fork pid fils =>
    cases hs
    exact ⟨fun m o => place_of_copies fun i d hd => ⟨pid, i, d, hd, rfl, rfl⟩, rfl, rfl⟩
  | close pid fd =>
    cases hs
    refine ⟨fun m o => place_of_copies fun i d hd => ?_, rfl, rfl⟩
    rw [((s.tables pid).close_spec fd).2 i] at hd
    split_ifs at hd
    exact ⟨pid, i, d, hd, rfl, rfl⟩
  | _ => cases ha

theorem connu_write (h : s.Connu) (lu : Option (List UInt8)) : (s.write pid fd lu).Connu := by
  have hs : Connu { s.poseTable pid (sysWrite (s.tables pid) s.fs fd lu).2.1 with
      fs := (sysWrite (s.tables pid) s.fs fd lu).2.2 } :=
    h.deplace (deplace_sysWrite (s.tables pid) s.fs fd lu) rfl rfl rfl
  unfold write
  dsimp only
  split
  · exact hs.note
  · exact hs

theorem connu_lseek (h : s.Connu) (hs : s.lseek pid fd offset whence = some s') : s'.Connu := by
  unfold lseek at hs
  split at hs
  · cases hs
  · rename_i r t hr
    cases hs
    exact (h.deplace (deplace_sysLseek hr) rfl rfl rfl).note

theorem connu_execute (h : s.Connu) (hs : s.execute a = some s') : s'.Connu := by
  by_cases ha : a.copie = true
  · obtain ⟨hplace, hderniere, hprochaine⟩ := place_copie ha hs
    exact connu_of_place hplace hderniere hprochaine h
  cases a with
  | ouvre pid node flags =>
    cases hs
    exact (accorde_sysOpen h pid node flags).1
  | read pid fd count limite inscriptible =>
    cases hs
    exact h.deplace (avance_sysRead _ _ fd count limite inscriptible).deplace rfl rfl rfl
  | write pid fd lu =>
    cases hs
    exact connu_write h lu
  | lseek pid fd offset whence => exact connu_lseek h hs
  | _ => exact absurd rfl ha

theorem accorde_execute_iff (hc : s.Connu) (h : s.Accorde)
    (hs : s.execute a = some s') : s'.Accorde ↔ s.Convient a := by
  by_cases ha : a.copie = true
  · obtain ⟨hplace, hderniere, -⟩ := place_copie ha hs
    refine iff_of_true (accorde_of_place hplace hderniere h) ?_
    cases a <;> trivial
  -- the position after the step is the one the condition speaks of
  have hposition : ∀ pid fd, (∀ s'', s.execute a = some s'' → s''.position pid fd = s.position pid fd) ↔
      s'.position pid fd = s.position pid fd := by
    intro pid fd
    rw [hs]
    exact ⟨fun h => h s' rfl, fun h s'' hs'' => some.inj hs'' ▸ h⟩
  cases a with
  | ouvre pid node flags =>
    cases hs
    exact iff_of_true ((accorde_sysOpen hc pid node flags).2 h) trivial
  | read pid fd count limite inscriptible =>
    rw [Convient, hposition]
    exact accorde_read_iff h count limite inscriptible (some.inj hs).symm
  | write pid fd lu =>
    rw [Convient, hposition]
    cases hs
    exact accorde_write_iff h lu
  | lseek pid fd offset whence =>
    rw [Convient, hposition]
    exact accorde_lseek_iff h hs
  | _ => exact absurd rfl ha

theorem accorde_neuf (fs : Systemefichiers) : (neuf fs).Connu ∧ (neuf fs).Accorde := by
  have hplace : ∀ m o, ¬ (neuf fs).Place m o := by
    rintro m o ⟨pid, i, d, hd, -⟩
    cases hd
  exact ⟨⟨fun m o h => absurd h (hplace m o), fun _ _ => rfl⟩,
    fun m o _ h => absurd h (hplace m o), fun m o h => absurd h (hplace m o)⟩

/-- In every run, the descriptors of one `open` stay at one position, and none of their
writes overwrites the one before, exactly when no call moves a position that two
descriptors should share. -/
theorem descripteurs_d_un_meme_fichier {fs : Systemefichiers} {appels : List AppelFichier}
    {s : Monde} (h : Runs.run execute (neuf fs) appels = some s) :
    (∀ t, Runs.Moment execute (neuf fs) appels t → t.Partage ∧ t.SansRecouvrement) ↔
      ∀ t a, Runs.Taken execute (neuf fs) appels t a → t.Convient a :=
  Runs.forall_moment_iff (accorde_neuf fs).1 (fun _ _ _ => connu_execute) (accorde_neuf fs).2
    (fun _ _ _ => accorde_execute_iff) h

/-- Process 1 writes before a fork and, once its child has closed the descriptor, after it. -/
def pereSeul : List AppelFichier :=
  [.ouvre 1 5 2, .write 1 0 (some [65, 66]), .fork 1 2, .close 2 0, .write 1 0 (some [67])]

def fichiersVides : Systemefichiers := fun _ => ⟨[], false⟩

theorem descripteurs_d_un_meme_fichier_pereSeul :
    ∃ s, Runs.run execute (neuf fichiersVides) pereSeul = some s ∧
      ((∀ t, Runs.Moment execute (neuf fichiersVides) pereSeul t → t.Partage ∧ t.SansRecouvrement) ↔
        ∀ t a, Runs.Taken execute (neuf fichiersVides) pereSeul t a → t.Convient a) := by
  obtain ⟨s, hs⟩ := isSome_iff_exists.mp
    (by decide : (Runs.run execute (neuf fichiersVides) pereSeul).isSome = true)
  exact ⟨s, hs, descripteurs_d_un_meme_fichier hs⟩

/-- Process 1 opens a file and forks; parent and child write in turn, and the child writes
over what its parent wrote. -/
theorem pere_et_fils_se_recouvrent : (Runs.run execute (neuf fichiersVides) [.ouvre 1 5 2, .fork 1 2,
        .write 1 0 (some [65, 66]), .write 2 0 (some [67])]).map
      (fun s => (s.position 1 0, s.position 2 0, (s.fs 5).contenu)) =
      some (some 2, some 1, [67, 66]) := by
  decide

end Monde

end BouchaudOS.Descripteurs
