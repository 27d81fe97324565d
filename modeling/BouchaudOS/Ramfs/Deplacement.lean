import BouchaudOS.Ramfs.Renommage

/-!
# Copies and moves outside the system call

The shell's `cp` and `mv` and the WASI import `path_rename` write the table
themselves. The two moves do not go through the decision of `renameat2`: they
keep the tree exactly when the new directory can receive the node.
-/

namespace BouchaudOS.Ramfs

theorem coupe_nom_ne_nil {path n : List UInt8} {d : Dossier} (h : coupe path = some (d, n)) : n ≠ [] := by
  have hder : ∀ {l : List UInt8}, sansBarres path = l → l ≠ [FileSystem.barre] →
      ∀ hl : l ≠ [], l.getLast hl ≠ FileSystem.barre := by
    rintro l rfl hb hl
    cases path with
    | nil => exact absurd rfl hl
    | cons c reste =>
      simp only [sansBarres] at hb hl ⊢
      by_cases hr : reste.rdropWhile (· == FileSystem.barre) = []
      · simp only [hr, List.getLast_singleton] at hb ⊢
        exact fun he => hb (by rw [he])
      · rw [List.getLast_cons hr]
        have hlast := List.rdropWhile_last_not (· == FileSystem.barre) reste hr
        simpa using hlast
  unfold coupe at h
  dsimp only at h
  generalize hp : sansBarres path = l at h
  split at h
  · cases h
  rename_i hne
  rw [not_or] at hne
  have hnom : l.rtakeWhile (· != FileSystem.barre) ≠ [] := by
    rw [ne_eq, List.rtakeWhile_eq_nil_iff]
    intro hall
    exact hall hne.1 (by simpa using hder hp hne.2 hne.1)
  split at h
  · cases h
    exact hne.1
  · cases h
    exact hnom
  · cases h
    exact hnom

namespace FileSystem

variable (ctx : Contexte) (fs : FileSystem)

theorem resolveParentNameChecked_ne_nil {ctx : Contexte} {fs : FileSystem} {path n : List UInt8}
    {cwd p : Idx} (h : fs.resolveParentNameChecked ctx path cwd = .ok (p, n)) : n ≠ [] := by
  unfold resolveParentNameChecked at h
  split at h
  · cases h
  · rename_i hc
    cases h
    exact coupe_nom_ne_nil hc
  · rename_i hc
    cases h
    exact coupe_nom_ne_nil hc
  · rename_i q m hc
    cases hr : fs.resolveChecked ctx q cwd with
    | error e =>
      rw [hr] at h
      cases h
    | ok i =>
      rw [hr] at h
      cases h
      exact coupe_nom_ne_nil hc

/-- The shell's `cp`. -/
def cp (de vers : List UInt8) (cwd : Idx) : ℤ × FileSystem :=
  match fs.resolveChecked ctx de cwd with
  | .error _ => (1, fs)
  | .ok src =>
    if (fs.nodes src).kind ≠ .file then (1, fs)
    else if !fs.can ctx src permR then (1, fs)
    else
      match fs.resolveParentNameChecked ctx vers cwd with
      | .error _ => (1, fs)
      | .ok (parent, name) =>
        if !fs.can ctx parent permW then (1, fs)
        else
          match fs.touchAt ctx parent name with
          | .error _ => (1, fs)
          | .ok (dst, fs) => (0, fs.modifie dst fun n => { n with content := (fs.nodes src).content })

/-- The checks of the shell's `mv`: the node to move, its new parent and name. -/
def mvPlace (de vers : List UInt8) (cwd : Idx) : Option (Idx × Idx × List UInt8) :=
  match fs.resolveChecked ctx de cwd with
  | .error _ => none
  | .ok src =>
    if src = 0 then none
    else if !fs.can ctx (fs.nodes src).parent permW then none
    else
      match fs.resolveParentNameChecked ctx vers cwd with
      | .error _ => none
      | .ok (parent, name) =>
        if !fs.can ctx parent permW then none
        else if (fs.findChild parent name).isSome then none
        else some (src, parent, name)

/-- The last step of the two moves: the parent, then the name, with the code of a
name that is refused. -/
def rattacheOu (echec : ℤ) (s p : Idx) (name : List UInt8) : ℤ × FileSystem :=
  match fs.rattache s p name with
  | (true, fs) => (0, fs)
  | (false, fs) => (echec, fs)

/-- The shell's `mv`. -/
def mv (de vers : List UInt8) (cwd : Idx) : ℤ × FileSystem :=
  match fs.mvPlace ctx de vers cwd with
  | none => (1, fs)
  | some (src, parent, name) => fs.rattacheOu 1 src parent name

/-- An open descriptor of a WASM module. -/
structure FdEntry where
  node : Idx
  dir : Bool

namespace Wasi

def success : ℤ := 0

def acces : ℤ := 2

def badf : ℤ := 8

def exist : ℤ := 20

def inval : ℤ := 28

def nametoolong : ℤ := 37

def noent : ℤ := 44

def notdir : ℤ := 54

end Wasi

variable (fds : List (Option FdEntry))

/-- The directory a descriptor stands for. -/
def base (fd : ℤ) : Except ℤ Idx :=
  match if fd < 0 then none else fds[fd.toNat]?.join with
  | none => .error Wasi.badf
  | some e => if e.dir then .ok e.node else .error Wasi.notdir

def resolveAt (fd : ℤ) (path : List UInt8) : Except ℤ Idx :=
  match base fds fd with
  | .error e => .error e
  | .ok b =>
    match fs.resolveChecked ctx path b with
    | .ok i => .ok i
    | .error .permissionDenied => .error Wasi.acces
    | .error _ => .error Wasi.noent

def resolveParentAt (fd : ℤ) (path : List UInt8) : Except ℤ (Idx × List UInt8) :=
  match base fds fd with
  | .error e => .error e
  | .ok b =>
    match fs.resolveParentNameChecked ctx path b with
    | .ok r => .ok r
    | .error .permissionDenied => .error Wasi.acces
    | .error .cheminInvalide => .error Wasi.inval
    | .error _ => .error Wasi.noent

/-- The checks of `path_rename` before it looks at the destination. -/
def pathRenamePlace (oldFd : ℤ) (op : List UInt8) (newFd : ℤ)
    (np : List UInt8) : Except ℤ (Idx × Idx × List UInt8) :=
  match fs.resolveAt ctx fds oldFd op with
  | .error e => .error e
  | .ok node =>
    match fs.resolveParentAt ctx fds newFd np with
    | .error e => .error e
    | .ok (parent, name) =>
      if !fs.can ctx (fs.nodes node).parent permW || !fs.can ctx parent permW then .error Wasi.acces
      else .ok (node, parent, name)

/-- The rest of `path_rename`, for what is found at the destination. -/
def pathRenameVers (node parent : Idx) (name : List UInt8) : Option Idx → ℤ × FileSystem
  | none => fs.rattacheOu Wasi.nametoolong node parent name
  | some dst =>
    if dst = node then (Wasi.success, fs)
    else if (fs.nodes dst).kind = .dir then (Wasi.exist, fs)
    else (fs.libereNoeud dst).rattacheOu Wasi.nametoolong node parent name

/-- The WASI import `path_rename`. -/
def pathRename (fds : List (Option FdEntry)) (oldFd : ℤ) (op : List UInt8) (newFd : ℤ)
    (np : List UInt8) : ℤ × FileSystem :=
  match fs.pathRenamePlace ctx fds oldFd op newFd np with
  | .error e => (e, fs)
  | .ok (node, parent, name) => fs.pathRenameVers node parent name (fs.findChild parent name)

variable {ctx : Contexte} {fs fs' : FileSystem} {s p c i : Idx} {n : List UInt8} {fds : List (Option FdEntry)}

/-- The table is a tree, no node has become a memfd, and a failure has changed
nothing. -/
def Sain (fs : FileSystem) (r : ℤ × FileSystem) : Prop :=
  fs.Garde r.2 ∧ (r.1 ≠ 0 → r.2 = fs)

theorem BienForme.sain_refus (h : fs.BienForme) (e : ℤ) : fs.Sain (e, fs) :=
  ⟨⟨h, fun _ hi => hi⟩, fun _ => rfl⟩

/-- The place a node moves to is in order: its name is accepted and its directory
can receive the node, or the name is refused and the directory is its own. -/
def PlaceSaine (fs : FileSystem) (s p : Idx) (n : List UInt8) : Prop :=
  if Nom.Acceptable n then fs.Recoit s p n else p = fs.parents s

theorem rattache_of_refuse (hn : ¬Nom.Acceptable n) :
    fs.rattache s p n = (false, fs.modifie s fun m => { m with parent := p }) := by
  unfold rattache
  rw [Nom.lit_eq_none.mpr hn]

theorem modifie_parent_eq_iff : (fs.modifie s fun m => { m with parent := p }) = fs ↔ p = fs.parents s := by
  constructor
  · intro he
    have hs := congrArg (fun fs => (fs.nodes s).parent) he
    rw [modifie_nodes_self] at hs
    exact hs
  · rintro rfl
    unfold modifie parents
    simp

theorem BienForme.sain_refuse_iff (h : fs.BienForme) {e : ℤ} (he : e ≠ 0) :
    fs.Sain (e, fs.modifie s fun m => { m with parent := p }) ↔ p = fs.parents s := by
  constructor
  · exact fun hs => modifie_parent_eq_iff.mp (hs.2 he)
  · intro hp
    rw [modifie_parent_eq_iff.mpr hp]
    exact h.sain_refus e

theorem rattacheOu_of_acceptable (hn : Nom.Acceptable n) (e : ℤ) :
    fs.rattacheOu e s p n = (0, fs.pose s p ⟨n, hn.2⟩) := by
  have hlit : Nom.lit n = some ⟨n, hn.2⟩ := Nom.lit_eq_some.mpr ⟨hn.1, rfl⟩
  unfold rattacheOu
  rw [rattache_of_lit hlit]

theorem BienForme.sain_rattacheOu_iff (h : fs.BienForme) (hlibre : fs.findChild p n = none) {e : ℤ}
    (he : e ≠ 0) : fs.Sain (fs.rattacheOu e s p n) ↔ fs.PlaceSaine s p n := by
  unfold PlaceSaine
  by_cases hn : Nom.Acceptable n
  · rw [if_pos hn, rattacheOu_of_acceptable hn, ← h.garde_pose_iff ⟨n, hn.2⟩ (findChild_eq_none.mp hlibre)]
    exact ⟨fun hs => hs.1, fun hg => ⟨hg, fun h0 => absurd rfl h0⟩⟩
  · rw [if_neg hn, rattacheOu, rattache_of_refuse hn]
    exact h.sain_refuse_iff he

/-- A file at the destination is freed first: what remains is a free place. -/
theorem BienForme.sain_libere_iff (h : fs.BienForme) (hc : fs.findChild p n = some c)
    (hn : n ≠ []) (hcs : c ≠ s) (hk : (fs.nodes c).kind ≠ .dir) (e : ℤ) :
    fs.Sain ((fs.libereNoeud c).rattacheOu e s p n) ↔ (fs.libre c).Recoit s p n := by
  have hporte := h.findChild_iff.mp hc
  have hc0 : c ≠ 0 := fun he => hk (he ▸ h.racineDossier)
  have hfile : (fs.nodes c).kind = .file := by
    cases hkind : (fs.nodes c).kind with
    | file => rfl
    | dir => exact absurd hkind hk
  have hacc : Nom.Acceptable n := ⟨hn, hporte.2.2 ▸ (fs.nodes c).name.borne⟩
  have hlibre : (fs.libre c).BienForme := h.libre hc0 fun j => h.feuille_of_file hfile j
  have hplace : ∀ i, ¬(fs.libre c).Porte p n i := fun i hi =>
    (libre_porte.mp hi).1 (h.noms p n i c (libre_porte.mp hi).2 hporte)
  have hmeme : Meme ((fs.libre c).pose s p ⟨n, hacc.2⟩)
      ((fs.libereNoeud c).pose s p ⟨n, hacc.2⟩) := (libereNoeud_meme hc0 hporte.1).pose _
  rw [rattacheOu_of_acceptable hacc, ← hlibre.garde_pose_iff ⟨n, hacc.2⟩ hplace]
  have hanon : ∀ i, ((fs.libre c).pose s p ⟨n, hacc.2⟩).estAnonyme i = true →
      (fs.estAnonyme i = true ↔ (fs.libre c).estAnonyme i = true) := by
    intro i hi
    have hic : i ≠ c := by
      rintro rfl
      have hu := (estAnonyme_iff.mp hi).2.1
      rw [pose_used, libre_used] at hu
      exact hu.1 rfl
    rw [libre_estAnonyme hic]
  constructor
  · rintro ⟨⟨hb, ha⟩, -⟩
    refine ⟨hmeme.symm.arbre.bienForme hb, fun i hi => (hanon i hi).mp (ha i ?_)⟩
    rwa [hmeme.arbre.estAnonyme_eq]
  · rintro ⟨hb, ha⟩
    refine ⟨⟨hmeme.arbre.bienForme hb, fun i hi => ?_⟩, fun h0 => absurd rfl h0⟩
    rw [hmeme.arbre.estAnonyme_eq] at hi
    exact (hanon i hi).mpr (ha i hi)

def MvSain (ctx : Contexte) (fs : FileSystem) (de vers : List UInt8) (cwd : Idx) : Prop :=
  ∀ s p n, fs.mvPlace ctx de vers cwd = some (s, p, n) → fs.PlaceSaine s p n

/-- The place is in order for what is found there: a file is gone by then. -/
def PlaceSaineVers (fs : FileSystem) (s p : Idx) (n : List UInt8) : Option Idx → Prop
  | none => fs.PlaceSaine s p n
  | some c => c = s ∨ (fs.nodes c).kind = .dir ∨ (fs.libre c).Recoit s p n

/-- The moves WASI makes are in order. -/
def PathRenameSain (ctx : Contexte) (fs : FileSystem) (fds : List (Option FdEntry)) (oldFd : ℤ)
    (op : List UInt8) (newFd : ℤ) (np : List UInt8) : Prop :=
  ∀ s p n, fs.pathRenamePlace ctx fds oldFd op newFd np = .ok (s, p, n) →
    fs.PlaceSaineVers s p n (fs.findChild p n)

theorem mvPlace_libre {de vers : List UInt8} {cwd : Idx}
    (h : fs.mvPlace ctx de vers cwd = some (s, p, n)) : fs.findChild p n = none := by
  unfold mvPlace at h
  split at h
  · cases h
  split at h
  · cases h
  split at h
  · cases h
  split at h
  · cases h
  split at h
  · cases h
  split at h
  · cases h
  rename_i hlibre
  cases h
  rwa [Option.not_isSome_iff_eq_none] at hlibre

theorem pathRenamePlace_ne_nil {oldFd newFd : ℤ} {op np : List UInt8}
    (h : fs.pathRenamePlace ctx fds oldFd op newFd np = .ok (s, p, n)) : n ≠ [] := by
  unfold pathRenamePlace at h
  split at h
  · cases h
  split at h
  · cases h
  rename_i hplace
  split at h
  · cases h
  cases h
  unfold resolveParentAt at hplace
  split at hplace
  · cases hplace
  split at hplace
  · rename_i hok
    cases hplace
    exact resolveParentNameChecked_ne_nil hok
  · cases hplace
  · cases hplace
  · cases hplace

theorem BienForme.sain_mv_iff (h : fs.BienForme) (ctx : Contexte) (de vers : List UInt8)
    (cwd : Idx) : fs.Sain (fs.mv ctx de vers cwd) ↔ fs.MvSain ctx de vers cwd := by
  unfold mv MvSain
  cases hplace : fs.mvPlace ctx de vers cwd with
  | none =>
    refine iff_of_true (h.sain_refus 1) fun s p n he => ?_
    cases he
  | some place =>
    obtain ⟨s, p, n⟩ := place
    rw [h.sain_rattacheOu_iff (mvPlace_libre hplace) (by decide)]
    constructor
    · intro hs s' p' n' he
      cases he
      exact hs
    · exact fun hs => hs s p n rfl

theorem BienForme.sain_pathRenameVers_iff (h : fs.BienForme) (hn : n ≠ []) {cible : Option Idx}
    (hc : fs.findChild p n = cible) :
    fs.Sain (fs.pathRenameVers s p n cible) ↔ fs.PlaceSaineVers s p n cible := by
  cases cible with
  | none => exact h.sain_rattacheOu_iff hc (by decide)
  | some c =>
    simp only [pathRenameVers, PlaceSaineVers]
    by_cases hcs : c = s
    · rw [if_pos hcs]
      exact iff_of_true (h.sain_refus _) (.inl hcs)
    · rw [if_neg hcs]
      by_cases hk : (fs.nodes c).kind = .dir
      · rw [if_pos hk]
        exact iff_of_true (h.sain_refus _) (.inr (.inl hk))
      · rw [if_neg hk, h.sain_libere_iff hc hn hcs hk]
        exact ⟨fun hr => .inr (.inr hr), fun hr => (hr.resolve_left hcs).resolve_left hk⟩

theorem BienForme.sain_pathRename_iff (h : fs.BienForme) (ctx : Contexte)
    (fds : List (Option FdEntry)) (oldFd : ℤ) (op : List UInt8) (newFd : ℤ) (np : List UInt8) :
    fs.Sain (fs.pathRename ctx fds oldFd op newFd np) ↔ fs.PathRenameSain ctx fds oldFd op newFd np := by
  unfold pathRename PathRenameSain
  cases hplace : fs.pathRenamePlace ctx fds oldFd op newFd np with
  | error e =>
    refine iff_of_true (h.sain_refus e) fun s p n he => ?_
    cases he
  | ok place =>
    obtain ⟨s, p, n⟩ := place
    rw [h.sain_pathRenameVers_iff (pathRenamePlace_ne_nil hplace) rfl]
    constructor
    · intro hs s' p' n' he
      cases he
      exact hs
    · exact fun hs => hs s p n rfl

/-- For every tree and pair of paths: `mv` and `path_rename` leave a tree, and
change nothing when they fail, exactly when the place they move to is in order. -/
theorem deplacement_garde_arbre (h : fs.BienForme) (ctx : Contexte) : (∀ (de vers : List UInt8) (cwd : Idx),
      fs.Sain (fs.mv ctx de vers cwd) ↔ fs.MvSain ctx de vers cwd) ∧
    ∀ (fds : List (Option FdEntry)) (oldFd : ℤ) (op : List UInt8) (newFd : ℤ) (np : List UInt8),
      fs.Sain (fs.pathRename ctx fds oldFd op newFd np) ↔ fs.PathRenameSain ctx fds oldFd op newFd np :=
  ⟨h.sain_mv_iff ctx, h.sain_pathRename_iff ctx⟩

/-- The table with the file "a". -/
theorem deplacement_garde_fichierA : fichierA.BienForme ∧
    (fichierA.Sain (fichierA.mv ⟨0, 0⟩ [97] [98] 0) ↔ fichierA.MvSain ⟨0, 0⟩ [97] [98] 0) :=
  ⟨fichierA_bienForme, (deplacement_garde_arbre fichierA_bienForme ⟨0, 0⟩).1 [97] [98] 0⟩

def dossierD : FileSystem := vierge.nouveau ⟨0, 0⟩ .dir 0o755 1 0 ⟨[100], by decide⟩

theorem dossierD_bienForme : dossierD.BienForme :=
  vierge_nouveau_bienForme _ _ _ (by decide) (by decide)

/-- A node in use, with a name, is not its own parent in a tree. -/
theorem not_bienForme_of_boucle (hi : i ≠ 0) (hu : (fs.nodes i).used = true) (ha : fs.estAnonyme i = false)
    (hp : fs.parents i = i) : ¬fs.BienForme :=
  fun h => hi ((h.remonte i hu ha).eq_root_of_fixed hp)

set_option maxRecDepth 100000 in
/-- "mv d d/x", by the shell and by WASI, succeeds and makes "d" its own parent. -/
theorem dossier_sous_lui_meme : dossierD.BienForme ∧ (dossierD.mv ⟨0, 0⟩ [100] [100, 47, 120] 0).1 = 0 ∧
    ¬(dossierD.mv ⟨0, 0⟩ [100] [100, 47, 120] 0).2.BienForme ∧
    (dossierD.pathRename ⟨0, 0⟩ [some ⟨0, true⟩] 0 [100] 0 [100, 47, 120]).1 = 0 ∧
    ¬(dossierD.pathRename ⟨0, 0⟩ [some ⟨0, true⟩] 0 [100] 0 [100, 47, 120]).2.BienForme := by
  have hmv : (dossierD.mv ⟨0, 0⟩ [100] [100, 47, 120] 0).1 = 0 ∧
      (((dossierD.mv ⟨0, 0⟩ [100] [100, 47, 120] 0).2.nodes 1).used = true ∧
        (dossierD.mv ⟨0, 0⟩ [100] [100, 47, 120] 0).2.estAnonyme 1 = false ∧
        (dossierD.mv ⟨0, 0⟩ [100] [100, 47, 120] 0).2.parents 1 = 1) := by
    decide +kernel
  have hrename : (dossierD.pathRename ⟨0, 0⟩ [some ⟨0, true⟩] 0 [100] 0 [100, 47, 120]).1 = 0 ∧
      (((dossierD.pathRename ⟨0, 0⟩ [some ⟨0, true⟩] 0 [100] 0 [100, 47, 120]).2.nodes 1).used = true ∧
        (dossierD.pathRename ⟨0, 0⟩ [some ⟨0, true⟩] 0 [100] 0 [100, 47, 120]).2.estAnonyme 1 = false ∧
        (dossierD.pathRename ⟨0, 0⟩ [some ⟨0, true⟩] 0 [100] 0 [100, 47, 120]).2.parents 1 = 1) := by
    decide +kernel
  obtain ⟨hmv, hu, ha, hp⟩ := hmv
  obtain ⟨hrename, hu', ha', hp'⟩ := hrename
  exact ⟨dossierD_bienForme, hmv, not_bienForme_of_boucle (by decide) hu ha hp, hrename,
    not_bienForme_of_boucle (by decide) hu' ha' hp'⟩

end FileSystem

end BouchaudOS.Ramfs
