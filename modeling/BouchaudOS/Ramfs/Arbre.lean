import BouchaudOS.Foundations.ParentForest
import BouchaudOS.Ramfs.Noeuds

/-!
# Well-formed trees

The node table is a tree when its used nodes climb to node 0 by their parents,
which are directories, and no directory holds two nodes of one name. A memfd is
its own parent and stays outside. Freeing a leaf, moving a node and exchanging
two nodes are studied here, whatever the operation that does it.
-/

namespace BouchaudOS.Ramfs.FileSystem

open Option Equiv Node

variable {ctx : Contexte} {fs fs' : FileSystem} {i j s c p : Idx} {n : List UInt8} {nom : Nom}
  {fs'' : FileSystem}

def parents (fs : FileSystem) : Idx → Idx := fun i => (fs.nodes i).parent

/-- `i` is a node of that name in `p`. -/
def Porte (fs : FileSystem) (p : Idx) (n : List UInt8) (i : Idx) : Prop :=
  (fs.nodes i).used = true ∧ fs.parents i = p ∧ (fs.nodes i).name.octets = n

def Remonte (fs : FileSystem) (i : Idx) : Prop := Climbs fs.parents 0 (fun _ => True) i

/-- The used nodes, memfds apart, are a tree of root 0. -/
structure BienForme (fs : FileSystem) : Prop where
  racineUtilisee : (fs.nodes 0).used = true
  racineDossier : (fs.nodes 0).kind = .dir
  racineParent : fs.parents 0 = 0
  remonte : ∀ i, (fs.nodes i).used = true → fs.estAnonyme i = false → fs.Remonte i
  parentUtilise : ∀ i, (fs.nodes i).used = true → fs.estAnonyme i = false →
    (fs.nodes (fs.parents i)).used = true
  parentDossier : ∀ i, (fs.nodes i).used = true → fs.estAnonyme i = false →
    (fs.nodes (fs.parents i)).kind = .dir
  noms : ∀ p n i j, fs.Porte p n i → fs.Porte p n j → i = j

/-- What a tree asks of each of its nodes. -/
theorem BienForme.of_noeuds (hu : (fs.nodes 0).used = true) (hd : (fs.nodes 0).kind = .dir)
    (hp : fs.parents 0 = 0)
    (h : ∀ i, (fs.nodes i).used = true → fs.estAnonyme i = false → fs.Remonte i ∧
      (fs.nodes (fs.parents i)).used = true ∧ (fs.nodes (fs.parents i)).kind = .dir)
    (hn : ∀ p n i j, fs.Porte p n i → fs.Porte p n j → i = j) : fs.BienForme :=
  ⟨hu, hd, hp, fun i hi ha => (h i hi ha).1, fun i hi ha => (h i hi ha).2.1,
    fun i hi ha => (h i hi ha).2.2, hn⟩

theorem findChild_eq_some : fs.findChild p n = some i ↔ fs.Porte p n i ∧ ∀ j < i, ¬fs.Porte p n j := by
  unfold findChild Porte parents
  simp [and_assoc]

theorem findChild_eq_none : fs.findChild p n = none ↔ ∀ i, ¬fs.Porte p n i := by
  unfold findChild Porte parents
  simp

theorem findChild_congr (h : ∀ i, fs'.Porte p n i ↔ fs.Porte p n i) :
    fs'.findChild p n = fs.findChild p n := by
  cases hf : fs.findChild p n with
  | none =>
    rw [findChild_eq_none] at hf ⊢
    exact fun i hi => hf i ((h i).mp hi)
  | some i =>
    rw [findChild_eq_some] at hf ⊢
    exact ⟨(h i).mpr hf.1, fun j hj hp => hf.2 j hj ((h j).mp hp)⟩

theorem isEmptyDir_iff : fs.isEmptyDir i = true ↔
    ∀ j, (fs.nodes j).used = true → j ≠ i → fs.parents j ≠ i := by
  unfold isEmptyDir parents
  simp

theorem estAnonyme_iff : fs.estAnonyme i = true ↔ i ≠ 0 ∧ (fs.nodes i).used = true ∧
    fs.parents i = i ∧ etiquetteMemfd <+: (fs.nodes i).name.octets := by
  unfold estAnonyme parents
  simp [and_assoc]

theorem BienForme.findChild_iff (h : fs.BienForme) : fs.findChild p n = some i ↔ fs.Porte p n i := by
  rw [findChild_eq_some]
  refine ⟨fun hi => hi.1, fun hi => ⟨hi, fun j hj hp => ?_⟩⟩
  exact absurd (h.noms p n j i hp hi) (Fin.ne_of_lt hj)

theorem Remonte.nonAnonyme (h : fs.Remonte i) : fs.estAnonyme i = false := by
  by_contra hne
  rw [Bool.not_eq_false, estAnonyme_iff] at hne
  exact hne.1 (h.eq_root_of_fixed hne.2.2.1)

def Dans (fs : FileSystem) (i : Idx) : Prop := (fs.nodes i).used = true ∧ fs.Remonte i

theorem BienForme.dans_racine (h : fs.BienForme) : fs.Dans 0 :=
  ⟨h.racineUtilisee, .root trivial⟩

theorem BienForme.dans_parent (h : fs.BienForme) (hi : fs.Dans i) : fs.Dans (fs.parents i) :=
  ⟨h.parentUtilise i hi.1 hi.2.nonAnonyme, hi.2.parent h.racineParent⟩

theorem Dans.enfant (hp : fs.Dans p) (hi : fs.Porte p n i) : fs.Dans i := by
  refine ⟨hi.1, .step trivial ?_⟩
  rw [hi.2.1]
  exact hp.2

theorem avance_of_checked (h : fs.avanceChecked ctx i n = .ok j) : fs.avance i n = some j := by
  unfold avanceChecked at h
  unfold avance
  split_ifs at h ⊢
  · exact congrArg some (Except.ok.inj h)
  · exact congrArg some (Except.ok.inj h)
  · split at h
    · rename_i hf
      rw [hf, Except.ok.inj h]
    · cases h

/-- A walk that passes the checks is the walk without them. -/
theorem resolve_of_checked (h : fs.resolveChecked ctx n i = .ok j) : fs.resolve n i = some j := by
  have hfold (comps : List (List UInt8)) (i : Idx) (h : comps.foldlM (fs.avanceChecked ctx) i = .ok j) :
      comps.foldlM fs.avance i = some j := by
    induction comps generalizing i with
    | nil => exact congrArg some (Except.ok.inj h)
    | cons comp comps ih =>
      rw [List.foldlM_cons] at h ⊢
      cases hk : fs.avanceChecked ctx i comp with
      | error e =>
        rw [hk] at h
        cases h
      | ok k =>
        rw [hk] at h
        rw [avance_of_checked hk]
        exact ih k h
  unfold resolveChecked at h
  unfold resolve
  split_ifs at h ⊢
  · exact congrArg some (Except.ok.inj h)
  · exact hfold _ _ h

theorem resolveParentName_of_checked {path : List UInt8}
    (h : fs.resolveParentNameChecked ctx path i = .ok (p, n)) : fs.resolveParentName path i = some (p, n) := by
  unfold resolveParentNameChecked at h
  unfold resolveParentName
  split at h
  · cases h
  · exact congrArg some (Except.ok.inj h)
  · exact congrArg some (Except.ok.inj h)
  · rename_i q m _
    cases hq : fs.resolveChecked ctx q i with
    | error e =>
      rw [hq] at h
      cases h
    | ok k =>
      rw [hq] at h
      cases h
      rw [resolve_of_checked hq]
      rfl

section

variable (h : fs.BienForme) (hi : fs.Dans i)

include h hi

theorem BienForme.dans_depart : fs.Dans (depart n i) := by
  unfold depart
  split
  · exact h.dans_racine
  · exact hi

theorem BienForme.dans_avance (hj : fs.avance i n = some j) : fs.Dans j := by
  unfold avance at hj
  split at hj
  · cases hj
    exact hi
  · split at hj
    · cases hj
      exact h.dans_parent hi
    · exact hi.enfant (h.findChild_iff.mp hj)

theorem BienForme.dans_foldlM {comps : List (List UInt8)}
    (hj : comps.foldlM fs.avance i = some j) : fs.Dans j := by
  induction comps generalizing i with
  | nil =>
    cases hj
    exact hi
  | cons comp comps ih =>
    rw [List.foldlM_cons, bind_eq_bind, bind_eq_some_iff] at hj
    obtain ⟨k, hk, hj⟩ := hj
    exact ih (h.dans_avance hi hk) hj

theorem BienForme.dans_resolve (hj : fs.resolve n i = some j) : fs.Dans j := by
  unfold resolve at hj
  split at hj
  · cases hj
    exact hi
  · exact h.dans_foldlM (h.dans_depart hi) hj

theorem BienForme.dans_resolveParentName
    {path : List UInt8} (hj : fs.resolveParentName path i = some (p, n)) : fs.Dans p := by
  unfold resolveParentName at hj
  split at hj
  · cases hj
  · cases hj
    exact hi
  · cases hj
    exact h.dans_racine
  · rw [map_eq_some_iff] at hj
    obtain ⟨q, hq, he⟩ := hj
    cases he
    exact h.dans_resolve hi hq

end

/-- The same tree, whatever the contents. -/
structure MemeArbre (fs fs' : FileSystem) : Prop where
  used_eq : ∀ i, (fs'.nodes i).used = (fs.nodes i).used
  kind_eq : ∀ i, (fs'.nodes i).kind = (fs.nodes i).kind
  parents_eq : fs'.parents = fs.parents
  name_eq : ∀ i, (fs'.nodes i).name = (fs.nodes i).name

namespace MemeArbre

theorem trans (h : MemeArbre fs fs') (h' : MemeArbre fs' fs'') : MemeArbre fs fs'' where
  used_eq i := (h'.used_eq i).trans (h.used_eq i)
  kind_eq i := (h'.kind_eq i).trans (h.kind_eq i)
  parents_eq := h'.parents_eq.trans h.parents_eq
  name_eq i := (h'.name_eq i).trans (h.name_eq i)

theorem porte_iff (h : MemeArbre fs fs') : fs'.Porte p n i ↔ fs.Porte p n i := by
  unfold Porte
  rw [h.used_eq, h.parents_eq, h.name_eq]

theorem estAnonyme_eq (h : MemeArbre fs fs') (i : Idx) : fs'.estAnonyme i = fs.estAnonyme i := by
  rw [Bool.eq_iff_iff, estAnonyme_iff, estAnonyme_iff, h.used_eq, h.parents_eq, h.name_eq]

theorem bienForme (h : MemeArbre fs fs') (hfs : fs.BienForme) : fs'.BienForme := by
  refine .of_noeuds ((h.used_eq 0).trans hfs.racineUtilisee) ((h.kind_eq 0).trans hfs.racineDossier) ?_
    (fun i hu ha => ?_) fun p n i j hi hj => hfs.noms p n i j (h.porte_iff.mp hi) (h.porte_iff.mp hj)
  · rw [h.parents_eq]
    exact hfs.racineParent
  · rw [h.used_eq] at hu
    rw [h.estAnonyme_eq] at ha
    rw [Remonte, h.parents_eq, h.used_eq, h.kind_eq]
    exact ⟨hfs.remonte i hu ha, hfs.parentUtilise i hu ha, hfs.parentDossier i hu ha⟩

end MemeArbre

def Meme (fs fs' : FileSystem) : Prop := ∀ i, (fs'.nodes i).sansDate = (fs.nodes i).sansDate

namespace Meme

theorem refl (fs : FileSystem) : Meme fs fs := fun _ => rfl

theorem trans (h : Meme fs fs') (h' : Meme fs' fs'') : Meme fs fs'' :=
  fun i => (h' i).trans (h i)

theorem symm (h : Meme fs fs') : Meme fs' fs := fun i => (h i).symm

theorem arbre (h : Meme fs fs') : MemeArbre fs fs' where
  used_eq i := (sansDate_eq_iff.mp (h i)).1
  kind_eq i := (sansDate_eq_iff.mp (h i)).2.1
  parents_eq := funext fun i => (sansDate_eq_iff.mp (h i)).2.2.1
  name_eq i := (sansDate_eq_iff.mp (h i)).2.2.2.1

end Meme

@[simp] theorem modifie_nodes_self (f : Node → Node) :
    (fs.modifie i f).nodes i = f (fs.nodes i) := Function.update_self ..

theorem modifie_nodes_of_ne (f : Node → Node) (h : j ≠ i) :
    (fs.modifie i f).nodes j = fs.nodes j := Function.update_of_ne h ..

/-- What the update of a node leaves alone. -/
theorem modifie_champ {β : Type*} {f : Node → Node} (g : Node → β) (h : ∀ n, g (f n) = g n) :
    g ((fs.modifie i f).nodes j) = g (fs.nodes j) := by
  by_cases hj : j = i
  · rw [hj, modifie_nodes_self, h]
  · rw [modifie_nodes_of_ne _ hj]

theorem modifie_modifie (f g : Node → Node) : (fs.modifie i f).modifie i g = fs.modifie i (g ∘ f) := by
  unfold modifie
  simp

theorem touche_meme (ctx : Contexte) (fs : FileSystem) (i : Idx) : Meme fs (fs.touche ctx i) := by
  intro j
  have h : ((fs.modifie i fun n => { n with mtime := ctx.unixTime }).nodes j).sansDate =
      (fs.nodes j).sansDate := modifie_champ sansDate fun _ => rfl
  unfold touche
  dsimp only
  split
  · exact h
  · exact h

theorem noteRacinePersistante_meme (fs : FileSystem) (i : Idx) :
    Meme fs (fs.noteRacinePersistante i) := fun _ => rfl

/-- Only the links above a node say whether it is persistent. -/
theorem sousPersistant_congr_of {P : Idx → Prop} (hr : fs'.racine = fs.racine)
    (h : ∀ i, P i → i ≠ 0 → fs'.parents i = fs.parents i ∧ P (fs.parents i)) (hi : P i) :
    fs'.sousPersistant i = fs.sousPersistant i := by
  have hremonte (r : Idx) (m : ℕ) : fs'.remonte r m i = fs.remonte r m i := by
    induction m generalizing i with
    | zero => rfl
    | succ m ih =>
      simp only [FileSystem.remonte]
      by_cases hi0 : i = 0
      · rw [if_pos hi0, if_pos hi0]
      · obtain ⟨he, hp⟩ := h i hi hi0
        rw [show (fs'.nodes i).parent = (fs.nodes i).parent from he, ih (i := (fs.nodes i).parent) hp]
  unfold sousPersistant
  rw [hr]
  cases fs.racine with
  | none => rfl
  | some r => exact hremonte r 64

theorem sousPersistant_congr (hr : fs'.racine = fs.racine) (h : fs'.parents = fs.parents) :
    fs'.sousPersistant = fs.sousPersistant :=
  funext fun _ => sousPersistant_congr_of (P := fun _ => True) hr (fun i _ _ => ⟨congrFun h i, trivial⟩) trivial

theorem sousPersistant_congr_of_climbs {P : Idx → Prop} (hr : fs'.racine = fs.racine)
    (h : Climbs fs.parents 0 P i) (he : ∀ j, P j → fs'.parents j = fs.parents j) :
    fs'.sousPersistant i = fs.sousPersistant i := by
  refine sousPersistant_congr_of (P := Climbs fs.parents 0 P) hr (fun j hj h0 => ?_) h
  cases hj with
  | root _ => exact absurd rfl h0
  | step hP hup => exact ⟨he j hP, hup⟩

/-- One modification is counted for each node of the list that is found below the
persistent root. -/
structure Note (fs fs' : FileSystem) (l : List Idx) : Prop where
  racine : fs'.racine = fs.racine
  generation : fs'.generation = fs.generation + UInt64.ofNat (l.countP fs.sousPersistant)

theorem Note.rien (hr : fs'.racine = fs.racine) (hg : fs'.generation = fs.generation) :
    Note fs fs' [] := ⟨hr, hg.trans (UInt64.add_zero _).symm⟩

theorem Note.trans {l l' : List Idx} (h : Note fs fs' l)
    (hp : fs'.parents = fs.parents) (h' : Note fs' fs'' l') : Note fs fs'' (l ++ l') where
  racine := h'.racine.trans h.racine
  generation := by
    rw [h'.generation, h.generation, sousPersistant_congr h.racine hp, List.countP_append,
      UInt64.ofNat_add, UInt64.add_assoc]

theorem noteModification_note (h : fs.sousPersistant i = true) : Note fs fs.noteModification [i] :=
  ⟨rfl, by rw [List.countP_singleton, h]; rfl⟩

theorem note_of_not_sousPersistant (h : ¬fs.sousPersistant i = true) : Note fs fs [i] :=
  ⟨rfl, by rw [List.countP_singleton, if_neg h]; exact (UInt64.add_zero _).symm⟩

theorem touche_note (ctx : Contexte) (fs : FileSystem) (i : Idx) : Note fs (fs.touche ctx i) [i] := by
  have hparents : (fs.modifie i fun n => { n with mtime := ctx.unixTime }).parents = fs.parents :=
    funext fun _ => modifie_champ parent fun _ => rfl
  have hmodifie : Note fs (fs.modifie i fun n => { n with mtime := ctx.unixTime }) [] := .rien rfl rfl
  unfold touche
  dsimp only
  split
  · rename_i h
    exact hmodifie.trans hparents (noteModification_note h)
  · rename_i h
    exact hmodifie.trans hparents (note_of_not_sousPersistant h)

theorem Note.congr {fs1 : FileSystem} {l : List Idx} (h : Note fs1 fs' l)
    (hr : fs1.racine = fs.racine) (hg : fs1.generation = fs.generation)
    (hl : ∀ x ∈ l, fs1.sousPersistant x = fs.sousPersistant x) : Note fs fs' l where
  racine := h.racine.trans hr
  generation := by
    rw [h.generation, hg, List.countP_congr fun x hx => by rw [hl x hx]]

/-- What an operation on the content of one node does. -/
structure Reecrit (fs fs' : FileSystem) (i : Idx) : Prop where
  arbre : MemeArbre fs fs'
  autres : ∀ j, j ≠ i → (fs'.nodes j).sansDate = (fs.nodes j).sansDate
  note : Note fs fs' [i]

theorem modifie_content_arbre (fs : FileSystem) (i : Idx) (f : Node → List UInt8) :
    MemeArbre fs (fs.modifie i fun m => { m with content := f m }) where
  used_eq _ := modifie_champ used fun _ => rfl
  kind_eq _ := modifie_champ kind fun _ => rfl
  parents_eq := funext fun _ => modifie_champ parent fun _ => rfl
  name_eq _ := modifie_champ name fun _ => rfl

theorem reecrit_touche (ctx : Contexte) (fs fs1 : FileSystem) (hnodes : fs1.nodes = fs.nodes)
    (hr : fs1.racine = fs.racine) (hg : fs1.generation = fs.generation) (f : Node → List UInt8) :
    Reecrit fs ((fs1.modifie i fun m => { m with content := f m }).touche ctx i) i := by
  have harbre1 : MemeArbre fs fs1 :=
    ⟨fun j => by rw [hnodes], fun j => by rw [hnodes], by unfold parents; rw [hnodes],
      fun j => by rw [hnodes]⟩
  have harbre := harbre1.trans (modifie_content_arbre fs1 i f)
  have hm := touche_meme ctx (fs1.modifie i fun m => { m with content := f m }) i
  refine ⟨harbre.trans hm.arbre, fun j hj => ?_, ?_⟩
  · rw [hm j, modifie_nodes_of_ne _ hj, hnodes]
  · have hrien : Note fs (fs1.modifie i fun m => { m with content := f m }) [] := .rien hr hg
    exact hrien.trans harbre.parents_eq (touche_note ctx _ i)

theorem writeNodeBytes_cases (ctx : Contexte) (fs : FileSystem) (i : Idx) (data : List UInt8) :
    (fs.writeNodeBytes ctx i data).2 = fs ∨ Reecrit fs (fs.writeNodeBytes ctx i data).2 i := by
  unfold writeNodeBytes
  split
  · exact .inl rfl
  · exact .inr (reecrit_touche ctx fs { fs with disque := Function.update fs.disque i false }
      rfl rfl rfl fun _ => data)

theorem appendNode_cases (ctx : Contexte) (fs : FileSystem) (i : Idx) (text : List UInt8) :
    fs.appendNode ctx i text = fs ∨ Reecrit fs (fs.appendNode ctx i text) i := by
  unfold appendNode
  split
  · exact .inl rfl
  · split
    · exact .inl rfl
    · exact .inr (reecrit_touche ctx fs fs rfl rfl rfl _)

def libre (fs : FileSystem) (c : Idx) : FileSystem :=
  fs.modifie c fun n => { n with used := false, content := [] }

theorem libre_parents : (fs.libre c).parents = fs.parents :=
  funext fun _ => modifie_champ parent fun _ => rfl

theorem libre_used : ((fs.libre c).nodes i).used = true ↔ i ≠ c ∧ (fs.nodes i).used = true := by
  unfold libre
  by_cases hi : i = c
  · subst hi
    simp
  · rw [modifie_nodes_of_ne _ hi]
    simp [hi]

theorem libre_nodes_of_ne (h : i ≠ c) : (fs.libre c).nodes i = fs.nodes i :=
  modifie_nodes_of_ne _ h

theorem libre_estAnonyme (h : i ≠ c) : (fs.libre c).estAnonyme i = fs.estAnonyme i := by
  unfold estAnonyme
  rw [libre_nodes_of_ne h]

theorem libre_porte : (fs.libre c).Porte p n i ↔ i ≠ c ∧ fs.Porte p n i := by
  unfold Porte
  rw [libre_used, libre_parents, and_assoc]
  by_cases hi : i = c
  · simp [hi]
  · rw [libre_nodes_of_ne hi]

/-- A node without children is freed: what remains is a tree. -/
theorem BienForme.libre (h : fs.BienForme) (hc : c ≠ 0)
    (hfeuille : ∀ j, (fs.nodes j).used = true → fs.estAnonyme j = false → fs.parents j ≠ c) :
    (fs.libre c).BienForme := by
  refine .of_noeuds (libre_used.mpr ⟨hc.symm, h.racineUtilisee⟩) ?_ ?_ (fun i hu ha => ?_)
    fun p n i j hi hj => h.noms p n i j (libre_porte.mp hi).2 (libre_porte.mp hj).2
  · rw [libre_nodes_of_ne hc.symm]
    exact h.racineDossier
  · rw [libre_parents]
    exact h.racineParent
  · obtain ⟨hi, hu⟩ := libre_used.mp hu
    rw [libre_estAnonyme hi] at ha
    have hf := hfeuille i hu ha
    rw [Remonte, libre_parents, libre_used, libre_nodes_of_ne hf]
    exact ⟨h.remonte i hu ha, ⟨hf, h.parentUtilise i hu ha⟩, h.parentDossier i hu ha⟩

theorem BienForme.feuille_of_file (h : fs.BienForme) (hc : (fs.nodes c).kind = .file) (j : Idx)
    (hu : (fs.nodes j).used = true) (ha : fs.estAnonyme j = false) : fs.parents j ≠ c := by
  intro he
  have hd := h.parentDossier j hu ha
  rw [he, hc] at hd
  cases hd

theorem BienForme.feuille_of_isEmptyDir (h : fs.BienForme) (hc : c ≠ 0)
    (he : fs.isEmptyDir c = true) (j : Idx) (hu : (fs.nodes j).used = true)
    (ha : fs.estAnonyme j = false) : fs.parents j ≠ c := by
  by_cases hj : j = c
  · subst hj
    exact fun hp => hc ((h.remonte j hu ha).eq_root_of_fixed hp)
  · exact isEmptyDir_iff.mp he j hu hj

theorem libereNoeud_meme (hc : c ≠ 0) (hu : (fs.nodes c).used = true) :
    Meme (fs.libre c) (fs.libereNoeud c) := by
  unfold libereNoeud
  rw [if_neg (by simp [hc, hu])]
  split
  · exact Meme.refl _
  · exact Meme.refl _

theorem libereNoeud_note (hc : c ≠ 0) (hu : (fs.nodes c).used = true) : Note fs (fs.libereNoeud c) [c] := by
  unfold libereNoeud
  rw [if_neg (by simp [hc, hu])]
  split
  · rename_i h
    exact ⟨rfl, (noteModification_note h).generation⟩
  · rename_i h
    exact ⟨rfl, (note_of_not_sousPersistant h).generation⟩

/-- The node `s` given another parent and name. -/
def pose (fs : FileSystem) (s p : Idx) (nom : Nom) : FileSystem :=
  fs.modifie s fun n => { n with parent := p, name := nom }

theorem pose_nodes_self : (fs.pose s p nom).nodes s = { fs.nodes s with parent := p, name := nom } :=
  modifie_nodes_self _

theorem pose_nodes_of_ne (h : i ≠ s) : (fs.pose s p nom).nodes i = fs.nodes i :=
  modifie_nodes_of_ne _ h

theorem pose_used : ((fs.pose s p nom).nodes i).used = (fs.nodes i).used :=
  modifie_champ used fun _ => rfl

theorem pose_kind : ((fs.pose s p nom).nodes i).kind = (fs.nodes i).kind :=
  modifie_champ kind fun _ => rfl

theorem pose_parents_self : (fs.pose s p nom).parents s = p := by
  unfold parents
  rw [pose_nodes_self]

theorem pose_parents_of_ne (h : i ≠ s) : (fs.pose s p nom).parents i = fs.parents i := by
  unfold parents
  rw [pose_nodes_of_ne h]

theorem pose_estAnonyme_of_ne (h : i ≠ s) : (fs.pose s p nom).estAnonyme i = fs.estAnonyme i := by
  unfold estAnonyme
  rw [pose_nodes_of_ne h]

/-- Siblings keep distinct names when one node takes a free place. -/
theorem BienForme.noms_of (h : fs.BienForme) (hlibre : ∀ i, i ≠ s → ¬fs.Porte p n i)
    (hporte : ∀ q m i, fs'.Porte q m i → i = s ∧ q = p ∧ m = n ∨ i ≠ s ∧ fs.Porte q m i)
    (q : Idx) (m : List UInt8) (i j : Idx) (hi : fs'.Porte q m i) (hj : fs'.Porte q m j) : i = j := by
  rcases hporte q m i hi with ⟨his, rfl, rfl⟩ | ⟨his, hi⟩
  · rcases hporte _ _ j hj with ⟨hjs, -, -⟩ | ⟨hjs, hj⟩
    · rw [his, hjs]
    · exact absurd hj (hlibre j hjs)
  · rcases hporte q m j hj with ⟨-, rfl, rfl⟩ | ⟨-, hj⟩
    · exact absurd hi (hlibre i his)
    · exact h.noms q m i j hi hj

theorem BienForme.noms_pose (h : fs.BienForme) (hlibre : ∀ i, i ≠ s → ¬fs.Porte p nom.octets i)
    (q : Idx) (n : List UInt8) (i j : Idx) (hi : (fs.pose s p nom).Porte q n i)
    (hj : (fs.pose s p nom).Porte q n j) : i = j := by
  refine h.noms_of hlibre (fun q m i hi => ?_) q n i j hi hj
  unfold Porte at hi ⊢
  by_cases his : i = s
  · subst his
    rw [pose_parents_self, pose_nodes_self] at hi
    exact .inl ⟨rfl, hi.2.1.symm, hi.2.2.symm⟩
  · rw [pose_parents_of_ne his, pose_nodes_of_ne his] at hi
    exact .inr ⟨his, hi⟩

/-- `p` can receive the node `s` under the name `n`: nothing was to move, or `s`
stays where it is, or `p` is a directory that is not below `s`. -/
def Recoit (fs : FileSystem) (s p : Idx) (n : List UInt8) : Prop :=
  (fs.nodes s).used = false ∨
    (p = fs.parents s ∧ (fs.estAnonyme s = true → etiquetteMemfd <+: n)) ∨
    ((fs.nodes p).used = true ∧ (fs.nodes p).kind = .dir ∧ Climbs fs.parents 0 (· ≠ s) p)

/-- A tree in which no node has left the tree to become a memfd. -/
def Garde (fs fs' : FileSystem) : Prop :=
  fs'.BienForme ∧ ∀ i, fs'.estAnonyme i = true → fs.estAnonyme i = true

theorem remonte_pose (hp : Climbs fs.parents 0 (· ≠ s) p) (hi : fs.Remonte i) :
    (fs.pose s p nom).Remonte i := by
  refine Climbs.relink (S := {s}) (fun y hy => pose_parents_of_ne hy) (fun y hy => ?_) hi
  rw [show y = s from hy, pose_parents_self]
  exact hp

theorem pose_estAnonyme_self : (fs.pose s p nom).estAnonyme s = true ↔
    s ≠ 0 ∧ (fs.nodes s).used = true ∧ p = s ∧ etiquetteMemfd <+: nom.octets := by
  rw [estAnonyme_iff, pose_used, pose_parents_self, pose_nodes_self]

/-- A node that moves into a directory of the tree, not below itself. -/
theorem BienForme.pose_dossier (h : fs.BienForme) (hlibre : ∀ i, i ≠ s → ¬fs.Porte p nom.octets i)
    (hu : (fs.nodes p).used = true) (hd : (fs.nodes p).kind = .dir)
    (hp : Climbs fs.parents 0 (· ≠ s) p) : (fs.pose s p nom).BienForme := by
  refine .of_noeuds (pose_used.trans h.racineUtilisee) (pose_kind.trans h.racineDossier)
    ((pose_parents_of_ne hp.holds_root).trans h.racineParent) (fun i hi ha => ?_) (h.noms_pose hlibre)
  rw [pose_used, pose_kind]
  by_cases his : i = s
  · subst his
    refine ⟨.step trivial ?_, ?_⟩
    · rw [pose_parents_self]
      exact remonte_pose hp (hp.mono fun _ _ => trivial)
    · rw [pose_parents_self]
      exact ⟨hu, hd⟩
  · rw [pose_used] at hi
    rw [pose_estAnonyme_of_ne his] at ha
    rw [pose_parents_of_ne his]
    exact ⟨remonte_pose hp (h.remonte i hi ha), h.parentUtilise i hi ha, h.parentDossier i hi ha⟩

/-- A node that keeps its parent, or that is not used, is only renamed. -/
theorem BienForme.pose_surPlace (h : fs.BienForme) (hlibre : ∀ i, i ≠ s → ¬fs.Porte p nom.octets i)
    (hp : (fs.nodes s).used = false ∨
      p = fs.parents s ∧ (fs.estAnonyme s = true → etiquetteMemfd <+: nom.octets)) :
    (fs.pose s p nom).BienForme := by
  -- the links of the used nodes do not change
  have hparents : ∀ i, (fs.nodes i).used = true → (fs.pose s p nom).parents i = fs.parents i := by
    intro i hi
    by_cases his : i = s
    · subst his
      rcases hp with hp | hp
      · rw [hp] at hi
        cases hi
      · rw [pose_parents_self, hp.1]
    · exact pose_parents_of_ne his
  have hanon : ∀ i, (fs.nodes i).used = true → (fs.pose s p nom).estAnonyme i = false →
      fs.estAnonyme i = false := by
    intro i hi ha
    by_cases his : i = s
    · subst his
      by_contra hne
      rw [Bool.not_eq_false] at hne
      obtain ⟨h0, -, hself, -⟩ := estAnonyme_iff.mp hne
      rcases hp with hp | hp
      · rw [hp] at hi
        cases hi
      · rw [pose_estAnonyme_self.mpr ⟨h0, hi, hp.1.trans hself, hp.2 hne⟩] at ha
        cases ha
    · rwa [pose_estAnonyme_of_ne his] at ha
  have hremonte : ∀ i, fs.Dans i → (fs.pose s p nom).Remonte i := by
    rintro i ⟨hi, hr⟩
    induction hr with
    | root _ => exact .root trivial
    | @step i _ hup ih =>
      refine .step trivial ?_
      rw [hparents i hi]
      exact ih (h.parentUtilise i hi (Remonte.nonAnonyme (.step trivial hup)))
  refine .of_noeuds (pose_used.trans h.racineUtilisee) (pose_kind.trans h.racineDossier)
    ((hparents 0 h.racineUtilisee).trans h.racineParent) (fun i hi ha => ?_) (h.noms_pose hlibre)
  rw [pose_used] at hi
  rw [pose_used, pose_kind, hparents i hi]
  have ha := hanon i hi ha
  exact ⟨hremonte i ⟨hi, h.remonte i hi ha⟩, h.parentUtilise i hi ha, h.parentDossier i hi ha⟩

/-- Moving a node to a free place keeps the tree exactly when the place can
receive it. -/
theorem BienForme.garde_pose_iff (h : fs.BienForme) (nom : Nom)
    (hlibre : ∀ i, ¬fs.Porte p nom.octets i) : fs.Garde (fs.pose s p nom) ↔ fs.Recoit s p nom.octets := by
  constructor
  · rintro ⟨hb, hanon⟩
    by_cases hu : (fs.nodes s).used = true
    · right
      by_cases ha : (fs.pose s p nom).estAnonyme s = true
      · obtain ⟨-, -, hself, -⟩ := estAnonyme_iff.mp (hanon s ha)
        obtain ⟨-, -, hps, hn⟩ := pose_estAnonyme_self.mp ha
        exact .inl ⟨hps.trans hself.symm, fun _ => hn⟩
      · rw [Bool.not_eq_true] at ha
        have hu' : ((fs.pose s p nom).nodes s).used = true := by rw [pose_used]; exact hu
        by_cases h0 : s = 0
        · subst h0
          left
          have hp0 := hb.racineParent
          refine ⟨hp0.trans h.racineParent.symm, fun ha0 => ?_⟩
          exact absurd rfl (estAnonyme_iff.mp ha0).1
        · right
          have hpu := hb.parentUtilise s hu' ha
          have hpd := hb.parentDossier s hu' ha
          have hclimb := (hb.remonte s hu' ha).above h0
          rw [pose_parents_self] at hpu hpd hclimb
          rw [pose_used] at hpu
          rw [pose_kind] at hpd
          refine ⟨hpu, hpd, ?_⟩
          exact (hclimb.congr fun y hy => (pose_parents_of_ne hy.2).symm).mono fun _ hy => hy.2
    · exact .inl (by rwa [Bool.not_eq_true] at hu)
  · intro hrec
    have hautres : ∀ i, i ≠ s → ¬fs.Porte p nom.octets i := fun i _ => hlibre i
    have hgarde : ((fs.pose s p nom).estAnonyme s = true → fs.estAnonyme s = true) →
        ∀ i, (fs.pose s p nom).estAnonyme i = true → fs.estAnonyme i = true := by
      intro hs i hi
      by_cases his : i = s
      · subst his
        exact hs hi
      · rwa [pose_estAnonyme_of_ne his] at hi
    rcases hrec with hu | hsur | ⟨hu, hd, hp⟩
    · refine ⟨h.pose_surPlace hautres (.inl hu), hgarde fun ha => ?_⟩
      rw [pose_estAnonyme_self, hu] at ha
      exact absurd ha.2.1 (by decide)
    · refine ⟨h.pose_surPlace hautres (.inr hsur), hgarde fun ha => ?_⟩
      obtain ⟨h0, hu, hps, -⟩ := pose_estAnonyme_self.mp ha
      by_contra hne
      rw [Bool.not_eq_true] at hne
      exact h0 ((h.remonte s hu hne).eq_root_of_fixed (hsur.1.symm.trans hps))
    · refine ⟨h.pose_dossier hautres hu hd hp, hgarde fun ha => ?_⟩
      obtain ⟨-, -, hps, -⟩ := pose_estAnonyme_self.mp ha
      exact absurd hps hp.holds

/-- The nodes `s` and `c` exchange their places. -/
def echange (fs : FileSystem) (s c : Idx) : FileSystem :=
  (fs.pose s (fs.parents c) (fs.nodes c).name).pose c (fs.parents s) (fs.nodes s).name

section

theorem echange_nodes_of_ne (hs : i ≠ s) (hc : i ≠ c) : (fs.echange s c).nodes i = fs.nodes i := by
  unfold echange
  rw [pose_nodes_of_ne hc, pose_nodes_of_ne hs]

theorem echange_used : ((fs.echange s c).nodes i).used = (fs.nodes i).used := by
  unfold echange
  rw [pose_used, pose_used]

theorem echange_kind : ((fs.echange s c).nodes i).kind = (fs.nodes i).kind := by
  unfold echange
  rw [pose_kind, pose_kind]

theorem used_swap (hs : (fs.nodes s).used = true) (hc : (fs.nodes c).used = true) (i : Idx) :
    (fs.nodes (swap s c i)).used = (fs.nodes i).used := by
  by_cases his : i = s
  · rw [his, swap_apply_left, hs, hc]
  · by_cases hic : i = c
    · rw [hic, swap_apply_right, hs, hc]
    · rw [swap_apply_of_ne_of_ne his hic]

variable (hsc : s ≠ c)

include hsc

theorem echange_nodes_gauche : (fs.echange s c).nodes s =
    { fs.nodes s with parent := fs.parents c, name := (fs.nodes c).name } := by
  unfold echange
  rw [pose_nodes_of_ne hsc, pose_nodes_self]

theorem echange_nodes_droite : (fs.echange s c).nodes c =
    { fs.nodes c with parent := fs.parents s, name := (fs.nodes s).name } := by
  unfold echange
  rw [pose_nodes_self, pose_nodes_of_ne hsc.symm]

theorem echange_place (i : Idx) : (fs.echange s c).parents i = fs.parents (swap s c i) ∧
    ((fs.echange s c).nodes i).name = (fs.nodes (swap s c i)).name := by
  unfold parents
  by_cases his : i = s
  · subst his
    rw [echange_nodes_gauche hsc, swap_apply_left]
    exact ⟨rfl, rfl⟩
  · by_cases hic : i = c
    · subst hic
      rw [echange_nodes_droite hsc, swap_apply_right]
      exact ⟨rfl, rfl⟩
    · rw [echange_nodes_of_ne his hic, swap_apply_of_ne_of_ne his hic]
      exact ⟨rfl, rfl⟩

theorem echange_parents_of_ne (hs : i ≠ s) (hc : i ≠ c) : (fs.echange s c).parents i = fs.parents i := by
  rw [(echange_place hsc i).1, swap_apply_of_ne_of_ne hs hc]

theorem echange_porte (hs : (fs.nodes s).used = true) (hc : (fs.nodes c).used = true) {q : Idx} :
    (fs.echange s c).Porte q n i ↔ fs.Porte q n (swap s c i) := by
  unfold Porte
  rw [echange_used, (echange_place hsc i).1, (echange_place hsc i).2, used_swap hs hc]

/-- Two nodes of the tree, neither above the place of the other. -/
theorem BienForme.echange (h : fs.BienForme) (hs : fs.Dans s) (hc : fs.Dans c) (hs0 : s ≠ 0)
    (hc0 : c ≠ 0) (hsous : Climbs fs.parents 0 (· ≠ s) (fs.parents c))
    (hsous' : Climbs fs.parents 0 (· ≠ c) (fs.parents s)) : (fs.echange s c).BienForme := by
  have hremonte : ∀ i, fs.Remonte i → (fs.echange s c).Remonte i := by
    refine fun i => Climbs.relink (S := {s, c}) (fun y hy => ?_) (fun y hy => ?_)
    · exact echange_parents_of_ne hsc (fun e => hy (.inl e)) (fun e => hy (.inr e))
    · have hors : ∀ {x : Idx}, Climbs fs.parents 0 (· ≠ s) x → Climbs fs.parents 0 (· ≠ c) x →
          Climbs fs.parents 0 (· ∉ ({s, c} : Set Idx)) x := fun h1 h2 =>
        (h1.and h2).mono fun z hz hm => hm.elim hz.1 hz.2
      rcases hy with rfl | hy
      · rw [(echange_place hsc _).1, swap_apply_left]
        exact hors hsous ((hc.2.above hc0).mono fun _ hz => hz.2)
      · rw [show y = c from hy, (echange_place hsc _).1, swap_apply_right]
        exact hors ((hs.2.above hs0).mono fun _ hz => hz.2) hsous'
  have hanon : ∀ i, (fs.nodes i).used = true → (fs.echange s c).estAnonyme i = false →
      fs.estAnonyme (swap s c i) = false ∧ fs.estAnonyme i = false := by
    intro i hi ha
    by_cases his : i = s
    · rw [his, swap_apply_left]
      exact ⟨hc.2.nonAnonyme, hs.2.nonAnonyme⟩
    · by_cases hic : i = c
      · rw [hic, swap_apply_right]
        exact ⟨hs.2.nonAnonyme, hc.2.nonAnonyme⟩
      · unfold estAnonyme at ha ⊢
        rw [echange_nodes_of_ne his hic] at ha
        rw [swap_apply_of_ne_of_ne his hic]
        exact ⟨ha, ha⟩
  have h0 : swap s c 0 = 0 := swap_apply_of_ne_of_ne hs0.symm hc0.symm
  refine .of_noeuds (echange_used.trans h.racineUtilisee) (echange_kind.trans h.racineDossier) ?_
    (fun i hi ha => ?_) fun q n i j hi hj => ?_
  · rw [(echange_place hsc 0).1, h0]
    exact h.racineParent
  · rw [echange_used] at hi
    obtain ⟨ha', ha⟩ := hanon i hi ha
    rw [echange_used, echange_kind, (echange_place hsc i).1]
    rw [← used_swap hs.1 hc.1] at hi
    exact ⟨hremonte i (h.remonte i (by rwa [used_swap hs.1 hc.1] at hi) ha), h.parentUtilise _ hi ha',
      h.parentDossier _ hi ha'⟩
  · rw [echange_porte hsc hs.1 hc.1] at hi hj
    exact (swap s c).injective (h.noms q n _ _ hi hj)

end

/-- The table with a new node `i` in `p`. -/
def nouveau (ctx : Contexte) (fs : FileSystem) (kind : NodeKind) (mode : UInt16) (i p : Idx)
    (nom : Nom) : FileSystem :=
  fs.modifie i fun _ => ⟨true, kind, p, nom, [], mode, ctx.uid, ctx.gid, ctx.unixTime⟩

variable {kind : NodeKind} {mode : UInt16}

theorem allocNode_eq_some (h : fs.allocNode ctx = some (i, fs')) :
    i ≠ 0 ∧ (fs.nodes i).used = false ∧
      fs' = fs.modifie i fun _ => { empty with used := true, mtime := ctx.unixTime } := by
  unfold allocNode at h
  rw [map_eq_some_iff] at h
  obtain ⟨j, hj, he⟩ := h
  cases he
  have hp := (Fin.find?_eq_some_iff.mp hj).1
  simp only [ne_eq, decide_not, Bool.and_eq_true, Bool.not_eq_eq_eq_not, Bool.not_true,
    decide_eq_false_iff_not] at hp
  exact ⟨hp.1, hp.2, rfl⟩

/-- A creation that succeeds adds one node and touches its parent. -/
theorem cree_eq_ok (h : fs.cree ctx kind mode p n = .ok (i, fs')) :
    ∃ nom : Nom, n ≠ [] ∧ nom.octets = n ∧ i ≠ 0 ∧ (fs.nodes i).used = false ∧
      fs' = (fs.nouveau ctx kind mode i p nom).touche ctx p := by
  unfold cree at h
  cases hnom : Nom.lit n with
  | none =>
    rw [hnom] at h
    cases h
  | some nom =>
    rw [hnom] at h
    cases halloc : fs.allocNode ctx with
    | none =>
      rw [halloc] at h
      cases h
    | some r =>
      rw [halloc] at h
      obtain ⟨h0, hu, hfs⟩ := allocNode_eq_some halloc
      obtain ⟨hne, hoct⟩ := Nom.lit_eq_some.mp hnom
      obtain ⟨rfl, rfl⟩ := h
      refine ⟨nom, hne, hoct, h0, hu, ?_⟩
      rw [hfs, modifie_modifie]
      rfl

theorem mkdirAt_eq_ok (h : fs.mkdirAt ctx p n = .ok (i, fs')) :
    (fs.nodes p).kind = .dir ∧ fs.findChild p n = none ∧ fs.cree ctx .dir 0o755 p n = .ok (i, fs') := by
  unfold mkdirAt at h
  split at h
  · cases h
  rename_i hd
  split at h
  · cases h
  rename_i hlibre
  exact ⟨not_not.mp hd, not_isSome_iff_eq_none.mp hlibre, h⟩

theorem mkdirAt_of_libre (hd : (fs.nodes p).kind = .dir) (hlibre : fs.findChild p n = none) :
    fs.mkdirAt ctx p n = fs.cree ctx .dir 0o755 p n := by
  unfold mkdirAt
  rw [if_neg (not_not.mpr hd), hlibre]
  rfl

theorem touchAt_of_libre (hd : (fs.nodes p).kind = .dir) (hlibre : fs.findChild p n = none) :
    fs.touchAt ctx p n = fs.cree ctx .file 0o644 p n := by
  unfold touchAt
  rw [if_neg (not_not.mpr hd), hlibre]

theorem touchAt_eq_ok (h : fs.touchAt ctx p n = .ok (i, fs')) (hlibre : fs.findChild p n = none) :
    (fs.nodes p).kind = .dir ∧ fs.cree ctx .file 0o644 p n = .ok (i, fs') := by
  have hd : (fs.nodes p).kind = .dir := by
    by_contra hne
    unfold touchAt at h
    rw [if_pos hne] at h
    cases h
  exact ⟨hd, (touchAt_of_libre hd hlibre).symm.trans h⟩

theorem exists_cree (hn : Nom.Acceptable n) (hi : i ≠ 0) (hu : (fs.nodes i).used = false) :
    ∃ r, fs.cree ctx kind mode p n = .ok r := by
  have halloc : ∃ r, fs.allocNode ctx = some r := by
    unfold allocNode
    cases hf : Fin.find? fun i => decide (i ≠ 0) && !(fs.nodes i).used with
    | none =>
      have := Fin.find?_eq_none_iff.mp hf i
      simp [hi, hu] at this
    | some j => exact ⟨_, rfl⟩
  obtain ⟨r, hr⟩ := halloc
  unfold cree
  have hlit : Nom.lit n = some ⟨n, hn.2⟩ := Nom.lit_eq_some.mpr ⟨hn.1, rfl⟩
  rw [hlit, hr]
  exact ⟨_, rfl⟩

theorem nouveau_nodes_self : (fs.nouveau ctx kind mode i p nom).nodes i =
    ⟨true, kind, p, nom, [], mode, ctx.uid, ctx.gid, ctx.unixTime⟩ := modifie_nodes_self _

theorem nouveau_nodes_of_ne (h : j ≠ i) :
    (fs.nouveau ctx kind mode i p nom).nodes j = fs.nodes j := modifie_nodes_of_ne _ h

theorem nouveau_parents_of_ne (h : j ≠ i) : (fs.nouveau ctx kind mode i p nom).parents j = fs.parents j := by
  unfold parents
  rw [nouveau_nodes_of_ne h]

theorem nouveau_porte {q : Idx} : (fs.nouveau ctx kind mode i p nom).Porte q n j ↔
    j = i ∧ q = p ∧ n = nom.octets ∨ j ≠ i ∧ fs.Porte q n j := by
  unfold Porte parents
  by_cases hj : j = i
  · subst hj
    rw [nouveau_nodes_self]
    constructor
    · rintro ⟨-, hq, hn⟩
      exact .inl ⟨rfl, hq.symm, hn.symm⟩
    · rintro (⟨-, hq, hn⟩ | ⟨hne, -⟩)
      · exact ⟨rfl, hq.symm, hn.symm⟩
      · exact absurd rfl hne
  · rw [nouveau_nodes_of_ne hj]
    simp [hj]

theorem BienForme.climbs_used (h : fs.BienForme) (hi : fs.Dans i) :
    Climbs fs.parents 0 (fun j => (fs.nodes j).used = true) i := by
  obtain ⟨hu, hr⟩ := hi
  induction hr with
  | root _ => exact .root hu
  | step _ hup ih =>
    have hr : fs.Remonte _ := .step trivial hup
    exact .step hu (ih (h.parentUtilise _ hu hr.nonAnonyme))

theorem BienForme.climbs_ne (h : fs.BienForme) (hp : fs.Dans p)
    (hi : (fs.nodes i).used = false) : Climbs fs.parents 0 (· ≠ i) p :=
  (h.climbs_used hp).mono fun j hj he => by
    rw [he, hi] at hj
    cases hj

/-- A new node in a directory of the tree, under a name that is free there. -/
theorem BienForme.nouveau (h : fs.BienForme) (h0 : i ≠ 0) (hi : (fs.nodes i).used = false)
    (hp : fs.Dans p) (hd : (fs.nodes p).kind = .dir) (hlibre : ∀ j, ¬fs.Porte p nom.octets j) :
    (fs.nouveau ctx kind mode i p nom).BienForme := by
  have hpi : p ≠ i := (h.climbs_ne hp hi).holds
  have hremonte : ∀ j, fs.Remonte j → (fs.nouveau ctx kind mode i p nom).Remonte j := by
    refine fun j => Climbs.relink (S := {i}) (fun y hy => nouveau_parents_of_ne hy) fun y hy => ?_
    rw [show y = i from hy, parents, nouveau_nodes_self]
    exact h.climbs_ne hp hi
  have hanon : ∀ j, j ≠ i → (fs.nouveau ctx kind mode i p nom).estAnonyme j = fs.estAnonyme j := by
    intro j hj
    unfold estAnonyme
    rw [nouveau_nodes_of_ne hj]
  -- no used node was waiting below a free one
  have hparent : ∀ j, (fs.nodes j).used = true → fs.estAnonyme j = false → fs.parents j ≠ i := by
    intro j hj ha he
    have hu := h.parentUtilise j hj ha
    rw [he, hi] at hu
    cases hu
  have hself : (fs.nouveau ctx kind mode i p nom).parents i = p := by
    rw [parents, nouveau_nodes_self]
  have hracine : (fs.nouveau ctx kind mode i p nom).nodes 0 = fs.nodes 0 :=
    nouveau_nodes_of_ne h0.symm
  refine .of_noeuds (hracine ▸ h.racineUtilisee) (hracine ▸ h.racineDossier)
    ((nouveau_parents_of_ne h0.symm).trans h.racineParent) (fun j hj ha => ?_)
    (h.noms_of (fun j _ => hlibre j) fun _ _ _ => nouveau_porte.mp)
  by_cases hji : j = i
  · refine ⟨.step trivial ?_, ?_⟩
    · rw [hji, hself]
      exact hremonte p hp.2
    · rw [hji, hself, nouveau_nodes_of_ne hpi]
      exact ⟨hp.1, hd⟩
  · rw [nouveau_nodes_of_ne hji] at hj
    rw [hanon j hji] at ha
    rw [nouveau_parents_of_ne hji, nouveau_nodes_of_ne (hparent j hj ha)]
    exact ⟨hremonte j (h.remonte j hj ha), h.parentUtilise j hj ha, h.parentDossier j hj ha⟩

/-- The table of `init` when it holds the root only. -/
def vierge : FileSystem where
  nodes i := if i = 0 then { empty with used := true, kind := .dir, mode := 0o755 } else .empty
  disque _ := false
  racine := none
  generation := 0

theorem vierge_nodes_of_ne (h : i ≠ 0) : vierge.nodes i = .empty := if_neg h

theorem vierge_used (h : (vierge.nodes i).used = true) : i = 0 := by
  by_contra hne
  rw [vierge_nodes_of_ne hne] at h
  cases h

theorem vierge_bienForme : vierge.BienForme := by
  refine .of_noeuds rfl rfl rfl (fun i hi _ => ?_) fun _ _ i j hi hj => (vierge_used hi.1).trans (vierge_used hj.1).symm
  rw [vierge_used hi]
  exact ⟨.root trivial, rfl, rfl⟩

theorem vierge_porte {q : Idx} : vierge.Porte q n i ↔ i = 0 ∧ q = 0 ∧ n = [] := by
  constructor
  · rintro ⟨hu, hp, hn⟩
    obtain rfl := vierge_used hu
    exact ⟨rfl, hp.symm, hn.symm⟩
  · rintro ⟨rfl, rfl, rfl⟩
    exact ⟨rfl, rfl, rfl⟩

theorem vierge_nouveau_bienForme (ctx : Contexte) (kind : NodeKind) (mode : UInt16) (hi : i ≠ 0)
    (hne : nom ≠ .vide) : (vierge.nouveau ctx kind mode i 0 nom).BienForme :=
  vierge_bienForme.nouveau hi (by rw [vierge_nodes_of_ne hi]; rfl) vierge_bienForme.dans_racine rfl fun _ hj =>
    hne (Nom.ext_octets (vierge_porte.mp hj).2.2)

end BouchaudOS.Ramfs.FileSystem
