import BouchaudOS.Persist.Zone
import BouchaudOS.Ramfs.Chemins

/-!
# Mounting the persistent tree

A mount finds or creates `/persist`, reads the zone and deposits what it holds,
one entry after the other: a directory is created, a file is created and filled,
and each gets its metadata. As long as free nodes last and every entry comes
after its directory, the tree below the root shows exactly what was deposited.
-/

def BouchaudOS.Persist.Lue.chemin : BouchaudOS.Persist.Lue → BouchaudOS.Chaine
  | .dossier c _ => c
  | .fichier c _ _ => c

namespace BouchaudOS.Ramfs

open List Function Option Finset Node

open Persist (Meta Lue)

namespace FileSystem

variable (ctx : Contexte)

/-- The child that was found, or else the one that was created. -/
def trouveOuCree (fs : FileSystem) : Option Idx → Except Erreur (Idx × FileSystem) → Option (Idx × FileSystem)
  | some i, _ => some (i, fs)
  | none, .ok r => some r
  | none, .error _ => none

/-- `depose_noeud_sous_garde`, from the components on. -/
def deposeNoeud (contenu : List UInt8) : FileSystem → Idx → List (List UInt8) → Option Idx × FileSystem
  | fs, _, [] => (none, fs)
  | fs, parent, [morceau] =>
    match fs.trouveOuCree (fs.findChild parent morceau) (fs.touchAt ctx parent morceau) with
    | none => (none, fs)
    | some (noeud, fs) =>
      let r := fs.writeNodeBytes ctx noeud contenu
      (if r.1 then some noeud else none, r.2)
  | fs, parent, morceau :: suivant :: morceaux =>
    match fs.trouveOuCree (fs.findChild parent morceau) (fs.mkdirAt ctx parent morceau) with
    | none => (none, fs)
    | some (i, fs) => deposeNoeud contenu fs i (suivant :: morceaux)

/-- A child of that name that is a file stops the descent. -/
def descend (fs : FileSystem) : Option Idx → Except Erreur (Idx × FileSystem) → Option (Idx × FileSystem)
  | some i, _ => if (fs.nodes i).kind = .dir then some (i, fs) else none
  | none, .ok r => some r
  | none, .error _ => none

/-- `dossier_sous_garde`, from the components on. -/
def dossierSousGarde (racine : Idx) : FileSystem → Idx → List (List UInt8) → Option Idx × FileSystem
  | fs, parent, [] => (if parent ≠ racine then some parent else none, fs)
  | fs, parent, morceau :: morceaux =>
    match fs.descend (fs.findChild parent morceau) (fs.mkdirAt ctx parent morceau) with
    | none => (none, fs)
    | some (i, fs) => dossierSousGarde racine fs i morceaux

def poseMeta (fs : FileSystem) (i : Idx) (m : Meta) : FileSystem :=
  fs.modifie i fun n => { n with mode := m.mode, uid := m.uid, gid := m.gid }

/-- One entry: was it restored? -/
def restaureLue (racine : Idx) (fs : FileSystem) : Lue → Bool × FileSystem
  | .dossier chemin m =>
    match dossierSousGarde ctx racine fs racine (composants chemin.octets) with
    | (none, fs) => (false, fs)
    | (some i, fs) => (true, fs.poseMeta i m)
  | .fichier chemin m contenu =>
    match deposeNoeud ctx contenu fs racine (composants chemin.octets) with
    | (none, fs) => (false, fs)
    | (some i, fs) => (true, (m.map (fs.poseMeta i)).getD fs)

/-- The number of entries restored, and the table. -/
def restaureLues (racine : Idx) : List Lue → FileSystem → ℕ × FileSystem
  | [], fs => (0, fs)
  | lue :: lues, fs =>
    let r := fs.restaureLue ctx racine lue
    let r' := restaureLues racine lues r.2
    (r'.1 + if r.1 then 1 else 0, r'.2)

/-- `monte`. -/
def monte (m : Materiel) (fs : FileSystem) (s : Persist.Etat) : ProgBloc ((ℕ × FileSystem) × Persist.Etat) :=
  match fs.trouveOuCree (fs.resolve cheminPersist 0) (fs.mkdirAt ctx 0 nomPersist) with
  | none => pure ((0, fs), s.oublieLeDisque)
  | some (racine, fs) =>
    match Persist.debut m with
    | none => pure ((0, fs), s.oublieLeDisque)
    | some base => do
      let (lues, s) ← Persist.releveZone base s
      pure (restaureLues ctx racine lues (fs.noteRacinePersistante racine), s)

variable {ctx : Contexte} {fs fs' fs₁ : FileSystem} {r d i x : Idx} {n : List UInt8}
  {cs cs₀ : List (List UInt8)} {kind : NodeKind} {mode : UInt16} (contenu : List UInt8)

/-- The table was extended: the old nodes keep their places, and the new ones have
names that a snapshot keeps. -/
structure Etend (fs₁ fs : FileSystem) : Prop where
  utilise : ∀ i, (fs₁.nodes i).used = true → (fs.nodes i).used = true
  parent : ∀ i, (fs₁.nodes i).used = true → fs.parents i = fs₁.parents i
  sains : ∀ i, (fs₁.nodes i).used = false → (fs.nodes i).used = true → NomSain (fs.nodes i).name.octets

theorem Etend.refl (fs : FileSystem) : Etend fs fs where
  utilise _ hu := hu
  parent _ _ := rfl
  sains i hu hu' := by
    rw [hu] at hu'
    cases hu'

theorem Etend.arbre (h : Etend fs₁ fs) (ha : MemeArbre fs fs') : Etend fs₁ fs' where
  utilise i hu := (ha.used_eq i).trans (h.utilise i hu)
  parent i hu := (congrFun ha.parents_eq i).trans (h.parent i hu)
  sains i hu hu' := by
    rw [ha.name_eq]
    exact h.sains i hu ((ha.used_eq i).symm.trans hu')

theorem Etend.cree (h : Etend fs₁ fs) (hn : NomSain n)
    (hc : fs.cree ctx kind mode d n = .ok (i, fs')) : Etend fs₁ fs' := by
  obtain ⟨nom, -, hnom, -, hu, rfl⟩ := cree_eq_ok hc
  have hne : ∀ j, (fs₁.nodes j).used = true → j ≠ i := by
    rintro j hj rfl
    rw [h.utilise j hj] at hu
    cases hu
  have hnouveau : Etend fs₁ (fs.nouveau ctx kind mode i d nom) := by
    refine ⟨fun j hj => ?_, fun j hj => ?_, fun j hj hj' => ?_⟩
    · rw [nouveau_nodes_of_ne (hne j hj)]
      exact h.utilise j hj
    · rw [nouveau_parents_of_ne (hne j hj)]
      exact h.parent j hj
    · by_cases hji : j = i
      · rw [hji, nouveau_nodes_self]
        exact hnom ▸ hn
      · rw [nouveau_nodes_of_ne hji] at hj' ⊢
        exact h.sains j hj hj'
  exact hnouveau.arbre (touche_meme ctx _ d).arbre

theorem BienForme.not_porte_libre (h : fs.BienForme) (hi : (fs.nodes i).used = false) : ¬fs.Porte i n x := by
  rintro ⟨hu, hp, -⟩
  cases ha : fs.estAnonyme x with
  | false =>
    have hu' := h.parentUtilise x hu ha
    rw [hp, hi] at hu'
    cases hu'
  | true =>
    rw [← hp, (estAnonyme_iff.mp ha).2.2.1, hu] at hi
    cases hi

theorem poseMeta_arbre (fs : FileSystem) (i : Idx) (m : Meta) : MemeArbre fs (fs.poseMeta i m) where
  used_eq _ := modifie_champ used fun _ => rfl
  kind_eq _ := modifie_champ kind fun _ => rfl
  parents_eq := funext fun _ => modifie_champ parent fun _ => rfl
  name_eq _ := modifie_champ name fun _ => rfl

theorem writeNodeBytes_arbre (ctx : Contexte) (fs : FileSystem) (i : Idx) (data : List UInt8) :
    MemeArbre fs (fs.writeNodeBytes ctx i data).2 := by
  rcases writeNodeBytes_cases ctx fs i data with he | he
  · rw [he]
    exact (Meme.refl fs).arbre
  · exact he.arbre

section

variable (h : Etend fs₁ fs) (racine : Idx)

include h

theorem Etend.trouveOuCree (hn : NomSain n) {creation : Except Erreur (Idx × FileSystem)}
    (hc : ∀ i fs', fs.findChild d n = none → creation = .ok (i, fs') →
      ∃ kind mode, fs.cree ctx kind mode d n = .ok (i, fs'))
    (hr : fs.trouveOuCree (fs.findChild d n) creation = some (i, fs')) : Etend fs₁ fs' := by
  cases hf : fs.findChild d n with
  | some j =>
    rw [hf] at hr
    cases hr
    exact h
  | none =>
    rw [hf] at hr
    cases hcr : creation with
    | error e =>
      rw [hcr] at hr
      cases hr
    | ok res =>
      rw [hcr] at hr
      cases hr
      obtain ⟨kind, mode, hcree⟩ := hc _ _ hf hcr
      exact h.cree hn hcree

theorem Etend.deposeNoeud (hcs : ∀ m ∈ cs, NomSain m) : Etend fs₁ (deposeNoeud ctx contenu fs d cs).2 := by
  induction cs generalizing fs d with
  | nil => exact h
  | cons m cs ih =>
    cases cs with
    | nil =>
      rw [deposeNoeud]
      cases hr : fs.trouveOuCree (fs.findChild d m) (fs.touchAt ctx d m) with
      | none => exact h
      | some res =>
        have hres : Etend fs₁ res.2 := h.trouveOuCree (hcs m mem_cons_self)
          (fun i fs' hlibre hok => ⟨_, _, (touchAt_eq_ok hok hlibre).2⟩) hr
        exact hres.arbre (writeNodeBytes_arbre ctx res.2 res.1 contenu)
    | cons m' cs =>
      rw [deposeNoeud]
      cases hr : fs.trouveOuCree (fs.findChild d m) (fs.mkdirAt ctx d m) with
      | none => exact h
      | some res =>
        have hres : Etend fs₁ res.2 := h.trouveOuCree (hcs m mem_cons_self)
          (fun i fs' _ hok => ⟨_, _, (mkdirAt_eq_ok hok).2.2⟩) hr
        exact ih hres fun k hk => hcs k (mem_cons_of_mem _ hk)

theorem Etend.dossierSousGarde (hcs : ∀ m ∈ cs, NomSain m) :
    Etend fs₁ (dossierSousGarde ctx racine fs d cs).2 := by
  induction cs generalizing fs d with
  | nil => exact h
  | cons m cs ih =>
    have hsuite : ∀ k ∈ cs, NomSain k := fun k hk => hcs k (mem_cons_of_mem _ hk)
    rw [dossierSousGarde]
    cases hr : fs.descend (fs.findChild d m) (fs.mkdirAt ctx d m) with
    | none => exact h
    | some res =>
      cases hf : fs.findChild d m with
      | some j =>
        rw [hf, descend] at hr
        split at hr
        · cases hr
          exact ih h hsuite
        · cases hr
      | none =>
        cases hc : fs.mkdirAt ctx d m with
        | error e =>
          rw [hf, hc] at hr
          cases hr
        | ok res' =>
          rw [hf, hc] at hr
          cases hr
          exact ih (h.cree (hcs m mem_cons_self) (mkdirAt_eq_ok hc).2.2) hsuite

theorem Etend.restaureLue (lue : Lue) (hl : ∀ m ∈ composants lue.chemin.octets, NomSain m) :
    Etend fs₁ (fs.restaureLue ctx racine lue).2 := by
  cases lue with
  | dossier chemin m =>
    have hd : Etend fs₁ (FileSystem.dossierSousGarde ctx racine fs racine (composants chemin.octets)).2 :=
      h.dossierSousGarde racine hl
    rw [FileSystem.restaureLue]
    generalize FileSystem.dossierSousGarde ctx racine fs racine (composants chemin.octets) = res at hd ⊢
    obtain ⟨_ | i, fs'⟩ := res
    · exact hd
    · exact hd.arbre (poseMeta_arbre fs' i m)
  | fichier chemin m contenu =>
    have hd : Etend fs₁ (FileSystem.deposeNoeud ctx contenu fs racine (composants chemin.octets)).2 :=
      h.deposeNoeud contenu hl
    rw [FileSystem.restaureLue]
    generalize FileSystem.deposeNoeud ctx contenu fs racine (composants chemin.octets) = res at hd ⊢
    obtain ⟨_ | i, fs'⟩ := res
    · exact hd
    · cases m with
      | none => exact hd
      | some m => exact hd.arbre (poseMeta_arbre fs' i m)

theorem Etend.restaureLues {lues : List Lue}
    (hl : ∀ lue ∈ lues, ∀ m ∈ composants lue.chemin.octets, NomSain m) :
    Etend fs₁ (restaureLues ctx racine lues fs).2 := by
  induction lues generalizing fs with
  | nil => exact h
  | cons lue lues ih =>
    exact ih (h.restaureLue racine lue (hl lue mem_cons_self)) fun l hlm =>
      hl l (mem_cons_of_mem _ hlm)

theorem Etend.sain_of_suit (h1 : fs₁.BienForme) (hvide : ∀ i, i ∉ fs₁.enfants r)
    (hr : fs₁.Dans r) (hr0 : r ≠ 0) (hx : fs.suit r cs = some x) : ∀ m ∈ cs, NomSain m := by
  -- a node below the start is new: an old one would be an old child of the root, or of a free node
  have hneuf : ∀ (y i : Idx) (m : List UInt8), y = r ∨ (fs₁.nodes y).used = false →
      fs.findChild y m = some i → (fs₁.nodes i).used = false ∧ NomSain m := by
    intro y i m hy hi
    obtain ⟨hu, hp, hn⟩ := (findChild_eq_some.mp hi).1
    have hlibre : (fs₁.nodes i).used = false := by
      by_contra hne
      rw [Bool.not_eq_false] at hne
      have hp1 := (h.parent i hne).symm.trans hp
      rcases hy with rfl | hy
      · refine hvide i (mem_enfants.mpr ⟨hne, hp1, ?_⟩)
        rintro rfl
        exact hr0 (hr.2.eq_root_of_fixed hp1)
      · exact h1.not_porte_libre hy ⟨hne, hp1, rfl⟩
    exact ⟨hlibre, hn ▸ h.sains i hlibre hu⟩
  have hgen : ∀ (cs : List (List UInt8)) (y : Idx), y = r ∨ (fs₁.nodes y).used = false →
      fs.suit y cs = some x → ∀ m ∈ cs, NomSain m := by
    intro cs
    induction cs with
    | nil =>
      intro y _ _ m hm
      cases hm
    | cons c cs ih =>
      intro y hy hx m hm
      obtain ⟨i, hi, hx⟩ := suit_cons_eq_some.mp hx
      obtain ⟨hu, hc⟩ := hneuf y i c hy hi
      rcases mem_cons.mp hm with rfl | hm
      · exact hc
      · exact ih i (.inr hu) hx m hm
  exact hgen cs r (.inl rfl) hx

end

def libres (fs : FileSystem) : ℕ :=
  (Finset.univ.filter fun i : Idx => i ≠ 0 ∧ (fs.nodes i).used = false).card

theorem exists_libre (h : 0 < fs.libres) : ∃ i, i ≠ 0 ∧ (fs.nodes i).used = false := by
  obtain ⟨i, hi⟩ := card_pos.mp h
  exact ⟨i, (Finset.mem_filter.mp hi).2⟩

theorem libres_arbre (h : MemeArbre fs fs') : fs'.libres = fs.libres := by
  exact congrArg Finset.card (filter_congr fun i _ => by rw [h.used_eq])

theorem libres_nouveau {nom : Nom} : fs.libres ≤ (fs.nouveau ctx kind mode i d nom).libres + 1 := by
  refine (card_le_card fun j hj => ?_).trans (card_insert_le i _)
  rw [Finset.mem_insert, Finset.mem_filter]
  by_cases hji : j = i
  · exact .inl hji
  · rw [nouveau_nodes_of_ne hji]
    exact .inr ⟨Finset.mem_univ j, (Finset.mem_filter.mp hj).2⟩

/-- The paths of a table with one new node. -/
theorem BienForme.suit_nouveau (h : fs.BienForme) (h' : fs'.BienForme) (hr : fs.Dans r) (hr0 : r ≠ 0)
    (hd : fs.suit r cs₀ = some d) (hlibre : fs.findChild d n = none)
    (hi : (fs.nodes i).used = false)
    (hporte : ∀ q m j, fs'.Porte q m j ↔ j = i ∧ q = d ∧ m = n ∨ j ≠ i ∧ fs.Porte q m j) :
    fs'.suit r cs = if cs = cs₀ ++ [n] then some i else fs.suit r cs := by
  have hdi : d ≠ i := by
    rintro rfl
    rw [(h.dans_suit hr hd).1] at hi
    cases hi
  induction cs using List.reverseRecOn with
  | nil => rw [if_neg (by simp), suit_nil, suit_nil]
  | append_singleton cs m ih =>
    rw [suit_concat, suit_concat, ih]
    by_cases hcs : cs = cs₀ ++ [n]
    · -- nothing is below the new node, and nothing was below its place
      have hne : cs ++ [m] ≠ cs₀ ++ [n] := fun he => by
        have := congrArg List.length he
        rw [hcs] at this
        simp at this
      rw [if_pos hcs, if_neg hne, hcs, suit_concat, hd, bind_some, bind_some, hlibre,
        bind_none, findChild_eq_none]
      intro j hj
      rcases (hporte i m j).mp hj with ⟨-, he, -⟩ | ⟨-, hj⟩
      · exact hdi he.symm
      · exact h.not_porte_libre hi hj
    · rw [if_neg hcs]
      cases hx : fs.suit r cs with
      | none =>
        have hne : cs ++ [m] ≠ cs₀ ++ [n] := fun he => by
          rw [(append_inj' he rfl).1, hd] at hx
          cases hx
        rw [if_neg hne, bind_none, bind_none]
      | some x =>
        rw [bind_some, bind_some]
        by_cases he : cs ++ [m] = cs₀ ++ [n]
        · obtain ⟨rfl, hm⟩ := append_inj' he rfl
          rw [hd] at hx
          cases hx
          rw [if_pos he, h'.findChild_iff, hporte]
          exact .inl ⟨rfl, rfl, head_eq_of_cons_eq hm⟩
        · rw [if_neg he]
          refine findChild_congr fun j => ?_
          rw [hporte]
          constructor
          · rintro (⟨-, hxd, hm⟩ | ⟨-, hj⟩)
            · exact absurd (by rw [h.suit_inj hr hr0 hx (hxd ▸ hd), hm]) he
            · exact hj
          · intro hj
            refine .inr ⟨?_, hj⟩
            rintro rfl
            rw [hj.1] at hi
            cases hi

theorem fiche_congr (h : (fs'.nodes i).sansDate = (fs.nodes i).sansDate) : fs'.fiche i = fs.fiche i := by
  have hsame := sansDate_eq_iff.mp h
  simp only [fiche, metadonnees, hsame]

/-- A mounted root below which the tree shows `T`, with `k` free nodes at least. -/
structure Depot (fs : FileSystem) (r : Idx) (T : List (List UInt8) → Option Fiche) (k : ℕ) : Prop where
  bienForme : fs.BienForme
  place : fs.Porte 0 nomPersist r
  nonNulle : r ≠ 0
  dossier : (fs.nodes r).kind = .dir
  montre : ∀ cs, cs ≠ [] → fs.montre r cs = T cs
  libres : k ≤ fs.libres

variable {T : List (List UInt8) → Option Fiche} {k : ℕ}

theorem Depot.dans (h : Depot fs r T k) : fs.Dans r := h.bienForme.dans_racine.enfant h.place

/-- The data of one node change. -/
theorem Depot.change (h : Depot fs r T k) (hi : fs.suit r cs = some i)
    (ha : MemeArbre fs fs') (hautres : ∀ j, j ≠ i → (fs'.nodes j).sansDate = (fs.nodes j).sansDate) :
    Depot fs' r (Function.update T cs (some (fs'.fiche i))) k where
  bienForme := ha.bienForme h.bienForme
  place := ha.porte_iff.mpr h.place
  nonNulle := h.nonNulle
  dossier := (ha.kind_eq r).trans h.dossier
  montre cs' hcs' := by
    rw [FileSystem.montre, suit_congr ha]
    by_cases he : cs' = cs
    · rw [he, update_self, hi]
      rfl
    · rw [update_of_ne he, ← h.montre cs' hcs', FileSystem.montre]
      cases hx : fs.suit r cs' with
      | none => rfl
      | some x =>
        refine congrArg some (fiche_congr (hautres x ?_))
        rintro rfl
        exact he (h.bienForme.suit_inj h.dans h.nonNulle hx hi)
  libres := (libres_arbre ha).symm ▸ h.libres

/-- A node is created. -/
theorem Depot.cree (ctx : Contexte) (kind : NodeKind) (mode : UInt16) (h : Depot fs r T (k + 1))
    (hn : Nom.Acceptable n) (hd : fs.suit r cs₀ = some d) (hk : (fs.nodes d).kind = .dir)
    (hlibre : fs.findChild d n = none) : ∃ i fs', fs.cree ctx kind mode d n = .ok (i, fs') ∧
      Depot fs' r (Function.update T (cs₀ ++ [n]) (some (fs'.fiche i))) k ∧
      fs'.suit r (cs₀ ++ [n]) = some i ∧ (fs'.nodes i).kind = kind := by
  obtain ⟨j, hj0, hju⟩ := exists_libre (lt_of_lt_of_le (Nat.succ_pos k) h.libres)
  obtain ⟨⟨i, fs'⟩, hc⟩ : ∃ res, fs.cree ctx kind mode d n = .ok res := exists_cree hn hj0 hju
  refine ⟨i, fs', hc, ?_⟩
  obtain ⟨nom, -, rfl, hi0, hu, rfl⟩ := cree_eq_ok hc
  have ha := (touche_meme ctx (fs.nouveau ctx kind mode i d nom) d).arbre
  have hautres : ∀ j, j ≠ i →
      (((fs.nouveau ctx kind mode i d nom).touche ctx d).nodes j).sansDate = (fs.nodes j).sansDate :=
    fun j hj => by rw [touche_meme ctx _ d j, nouveau_nodes_of_ne hj]
  have hnouveau : (fs.nouveau ctx kind mode i d nom).BienForme := h.bienForme.nouveau hi0 hu
    (h.bienForme.dans_suit h.dans hd) hk (findChild_eq_none.mp hlibre)
  have hbien := ha.bienForme hnouveau
  have hsuit : ∀ cs, ((fs.nouveau ctx kind mode i d nom).touche ctx d).suit r cs =
      if cs = cs₀ ++ [nom.octets] then some i else fs.suit r cs := fun cs =>
    h.bienForme.suit_nouveau hbien h.dans h.nonNulle hd hlibre hu fun q m j =>
      ha.porte_iff.trans nouveau_porte
  have hri : r ≠ i := by
    rintro rfl
    rw [h.place.1] at hu
    cases hu
  have hr := sansDate_eq_iff.mp (hautres r hri)
  refine ⟨⟨hbien, ?_, h.nonNulle, hr.2.1.trans h.dossier, fun cs hcs => ?_, ?_⟩, ?_, ?_⟩
  · exact ha.porte_iff.mpr (nouveau_porte.mpr (.inr ⟨hri, h.place⟩))
  · rw [FileSystem.montre, hsuit]
    by_cases he : cs = cs₀ ++ [nom.octets]
    · rw [if_pos he, he, update_self]
      rfl
    · rw [if_neg he, update_of_ne he, ← h.montre cs hcs, FileSystem.montre]
      cases hx : fs.suit r cs with
      | none => rfl
      | some x =>
        refine congrArg some (fiche_congr (hautres x ?_))
        rintro rfl
        rw [(h.bienForme.dans_suit h.dans hx).1] at hu
        cases hu
  · have hle : k + 1 ≤ (fs.nouveau ctx kind mode i d nom).libres + 1 := h.libres.trans libres_nouveau
    rw [libres_arbre ha]
    exact Nat.le_of_succ_le_succ hle
  · rw [hsuit, if_pos rfl]
  · rw [ha.kind_eq, nouveau_nodes_self]

def Fiche.lue (f : Fiche) (chemin : Chaine) : Lue :=
  if f.metadonnees.dossier then .dossier chemin f.metadonnees
  else .fichier chemin (some f.metadonnees) f.contenu

/-- Twelve bits of mode, no content for a directory, and no more than a file holds. -/
structure Fiche.Conforme (f : Fiche) : Prop where
  douzeBits : f.metadonnees.douzeBits = f.metadonnees
  vide : f.metadonnees.dossier = true → f.contenu = []
  taille : f.contenu.length ≤ maxFileSize

theorem deposeNoeud_trouve {m c : List UInt8} {l : List (List UInt8)} (hi : fs.findChild r m = some i) :
    deposeNoeud ctx contenu fs r (m :: c :: l) = deposeNoeud ctx contenu fs i (c :: l) := by
  rw [deposeNoeud, hi, trouveOuCree]

theorem deposeNoeud_append (hd : fs.suit r cs₀ = some d) :
    deposeNoeud ctx contenu fs r (cs₀ ++ [n]) = deposeNoeud ctx contenu fs d [n] := by
  induction cs₀ generalizing r with
  | nil =>
    cases hd
    rfl
  | cons m cs ih =>
    obtain ⟨i, hi, hd⟩ := suit_cons_eq_some.mp hd
    obtain ⟨c, l, hl⟩ := exists_cons_of_ne_nil (l := cs ++ [n]) (by simp)
    rw [cons_append, hl, deposeNoeud_trouve contenu hi, ← hl]
    exact ih hd

theorem BienForme.dossierSousGarde_append (h : fs.BienForme) (hr : fs.Dans r) (racine : Idx)
    (hd : fs.suit r cs₀ = some d) (hk : (fs.nodes d).kind = .dir) :
    dossierSousGarde ctx racine fs r (cs₀ ++ cs) = dossierSousGarde ctx racine fs d cs := by
  induction cs₀ generalizing r with
  | nil =>
    cases hd
    rfl
  | cons m cs₀ ih =>
    obtain ⟨i, hi, hd⟩ := suit_cons_eq_some.mp hd
    have hri := hr.enfant (h.findChild_iff.mp hi)
    rw [cons_append, dossierSousGarde, hi, descend, if_pos (h.dossier_of_suit hri hd hk)]
    exact ih hri hd

theorem poseMeta_sansDate {m : Meta} {j : Idx} (hj : j ≠ i) :
    ((fs.poseMeta i m).nodes j).sansDate = (fs.nodes j).sansDate := by
  unfold poseMeta
  rw [modifie_nodes_of_ne _ hj]

/-- A node of the right kind and content that gets its metadata. -/
theorem poseMeta_fiche {f : Fiche} (hf : f.Conforme)
    (hk : (fs.nodes i).kind = .dir ↔ f.metadonnees.dossier = true)
    (hc : (fs.nodes i).kind = .file → (fs.nodes i).content = f.contenu) :
    (fs.poseMeta i f.metadonnees).fiche i = f := by
  have hmeta : ((fs.poseMeta i f.metadonnees).nodes i).metadonnees = f.metadonnees := by
    unfold poseMeta metadonnees
    simp [hk]
  have hcontenu : (if ((fs.poseMeta i f.metadonnees).nodes i).kind = .dir then []
      else ((fs.poseMeta i f.metadonnees).nodes i).content) = f.contenu := by
    unfold poseMeta
    rw [modifie_nodes_self]
    cases hkind : (fs.nodes i).kind with
    | dir =>
      rw [if_pos rfl, hf.vide (hk.mp hkind)]
    | file =>
      exact hc hkind
  unfold fiche
  rw [hmeta, hcontenu, hf.douzeBits]

theorem writeNodeBytes_of_le (ctx : Contexte) (fs : FileSystem) (i : Idx) {data : List UInt8}
    (h : data.length ≤ maxFileSize) :
    (fs.writeNodeBytes ctx i data).1 = true ∧ ((fs.writeNodeBytes ctx i data).2.nodes i).content = data ∧
      ∀ j, j ≠ i → ((fs.writeNodeBytes ctx i data).2.nodes j).sansDate = (fs.nodes j).sansDate := by
  unfold writeNodeBytes
  rw [if_neg (not_lt.mpr h)]
  generalize hfs2 : ({ fs with disque := Function.update fs.disque i false } : FileSystem) = fs2
  have hnodes : fs2.nodes = fs.nodes := by rw [← hfs2]
  have hm := touche_meme ctx (fs2.modifie i fun n => { n with content := data }) i
  refine ⟨rfl, ?_, fun j hj => ?_⟩
  · rw [(sansDate_eq_iff.mp (hm i)).2.2.2.2.1, modifie_nodes_self]
  · rw [hm j, modifie_nodes_of_ne _ hj, hnodes]

section

variable {f : Fiche} {chemin : Chaine}

theorem Depot.mono {k' : ℕ} (h : Depot fs r T k) (hk : k' ≤ k) : Depot fs r T k' :=
  { h with libres := hk.trans h.libres }

theorem Depot.ne_racine (h : Depot fs r T k) (hi : fs.suit r (cs₀ ++ [n]) = some i) : i ≠ r := by
  rintro rfl
  have := h.bienForme.suit_inj h.dans h.nonNulle hi suit_nil
  simp at this

theorem Depot.kind_iff (h : Depot fs r T k) (hT : T (cs₀ ++ [n]) = none ∨ T (cs₀ ++ [n]) = some f)
    (hi : fs.suit r (cs₀ ++ [n]) = some i) :
    (fs.nodes i).kind = .dir ↔ f.metadonnees.dossier = true := by
  have hm := h.montre (cs₀ ++ [n]) (by simp)
  rw [FileSystem.montre, hi] at hm
  rcases hT with hT | hT
  · rw [hT] at hm
    cases hm
  · rw [hT] at hm
    rw [← Option.some.inj hm]
    simp [fiche, metadonnees, Meta.douzeBits]

variable (h : Depot fs r T (k + 1)) (hf : f.Conforme) (hn : Nom.Acceptable n)
  (hd : fs.suit r cs₀ = some d) (hk : (fs.nodes d).kind = .dir)
  (hT : T (cs₀ ++ [n]) = none ∨ T (cs₀ ++ [n]) = some f)

include h hf hn hd hk hT

theorem Depot.restaure_dossier (hdos : f.metadonnees.dossier = true)
    (hc : composants chemin.octets = cs₀ ++ [n]) :
    Depot (fs.restaureLue ctx r (.dossier chemin f.metadonnees)).2 r
      (Function.update T (cs₀ ++ [n]) (some f)) k := by
  rw [restaureLue, hc, h.bienForme.dossierSousGarde_append h.dans r hd hk, dossierSousGarde]
  cases hfind : fs.findChild d n with
  | some i =>
    have hi : fs.suit r (cs₀ ++ [n]) = some i := suit_concat_eq_some.mpr ⟨d, hd, hfind⟩
    have hkind := h.kind_iff hT hi
    rw [descend, if_pos (hkind.mpr hdos)]
    dsimp only
    rw [dossierSousGarde, if_pos (h.ne_racine hi)]
    have hch := (h.mono (Nat.le_succ k)).change hi (poseMeta_arbre fs i f.metadonnees)
      fun j hj => poseMeta_sansDate hj
    rwa [poseMeta_fiche hf hkind fun hfile => by rw [hkind.mpr hdos] at hfile; cases hfile] at hch
  | none =>
    obtain ⟨i, fs', hcree, h', hi, hkind⟩ := h.cree ctx .dir 0o755 hn hd hk hfind
    rw [mkdirAt_of_libre hk hfind, hcree, descend]
    dsimp only
    rw [dossierSousGarde, if_pos (h'.ne_racine hi)]
    have hch := h'.change hi (poseMeta_arbre fs' i f.metadonnees) fun j hj => poseMeta_sansDate hj
    rw [update_idem] at hch
    rwa [poseMeta_fiche hf (by simp [hkind, hdos]) fun hfile => by rw [hkind] at hfile; cases hfile] at hch

omit h hn hd hk hT in
theorem Depot.remplit (h : Depot fs r T k) (hi : fs.suit r (cs₀ ++ [n]) = some i)
    (hdos : f.metadonnees.dossier = false) (hfile : (fs.nodes i).kind = .file) :
    Depot ((fs.writeNodeBytes ctx i f.contenu).2.poseMeta i f.metadonnees) r
      (Function.update T (cs₀ ++ [n]) (some f)) k := by
  have hw := writeNodeBytes_arbre ctx fs i f.contenu
  obtain ⟨-, hcontenu, hautres⟩ := writeNodeBytes_of_le ctx fs i hf.taille
  generalize (fs.writeNodeBytes ctx i f.contenu).2 = fs2 at hw hcontenu hautres ⊢
  have hch := h.change hi (hw.trans (poseMeta_arbre fs2 i f.metadonnees))
    fun j hj => (poseMeta_sansDate hj).trans (hautres j hj)
  rwa [poseMeta_fiche hf (by simp [hw.kind_eq, hfile, hdos]) fun _ => hcontenu] at hch

theorem Depot.restaure_fichier (hdos : f.metadonnees.dossier = false)
    (hc : composants chemin.octets = cs₀ ++ [n]) :
    Depot (fs.restaureLue ctx r (.fichier chemin (some f.metadonnees) f.contenu)).2 r
      (Function.update T (cs₀ ++ [n]) (some f)) k := by
  rw [restaureLue, hc, deposeNoeud_append f.contenu hd, deposeNoeud]
  cases hfind : fs.findChild d n with
  | some i =>
    have hi : fs.suit r (cs₀ ++ [n]) = some i := suit_concat_eq_some.mpr ⟨d, hd, hfind⟩
    have hfile : (fs.nodes i).kind = .file := by
      have hkind := h.kind_iff hT hi
      cases hfk : (fs.nodes i).kind with
      | file => rfl
      | dir =>
        rw [hkind.mp hfk] at hdos
        cases hdos
    rw [trouveOuCree]
    dsimp only
    rw [(writeNodeBytes_of_le ctx fs i hf.taille).1, if_pos rfl]
    exact (h.mono (Nat.le_succ k)).remplit hf hi hdos hfile
  | none =>
    obtain ⟨i, fs', hcree, h', hi, hkind⟩ := h.cree ctx .file 0o644 hn hd hk hfind
    rw [touchAt_of_libre hk hfind, hcree, trouveOuCree]
    dsimp only
    rw [(writeNodeBytes_of_le ctx fs' i hf.taille).1, if_pos rfl]
    have hch : Depot ((fs'.writeNodeBytes ctx i f.contenu).2.poseMeta i f.metadonnees) r _ k :=
      h'.remplit hf hi hdos hkind
    rwa [update_idem] at hch

/-- Depositing an entry in a directory that is there changes what is shown at its
path, and nothing else. -/
theorem Depot.restaureLue (hc : composants chemin.octets = cs₀ ++ [n]) :
    Depot (fs.restaureLue ctx r (f.lue chemin)).2 r (Function.update T (cs₀ ++ [n]) (some f)) k := by
  unfold Fiche.lue
  cases hdos : f.metadonnees.dossier with
  | true => exact h.restaure_dossier hf hn hd hk hT hdos hc
  | false => exact h.restaure_fichier hf hn hd hk hT hdos hc

end

/-- Every path comes after the path of its directory, or its directory is known. -/
def Ordonnee (connus : List (List (List UInt8))) : List (List (List UInt8)) → Prop
  | [] => True
  | cs :: l => (∃ cs₀ n, cs = cs₀ ++ [n] ∧ cs₀ ∈ connus) ∧ Ordonnee (cs :: connus) l

/-- An entry to deposit: its path, its text and what it shows. -/
structure Depose where
  cs : List (List UInt8)
  chemin : Chaine
  fiche : Fiche

/-- Entries of a tree that shows `S`, in which what has children is a directory. -/
structure Depose.Conforme (S : List (List UInt8) → Option Fiche) (e : Depose) : Prop where
  montre : S e.cs = some e.fiche
  fiche : e.fiche.Conforme
  chemin : composants e.chemin.octets = e.cs
  noms : ∀ n ∈ e.cs, Nom.Acceptable n
  dossier : ∀ cs₀ n, e.cs = cs₀ ++ [n] → cs₀ ≠ [] → ∃ f₀, S cs₀ = some f₀ ∧ f₀.metadonnees.dossier = true

/-- Once all the entries are deposited, the tree shows them and what it showed
before. -/
theorem Depot.restaureLues (ctx : Contexte) {S : List (List UInt8) → Option Fiche} {l : List Depose}
    {T : List (List UInt8) → Option Fiche} {connus : List (List (List UInt8))}
    (h : Depot fs r T l.length) (hl : ∀ e ∈ l, e.Conforme S) (hTS : ∀ cs f, T cs = some f → S cs = some f)
    (hconnus : ∀ cs ∈ connus, cs = [] ∨ T cs = S cs) (hord : Ordonnee connus (l.map Depose.cs)) :
    ∃ T', Depot (restaureLues ctx r (l.map fun e => e.fiche.lue e.chemin) fs).2 r T' 0 ∧
      ∀ cs f, T' cs = some f ↔ T cs = some f ∨ ∃ e ∈ l, e.cs = cs ∧ e.fiche = f := by
  induction l generalizing fs T connus with
  | nil =>
    refine ⟨T, h, fun cs f => ⟨.inl, ?_⟩⟩
    rintro (hT | ⟨e, he, -⟩)
    · exact hT
    · cases he
  | cons e l ih =>
    have he := hl e mem_cons_self
    obtain ⟨⟨cs₀, n, hcs, hconnu⟩, hord⟩ := hord
    -- its directory is the root, or was shown already
    obtain ⟨d, hd, hk⟩ : ∃ d, fs.suit r cs₀ = some d ∧ (fs.nodes d).kind = .dir := by
      by_cases h0 : cs₀ = []
      · rw [h0]
        exact ⟨r, rfl, h.dossier⟩
      · obtain ⟨f0, hS, hf0⟩ := he.dossier cs₀ n hcs h0
        have hm := h.montre cs₀ h0
        rw [(hconnus cs₀ hconnu).resolve_left h0, hS, FileSystem.montre] at hm
        obtain ⟨d, hd, hfd⟩ := map_eq_some_iff.mp hm
        refine ⟨d, hd, ?_⟩
        rw [← hfd] at hf0
        simpa [fiche, metadonnees, Meta.douzeBits] using hf0
    have hT : T e.cs = none ∨ T e.cs = some e.fiche := by
      cases hTe : T e.cs with
      | none => exact .inl rfl
      | some f => exact .inr ((hTS _ _ hTe).symm.trans he.montre)
    rw [hcs] at hT
    have hstep : Depot (fs.restaureLue ctx r (e.fiche.lue e.chemin)).2 r
        (Function.update T (cs₀ ++ [n]) (some e.fiche)) l.length :=
      h.restaureLue he.fiche (he.noms n (by simp [hcs])) hd hk hT (he.chemin.trans hcs)
    rw [← hcs] at hstep
    have hS' : ∀ cs f, Function.update T e.cs (some e.fiche) cs = some f → S cs = some f := by
      intro cs f hf
      by_cases hcs' : cs = e.cs
      · rw [hcs', update_self] at hf
        rw [hcs', he.montre, hf]
      · rw [update_of_ne hcs'] at hf
        exact hTS cs f hf
    have hconnus' : ∀ cs ∈ e.cs :: connus, cs = [] ∨ Function.update T e.cs (some e.fiche) cs = S cs := by
      intro cs hmem
      by_cases hcs' : cs = e.cs
      · rw [hcs', update_self, he.montre]
        exact .inr rfl
      · rw [update_of_ne hcs']
        exact hconnus cs ((mem_cons.mp hmem).resolve_left hcs')
    obtain ⟨T', hdepot, hT'⟩ := ih hstep (fun e' he' => hl e' (mem_cons_of_mem _ he')) hS' hconnus' hord
    refine ⟨T', hdepot, fun cs f => ?_⟩
    rw [hT', exists_mem_cons_iff, ← (or_assoc : (_ ∨ _) ∨ _ ↔ _)]
    refine or_congr_left ?_
    by_cases hcs' : cs = e.cs
    · have hdeja : T e.cs = some f → e.fiche = f := fun hf =>
        Option.some.inj (he.montre.symm.trans (hTS _ _ hf))
      simpa [hcs'] using hdeja
    · simp [update_of_ne hcs', Ne.symm hcs']

end FileSystem

end BouchaudOS.Ramfs
