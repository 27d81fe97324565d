import BouchaudOS.Persist.CacheJetable
import BouchaudOS.Persist.Commit
import BouchaudOS.Ramfs.Depot
import BouchaudOS.Ramfs.Generation

/-!
# A synchronisation and the mount that follows

The snapshot of the persistent tree has one entry for each node below its root,
each after the one of its directory. What is written comes back when every name
survives the trip: the table cuts a path at its first NUL, and the mount splits
it at each separator.
-/

namespace BouchaudOS.Ramfs

open List CacheJetable Utf8

open Persist (Meta Lue SnapshotEntree cheminMax secteursDe image synchroniseSnapshot secteursTable secteursDemi Etat
  zoneLue Pret)

open Persist.Machine (volumeVierge donnees)

namespace FileSystem

variable {ctx : Contexte} {fs fs₁ : FileSystem} {r r₁ d i x : Idx} {n pre : List UInt8}
  {cs : List (List UInt8)} {connus : List (List (List UInt8))} {k g : ℕ} {groupe : Option ℕ}
  {e : Entree}

def longueurDe (fs : FileSystem) (i : Idx) : ℕ :=
  if (fs.nodes i).kind = .dir then 0 else (fs.nodes i).content.length

/-- An entry of the node at the end of a path. -/
structure Retenue (fs : FileSystem) (d : Idx) (pre : List UInt8) (e : Entree)
    (cs : List (List UInt8)) : Prop where
  nonVide : cs ≠ []
  noeud : fs.suit d cs = some e.noeud
  chemin : e.chemin = texte pre cs
  court : e.chemin.length < cheminMax
  longueur : e.longueur = fs.longueurDe e.noeud
  metadonnees : e.metadonnees = (fs.nodes e.noeud).metadonnees

theorem mem_entreeDe {chemin : List UInt8} {longueur : ℕ} : e ∈ fs.entreeDe i chemin longueur groupe ↔
    chemin.length < cheminMax ∧ e = ⟨chemin, i, longueur, (fs.nodes i).metadonnees, groupe⟩ := by
  unfold entreeDe
  split
  · rename_i h
    simp [h]
  · rename_i h
    simp [h]

theorem mem_visite {descend : Idx → List UInt8 → Option ℕ → ℕ → List Entree × ℕ} :
    e ∈ (fs.visite descend pre groupe g i).1 →
      (∃ o, e ∈ fs.entreeDe i (joint pre (fs.nodes i).name.octets) (fs.longueurDe i) o) ∨
      (fs.nodes i).kind = .dir ∧ ∃ o g', e ∈ (descend i (joint pre (fs.nodes i).name.octets) o g').1 := by
  unfold visite longueurDe
  cases hk : (fs.nodes i).kind with
  | file => exact fun he => .inl ⟨groupe, he⟩
  | dir =>
    intro he
    rcases mem_append.mp he with he | he
    · exact .inl ⟨_, he⟩
    · exact .inr ⟨rfl, _, _, he⟩

section

variable (h : fs.BienForme)

include h

theorem BienForme.findChild_enfant (hi : i ∈ fs.enfants d) :
    fs.findChild d (fs.nodes i).name.octets = some i := by
  obtain ⟨hu, hp, -⟩ := mem_enfants.mp hi
  exact h.findChild_iff.mpr ⟨hu, hp, rfl⟩

theorem BienForme.mem_enfants_of_findChild (hd : fs.Dans d) (hd0 : d ≠ 0)
    (hi : fs.findChild d n = some i) : i ∈ fs.enfants d ∧ (fs.nodes i).name.octets = n := by
  obtain ⟨hu, hp, hn⟩ := h.findChild_iff.mp hi
  refine ⟨mem_enfants.mpr ⟨hu, hp, ?_⟩, hn⟩
  rintro rfl
  exact hd0 (hd.2.eq_root_of_fixed hp)

theorem BienForme.mem_collecte (he : e ∈ (fs.collecte k d pre groupe g).1) : ∃ cs, fs.Retenue d pre e cs := by
  induction k generalizing d pre groupe g with
  | zero => cases he
  | succ k ih =>
    obtain ⟨i, hi, g', he⟩ := mem_parcours he
    have hfind := h.findChild_enfant hi
    rcases mem_visite he with ⟨o, he⟩ | ⟨-, o, g'', he⟩
    · obtain ⟨hcourt, rfl⟩ := mem_entreeDe.mp he
      refine ⟨[(fs.nodes i).name.octets], cons_ne_nil _ _, ?_, rfl, hcourt, rfl, rfl⟩
      rw [suit_singleton, hfind]
    · obtain ⟨cs, hr⟩ := ih he
      refine ⟨(fs.nodes i).name.octets :: cs, cons_ne_nil _ _, ?_, hr.chemin, hr.court,
        hr.longueur, hr.metadonnees⟩
      exact suit_cons_eq_some.mpr ⟨i, hfind, hr.noeud⟩

/-- Every node whose text fits has its entry, if the walk goes deep enough. -/
theorem BienForme.exists_mem_collecte (hd : fs.Dans d) (hd0 : d ≠ 0) (hcs : cs ≠ [])
    (hx : fs.suit d cs = some x) (hcourt : (texte pre cs).length < cheminMax) (hk : cs.length ≤ k)
    (groupe : Option ℕ) (g : ℕ) :
    ∃ e ∈ (fs.collecte k d pre groupe g).1, e.noeud = x ∧ e.chemin = texte pre cs := by
  induction cs generalizing d pre groupe g k with
  | nil => exact absurd rfl hcs
  | cons n cs ih =>
    obtain ⟨k, rfl⟩ : ∃ k', k = k' + 1 := ⟨k - 1, by simp at hk; omega⟩
    obtain ⟨i, hi, hx⟩ := suit_cons_eq_some.mp hx
    obtain ⟨hmem, hnom⟩ := h.mem_enfants_of_findChild hd hd0 hi
    have hdi : fs.Dans i := hd.enfant (h.findChild_iff.mp hi)
    have hi0 : i ≠ 0 := by
      rintro rfl
      exact hd0 ((mem_enfants.mp hmem).2.1.symm.trans h.racineParent)
    obtain ⟨g', hsub⟩ := exists_subset_parcours (f := fs.visite (fs.collecte k) pre groupe) hmem g
    suffices ∃ e ∈ (fs.visite (fs.collecte k) pre groupe g' i).1,
        e.noeud = x ∧ e.chemin = texte pre (n :: cs) by
      obtain ⟨e, he, hex⟩ := this
      exact ⟨e, hsub he, hex⟩
    have hjoint : joint pre (fs.nodes i).name.octets = joint pre n := by rw [hnom]
    unfold visite
    rw [hjoint]
    cases cs with
    | nil =>
      have hix : i = x := Option.some.inj hx
      subst hix
      have hentree : ∀ l o, ∃ e ∈ fs.entreeDe i (joint pre n) l o, e.noeud = i ∧ e.chemin = texte pre [n] :=
        fun l o => ⟨_, mem_entreeDe.mpr ⟨hcourt, rfl⟩, rfl, rfl⟩
      cases (fs.nodes i).kind with
      | file => exact hentree _ _
      | dir =>
        obtain ⟨e, he, hex⟩ := hentree 0 (fs.groupeDe i groupe g').1
        exact ⟨e, mem_append_left _ he, hex⟩
    | cons m cs =>
      -- a node that has a child is a directory, and the walk enters it
      obtain ⟨j, hj, -⟩ := suit_cons_eq_some.mp hx
      have hporte := h.findChild_iff.mp hj
      have hdir := h.parentDossier j hporte.1 (hdi.enfant hporte).2.nonAnonyme
      rw [hporte.2.1] at hdir
      obtain ⟨e, he, hex⟩ := ih hdi hi0 (cons_ne_nil _ _) hx hcourt
        (by simpa using hk) (fs.groupeDe i groupe g').1 (fs.groupeDe i groupe g').2
      rw [hdir]
      exact ⟨e, mem_append_right _ he, hex⟩

end

theorem Ordonnee.mono {connus' l : List (List (List UInt8))} (h : Ordonnee connus l)
    (hsub : connus ⊆ connus') : Ordonnee connus' l := by
  induction l generalizing connus connus' with
  | nil => exact h
  | cons cs l ih =>
    obtain ⟨⟨cs0, n, hcs, hmem⟩, hl⟩ := h
    exact ⟨⟨cs0, n, hcs, hsub hmem⟩, ih hl (cons_subset_cons _ hsub)⟩

theorem Ordonnee.append {l l' : List (List (List UInt8))} (h : Ordonnee connus l)
    (h' : Ordonnee connus l') : Ordonnee connus (l ++ l') := by
  induction l generalizing connus with
  | nil => exact h'
  | cons cs l ih => exact ⟨h.1, ih h.2 (h'.mono (subset_cons_self _ _))⟩

theorem ordonnee_parcours {f : ℕ → Idx → List Entree × ℕ} {is : List Idx} {p : Entree → List (List UInt8)}
    (h : ∀ i ∈ is, ∀ g, Ordonnee connus ((f g i).1.map p)) (g : ℕ) :
    Ordonnee connus ((parcours f is g).1.map p) := by
  induction is generalizing g with
  | nil => trivial
  | cons i is ih =>
    simp only [parcours, map_append]
    exact (h i mem_cons_self g).append (ih (fun j hj => h j (mem_cons_of_mem _ hj)) _)

/-- Where all names and texts are sound, a directory comes before what it holds. -/
theorem BienForme.ordonnee_collecte (h : fs.BienForme)
    (hsains : ∀ cs x, fs.suit d cs = some x → ∀ n ∈ cs, NomSain n)
    (hcourts : ∀ cs x, fs.suit d cs = some x → cs ≠ [] → (texte pre cs).length < cheminMax)
    (hpre : composants pre ∈ connus) (groupe : Option ℕ) (g : ℕ) :
    Ordonnee connus ((fs.collecte k d pre groupe g).1.map fun e => composants e.chemin) := by
  induction k generalizing d pre groupe g connus with
  | zero => trivial
  | succ k ih =>
    refine ordonnee_parcours (fun i hi g => ?_) g
    have hfind := h.findChild_enfant hi
    have hsuit : fs.suit d [(fs.nodes i).name.octets] = some i := by rw [suit_singleton, hfind]
    have hsain := hsains _ _ hsuit _ mem_cons_self
    have hcourt := hcourts _ _ hsuit (cons_ne_nil _ _)
    have hentree : ∀ l o, fs.entreeDe i (joint pre (fs.nodes i).name.octets) l o =
        [⟨joint pre (fs.nodes i).name.octets, i, l, (fs.nodes i).metadonnees, o⟩] :=
      fun l o => if_pos hcourt
    have hcomp : composants (joint pre (fs.nodes i).name.octets) =
        composants pre ++ [(fs.nodes i).name.octets] := composants_joint hsain
    unfold visite
    cases (fs.nodes i).kind with
    | file =>
      simp only [hentree, map_cons, map_nil]
      exact ⟨⟨_, _, hcomp, hpre⟩, trivial⟩
    | dir =>
      simp only [hentree, singleton_append, map_cons]
      refine ⟨⟨_, _, hcomp, hpre⟩, ih (fun cs x hx n hn => ?_) (fun cs x hx hne => ?_) mem_cons_self _ _⟩
      · exact hsains _ x (suit_cons_eq_some.mpr ⟨i, hfind, hx⟩) n (mem_cons_of_mem _ hn)
      · exact hcourts _ x (suit_cons_eq_some.mpr ⟨i, hfind, hx⟩) (cons_ne_nil _ _)

/-- `LIMITES_ZONE`. -/
def limitesZone : Limites :=
  ⟨Persist.entreesMax, secteursDemi - secteursTable, Persist.tailleSecteur⟩

/-- Drop the labelled trees that the zone cannot hold. -/
def ecarteLesCachesQuiDebordent (entrees : List Entree) (zone : Bool) : List Entree :=
  if !zone then entrees
  else
    let groupes := ((entrees.filterMap Entree.groupe).max?.map (· + 1)).getD 0
    match selectionne limitesZone (entrees.map fun e => ⟨e.longueur, e.groupe⟩) groupes with
    | (.toutTient, _) => entrees
    | (.neTientPas, _) => entrees
    | (.ecarte _ _ _, ecartes) => entrees.filter fun e => !e.groupe.any ecartes

def entreeSnapshot (fs : FileSystem) (e : Entree) : SnapshotEntree :=
  ⟨.lossy e.chemin, (fs.nodes e.noeud).content.take e.longueur, e.metadonnees⟩

/-- `rassemble_snapshot`. -/
def rassembleSnapshot (m : Materiel) (fs : FileSystem) : List SnapshotEntree :=
  (ecarteLesCachesQuiDebordent fs.rassemble (Persist.debut m).isSome).map fs.entreeSnapshot

/-- A tree below `/persist` that the zone can hold. -/
structure Enregistrable (fs : FileSystem) (r : Idx) : Prop where
  bienForme : fs.BienForme
  racine : fs.findChild 0 nomPersist = some r
  nonNulle : r ≠ 0
  textes : ∀ i, (fs.nodes i).used = true → Valid (fs.nodes i).name.octets
  courts : ∀ cs x, fs.suit r cs = some x → cs ≠ [] → (texte [] cs).length < cheminMax
  nombre : fs.rassemble.length ≤ Persist.entreesMax
  contenus : (fs.rassemble.map fun e => secteursDe e.longueur).sum ≤
    secteursDemi - secteursTable

/-- A table with an empty `/persist` and `k` free nodes. -/
structure Accueille (fs : FileSystem) (r : Idx) (k : ℕ) : Prop where
  bienForme : fs.BienForme
  racine : fs.findChild 0 nomPersist = some r
  nonNulle : r ≠ 0
  dossier : (fs.nodes r).kind = .dir
  vide : ∀ i, i ∉ fs.enfants r
  libres : k ≤ fs.libres

/-- The second table shows below its `/persist` what the first shows below its own. -/
structure Reconstruit (fs : FileSystem) (r : Idx) (fs' : FileSystem) (r' : Idx) : Prop where
  racine : fs'.findChild 0 nomPersist = some r'
  montre : ∀ cs, cs ≠ [] → fs'.montre r' cs = fs.montre r cs

def NomsSains (fs : FileSystem) (r : Idx) : Prop :=
  ∀ cs x, fs.suit r cs = some x → ∀ n ∈ cs, NomSain n

theorem finContenus_eq (es : List SnapshotEntree) (k : ℕ) : Persist.finContenus es k =
    k + (es.map fun e => secteursDe e.contenu.length).sum := by
  induction es generalizing k with
  | nil => rfl
  | cons e es ih => rw [Persist.finContenus, ih, map_cons, sum_cons, Nat.add_assoc]

section

variable {m : Materiel} (h : fs.Enregistrable r)

include h

theorem Enregistrable.dans : fs.Dans r :=
  h.bienForme.dans_racine.enfant (h.bienForme.findChild_iff.mp h.racine)

theorem Enregistrable.retenue (he : e ∈ fs.rassemble) : ∃ cs, fs.Retenue r [] e cs := by
  rw [rassemble_eq h.racine] at he
  exact h.bienForme.mem_collecte he

theorem Enregistrable.nom (hx : fs.suit r cs = some x) (hn : n ∈ cs) :
    ∃ i, (fs.nodes i).used = true ∧ (fs.nodes i).name.octets = n := by
  obtain ⟨a, b, rfl⟩ := append_of_mem hn
  rw [suit_append, Option.bind_eq_some_iff] at hx
  obtain ⟨j, -, hx⟩ := hx
  obtain ⟨i, hi, -⟩ := suit_cons_eq_some.mp hx
  obtain ⟨hu, -, hnom⟩ := h.bienForme.findChild_iff.mp hi
  exact ⟨i, hu, hnom⟩

omit h in
theorem valid_texte (hpre : Valid pre) (hcs : ∀ n ∈ cs, Valid n) : Valid (texte pre cs) := by
  induction cs generalizing pre with
  | nil => exact hpre
  | cons n cs ih =>
    refine ih ?_ fun c hc => hcs c (mem_cons_of_mem _ hc)
    have hn := hcs n mem_cons_self
    unfold joint
    split
    · exact hn
    · have hbarre : Valid [barre] := valid_of_ascii (by simp [barre])
      exact hpre.append (hbarre.append hn)

theorem Enregistrable.lossy_chemin (he : e ∈ fs.rassemble) : (Chaine.lossy e.chemin).octets = e.chemin := by
  obtain ⟨cs, hr⟩ := h.retenue he
  refine lossy_of_valid ?_
  rw [hr.chemin]
  refine valid_texte .nil fun n hn => ?_
  obtain ⟨i, hu, rfl⟩ := h.nom hr.noeud hn
  exact h.textes i hu

theorem Enregistrable.length_contenu (he : e ∈ fs.rassemble) :
    (fs.entreeSnapshot e).contenu.length = e.longueur := by
  obtain ⟨cs, hr⟩ := h.retenue he
  have hle : e.longueur ≤ (fs.nodes e.noeud).content.length := by
    rw [hr.longueur, longueurDe]
    split
    · exact Nat.zero_le _
    · exact le_rfl
  rw [entreeSnapshot, length_take, Nat.min_eq_left hle]

theorem Enregistrable.rassembleSnapshot_eq : rassembleSnapshot m fs = fs.rassemble.map fs.entreeSnapshot := by
  have htient : limitesZone.tient (fs.rassemble.map fun e => (⟨e.longueur, e.groupe⟩ : Fichier)).length
      (limitesZone.total (fs.rassemble.map fun e => ⟨e.longueur, e.groupe⟩)) = true := by
    have htotal : limitesZone.total (fs.rassemble.map fun e => ⟨e.longueur, e.groupe⟩) =
        (fs.rassemble.map fun e => secteursDe e.longueur).sum := by
      rw [Limites.total, map_map]
      rfl
    rw [htotal, length_map, Limites.tient, Bool.and_eq_true, decide_eq_true_eq,
      decide_eq_true_eq]
    exact ⟨h.nombre, h.contenus⟩
  unfold rassembleSnapshot ecarteLesCachesQuiDebordent
  simp only [selectionne_of_tient htient, ite_self]

theorem Enregistrable.tient (demi : Fin 2) : Persist.Tient (fs.rassemble.map fs.entreeSnapshot) demi := by
  refine ⟨fun se hse => ?_, ?_, ?_⟩
  · obtain ⟨e, he, rfl⟩ := mem_map.mp hse
    obtain ⟨cs, hr⟩ := h.retenue he
    rw [entreeSnapshot, h.lossy_chemin he]
    exact hr.court
  · rw [length_map]
    exact h.nombre
  · have hsum : (fs.rassemble.map fs.entreeSnapshot).map (fun e => secteursDe e.contenu.length) =
        fs.rassemble.map fun e => secteursDe e.longueur := by
      rw [map_map]
      refine map_congr_left fun e he => ?_
      rw [Function.comp_apply, h.length_contenu he]
    rw [finContenus_eq, hsum]
    have hle := h.contenus
    have htable : secteursTable ≤ secteursDemi := by decide
    unfold Persist.contenuDemi Persist.finDemi
    omega

theorem Enregistrable.longueur_le (he : e ∈ fs.rassemble) : e.longueur ≤ maxFileSize := by
  have hmem : secteursDe e.longueur ∈ fs.rassemble.map fun e => secteursDe e.longueur :=
    mem_map.mpr ⟨e, he, rfl⟩
  have hsect : secteursDe e.longueur ≤ 130047 := (le_sum_of_mem hmem).trans h.contenus
  have hle := Persist.le_secteursDe e.longueur
  have hmax : maxFileSize = 67108864 := rfl
  have ht : Persist.tailleSecteur = 512 := rfl
  rw [ht] at hle
  omega

section

variable (hsains : fs.NomsSains r) {cs : List (List UInt8)}

include hsains

omit h in
theorem Retenue.composants_eq (hr : fs.Retenue r [] e cs) : composants e.chemin = cs := by
  rw [hr.chemin, composants_texte (hsains cs _ hr.noeud), composants_nil, nil_append]

omit h hsains in
theorem not_mem_texte (hpre : 0 ∉ pre) (hcs : ∀ n ∈ cs, NomSain n) : 0 ∉ texte pre cs := by
  induction cs generalizing pre with
  | nil => exact hpre
  | cons n cs ih =>
    refine ih ?_ fun c hc => hcs c (mem_cons_of_mem _ hc)
    have hn := (hcs n mem_cons_self).2.2
    unfold joint
    split
    · exact hn
    · simp only [mem_append, mem_cons, not_or]
      exact ⟨hpre, by decide, hn⟩

omit h in
theorem Retenue.sain (hr : fs.Retenue r [] e cs) : e.chemin ≠ [] ∧ 0 ∉ e.chemin := by
  have hcs := hsains cs _ hr.noeud
  refine ⟨fun hnil => ?_, ?_⟩
  · have hcomp := hr.composants_eq hsains
    rw [hnil, composants_nil] at hcomp
    exact hr.nonVide hcomp.symm
  · rw [hr.chemin]
    exact not_mem_texte not_mem_nil hcs

theorem Enregistrable.relue_entreeSnapshot (he : e ∈ fs.rassemble) :
    (fs.entreeSnapshot e).relue = some ((fs.fiche e.noeud).lue (.lossy e.chemin)) := by
  obtain ⟨cs, hr⟩ := h.retenue he
  obtain ⟨hne, hnul⟩ := hr.sain hsains
  have hoctets := h.lossy_chemin he
  have hjusqua : (Chaine.lossy e.chemin).jusquaNul = .lossy e.chemin := by
    refine Chaine.ext' (takeWhile_eq_self_iff.mpr fun b hb => ?_)
    rw [hoctets] at hb
    rw [decide_eq_true_eq]
    rintro rfl
    exact hnul hb
  have hvide : (Chaine.lossy e.chemin).octets.isEmpty = false := by
    rw [hoctets]
    simpa using hne
  have hlong := hr.longueur
  rw [SnapshotEntree.relue, entreeSnapshot, hjusqua, hvide, if_neg Bool.false_ne_true,
    hr.metadonnees, Fiche.lue, fiche]
  unfold longueurDe at hlong
  cases hk : (fs.nodes e.noeud).kind with
  | dir => simp [Node.metadonnees, Meta.douzeBits, hk]
  | file =>
    simp [Node.metadonnees, Meta.douzeBits, hk, hlong]

def deposes (fs : FileSystem) : List Depose :=
  fs.rassemble.map fun e => ⟨composants e.chemin, .lossy e.chemin, fs.fiche e.noeud⟩

theorem Enregistrable.image_eq : image (fs.rassemble.map fs.entreeSnapshot) =
    fs.deposes.map fun e => e.fiche.lue e.chemin := by
  rw [image, filterMap_map, deposes, map_map, ← filterMap_eq_map]
  exact filterMap_congr fun e he => h.relue_entreeSnapshot hsains he

theorem Enregistrable.conforme {p : Depose} (hp : p ∈ fs.deposes) : p.Conforme (fs.montre r) := by
  obtain ⟨e, he, rfl⟩ := mem_map.mp hp
  obtain ⟨cs, hr⟩ := h.retenue he
  have hcomp := hr.composants_eq hsains
  refine ⟨?_, ⟨?_, ?_, ?_⟩, ?_, ?_, ?_⟩
  · rw [hcomp, FileSystem.montre, hr.noeud, Option.map_some]
  · simp [fiche, Meta.douzeBits, UInt16.and_assoc]
  · intro hdos
    have hdir : (fs.nodes e.noeud).kind = .dir := by
      simpa [fiche, Node.metadonnees, Meta.douzeBits] using hdos
    rw [fiche, if_pos hdir]
  · have hle := h.longueur_le he
    rw [hr.longueur, longueurDe] at hle
    rw [fiche]
    split
    · exact Nat.zero_le _
    · rename_i hk
      rwa [if_neg hk] at hle
  · rw [h.lossy_chemin he]
  · intro n hn
    rw [hcomp] at hn
    obtain ⟨i, -, rfl⟩ := h.nom hr.noeud hn
    exact ⟨(hsains cs _ hr.noeud _ hn).1, (fs.nodes i).name.borne⟩
  · intro cs0 n hcs h0
    obtain ⟨d, hd, hx⟩ : ∃ d, fs.suit r cs0 = some d ∧ fs.findChild d n = some e.noeud := by
      rw [← suit_concat_eq_some, ← hcs, hcomp]
      exact hr.noeud
    have hporte := h.bienForme.findChild_iff.mp hx
    have hdir := h.bienForme.parentDossier _ hporte.1
      ((h.bienForme.dans_suit h.dans hd).enfant hporte).2.nonAnonyme
    rw [hporte.2.1] at hdir
    refine ⟨fs.fiche d, ?_, ?_⟩
    · rw [FileSystem.montre, hd, Option.map_some]
    · simp [fiche, Node.metadonnees, Meta.douzeBits, hdir]

theorem Enregistrable.montre_iff (hcs : cs ≠ []) {f : Fiche} :
    fs.montre r cs = some f ↔ ∃ p ∈ fs.deposes, p.cs = cs ∧ p.fiche = f := by
  constructor
  · intro hm
    obtain ⟨x, hx, rfl⟩ := Option.map_eq_some_iff.mp hm
    have hlen : cs.length ≤ maxNodes := by
      obtain ⟨k, hk⟩ := h.dans.2.exists_depth
      have hlt := (h.bienForme.depth_suit hk h.nonNulle hx).1.lt_card
      rw [Fintype.card_fin] at hlt
      omega
    obtain ⟨e, he, hnoeud, hchemin⟩ := h.bienForme.exists_mem_collecte h.dans h.nonNulle hcs hx
      (h.courts cs x hx hcs) hlen none 0
    rw [← rassemble_eq h.racine] at he
    refine ⟨_, mem_map.mpr ⟨e, he, rfl⟩, ?_, by rw [hnoeud]⟩
    rw [hchemin, composants_texte (hsains cs x hx), composants_nil, nil_append]
  · rintro ⟨p, hp, rfl, rfl⟩
    exact (h.conforme hsains hp).montre

end

end

variable {m : Materiel} {lues : List Lue}

theorem Accueille.depot (h : fs₁.Accueille r₁ k) :
    Depot (fs₁.noteRacinePersistante r₁) r₁ (fun _ => none) k := by
  have hmeme := noteRacinePersistante_meme fs₁ r₁
  have hporte := h.bienForme.findChild_iff.mp h.racine
  have hdans := h.bienForme.dans_racine.enfant hporte
  refine ⟨hmeme.arbre.bienForme h.bienForme, hmeme.arbre.porte_iff.mpr hporte, h.nonNulle,
    (hmeme.arbre.kind_eq r₁).trans h.dossier, fun cs hcs => ?_, ?_⟩
  · obtain ⟨n, cs, rfl⟩ := exists_cons_of_ne_nil hcs
    rw [FileSystem.montre, suit_congr hmeme.arbre, suit_cons]
    cases hi : fs₁.findChild r₁ n with
    | none => rfl
    | some i => exact absurd (h.bienForme.mem_enfants_of_findChild hdans h.nonNulle hi).1 (h.vide i)
  · rw [libres_arbre hmeme.arbre]
    exact h.libres

theorem exec_monte {base : UInt64} (hr : fs₁.findChild 0 nomPersist = some r₁)
    (hb : Persist.debut m = some base) (ctx : Contexte) (s : Etat)
    (d : DisqueBloc) : ((monte ctx m fs₁ s).exec d).1.1 =
      restaureLues ctx r₁ (zoneLue (Persist.vue base d)) (fs₁.noteRacinePersistante r₁) := by
  rw [monte, resolve_cheminPersist, hr, trouveOuCree, hb]
  rw [Prog.exec_bind, Persist.exec_releveZone]
  rfl

/-- What a sound snapshot brings back. -/
theorem Enregistrable.reconstruit (h : fs.Enregistrable r)
    (hc : fs₁.Accueille r₁ fs.rassemble.length) (hsains : fs.NomsSains r) (ctx : Contexte) :
    fs.Reconstruit r (restaureLues ctx r₁ (image (fs.rassemble.map fs.entreeSnapshot))
      (fs₁.noteRacinePersistante r₁)).2 r₁ := by
  have hord : Ordonnee [[]] (fs.deposes.map Depose.cs) := by
    have hcollecte : Ordonnee [[]] (fs.rassemble.map fun e => composants e.chemin) := by
      rw [rassemble_eq h.racine]
      refine h.bienForme.ordonnee_collecte hsains h.courts ?_ none 0
      exact mem_cons_self
    rw [deposes, map_map]
    exact hcollecte
  have hdepot : Depot (fs₁.noteRacinePersistante r₁) r₁ (fun _ => none) fs.deposes.length := by
    rw [deposes, length_map]
    exact hc.depot
  obtain ⟨T, hfin, hT⟩ := hdepot.restaureLues ctx (fun p hp => h.conforme hsains hp)
    (fun cs f hf => nomatch hf) (fun cs hcs => .inl (mem_singleton.mp hcs)) hord
  rw [h.image_eq hsains]
  refine ⟨hfin.bienForme.findChild_iff.mpr hfin.place, fun cs hcs => ?_⟩
  rw [hfin.montre cs hcs]
  refine Option.ext fun f => ?_
  rw [hT, h.montre_iff hsains hcs]
  simp

/-- No mount leaves a name that is not sound. -/
theorem Accueille.sain_of_image (h : fs₁.Accueille r₁ k) (es : List SnapshotEntree) (ctx : Contexte)
    (hx : (restaureLues ctx r₁ (image es) (fs₁.noteRacinePersistante r₁)).2.suit r₁ cs = some x) :
    ∀ n ∈ cs, NomSain n := by
  have hporte := h.bienForme.findChild_iff.mp h.racine
  have hetend : Etend fs₁ (restaureLues ctx r₁ (image es) (fs₁.noteRacinePersistante r₁)).2 := by
    refine ((Etend.refl fs₁).arbre (noteRacinePersistante_meme fs₁ r₁).arbre).restaureLues r₁ ?_
    intro lue hlue n hn
    obtain ⟨se, -, hse⟩ := mem_filterMap.mp hlue
    have hchemin : lue.chemin = se.chemin.jusquaNul := by
      unfold SnapshotEntree.relue at hse
      split at hse
      · cases hse
      · split at hse
        · cases hse
          rfl
        · cases hse
          rfl
    obtain ⟨hne, hbarre, hmem⟩ := mem_composants hn
    refine ⟨hne, hbarre, fun h0 => ?_⟩
    have h0' := hmem 0 h0
    rw [hchemin] at h0'
    simpa using mem_takeWhile_imp h0'
  exact hetend.sain_of_suit h.bienForme h.vide (h.bienForme.dans_racine.enfant hporte) h.nonNulle hx

theorem Accueille.sains_of_reconstruit (h : fs₁.Accueille r₁ k) {es : List SnapshotEntree}
    {ctx : Contexte} (hrec : fs.Reconstruit r
      (restaureLues ctx r₁ (image es) (fs₁.noteRacinePersistante r₁)).2 r₁) :
    fs.NomsSains r := by
  intro cs x hx n hn
  have hm := hrec.montre cs (ne_nil_of_mem hn)
  rw [FileSystem.montre, FileSystem.montre, hx, Option.map_some] at hm
  obtain ⟨y, hy, -⟩ := Option.map_eq_some_iff.mp hm
  exact h.sain_of_image es ctx hy n hn

variable {base : UInt64} {s : Etat} {d : DisqueBloc} {demi : Fin 2}

theorem Enregistrable.synchronise (h : fs.Enregistrable r) (hp : Pret m base s d demi) :
    ∃ s' d', (synchroniseSnapshot m (fs.rassembleSnapshot m) s).exec d =
        (((fs.rassemble.length : ℤ), s'), d') ∧
      zoneLue (Persist.vue base d') = image (fs.rassemble.map fs.entreeSnapshot) := by
  rw [h.rassembleSnapshot_eq]
  obtain ⟨s', d', hexec, hlue⟩ := hp.restaure (h.tient demi)
  rw [length_map] at hexec
  exact ⟨s', d', hexec, hlue⟩

/-- A synchronisation and the mount that follows rebuild the tree, as long as
every name below `/persist` is sound, and only then. -/
theorem synchronise_puis_monte (hp : Pret m base s d demi) (h : fs.Enregistrable r)
    (hc : fs₁.Accueille r₁ fs.rassemble.length) (ctx : Contexte) (s₁ : Etat) :
    ∃ s' d', (synchroniseSnapshot m (fs.rassembleSnapshot m) s).exec d =
        (((fs.rassemble.length : ℤ), s'), d') ∧
      (fs.Reconstruit r ((monte ctx m fs₁ s₁).exec d').1.1.2 r₁ ↔ fs.NomsSains r) := by
  obtain ⟨s', d', hexec, hlue⟩ := h.synchronise hp
  refine ⟨s', d', hexec, ?_⟩
  rw [exec_monte hc.racine hp.debut, hlue]
  constructor
  · exact fun hrec => hc.sains_of_reconstruit hrec
  · exact fun hsains => h.reconstruit hc hsains ctx

variable {nom : Nom}

theorem persistVide_enfants (i : Idx) : i ∉ persistVide.enfants 1 := by
  intro hi
  obtain ⟨hu, hp, -⟩ := mem_enfants.mp hi
  rcases persistVide_porte.mp ⟨hu, hp, rfl⟩ with ⟨-, h, -⟩ | ⟨-, -, h, -⟩
  · exact absurd h (by decide)
  · exact absurd h (by decide)

theorem persistVide_accueille : persistVide.Accueille 1 1 where
  bienForme := persistVide_bienForme
  racine := persistVide_bienForme.findChild_iff.mpr (persistVide_porte.mpr (.inl ⟨rfl, rfl, rfl⟩))
  nonNulle := by decide
  dossier := rfl
  vide := persistVide_enfants
  libres := Finset.card_pos.mpr ⟨2, Finset.mem_filter.mpr ⟨Finset.mem_univ _, by decide, rfl⟩⟩

theorem persistNom_findChild : (persistNom nom).findChild 0 nomPersist = some 1 :=
  (persistNom_bienForme nom).findChild_iff.mpr (persistNom_porte.mpr
    (.inr ⟨by decide, .inl ⟨rfl, rfl, rfl⟩⟩))

theorem persistNom_suit (hcs : cs ≠ []) : (persistNom nom).suit 1 cs = some x ↔
    cs = [nom.octets] ∧ x = 2 := by
  have hbien := persistNom_bienForme nom
  have hfichier : (persistNom nom).findChild 1 nom.octets = some 2 :=
    hbien.findChild_iff.mpr (persistNom_porte.mpr (.inl ⟨rfl, rfl, rfl⟩))
  constructor
  · intro hx
    obtain ⟨n, cs, rfl⟩ := exists_cons_of_ne_nil hcs
    obtain ⟨i, hi, hs⟩ := suit_cons_eq_some.mp hx
    rcases persistNom_porte.mp (hbien.findChild_iff.mp hi) with ⟨rfl, -, rfl⟩ | ⟨-, ⟨-, h, -⟩ | ⟨-, -, h, -⟩⟩
    · cases cs with
      | nil => exact ⟨rfl, (Option.some.inj hs).symm⟩
      | cons m cs =>
        -- a file has no children
        obtain ⟨j, hj, -⟩ := suit_cons_eq_some.mp hs
        rcases persistNom_porte.mp (hbien.findChild_iff.mp hj) with ⟨-, h, -⟩ | ⟨-, ⟨-, h, -⟩ | ⟨-, -, h, -⟩⟩ <;>
          exact absurd h (by decide)
    · exact absurd h (by decide)
    · exact absurd h (by decide)
  · rintro ⟨rfl, rfl⟩
    rw [suit_singleton, hfichier]

theorem persistNom_enregistrable (hrass : (persistNom nom).rassemble = [⟨nom.octets, 2, 0, ⟨false, 0o644, 0, 0⟩, none⟩])
    (hnom : nom.octets.length < cheminMax) (hvalide : Valid nom.octets) : (persistNom nom).Enregistrable 1 := by
  refine ⟨persistNom_bienForme nom, persistNom_findChild, by decide, fun i hu => ?_,
    fun cs x hx hcs => ?_, ?_, ?_⟩
  · rcases persistNom_porte.mp ⟨hu, rfl, rfl⟩ with ⟨-, -, hn⟩ | ⟨-, ⟨-, -, hn⟩ | ⟨-, -, -, hn⟩⟩
    · rwa [hn]
    · rw [hn]
      exact valid_of_ascii (by simp [nomPersist])
    · rw [hn]
      exact .nil
  · rw [((persistNom_suit hcs).mp hx).1]
    exact hnom
  · rw [hrass, length_singleton]
    decide
  · have hzero : secteursDe 0 ≤ secteursDemi - secteursTable := by decide
    rw [hrass, map_singleton, sum_singleton]
    exact hzero

theorem pret_volumeVierge : ∃ demi, Pret donnees 262144
    (Persist.Machine.monte 262144 volumeVierge).etat
    volumeVierge demi := by
  have hinv := Persist.Machine.inv_monte Persist.Machine.viergeOuV2_volumeVierge rfl
  refine hinv.pret Persist.Machine.debut_donnees rfl fun sb hsb => ?_
  have hnone : Persist.actif (Persist.vue 262144 volumeVierge) = some sb := hsb
  rw [Persist.Machine.actif_volumeVierge] at hnone
  cases hnone

set_option maxRecDepth 100000 in
/-- The file "/persist/a" comes back. -/
theorem synchronise_puis_monte_un_fichier :
    ∃ s' d', (synchroniseSnapshot donnees
        ((persistNom ⟨[97], by decide⟩).rassembleSnapshot donnees)
        (Persist.Machine.monte 262144 volumeVierge).etat).exec
          volumeVierge = ((1, s'), d') ∧
      (persistNom ⟨[97], by decide⟩).Reconstruit 1
        ((monte ⟨0, 0⟩ donnees persistVide .demarrage).exec d').1.1.2 1 := by
  have hrass : (persistNom ⟨[97], by decide⟩).rassemble = [⟨[97], 2, 0, ⟨false, 0o644, 0, 0⟩, none⟩] := by
    decide +kernel
  have henr := persistNom_enregistrable hrass (by decide) (valid_of_ascii (by simp))
  obtain ⟨demi, hp⟩ := pret_volumeVierge
  have hacc : persistVide.Accueille 1 (persistNom ⟨[97], by decide⟩).rassemble.length := by
    rw [hrass]
    exact persistVide_accueille
  obtain ⟨s', d', hexec, hiff⟩ := synchronise_puis_monte hp henr hacc ⟨0, 0⟩ .demarrage
  rw [hrass] at hexec
  refine ⟨s', d', hexec, hiff.mpr fun cs x hx n hn => ?_⟩
  rw [((persistNom_suit (ne_nil_of_mem hn)).mp hx).1, mem_singleton] at hn
  rw [hn]
  exact ⟨by decide, by decide, by decide⟩

set_option maxRecDepth 100000 in
/-- The name of the file "/persist/a\0b" is cut at the NUL: the synchronisation
counts it as saved, and the mount does not bring it back. -/
theorem nom_coupe_au_nul :
    ∃ s' d', (synchroniseSnapshot donnees
        ((persistNom ⟨[97, 0, 98], by decide⟩).rassembleSnapshot donnees)
        (Persist.Machine.monte 262144 volumeVierge).etat).exec
          volumeVierge = ((1, s'), d') ∧
      ¬(persistNom ⟨[97, 0, 98], by decide⟩).Reconstruit 1
        ((monte ⟨0, 0⟩ donnees persistVide .demarrage).exec d').1.1.2 1 := by
  have hrass : (persistNom ⟨[97, 0, 98], by decide⟩).rassemble = [⟨[97, 0, 98], 2, 0, ⟨false, 0o644, 0, 0⟩, none⟩] := by
    decide +kernel
  have henr := persistNom_enregistrable hrass (by decide) (valid_of_ascii (by simp))
  obtain ⟨demi, hp⟩ := pret_volumeVierge
  obtain ⟨s', d', hexec, hlue⟩ := henr.synchronise hp
  rw [hrass] at hexec
  refine ⟨s', d', hexec, fun hrec => ?_⟩
  rw [exec_monte persistVide_accueille.racine hp.debut, hlue] at hrec
  have hsains := persistVide_accueille.sains_of_reconstruit hrec
  have hsuit : (persistNom ⟨[97, 0, 98], by decide⟩).suit 1 [[97, 0, 98]] = some 2 :=
    (persistNom_suit (cons_ne_nil _ _)).mpr ⟨rfl, rfl⟩
  exact (hsains _ _ hsuit _ mem_cons_self).2.2 (by decide)

end FileSystem

end BouchaudOS.Ramfs
