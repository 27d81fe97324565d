import BouchaudOS.Ramfs.Arbre

/-!
# Renaming

`renameat2` resolves the two paths, decides and applies under one lock. The
decision is a pure function of what was resolved. Every accepted request keeps
the table a tree, and a refused one changes nothing.
-/

namespace BouchaudOS.Renommage

def renameNoreplace : UInt32 := 1

def renameExchange : UInt32 := 2

def renameWhiteout : UInt32 := 4

def enoent : ℤ := 2

def ebusy : ℤ := 16

def eexist : ℤ := 17

def enotdir : ℤ := 20

def eisdir : ℤ := 21

def einval : ℤ := 22

def erofs : ℤ := 30

def enametoolong : ℤ := 36

def enotempty : ℤ := 39

inductive Genre
  | fichier
  | dossier
  deriving DecidableEq

/-- A node that was resolved. -/
structure Noeud where
  genre : Genre
  racine : Bool
  disque : Bool
  vide : Bool
  deriving DecidableEq

inductive Nom
  | valide
  | invalide
  | tropLong
  deriving DecidableEq

inductive Parent
  | absent
  | pasUnDossier
  | dossier
  deriving DecidableEq

/-- All that the decision reads. -/
structure Demande where
  drapeaux : UInt32
  source : Option Noeud
  parentCible : Parent
  nomCible : Nom
  cible : Option Noeud
  memeNoeud : Bool
  cibleSousLaSource : Bool
  sourceSousLaCible : Bool
  deriving DecidableEq

inductive Action
  | rien
  | deplacer
  | remplacer
  | echanger
  deriving DecidableEq

/-- The flags are unknown, contradictory, or ask for a whiteout. -/
def drapeauxRefuses (drapeaux : UInt32) : Bool :=
  drapeaux &&& ~~~(renameNoreplace ||| renameExchange ||| renameWhiteout) != 0 ||
    (drapeaux &&& renameNoreplace != 0 && drapeaux &&& renameExchange != 0) ||
    drapeaux &&& renameWhiteout != 0

def estEchange (drapeaux : UInt32) : Bool := drapeaux &&& renameExchange != 0

/-- The last match of `decide`: what becomes of the target. -/
def decideCible (d : Demande) (source : Noeud) : Option Noeud → Except ℤ Action
  | none => if source.disque then .error erofs else .ok .deplacer
  | some c =>
    if c.racine then .error ebusy
    else if estEchange d.drapeaux then
      if c.genre = .dossier ∧ d.sourceSousLaCible then .error einval
      else if source.disque || c.disque then .error erofs
      else .ok .echanger
    else if source.genre = .fichier ∧ c.genre = .dossier then .error eisdir
    else if source.genre = .dossier ∧ c.genre = .fichier then .error enotdir
    else if source.genre = .dossier ∧ c.genre = .dossier ∧ !c.vide then .error enotempty
    else if source.disque || c.disque then .error erofs
    else .ok .remplacer

/-- `decide`, once the source, the directory and the name are accepted. -/
def decidePlace (d : Demande) (source : Noeud) : Except ℤ Action :=
  if d.drapeaux &&& renameNoreplace != 0 && d.cible.isSome then .error eexist
  else if d.cible.isNone && estEchange d.drapeaux then .error enoent
  else if d.cible.isSome && d.memeNoeud then .ok .rien
  else if source.genre = .dossier ∧ d.cibleSousLaSource then .error einval
  else decideCible d source d.cible

protected def decide (d : Demande) : Except ℤ Action :=
  if drapeauxRefuses d.drapeaux then .error einval
  else
    match d.source with
    | none => .error enoent
    | some source =>
      if source.racine then .error ebusy
      else
        match d.parentCible with
        | .absent => .error enoent
        | .pasUnDossier => .error enotdir
        | .dossier =>
          match d.nomCible with
          | .invalide => .error einval
          | .tropLong => .error enametoolong
          | .valide => decidePlace d source

def classeNom (nom : List UInt8) (longueurMax : ℕ) : Nom :=
  if nom = [] ∨ nom = Ramfs.FileSystem.point ∨ nom = Ramfs.FileSystem.pointPoint then .invalide
  else if longueurMax < nom.length then .tropLong
  else .valide

theorem classeNom_eq_valide {nom : List UInt8} {m : ℕ} (h : classeNom nom m = .valide) :
    nom ≠ [] ∧ nom.length ≤ m := by
  unfold classeNom at h
  split_ifs at h with hne hlen
  exact ⟨fun he => hne (.inl he), not_lt.mp hlen⟩

/-- The grounds of an accepted action, for a source that is not the root. -/
inductive Accepte (d : Demande) (source : Noeud) : Action → Prop
  | rien {c : Noeud} : d.cible = some c → d.memeNoeud = true → Accepte d source .rien
  | deplacer : d.cible = none →
      (source.genre = .dossier → d.cibleSousLaSource = false) → Accepte d source .deplacer
  | remplacer {c : Noeud} : d.cible = some c → d.memeNoeud = false →
      (source.genre = .dossier → d.cibleSousLaSource = false) → c.racine = false →
      estEchange d.drapeaux = false → (c.genre = .dossier → c.vide = true) →
      Accepte d source .remplacer
  | echanger {c : Noeud} : d.cible = some c → d.memeNoeud = false →
      (source.genre = .dossier → d.cibleSousLaSource = false) → c.racine = false →
      estEchange d.drapeaux = true → (c.genre = .dossier → d.sourceSousLaCible = false) →
      Accepte d source .echanger

theorem ite_error_eq_ok {c : Prop} [Decidable c] {e : ℤ} {x : Except ℤ Action} {a : Action} :
    (if c then .error e else x) = .ok a ↔ ¬c ∧ x = .ok a := by
  split <;> simp [*]

theorem decideCible_eq_ok {d : Demande} {source : Noeud} {a : Action}
    (hmeme : d.cible.isSome = true → d.memeNoeud = false)
    (hsous : source.genre = .dossier → d.cibleSousLaSource = false)
    (h : decideCible d source d.cible = .ok a) : Accepte d source a := by
  cases hc : d.cible with
  | none =>
    simp only [hc, decideCible, ite_error_eq_ok] at h
    obtain ⟨-, ⟨⟩⟩ := h
    exact .deplacer hc hsous
  | some c =>
    simp only [hc, decideCible, ite_error_eq_ok, Bool.not_eq_true] at h
    obtain ⟨hr, h⟩ := h
    have hne := hmeme (by simp [hc])
    split at h
    · rename_i he
      simp only [ite_error_eq_ok] at h
      obtain ⟨hsc, -, ⟨⟩⟩ := h
      exact .echanger hc hne hsous hr he fun hg => by simpa [hg] using hsc
    · rename_i he
      simp only [ite_error_eq_ok] at h
      obtain ⟨hfd, -, hdd, -, ⟨⟩⟩ := h
      refine .remplacer hc hne hsous hr (by simpa using he) fun hg => ?_
      cases hs : source.genre with
      | fichier => exact absurd ⟨hs, hg⟩ hfd
      | dossier => simpa [hs, hg] using hdd

theorem decide_eq_ok {d : Demande} {a : Action} (h : Renommage.decide d = .ok a) :
    ∃ source, d.source = some source ∧ source.racine = false ∧ d.parentCible = .dossier ∧
      d.nomCible = .valide ∧ Accepte d source a := by
  obtain ⟨-, h⟩ := ite_error_eq_ok.mp h
  split at h
  · cases h
  rename_i source hsource
  obtain ⟨hr, h⟩ := ite_error_eq_ok.mp h
  split at h
  · cases h
  · cases h
  rename_i hparent
  split at h
  · cases h
  · cases h
  rename_i hnom
  refine ⟨source, hsource, by simpa using hr, hparent, hnom, ?_⟩
  simp only [decidePlace, ite_error_eq_ok] at h
  obtain ⟨-, -, h⟩ := h
  split at h
  · rename_i hm
    rw [Bool.and_eq_true] at hm
    obtain ⟨c, hc⟩ := Option.isSome_iff_exists.mp hm.1
    cases h
    exact .rien hc hm.2
  · rename_i hm
    obtain ⟨hs, h⟩ := ite_error_eq_ok.mp h
    exact decideCible_eq_ok (fun hc => by simpa [hc] using hm) (fun hg => by simpa [hg] using hs) h

theorem decide_eq_error {d : Demande} {e : ℤ} (h : Renommage.decide d = .error e) : 0 < e := by
  unfold Renommage.decide decidePlace at h
  have hcible : ∀ {s : Noeud} {c : Option Noeud}, decideCible d s c = .error e → 0 < e := by
    intro s c hc
    unfold decideCible at hc
    repeat' split at hc
    all_goals cases hc <;> decide
  repeat' split at h
  all_goals
    first
    | exact hcible h
    | cases h <;> decide

end BouchaudOS.Renommage

namespace BouchaudOS.Ramfs.FileSystem

open Renommage (Action Demande Accepte renameExchange estEchange)

variable (ctx : Contexte) (fs : FileSystem)

/-- A node as the decision sees it. -/
def decrit (i : Idx) : Renommage.Noeud where
  genre := if (fs.nodes i).kind = .dir then .dossier else .fichier
  racine := i = 0
  disque := fs.disque i
  vide := (fs.nodes i).kind ≠ .dir || fs.isEmptyDir i

/-- The loop of `sous`, which takes a walk that does not end for a descent. -/
def sousBoucle (ancetre : Idx) : ℕ → Idx → Bool
  | 0, _ => true
  | n + 1, x =>
    if x = ancetre then true
    else if x = 0 then false
    else sousBoucle ancetre n (fs.nodes x).parent

/-- Is `x` the node `ancetre`, or below it? -/
def sous (x ancetre : Idx) : Bool := fs.sousBoucle ancetre (maxNodes + 1) x

/-- Give a node its new parent, then its new name if that is accepted. -/
def rattache (s p : Idx) (name : List UInt8) : Bool × FileSystem :=
  let fs := fs.modifie s fun n => { n with parent := p }
  match Nom.lit name with
  | none => (false, fs)
  | some nom => (true, fs.modifie s fun n => { n with name := nom })

/-- The child of the target directory that bears the target name. -/
def cibleDe : Option Idx → List UInt8 → Option Idx
  | none, _ => none
  | some p, nom => if (fs.nodes p).kind = .dir then fs.findChild p nom else none

/-- What the system call submits to the decision. -/
def demande (drapeaux : UInt32) (source parent : Option Idx) (nom : List UInt8) : Demande where
  drapeaux := drapeaux
  source := source.map fs.decrit
  parentCible :=
    match parent with
    | none => .absent
    | some p => if (fs.nodes p).kind = .dir then .dossier else .pasUnDossier
  nomCible := Renommage.classeNom nom nameLen
  cible := (fs.cibleDe parent nom).map fs.decrit
  memeNoeud := source.isSome && fs.cibleDe parent nom = source
  cibleSousLaSource :=
    match source, parent with
    | some s, some p => fs.sous p s
    | _, _ => false
  sourceSousLaCible :=
    match source, fs.cibleDe parent nom with
    | some s, some c => fs.sous (fs.nodes s).parent c
    | _, _ => false

/-- Apply an accepted action. -/
def applique (action : Action) (s p : Idx) (nom : List UInt8) (cible : Option Idx) : ℤ × FileSystem :=
  match action with
  | .rien => (0, fs)
  | .echanger =>
    match cible with
    | none => (-Renommage.enoent, fs)
    | some c =>
      let echanges := (fs.modifie s fun n =>
          { n with parent := (fs.nodes c).parent, name := (fs.nodes c).name }).modifie c fun n =>
        { n with parent := (fs.nodes s).parent, name := (fs.nodes s).name }
      (0, (echanges.touche ctx (echanges.nodes s).parent).touche ctx (echanges.nodes c).parent)
  | .deplacer | .remplacer =>
    let fs :=
      match action, cible with
      | .remplacer, some c => fs.libereNoeud c
      | _, _ => fs
    let fs := (fs.touche ctx (fs.nodes s).parent).touche ctx p
    match fs.rattache s p nom with
    | (true, fs) => (0, fs)
    | (false, fs) => (-Renommage.enametoolong, fs)

/-- `sys_renameat2`, from the two absolute paths on. -/
def sysRenameat2 (drapeaux : UInt32) (de vers : List UInt8) : ℤ × FileSystem :=
  let source := fs.resolve de 0
  let parent := (fs.resolveParentName vers 0).map Prod.fst
  let nom := ((fs.resolveParentName vers 0).map Prod.snd).getD []
  match Renommage.decide (fs.demande drapeaux source parent nom) with
  | .error code => (-code, fs)
  | .ok action =>
    match source, parent with
    | some s, some p => fs.applique ctx action s p nom (fs.cibleDe parent nom)
    | _, _ => (-Renommage.einval, fs)

variable {ctx : Contexte} {fs fs' : FileSystem} {s c p i x : Idx} {nom : List UInt8} {nom' : Nom}

theorem climbs_of_sousBoucle {n : ℕ} (h : fs.sousBoucle s n x = false) : Climbs fs.parents 0 (· ≠ s) x := by
  induction n generalizing x with
  | zero => cases h
  | succ n ih =>
    unfold sousBoucle at h
    split at h
    · cases h
    rename_i hxs
    split at h
    · rename_i hx
      rw [hx] at hxs ⊢
      exact .root hxs
    · exact .step hxs (ih h)

theorem climbs_of_sous (h : fs.sous x s = false) : Climbs fs.parents 0 (· ≠ s) x :=
  climbs_of_sousBoucle h

theorem BienForme.climbs_of_file (h : fs.BienForme) (hx : fs.Dans x) (hxs : x ≠ s)
    (hs : (fs.nodes s).kind = .file) : Climbs fs.parents 0 (· ≠ s) x := by
  obtain ⟨hu, hr⟩ := hx
  induction hr with
  | root _ => exact .root hxs
  | @step x _ hup ih =>
    have ha : fs.estAnonyme x = false := Remonte.nonAnonyme (.step trivial hup)
    refine .step hxs (ih (h.feuille_of_file hs x hu ha) (h.parentUtilise x hu ha))

theorem rattache_of_lit (h : Nom.lit nom = some nom') : fs.rattache s p nom = (true, fs.pose s p nom') := by
  unfold rattache
  rw [h]
  dsimp only
  rw [modifie_modifie]
  rfl

theorem Meme.pose (h : Meme fs fs') (nom : Nom) : Meme (fs.pose s p nom) (fs'.pose s p nom) := by
  intro i
  by_cases hi : i = s
  · subst hi
    have := Node.sansDate_eq_iff.mp (h i)
    rw [pose_nodes_self, pose_nodes_self, Node.sansDate_eq_iff]
    simp [this]
  · rw [pose_nodes_of_ne hi, pose_nodes_of_ne hi]
    exact h i

/-- What an accepted request makes of the table. -/
inductive Effet (fs : FileSystem) (drapeaux : UInt32) (s p : Idx) (nom : Nom) : FileSystem → Prop
  | rien : fs.Porte p nom.octets s → Effet fs drapeaux s p nom fs
  | deplace {fs' : FileSystem} : (∀ i, ¬fs.Porte p nom.octets i) →
      Climbs fs.parents 0 (· ≠ s) p → Meme (fs.pose s p nom) fs' →
      Note fs fs' [fs.parents s, p] → Effet fs drapeaux s p nom fs'
  | remplace {fs' : FileSystem} {c : Idx} : fs.Porte p nom.octets c → c ≠ s → c ≠ 0 →
      estEchange drapeaux = false → (fs.nodes c).kind = .file ∨ fs.isEmptyDir c = true →
      Climbs fs.parents 0 (· ≠ s) p → Meme ((fs.libre c).pose s p nom) fs' →
      Note fs fs' [c, fs.parents s, p] → Effet fs drapeaux s p nom fs'
  | echange {fs' : FileSystem} {c : Idx} : fs.Porte p nom.octets c → c ≠ s → c ≠ 0 →
      estEchange drapeaux = true → Climbs fs.parents 0 (· ≠ s) p →
      Climbs fs.parents 0 (· ≠ c) (fs.parents s) → Meme (fs.echange s c) fs' →
      Note (fs.echange s c) fs' [(fs.echange s c).parents s, (fs.echange s c).parents c] →
      Effet fs drapeaux s p nom fs'

theorem decrit_genre_dossier : (fs.decrit i).genre = .dossier ↔ (fs.nodes i).kind = .dir := by
  unfold decrit
  split <;> simp_all

theorem decrit_racine (h : (fs.decrit i).racine = false) : i ≠ 0 := by
  unfold decrit at h
  rwa [decide_eq_false_iff_not] at h

section

variable {drapeaux : UInt32} {parent : Option Idx} (hc : fs.cibleDe parent nom = some c)

include hc

theorem demande_memeNoeud : (fs.demande drapeaux (some s) parent nom).memeNoeud = decide (c = s) := by
  unfold demande
  simp [hc]

theorem demande_sourceSousLaCible :
    (fs.demande drapeaux (some s) parent nom).sourceSousLaCible = fs.sous (fs.parents s) c := by
  unfold demande
  simp only [hc]
  rfl

end

/-- A walk that was checked for directories only is enough: files have nothing
below them. -/
theorem BienForme.climbs_of_decrit (h : fs.BienForme) (hx : fs.Dans x)
    (hxs : x = s → (fs.nodes s).kind = .dir)
    (hs : (fs.decrit s).genre = .dossier → fs.sous x s = false) :
    Climbs fs.parents 0 (· ≠ s) x := by
  cases hk : (fs.nodes s).kind with
  | dir => exact climbs_of_sous (hs (decrit_genre_dossier.mpr hk))
  | file =>
    refine h.climbs_of_file hx (fun he => ?_) hk
    rw [hxs he] at hk
    cases hk

variable {drapeaux : UInt32} {d : Demande} {a : Action} (ctx : Contexte)

theorem touche_touche_pose (fs : FileSystem) (s p : Idx) (nom : Nom) :
    Meme (fs.pose s p nom) (((fs.touche ctx (fs.parents s)).touche ctx p).pose s p nom) ∧
    Note fs (((fs.touche ctx (fs.parents s)).touche ctx p).pose s p nom) [fs.parents s, p] := by
  have hm := touche_meme ctx fs (fs.parents s)
  have hm' := touche_meme ctx (fs.touche ctx (fs.parents s)) p
  have hn := (touche_note ctx fs (fs.parents s)).trans hm.arbre.parents_eq
    (touche_note ctx (fs.touche ctx (fs.parents s)) p)
  exact ⟨(hm.trans hm').pose nom, hn.racine, hn.generation⟩

theorem applique_remplacer (s p : Idx) (hc0 : c ≠ 0)
    (hu : (fs.nodes c).used = true) (hlit : Nom.lit nom = some nom') :
    ∃ fs', fs.applique ctx .remplacer s p nom (some c) = (0, fs') ∧
      Meme ((fs.libre c).pose s p nom') fs' ∧ Note fs fs' [c, fs.parents s, p] := by
  have hm := libereNoeud_meme hc0 hu
  have hparents : (fs.libereNoeud c).parents = fs.parents := hm.arbre.parents_eq.trans libre_parents
  obtain ⟨hm', hn'⟩ := touche_touche_pose ctx (fs.libereNoeud c) s p nom'
  refine ⟨_, ?_, (hm.pose nom').trans hm', ?_⟩
  · simp only [applique]
    rw [rattache_of_lit hlit]
    rfl
  · have hn := (libereNoeud_note hc0 hu).trans hparents hn'
    rwa [show (fs.libereNoeud c).parents s = fs.parents s from congrFun hparents s] at hn ⊢

theorem applique_deplacer (s p : Idx) (hlit : Nom.lit nom = some nom') (cible : Option Idx) :
    ∃ fs', fs.applique ctx .deplacer s p nom cible = (0, fs') ∧ Meme (fs.pose s p nom') fs' ∧
      Note fs fs' [fs.parents s, p] := by
  obtain ⟨hm, hn⟩ := touche_touche_pose ctx fs s p nom'
  refine ⟨_, ?_, hm, hn⟩
  simp only [applique]
  rw [rattache_of_lit hlit]
  rfl

theorem applique_echanger (fs : FileSystem) (s c p : Idx) (nom : List UInt8) :
    ∃ fs', fs.applique ctx .echanger s p nom (some c) = (0, fs') ∧ Meme (fs.echange s c) fs' ∧
      Note (fs.echange s c) fs' [(fs.echange s c).parents s, (fs.echange s c).parents c] := by
  have hm := touche_meme ctx (fs.echange s c) ((fs.echange s c).parents s)
  exact ⟨_, rfl, hm.trans (touche_meme ctx _ ((fs.echange s c).parents c)),
    (touche_note ctx (fs.echange s c) _).trans hm.arbre.parents_eq (touche_note ctx _ _)⟩

/-- The action that was accepted is applied, on nodes of the tree. -/
theorem BienForme.applique_effet (h : fs.BienForme) (ctx : Contexte) (hs : fs.Dans s) (hp : fs.Dans p)
    (hd : (fs.nodes p).kind = .dir) (hlit : Nom.lit nom = some nom')
    (hacc : Accepte (fs.demande drapeaux (some s) (some p) nom) (fs.decrit s) a) :
    ∃ fs', fs.applique ctx a s p nom (fs.cibleDe (some p) nom) = (0, fs') ∧
      Effet fs drapeaux s p nom' fs' := by
  have hnom : nom = nom'.octets := (Nom.lit_eq_some.mp hlit).2.symm
  have hcible : fs.cibleDe (some p) nom = fs.findChild p nom := if_pos hd
  have hsous : ((fs.decrit s).genre = .dossier → fs.sous p s = false) →
      Climbs fs.parents 0 (· ≠ s) p := h.climbs_of_decrit hp fun he => he ▸ hd
  -- the target that the decision saw is a child of `p`
  have htrouve : ∀ {n : Renommage.Noeud},
      (fs.demande drapeaux (some s) (some p) nom).cible = some n →
      ∃ c, fs.cibleDe (some p) nom = some c ∧ fs.Porte p nom'.octets c ∧ n = fs.decrit c := by
    intro n hn
    obtain ⟨c, hc, rfl⟩ := Option.map_eq_some_iff.mp hn
    exact ⟨c, hc, hnom ▸ h.findChild_iff.mp (hcible.symm.trans hc), rfl⟩
  cases hacc with
  | rien hc hm =>
    obtain ⟨c, hfind, hporte, -⟩ := htrouve hc
    rw [demande_memeNoeud hfind, decide_eq_true_iff] at hm
    subst hm
    exact ⟨fs, rfl, .rien hporte⟩
  | deplacer hc hs' =>
    have hnone : fs.cibleDe (some p) nom = none := Option.map_eq_none_iff.mp hc
    obtain ⟨fs', happ, hm, hn⟩ := applique_deplacer ctx s p hlit none
    exact ⟨fs', happ, .deplace (hnom ▸ findChild_eq_none.mp (hcible.symm.trans hnone)) (hsous hs') hm hn⟩
  | remplacer hc hm hs' hr he hv =>
    obtain ⟨c, hfind, hporte, rfl⟩ := htrouve hc
    rw [demande_memeNoeud hfind, decide_eq_false_iff_not] at hm
    have hc0 : c ≠ 0 := decrit_racine hr
    obtain ⟨fs', happ, hmeme', hn⟩ := applique_remplacer ctx s p hc0 hporte.1 hlit
    rw [hfind]
    refine ⟨fs', happ, .remplace hporte hm hc0 he ?_ (hsous hs') hmeme' hn⟩
    cases hk : (fs.nodes c).kind with
    | file => exact .inl rfl
    | dir =>
      have hvide := hv (decrit_genre_dossier.mpr hk)
      simp only [decrit, hk, ne_eq, not_true_eq_false, decide_false, Bool.false_or] at hvide
      exact .inr hvide
  | echanger hc hm hs' hr he hv =>
    obtain ⟨c, hfind, hporte, rfl⟩ := htrouve hc
    rw [demande_memeNoeud hfind, decide_eq_false_iff_not] at hm
    have hc0 : c ≠ 0 := decrit_racine hr
    obtain ⟨fs', happ, hmeme', hn⟩ := applique_echanger ctx fs s c p nom
    rw [hfind]
    refine ⟨fs', happ, .echange hporte hm hc0 he (hsous hs') ?_ hmeme' hn⟩
    have hsc : (fs.decrit c).genre = .dossier → fs.sous (fs.parents s) c = false := fun hg => by
      rw [← demande_sourceSousLaCible hfind]
      exact hv hg
    refine h.climbs_of_decrit (h.dans_parent hs) (fun he => ?_) hsc
    rw [← he]
    exact h.parentDossier s hs.1 hs.2.nonAnonyme

/-- A request is refused and nothing changes, or its effect is one of the four. -/
theorem BienForme.sysRenameat2_cases (h : fs.BienForme) (ctx : Contexte) (drapeaux : UInt32)
    (de vers : List UInt8) :
    (∃ e, 0 < e ∧ fs.sysRenameat2 ctx drapeaux de vers = (-e, fs)) ∨
    ∃ (s p : Idx) (nom : Nom) (fs' : FileSystem), fs.resolve de 0 = some s ∧
      fs.resolveParentName vers 0 = some (p, nom.octets) ∧ s ≠ 0 ∧ fs.Dans s ∧ fs.Dans p ∧
      (fs.nodes p).kind = .dir ∧ fs.sysRenameat2 ctx drapeaux de vers = (0, fs') ∧
      Effet fs drapeaux s p nom fs' := by
  unfold sysRenameat2
  dsimp only
  generalize hsource : fs.resolve de 0 = source
  generalize hcoupe : fs.resolveParentName vers 0 = place
  cases hdec : Renommage.decide (fs.demande drapeaux source (place.map Prod.fst)
      ((place.map Prod.snd).getD [])) with
  | error e => exact .inl ⟨e, Renommage.decide_eq_error hdec, rfl⟩
  | ok a =>
    right
    obtain ⟨noeud, hnoeud, hr, hparent, hnom, hacc⟩ := Renommage.decide_eq_ok hdec
    obtain ⟨s, rfl, rfl⟩ := Option.map_eq_some_iff.mp hnoeud
    cases place with
    | none => cases hparent
    | some place =>
      obtain ⟨p, nom⟩ := place
      have hd : (fs.nodes p).kind = .dir := by
        by_contra hne
        have hpas : (fs.demande drapeaux (some s) (some p) nom).parentCible = .pasUnDossier :=
          if_neg hne
        cases hpas.symm.trans hparent
      obtain ⟨hne, hlen⟩ := Renommage.classeNom_eq_valide hnom
      have hlit : Nom.lit nom = some ⟨nom, hlen⟩ := Nom.lit_eq_some.mpr ⟨hne, rfl⟩
      have hs := h.dans_resolve h.dans_racine hsource
      have hp := h.dans_resolveParentName h.dans_racine hcoupe
      obtain ⟨fs', happ, heff⟩ := h.applique_effet ctx hs hp hd hlit hacc
      exact ⟨s, p, ⟨nom, hlen⟩, fs', rfl, rfl, decrit_racine hr, hs, hp, hd, happ, heff⟩

section

variable {nom : Nom}

theorem Effet.source_garde (he : Effet fs drapeaux s p nom fs') :
    (fs'.nodes s).sansPlace = (fs.nodes s).sansPlace := by
  cases he with
  | rien _ => rfl
  | deplace _ _ hm _ =>
    rw [Node.sansPlace_of_sansDate (hm s), pose_nodes_self]
    rfl
  | remplace _ hcs _ _ _ _ hm _ =>
    rw [Node.sansPlace_of_sansDate (hm s), pose_nodes_self, libre_nodes_of_ne hcs.symm]
    rfl
  | echange _ hcs _ _ _ _ hm _ =>
    rw [Node.sansPlace_of_sansDate (hm s), echange_nodes_gauche hcs.symm]
    rfl

theorem Effet.autres (he : Effet fs drapeaux s p nom fs') (his : i ≠ s)
    (hi : ¬fs.Porte p nom.octets i) : (fs'.nodes i).sansDate = (fs.nodes i).sansDate := by
  cases he with
  | rien _ => rfl
  | deplace _ _ hm _ => rw [hm i, pose_nodes_of_ne his]
  | @remplace _ c hc _ _ _ _ _ hm _ =>
    have hic : i ≠ c := fun he => hi (he ▸ hc)
    rw [hm i, pose_nodes_of_ne his, libre_nodes_of_ne hic]
  | @echange _ c hc _ _ _ _ _ hm _ =>
    have hic : i ≠ c := fun he => hi (he ▸ hc)
    rw [hm i, echange_nodes_of_ne his hic]

variable (h : fs.BienForme) (hs : fs.Dans s) (hs0 : s ≠ 0) (hp : fs.Dans p) (hd : (fs.nodes p).kind = .dir)

include h hp hd

/-- Freeing a leaf of `p` leaves room for the source there. -/
theorem BienForme.pose_libre (hc : fs.Porte p nom.octets c) (hc0 : c ≠ 0)
    (hfeuille : (fs.nodes c).kind = .file ∨ fs.isEmptyDir c = true)
    (hclimb : Climbs fs.parents 0 (· ≠ s) p) : ((fs.libre c).pose s p nom).BienForme := by
  have hpc : p ≠ c := by
    rintro rfl
    exact hc0 (hp.2.eq_root_of_fixed hc.2.1)
  have hlibre : (fs.libre c).BienForme := by
    refine h.libre hc0 fun j hj ha => ?_
    rcases hfeuille with hf | hf
    · exact h.feuille_of_file hf j hj ha
    · exact h.feuille_of_isEmptyDir hc0 hf j hj ha
  refine hlibre.pose_dossier (fun i _ hi => ?_) (libre_used.mpr ⟨hpc, hp.1⟩) ?_ ?_
  · obtain ⟨hic, hi⟩ := libre_porte.mp hi
    exact hic (h.noms _ _ i c hi hc)
  · rw [libre_nodes_of_ne hpc]
    exact hd
  · rw [libre_parents]
    exact hclimb

include hs hs0

theorem Effet.bienForme (he : Effet fs drapeaux s p nom fs') : fs'.BienForme := by
  cases he with
  | rien _ => exact h
  | deplace hl hclimb hm _ => exact hm.arbre.bienForme (h.pose_dossier (fun i _ => hl i) hp.1 hd hclimb)
  | remplace hc _ hc0 _ hfeuille hclimb hm _ =>
    exact hm.arbre.bienForme (h.pose_libre hp hd hc hc0 hfeuille hclimb)
  | echange hc hcs hc0 _ hclimb hclimb' hm _ =>
    refine hm.arbre.bienForme (h.echange hcs.symm hs (hp.enfant hc) hs0 hc0 ?_ hclimb')
    rw [hc.2.1]
    exact hclimb

theorem Effet.source_trouvee (he : Effet fs drapeaux s p nom fs') : fs'.findChild p nom.octets = some s := by
  rw [(he.bienForme h hs hs0 hp hd).findChild_iff]
  have hpose : ∀ {fs1 : FileSystem}, (fs1.nodes s).used = true → (fs1.pose s p nom).Porte p nom.octets s := by
    intro fs1 hu
    refine ⟨by rwa [pose_used], pose_parents_self, ?_⟩
    rw [pose_nodes_self]
  cases he with
  | rien hporte => exact hporte
  | deplace _ _ hm _ => exact hm.arbre.porte_iff.mpr (hpose hs.1)
  | remplace _ hcs _ _ _ _ hm _ => exact hm.arbre.porte_iff.mpr (hpose (libre_used.mpr ⟨hcs.symm, hs.1⟩))
  | echange hc hcs _ _ _ _ hm _ =>
    rw [hm.arbre.porte_iff, echange_porte hcs.symm hs.1 hc.1, Equiv.swap_apply_left]
    exact hc

/-- An old target takes the place of the source, or is freed. -/
theorem Effet.cible (he : Effet fs drapeaux s p nom fs') (hc : fs.Porte p nom.octets c) (hcs : c ≠ s) :
    if estEchange drapeaux then
      fs'.findChild (fs.parents s) (fs.nodes s).name.octets = some c ∧
        (fs'.nodes c).sansPlace = (fs.nodes c).sansPlace
    else (fs'.nodes c).used = false := by
  have hbien := he.bienForme h hs hs0 hp hd
  cases he with
  | rien hporte => exact absurd (h.noms _ _ c s hc hporte) hcs
  | deplace hl _ _ _ => exact absurd hc (hl c)
  | @remplace _ c' hc' _ _ hech _ _ hm _ =>
    rw [h.noms _ _ c c' hc hc', if_neg (by simp [hech]), hm.arbre.used_eq, pose_used, ← Bool.not_eq_true,
      libre_used]
    exact fun hne => hne.1 rfl
  | @echange _ c' hc' hcs' _ hech _ _ hm _ =>
    have hcc : c' = c := h.noms _ _ c' c hc' hc
    subst hcc
    rw [if_pos hech, hbien.findChild_iff, hm.arbre.porte_iff, echange_porte hcs'.symm hs.1 hc.1,
      Equiv.swap_apply_right, Node.sansPlace_of_sansDate (hm c'), echange_nodes_droite hcs'.symm]
    exact ⟨⟨hs.1, rfl, rfl⟩, rfl⟩

end

/-- For every tree, flag word and pair of paths: the table is a tree afterwards; a
refused request changes nothing; an accepted one puts the source at the target,
the old target at the source's old place or out of use, and touches nothing else
but dates. -/
theorem renommage_garde_arbre (h : fs.BienForme) (ctx : Contexte) (drapeaux : UInt32)
    (de vers : List UInt8) {r : ℤ × FileSystem} (hr : fs.sysRenameat2 ctx drapeaux de vers = r) :
    r.2.BienForme ∧ (r.1 < 0 → r.2 = fs) ∧
    (0 ≤ r.1 → ∃ s p nom, fs.resolve de 0 = some s ∧
      fs.resolveParentName vers 0 = some (p, nom) ∧ r.2.findChild p nom = some s ∧
      (r.2.nodes s).sansPlace = (fs.nodes s).sansPlace ∧
      (∀ c, fs.findChild p nom = some c → c ≠ s →
        if estEchange drapeaux then
          r.2.findChild (fs.nodes s).parent (fs.nodes s).name.octets = some c ∧
            (r.2.nodes c).sansPlace = (fs.nodes c).sansPlace
        else (r.2.nodes c).used = false) ∧
      ∀ i, i ≠ s → fs.findChild p nom ≠ some i → (r.2.nodes i).sansDate = (fs.nodes i).sansDate) := by
  rw [← hr]
  rcases h.sysRenameat2_cases ctx drapeaux de vers with ⟨e, hpos, he⟩ | ⟨s, p, nom, fs', hsource,
    hcoupe, hs0, hs, hp, hd, he, heff⟩
  · rw [he]
    refine ⟨h, fun _ => rfl, fun hneg => ?_⟩
    omega
  · rw [he]
    refine ⟨heff.bienForme h hs hs0 hp hd, fun hneg => absurd hneg (lt_irrefl 0), fun _ => ?_⟩
    refine ⟨s, p, nom.octets, hsource, hcoupe, heff.source_trouvee h hs hs0 hp hd,
      heff.source_garde, fun c hc hcs => ?_, fun i his hi => ?_⟩
    · exact heff.cible h hs hs0 hp hd (h.findChild_iff.mp hc) hcs
    · exact heff.autres his fun hporte => hi (h.findChild_iff.mpr hporte)

def fichierA : FileSystem := vierge.nouveau ⟨0, 0⟩ .file 0o644 1 0 ⟨[97], by decide⟩

theorem fichierA_bienForme : fichierA.BienForme :=
  vierge_nouveau_bienForme _ _ _ (by decide) (by decide)

/-- Renaming "/a" to "/b". -/
theorem renommage_garde_fichierA : fichierA.BienForme ∧
    (fichierA.sysRenameat2 ⟨0, 0⟩ 0 [47, 97] [47, 98]).2.BienForme :=
  ⟨fichierA_bienForme, (renommage_garde_arbre fichierA_bienForme ⟨0, 0⟩ 0 [47, 97] [47, 98] rfl).1⟩

end BouchaudOS.Ramfs.FileSystem
