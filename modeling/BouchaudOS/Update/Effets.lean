import BouchaudOS.Update.Noyau

/-!
# What each entry point of the update mechanism does

For every call of `Noyau`: the blocks it may write and how it changes the
kernel's state, on any device and whatever requests fail. The results about
whole runs of the mechanism are derived from this description and never look
at the calls again.
-/
namespace BouchaudOS.Update.Noyau

open Gpt Enregistrement List UInt64
open Prog hiding pure

variable (ctx : Contexte) (D : Device Adresse (List UInt8))

/-- The search for the META partition can end with this entry on the disk `d`. -/
def Trouve (p : Passage) (d : Disk Adresse (List UInt8)) (s : SupportVolume) (m : Partition) : Prop :=
  Run D (trouvePartitionMeta ctx p, d) (.pure (.ok (s, m)), d)

/-- What is known of an entry the search ends with. -/
structure MetaTrouvee (p : Passage) (s : SupportVolume) (m : Partition) : Prop where
  bloc : octets ≤ s.tailleBloc.toNat
  blocs : 2 ≤ m.blocs
  vidange : (ctx.materiel.descripteur s.volume).vidangeReelle = true
  type : m.typeGuid = typeMeta
  unique : m.unique.octets = p.metaUnique.toList

variable {ctx D} {I : DisqueBloc → Prop} {W : Adresse → Prop} {p : Passage} {d : DisqueBloc}

theorem chercheMeta_readOnly (p : Passage) (vs : List Volume) : (chercheMeta ctx p vs).ReadOnly := by
  induction vs with
  | nil => exact trivial
  | cons v vs ih =>
    simp only [chercheMeta]
    split
    · exact ih
    split
    · exact ih
    refine ReadOnly.bind (litTable_readOnly _) fun r => ?_
    rcases r with e | ⟨parts, b⟩
    · exact ih
    simp only
    split
    · exact ih
    · split_ifs <;> exact trivial

theorem trouvePartitionMeta_readOnly (p : Passage) : (trouvePartitionMeta ctx p).ReadOnly := by
  unfold trouvePartitionMeta
  split_ifs
  · exact trivial
  · exact chercheMeta_readOnly p _

theorem wp_chercheMeta (hI : I d) (vs : List Volume) :
    wp D I W (fun r _ => ∀ s m, r = .ok (s, m) → MetaTrouvee ctx p s m) (chercheMeta ctx p vs) d := by
  induction vs with
  | nil => exact ⟨hI, by simp⟩
  | cons v vs ih =>
    simp only [chercheMeta]
    split
    · exact ih
    split
    · exact ih
    rename_i hb
    refine wp_bind _ _ _ (((litTable_readOnly _).wp hI).imp ?_)
    rintro (e | ⟨parts, b⟩) d' ⟨rfl, -⟩
    · exact ih
    simp only
    split
    · exact ih
    · rename_i m hm
      have hm' := find?_some hm
      simp only [decide_eq_true_eq] at hm'
      split_ifs with h2 hv
      · exact ⟨hI, by simp⟩
      · exact ⟨hI, by simp⟩
      refine ⟨hI, ?_⟩
      intro s m' h
      obtain ⟨rfl, rfl⟩ : (⟨v, _, _⟩ : SupportVolume) = s ∧ m = m' := by simpa using h
      push Not at hb
      exact ⟨hb.2, UInt64.not_lt.mp h2, by simpa using hv, hm'.1, hm'.2⟩

theorem chercheMeta_exec {v : Volume} {vs : List Volume} {desc : Descripteur}
    {parts : List Partition} {degradee : Bool} {m : Partition}
    (hdesc : ctx.materiel.descripteur v = desc) (hpres : ctx.materiel.present v = true)
    (hb : ¬(desc.blocs = 0 ∨ desc.tailleBloc.toNat < octets))
    (ht : (litTable ⟨v, desc.tailleBloc, desc.blocs⟩).exec d = (.ok (parts, degradee), d))
    (hm : parts.find? (fun x => x.typeGuid = typeMeta ∧ x.unique.octets = p.metaUnique.toList) =
      some m)
    (h2 : ¬m.blocs < 2) (hv : desc.vidangeReelle = true) :
    (chercheMeta ctx p (v :: vs)).exec d = (.ok (⟨v, desc.tailleBloc, desc.blocs⟩, m), d) := by
  simp only [chercheMeta, hdesc, hpres, Bool.not_true, Bool.false_eq_true, if_false, if_neg hb,
    exec_bind, ht, hm, if_neg h2, hv]
  rfl

theorem Trouve.metaTrouvee {s : SupportVolume} {m : Partition} (h : Trouve ctx D p d s m) :
    MetaTrouvee ctx p s m := by
  have hwp : wp D (fun _ => True) (fun _ => False)
      (fun r _ => ∀ s m, r = .ok (s, m) → MetaTrouvee ctx p s m)
      (trouvePartitionMeta ctx p) d := by
    unfold trouvePartitionMeta
    split_ifs
    · exact ⟨trivial, by simp⟩
    · exact wp_chercheMeta trivial _
  exact hwp.post h s m rfl

theorem wp_trouveMeta (hI : I d) :
    wp D I W (fun r d' => d' = d ∧ ∀ m, r = .ok m →
      ∃ part, Trouve ctx D p d m.support part ∧ m.premier = part.premier)
      (trouveMeta ctx p).run d := by
  refine wp_run_bind (((trouvePartitionMeta_readOnly p).wp hI).imp ?_)
  rintro (e | ⟨s, part⟩) d' ⟨rfl, hr⟩
  · exact ⟨hI, rfl, by simp⟩
  · refine ⟨hI, rfl, ?_⟩
    rintro m ⟨rfl⟩
    exact ⟨part, hr, rfl⟩

theorem litCopies_readOnly (a : Fin 2 → Adresse) : (litCopies a).ReadOnly := by
  refine ReadOnly.bind (fun _ => trivial) fun r => ?_
  cases r with
  | none => exact trivial
  | some c0 =>
    refine ReadOnly.bind (fun _ => trivial) fun r => ?_
    cases r <;> exact trivial

theorem wp_lit_meta (m : Meta) (hI : I d) : wp D I W (fun _ d' => d' = d) (lit m).run d := by
  refine wp_run_lift (((litCopies_readOnly _).wp hI).imp ?_)
  rintro (_ | ⟨c0, c1⟩) d' ⟨rfl, -⟩
  · exact ⟨hI, rfl⟩
  · simp only
    split <;> exact ⟨hI, rfl⟩

theorem wp_persiste {m : Meta} {e : Enregistrement} (hW : ∀ i, W (m.copie i)) :
    wp D (fun _ => True) W (fun _ _ => True) (persiste m e).run d := by
  refine wp_bind _ _ _ (wp_litCopies trivial ?_ fun _ => ⟨trivial, trivial⟩)
  refine wp_bind _ _ _ (wp_ecrit trivial (by simpa using hW _) ⟨trivial, ?_⟩
    fun _ _ _ => ⟨trivial, trivial, trivial⟩)
  refine wp_bind _ _ _ (wp_vidange trivial ⟨trivial, ?_⟩ fun _ _ _ => ⟨trivial, trivial, trivial⟩)
  refine wp_bind _ _ _ (wp_litCopies trivial ?_ fun _ => ⟨trivial, trivial⟩)
  simp only
  split_ifs <;> exact ⟨trivial, trivial⟩

theorem wp_ecritCompteur {m : Meta} {n : UInt32} (hW : W (m.support.volume, m.premier + ofNat Echecs.bloc)) :
    wp D (fun _ => True) W (fun _ _ => True) (ecritCompteur m n).run d := by
  refine wp_run_lift (wp_ecrit trivial (by simpa using hW) ⟨trivial, ?_⟩
    fun _ _ _ => ⟨trivial, trivial, trivial⟩)
  exact wp_run_lift (wp_vidange trivial ⟨trivial, trivial, trivial⟩
    fun _ _ _ => ⟨trivial, trivial, trivial⟩)

variable (ctx : Contexte) (D : Device Adresse (List UInt8))

/-- One of the first `n` blocks of the META partition the kernel finds. -/
def BlocMeta (n : ℕ) (x : Systeme) (b : Adresse) : Prop :=
  ∃ p s m, x.etat.passage = some p ∧ Trouve ctx D p x.disques s m ∧
    ∃ i < n, b = (s.volume, m.premier + ofNat i)

def BlocSlot (x : Systeme) (b : Adresse) : Prop :=
  ∃ inst, x.etat.installation = some inst ∧ ∃ i : UInt64, b = (inst.volume, inst.premier + i) ∧
    (i.toNat + 1) * inst.tailleBloc.toNat ≤ inst.octets.toNat

def Appel.Ecrits (x : Systeme) : Appel → Adresse → Prop
  | .commitSante | .rollbackManuel | .remetCompteur => BlocMeta ctx D 3 x
  | .commence .. | .termine .. => BlocMeta ctx D 2 x
  | .ecrit .. => BlocSlot x
  | .verifie .. => fun _ => False

/-- A session as a signed manifest opens it. -/
structure Installation.Ouverte (inst : Installation) : Prop where
  signe : ∃ texte signature m cle,
    Manifeste.verifieSigne ctx.ed25519 texte signature ctx.cles = .ok (m, cle) ∧
      inst.attendu = m.empreinte ∧ inst.attenduOctets = m.octets ∧ inst.attenduEssais = m.essais
  bloc : Update.octets ≤ inst.tailleBloc.toNat
  slot : inst.partition.typeGuid = typeDuSlot inst.cible
  premier : inst.premier = inst.partition.premier
  taille : inst.octets = inst.partition.blocs * inst.tailleBloc
  tient : inst.attenduOctets ≤ inst.octets

variable {inst : Installation}

theorem Installation.Ouverte.pos {ctx : Contexte} (h : inst.Ouverte ctx) : 0 < inst.tailleBloc.toNat :=
  lt_of_lt_of_le (by decide) h.bloc

theorem Installation.Ouverte.octets_le {ctx : Contexte} (h : inst.Ouverte ctx) :
    inst.octets.toNat ≤ inst.partition.blocs.toNat * inst.tailleBloc.toNat := by
  rw [h.taille, UInt64.toNat_mul]
  exact Nat.mod_le _ _

def Installation.blocsALire (inst : Installation) (longueur : UInt64) : UInt64 :=
  min ((longueur - inst.verifie + inst.tailleBloc - 1) / inst.tailleBloc) (1024 * 1024 / inst.tailleBloc)

/-- The bytes the next step of a read-back feeds to the hash. -/
def Installation.relu (inst : Installation) (longueur : UInt64)
    (d : Disk Adresse (List UInt8)) : List UInt8 :=
  (octetsDe inst.tailleBloc.toNat ((adresses inst.volume
    (inst.premier + inst.verifie / inst.tailleBloc) (inst.blocsALire longueur).toNat).map
      d.read)).take (longueur - inst.verifie).toNat

theorem Installation.relu_eq_nil {longueur : UInt64} {d : DisqueBloc} (h : inst.blocsALire longueur = 0) :
    inst.relu longueur d = [] := by
  simp [Installation.relu, h, adresses, octetsDe]

/-- The state after one more step of a read-back that had fed `lu`. -/
def EtatNoyau.avance (s : EtatNoyau) (inst : Installation) (longueur : UInt64) (lu : List UInt8)
    (d : Disk Adresse (List UInt8)) : EtatNoyau :=
  { s with
    installation := some { inst with
      verifie := inst.verifie + ofNat (inst.relu longueur d).length }
    verification := some (lu ++ inst.relu longueur d) }

/-- The read-back of `longueur` bytes goes one step further: the bytes `lu` were
fed before it. -/
structure Avance (x : Systeme) (longueur : UInt64) (inst : Installation) (lu : List UInt8)
    (s : EtatNoyau) (d : Disk Adresse (List UInt8)) : Prop where
  session : x.etat.installation = some inst
  reste : inst.verifie < longueur
  borne : longueur ≤ inst.octets
  debut : inst.verifie = 0 → lu = [] ∧ d = x.disques.flush fun a => a.1 = inst.volume
  suite : inst.verifie ≠ 0 → x.etat.verification = some lu ∧ d = x.disques
  etat : s = x.etat.avance inst longueur lu d

/-- The digest of what was read back is the signed one, for a caller that asked
for what was signed. -/
structure Accepte (x : Systeme) (inst : Installation) (lu : List UInt8) : Prop where
  session : x.etat.installation = some inst
  relecture : x.etat.verification = some lu
  complete : inst.verifie = inst.attenduOctets
  non_vide : inst.attenduOctets ≠ 0
  empreinte : ctx.sha256 lu = inst.attendu

/-- How each call changes the state: whether it succeeded, the state and the disk
it leaves. -/
def Appel.Effet (x : Systeme) (ok : Bool) (s : EtatNoyau) (d : Disk Adresse (List UInt8)) : Appel → Prop
  | .commitSante | .rollbackManuel | .remetCompteur => ∃ c, s = { x.etat with committe := c }
  | .commence .. => (ok = false ∧ s = x.etat) ∨ ∃ inst, inst.Ouverte ctx ∧ inst.verifie = 0 ∧
      s = { x.etat with installation := some inst, verification := none }
  | .ecrit .. => (s = x.etat ∧ d = x.disques) ∨
      s = { x.etat.modifieSession fun i => { i with verifie := 0 } with verification := none }
  | .verifie _ longueur => s = x.etat ∨
      (s = { x.etat with verification := some [] } ∧
        ∃ inst, x.etat.installation = some inst ∧ inst.verifie = 0) ∨
      ∃ inst lu, Avance x longueur inst lu s d
  | .termine .. => (ok = false ∧ s = x.etat) ∨ ∃ inst lu, Accepte ctx x inst lu ∧
      s = { x.etat with installation := none, verification := none }

variable {ctx : Contexte} {D : Device Adresse (List UInt8)} {x : Systeme} {d : DisqueBloc} {p : Passage}

theorem wp_trouve (hp : x.etat.passage = some p) (n : ℕ) :
    wp D (fun _ => True) (BlocMeta ctx D n x) (fun r d => d = x.disques ∧ ∀ m, r = .ok m →
      (∀ i < n, BlocMeta ctx D n x (m.support.volume, m.premier + ofNat i)) ∧
        octets ≤ m.support.tailleBloc.toNat) (trouveMeta ctx p).run x.disques := by
  refine (wp_trouveMeta trivial).imp ?_
  rintro r d ⟨rfl, hr⟩
  refine ⟨rfl, fun m hm => ?_⟩
  obtain ⟨part, ht, hprem⟩ := hr m hm
  rw [hprem]
  exact ⟨fun i hi => ⟨p, _, _, hp, ht, i, hi, rfl⟩, ht.metaTrouvee.bloc⟩

theorem wp_persiste_compteur {α : Type} {W : Adresse → Prop} {m : Meta} {e : Enregistrement} {c : α}
    (hm : ∀ i < 3, W (m.support.volume, m.premier + ofNat i)) :
    wp D (fun _ => True) W (fun _ _ => True)
      (do persiste m e; ecritCompteur m 0; return c : ExceptT String ProgBloc α).run d := by
  refine wp_run_bind ((wp_persiste fun i => hm i (by omega)).imp ?_)
  rintro (e | _) d' -
  · exact ⟨trivial, trivial⟩
  refine wp_run_bind ((wp_ecritCompteur (hm 2 (by decide))).imp ?_)
  rintro (e | _) d' - <;> exact ⟨trivial, trivial⟩

theorem wp_remetCompteur :
    wp D (fun _ => True) (BlocMeta ctx D 3 x) (fun _ _ => True) (remetCompteur ctx x.etat).run x.disques := by
  unfold remetCompteur
  cases hp : x.etat.passage with
  | none => exact ⟨trivial, trivial⟩
  | some p =>
    refine wp_run_bind ((wp_trouve hp 3).imp ?_)
    rintro (e | m) d ⟨rfl, hm⟩
    · exact ⟨trivial, trivial⟩
    · exact wp_ecritCompteur ((hm m rfl).1 2 (by decide))

theorem wp_rollbackManuel :
    wp D (fun _ => True) (BlocMeta ctx D 3 x) (fun _ _ => True)
      (rollbackManuel ctx x.etat).run x.disques := by
  unfold rollbackManuel
  cases hp : x.etat.passage with
  | none => exact ⟨trivial, trivial⟩
  | some p =>
    refine wp_run_bind ((wp_trouve hp 3).imp ?_)
    rintro (e | m) d ⟨rfl, hm⟩
    · exact ⟨trivial, trivial⟩
    refine wp_run_bind ((wp_lit_meta m trivial).imp ?_)
    rintro (e | e) d rfl
    · exact ⟨trivial, trivial⟩
    simp only
    split
    · exact ⟨trivial, trivial⟩
    · exact wp_persiste_compteur (hm m rfl).1

theorem wp_commitSanteMeta (hp : x.etat.passage = some p) :
    wp D (fun _ => True) (BlocMeta ctx D 3 x) (fun _ _ => True) (commitSanteMeta ctx p).run x.disques := by
  refine wp_run_bind ((wp_trouve hp 3).imp ?_)
  rintro (e | m) d ⟨rfl, hm⟩
  · exact ⟨trivial, trivial⟩
  refine wp_run_bind ((wp_lit_meta m trivial).imp ?_)
  rintro (e | e) d rfl
  · exact ⟨trivial, trivial⟩
  simp only
  split
  · refine wp_run_bind ((wp_ecritCompteur ((hm m rfl).1 2 (by decide))).imp ?_)
    rintro (e | _) d' - <;> exact ⟨trivial, trivial⟩
  · exact wp_persiste_compteur (hm m rfl).1
  · exact ⟨trivial, trivial⟩
  · exact ⟨trivial, trivial⟩

theorem wp_commitSante :
    wp D (fun _ => True) (BlocMeta ctx D 3 x)
      (fun r _ => ∃ c, r.2 = { x.etat with committe := c }) (commitSante ctx x.etat) x.disques := by
  unfold commitSante
  cases hp : x.etat.passage with
  | none => exact ⟨trivial, x.etat.committe, rfl⟩
  | some p =>
    simp only
    split
    · exact ⟨trivial, x.etat.committe, rfl⟩
    refine wp_bind _ _ _ ((wp_commitSanteMeta hp).imp ?_)
    rintro r d -
    split
    · exact ⟨trivial, true, by rw [hp]⟩
    · exact ⟨trivial, x.etat.committe, rfl⟩

theorem wp_prepareInstallation (appelant : UInt32) (cible : Slot) (texte signature : List UInt8) :
    wp D (fun _ => True) (BlocMeta ctx D 2 x)
      (fun r _ => ∀ inst, r = .ok inst → inst.Ouverte ctx ∧ inst.verifie = 0)
      (prepareInstallation ctx appelant cible texte signature x.etat).run x.disques := by
  unfold prepareInstallation
  split
  · exact ⟨trivial, nofun⟩
  rename_i signe cle hsigne
  cases hp : x.etat.passage with
  | none => exact ⟨trivial, nofun⟩
  | some p =>
    refine wp_run_bind (wp_traduit ((wp_trouve hp 2).imp ?_))
    rintro (e | m) d ⟨rfl, hm⟩
    · exact ⟨trivial, nofun⟩
    refine wp_run_bind (wp_traduit ((wp_lit_meta m trivial).imp ?_))
    rintro (e | e) d rfl
    · exact ⟨trivial, nofun⟩
    simp only [Except.mapError]
    split
    · exact ⟨trivial, nofun⟩
    refine wp_run_bind (wp_traduit (((litTable_readOnly _).wp trivial).imp ?_))
    rintro (e | ⟨parts, b⟩) d ⟨rfl, -⟩
    · exact ⟨trivial, nofun⟩
    simp only [Except.mapError]
    split
    · exact ⟨trivial, nofun⟩
    rename_i part hpart
    split
    · exact ⟨trivial, nofun⟩
    rename_i hgrand
    refine wp_run_bind (wp_traduit ((wp_persiste fun i => (hm m rfl).1 i (by omega)).imp ?_))
    rintro (e | _) d -
    · exact ⟨trivial, nofun⟩
    refine ⟨trivial, ?_⟩
    rintro inst ⟨rfl⟩
    have htype : part.typeGuid = typeDuSlot cible := by
      simpa using find?_some hpart
    exact ⟨⟨⟨texte, signature, signe, cle, hsigne, rfl, rfl, rfl⟩, (hm m rfl).2, htype, rfl, rfl,
      UInt64.not_lt.mp hgrand⟩, rfl⟩

variable {s : EtatNoyau} {appelant : UInt32} {inst : Installation} {longueur : UInt64}

theorem session_ok (h : s.session appelant = .ok inst) :
    s.installation = some inst ∧ inst.proprietaire = appelant := by
  unfold EtatNoyau.session at h
  split at h
  · cases h
  · split_ifs at h with hp
    obtain ⟨rfl⟩ : _ = inst := by simpa using h
    exact ⟨by assumption, not_not.mp hp⟩

/-- The blocks of an accepted write are whole blocks of the slot. -/
theorem bloc_ecrit {t decalage octets : UInt64} {longueur i : ℕ} (ht : 0 < t.toNat)
    (hd : decalage % t = 0) (hl : longueur % t.toNat = 0)
    (hfin : decalage.toNat + longueur ≤ octets.toNat) (hi : i < longueur / t.toNat) :
    ((decalage / t + ofNat i).toNat + 1) * t.toNat ≤ octets.toNat := by
  have hdec : decalage.toNat = decalage.toNat / t.toNat * t.toNat := by
    have hmod : decalage.toNat % t.toNat = 0 := by simpa using congrArg toNat hd
    exact (Nat.div_mul_cancel (Nat.dvd_of_mod_eq_zero hmod)).symm
  have hlon : longueur = longueur / t.toNat * t.toNat :=
    (Nat.div_mul_cancel (Nat.dvd_of_mod_eq_zero hl)).symm
  have hmul : (decalage.toNat / t.toNat + i + 1) * t.toNat ≤ octets.toNat := by
    calc (decalage.toNat / t.toNat + i + 1) * t.toNat
        ≤ (decalage.toNat / t.toNat + longueur / t.toNat) * t.toNat :=
          Nat.mul_le_mul_right _ (by omega)
      _ = decalage.toNat + longueur := by rw [Nat.add_mul, ← hdec, ← hlon]
      _ ≤ octets.toNat := hfin
  have hlt : decalage.toNat / t.toNat + i < 2 ^ 64 := by
    have := octets.toNat_lt
    have := Nat.le_mul_of_pos_right (decalage.toNat / t.toNat + i + 1) ht
    omega
  have hsum : (decalage / t + ofNat i).toNat = decalage.toNat / t.toNat + i := by
    have hi' : i < 2 ^ 64 := (Nat.le_add_left _ _).trans_lt hlt
    rw [UInt64.toNat_add, UInt64.toNat_div, UInt64.toNat_ofNat', Nat.mod_eq_of_lt hi', Nat.mod_eq_of_lt hlt]
  rw [hsum]
  exact hmul

theorem wp_installationEcrit (ho : ∀ inst, x.etat.installation = some inst → inst.Ouverte ctx)
    (appelant : UInt32) (decalage : UInt64) (donnees : List UInt8) :
    wp D (fun _ => True) (BlocSlot x)
      (fun r d => (r.2 = x.etat ∧ d = x.disques) ∨
        r.2 = { x.etat.modifieSession fun i => { i with verifie := 0 } with verification := none })
      (installationEcrit appelant decalage donnees x.etat) x.disques := by
  unfold installationEcrit
  split
  · exact ⟨trivial, .inl ⟨rfl, rfl⟩⟩
  rename_i inst hs
  obtain ⟨hinst, -⟩ := session_ok hs
  have ht := (ho inst hinst).pos
  simp only
  split
  · exact ⟨trivial, .inl ⟨rfl, rfl⟩⟩
  rename_i hal
  split
  · exact ⟨trivial, .inl ⟨rfl, rfl⟩⟩
  split
  · exact ⟨trivial, .inl ⟨rfl, rfl⟩⟩
  rename_i hfin
  push Not at hal hfin
  refine wp_bind _ _ _ (wp_ecrit trivial ?_ ⟨trivial, trivial, .inr rfl⟩
    fun _ _ _ => ⟨trivial, trivial, .inr rfl⟩)
  intro w hw
  obtain ⟨i, hi, hwi⟩ := mem_adresses (of_mem_zip hw).1
  refine ⟨inst, hinst, decalage / inst.tailleBloc + ofNat i, ?_, ?_⟩
  · rw [hwi, UInt64.add_assoc]
  · exact bloc_ecrit ht hal.2.1 hal.2.2 hfin hi

theorem wp_relecture {Q : Option (List UInt8) → DisqueBloc → Prop}
    (hok : ∀ tampon : List UInt8, tampon.take (longueur - inst.verifie).toNat =
      inst.relu longueur d → Q (some tampon) d) (hko : Q none d) :
    wp D (fun _ => True) (fun _ => False) Q (relecture longueur inst) d := by
  simp only [relecture]
  split
  · rename_i h0
    exact ⟨trivial, hok [] (by rw [Installation.relu_eq_nil h0, take_nil])⟩
  · exact wp_litBlocs trivial (hok _ rfl) fun _ => hko

theorem nourrit_eq {tampon lu : List UInt8}
    (hs : s.session appelant = .ok inst) (hv : s.verification = some lu)
    (ht : tampon.take (longueur - inst.verifie).toNat = inst.relu longueur d) :
    (nourrit appelant longueur inst tampon s).2 = s.avance inst longueur lu d := by
  obtain ⟨hi, hprop⟩ := session_ok hs
  have hlen : min tampon.length (longueur - inst.verifie).toNat = (inst.relu longueur d).length := by
    rw [← ht, length_take, min_comm]
  have hutile : tampon.take (inst.relu longueur d).length = inst.relu longueur d := by
    rw [← hlen, min_comm, ← take_take, take_length, ht]
  simp [nourrit, hv, hutile, hlen, EtatNoyau.session, hi, hprop, EtatNoyau.modifieSession, EtatNoyau.avance]

/-- The part of a read-back step that follows the flush. -/
theorem wp_verifieSuite (hs : s.session appelant = .ok inst) :
    wp D (fun _ => True) (fun _ => False) (fun r d' => r.2 = s ∨ d' = d ∧
        inst.verifie < longueur ∧ ∃ lu, s.verification = some lu ∧ r.2 = s.avance inst longueur lu d)
      (verifieSuite appelant longueur inst s) d := by
  unfold verifieSuite
  split
  · exact ⟨trivial, .inl rfl⟩
  rename_i hlt
  refine wp_bind _ _ _ (wp_relecture ?_ ⟨trivial, .inl rfl⟩)
  intro tampon htampon
  refine ⟨trivial, ?_⟩
  cases hlu : s.verification with
  | none => exact .inl (by simp [nourrit, hlu])
  | some lu => exact .inr ⟨rfl, UInt64.not_le.mp hlt, lu, rfl, nourrit_eq hs hlu htampon⟩

theorem wp_installationVerifie (appelant : UInt32) (longueur : UInt64) :
    wp D (fun _ => True) (fun _ => False) (fun r d => r.2 = x.etat ∨
        (r.2 = { x.etat with verification := some [] } ∧
          ∃ inst, x.etat.installation = some inst ∧ inst.verifie = 0) ∨
        ∃ inst lu, Avance x longueur inst lu r.2 d)
      (installationVerifie ctx appelant longueur x.etat) x.disques := by
  unfold installationVerifie
  split
  · exact ⟨trivial, .inl rfl⟩
  rename_i inst hs
  have hi := (session_ok hs).1
  split
  · exact ⟨trivial, .inl rfl⟩
  rename_i hl
  push Not at hl
  have hborne : longueur ≤ inst.octets := UInt64.not_lt.mp (by simpa using hl.2)
  split
  · rename_i h0
    refine wp_bind _ _ _ (wp_bind _ _ _ (wp_vidange trivial ⟨trivial, trivial, ?_⟩
      fun _ _ _ => ⟨trivial, trivial, trivial, .inl rfl⟩))
    simp only [Bool.true_and]
    split
    · refine (wp_verifieSuite (s := { x.etat with verification := some [] }) hs).imp ?_
      rintro ⟨r, s'⟩ d (h | ⟨rfl, hlt, lu, hlu, h⟩)
      · exact .inr (.inl ⟨h, inst, hi, h0⟩)
      · obtain ⟨rfl⟩ : [] = lu := by simpa using hlu
        exact .inr (.inr ⟨inst, [], hi, hlt, hborne, fun _ => ⟨rfl, rfl⟩, fun h => (h h0).elim, h⟩)
    · exact ⟨trivial, .inl rfl⟩
  · rename_i h0
    refine (wp_verifieSuite hs).imp ?_
    rintro ⟨r, s'⟩ d (h | ⟨rfl, hlt, lu, hlu, h⟩)
    · exact .inl h
    · exact .inr (.inr ⟨inst, lu, hi, hlt, hborne, fun h => (h0 h).elim, fun _ => ⟨hlu, rfl⟩, h⟩)

theorem wp_marque {relue : Image} (hp : x.etat.passage = some p) :
    wp D (fun _ => True) (BlocMeta ctx D 2 x) (fun r _ => reussi r = true → relue = inst.attendu)
      (marque ctx inst p relue).run x.disques := by
  refine wp_run_bind (wp_traduit ((wp_trouve hp 2).imp ?_))
  rintro (e | m) d ⟨rfl, hm⟩
  · exact ⟨trivial, nofun⟩
  refine wp_run_bind (wp_traduit ((wp_lit_meta m trivial).imp ?_))
  rintro (e | e) d rfl
  · exact ⟨trivial, nofun⟩
  simp only [Except.mapError]
  split
  · exact ⟨trivial, nofun⟩
  · rename_i n hn
    refine wp_traduit ((wp_persiste fun i => (hm m rfl).1 i (by omega)).imp fun r d _ _ => ?_)
    exact (marqueCandidat_ok hn).2.2.1.symm

theorem wp_installationTermine (appelant : UInt32) (empreinte : Image) (longueur : UInt64) (essais : UInt8) :
    wp D (fun _ => True) (BlocMeta ctx D 2 x)
      (fun r _ => (reussi r.1 = false ∧ r.2 = x.etat) ∨ ∃ inst lu, Accepte ctx x inst lu ∧
        r.2 = { x.etat with installation := none, verification := none })
      (installationTermine ctx appelant empreinte longueur essais x.etat) x.disques := by
  unfold installationTermine
  split
  · exact ⟨trivial, .inl ⟨rfl, rfl⟩⟩
  rename_i inst hs
  have hi := (session_ok hs).1
  split
  · exact ⟨trivial, .inl ⟨rfl, rfl⟩⟩
  rename_i hsigne
  split
  · exact ⟨trivial, .inl ⟨rfl, rfl⟩⟩
  rename_i hcomplet
  push Not at hsigne hcomplet
  obtain ⟨-, rfl, -⟩ := hsigne
  split
  · exact ⟨trivial, .inl ⟨rfl, rfl⟩⟩
  rename_i lu hlu
  split
  · exact ⟨trivial, .inl ⟨rfl, rfl⟩⟩
  rename_i p hp
  refine wp_bind _ _ _ ((wp_marque hp).imp ?_)
  rintro (e | _) d hr
  · exact ⟨trivial, .inl ⟨rfl, rfl⟩⟩
  · exact ⟨trivial, .inr ⟨inst, lu, ⟨hi, hlu, hcomplet.2, hcomplet.1, hr rfl⟩, rfl⟩⟩

/-- Every call writes only the blocks it may write and changes the state as described. -/
theorem wp_execute (ho : ∀ inst, x.etat.installation = some inst → inst.Ouverte ctx) (a : Appel) :
    wp D (fun _ => True) (a.Ecrits ctx D x) (fun r d => a.Effet ctx x r.1 r.2 d)
      (a.execute ctx x.etat) x.disques := by
  cases a with
  | commitSante =>
    exact wp_bind _ _ _ (wp_commitSante.imp fun r d hr => ⟨trivial, hr⟩)
  | rollbackManuel =>
    exact wp_bind _ _ _ (wp_rollbackManuel.imp fun r d _ => ⟨trivial, x.etat.committe, rfl⟩)
  | remetCompteur =>
    exact wp_bind _ _ _ (wp_remetCompteur.imp fun r d _ => ⟨trivial, x.etat.committe, rfl⟩)
  | commence appelant cible texte signature =>
    refine wp_bind _ _ _ (wp_bind _ _ _ ((wp_prepareInstallation appelant cible texte signature).imp ?_))
    rintro (e | inst) d hr
    · exact ⟨trivial, trivial, .inl ⟨rfl, rfl⟩⟩
    · obtain ⟨hinst, h0⟩ := hr inst rfl
      exact ⟨trivial, trivial, .inr ⟨inst, hinst, h0, rfl⟩⟩
  | ecrit appelant decalage donnees =>
    exact wp_bind _ _ _ ((wp_installationEcrit ho appelant decalage donnees).imp
      fun r d hr => ⟨trivial, hr⟩)
  | verifie appelant longueur =>
    exact wp_bind _ _ _ ((wp_installationVerifie appelant longueur).imp fun r d hr => ⟨trivial, hr⟩)
  | termine appelant empreinte longueur essais =>
    exact wp_bind _ _ _ ((wp_installationTermine appelant empreinte longueur essais).imp
      fun r d hr => ⟨trivial, hr⟩)

variable {ctx : Contexte} {D : Device Adresse (List UInt8)} {x y : Systeme}

def Systeme.Sain (ctx : Contexte) (x : Systeme) : Prop :=
  ∀ inst, x.etat.installation = some inst → inst.Ouverte ctx

theorem Systeme.Appelle.effet {a : Appel} {ok : Bool} (h : x.Appelle ctx D a ok y)
    (hx : x.Sain ctx) : a.Effet ctx x ok y.etat y.disques :=
  (wp_execute hx a).post h

theorem Installation.Ouverte.avecVerifie {inst : Installation} (h : inst.Ouverte ctx)
    (v : UInt64) : ({ inst with verifie := v } : Installation).Ouverte ctx :=
  ⟨h.signe, h.bloc, h.slot, h.premier, h.taille, h.tient⟩

theorem Systeme.Appelle.sain {a : Appel} {ok : Bool} (h : x.Appelle ctx D a ok y)
    (hx : x.Sain ctx) : y.Sain ctx := by
  have he := h.effet hx
  intro inst hinst
  cases a with
  | commitSante | rollbackManuel | remetCompteur =>
    obtain ⟨c, he⟩ := he
    rw [he] at hinst
    exact hx inst hinst
  | commence =>
    obtain ⟨-, he⟩ | ⟨inst', ho, -, he⟩ := he
    · rw [he] at hinst
      exact hx inst hinst
    · rw [he] at hinst
      obtain rfl : inst' = inst := by simpa using hinst
      exact ho
  | ecrit =>
    obtain ⟨he, -⟩ | he := he
    · rw [he] at hinst
      exact hx inst hinst
    · rw [he] at hinst
      obtain ⟨i, hi, rfl⟩ := Option.map_eq_some_iff.mp hinst
      exact (hx i hi).avecVerifie 0
  | verifie =>
    obtain he | ⟨he, -⟩ | ⟨i, lu, he⟩ := he
    · rw [he] at hinst
      exact hx inst hinst
    · rw [he] at hinst
      exact hx inst hinst
    · rw [he.etat] at hinst
      obtain rfl := Option.some.inj hinst
      exact (hx i he.session).avecVerifie _
  | termine =>
    obtain ⟨-, he⟩ | ⟨i, lu, -, he⟩ := he
    · rw [he] at hinst
      exact hx inst hinst
    · rw [he] at hinst
      simp at hinst

/-- Finitely many calls, each allowed by `C` in the state it starts from. -/
def Systeme.Suite (ctx : Contexte) (D : Device Adresse (List UInt8))
    (C : Appel → Systeme → Prop) : Systeme → Systeme → Prop :=
  Relation.ReflTransGen fun x y => ∃ a ok, C a x ∧ x.Appelle ctx D a ok y

theorem Systeme.Suite.sain {C : Appel → Systeme → Prop} (h : x.Suite ctx D C y)
    (hx : x.Sain ctx) : y.Sain ctx := by
  induction h with
  | refl => exact hx
  | tail _ hs ih =>
    obtain ⟨a, ok, -, ha⟩ := hs
    exact ha.sain ih

variable {ctx : Contexte} {d d' : DisqueBloc} {m : Meta}

theorem Systeme.appelle_of_exec (D : Device Adresse (List UInt8)) {x y : Systeme} {a : Appel}
    {ok : Bool} (h : (a.execute ctx x.etat).exec x.disques = ((ok, y.etat), y.disques)) :
    x.Appelle ctx D a ok y := by
  have hr := run_exec D (a.execute ctx x.etat) x.disques
  rw [h] at hr
  exact hr

theorem lit_exec {e : Enregistrement} (h : selection m.copie d = some e) :
    (lit m).run.exec d = (.ok e, d) := by
  have hl : (ExceptT.lift (litCopies m.copie) : ExceptT String ProgBloc _).run.exec d =
      (.ok (some (d.read (m.copie 0), d.read (m.copie 1))), d) := rfl
  refine (exec_run_bind hl).trans ?_
  unfold selection at h
  simp only [h]
  rfl

theorem copie_detecte (m : Meta) : DetecteDechirure (Device.reliable Adresse (List UInt8)) m.copie where
  distinctes h := by
    have h' : m.premier + 0 = m.premier + 1 := (Prod.ext_iff.mp h).2
    exact absurd ((UInt64.add_right_inj _).mp h') (by decide)
  cut h := h.elim
  fault h := h.elim

/-- The record is written over the older copy, and nothing else changes. -/
theorem persiste_exec {n : Enregistrement} (hn : n.ActifBon) (hd : ∀ b, d.Settled b) :
    ∃ d', (persiste m n).run.exec d = (.ok (), d') ∧ (∀ b, d'.Settled b) ∧
      lus m.copie d' = Function.update (lus m.copie d)
        (VersionedPair.stale version (lus m.copie d)) (some n) ∧
      ∀ b, (∀ i, b ≠ m.copie i) → d'.durable b = d.durable b := by
  have hwp := wp_persisteCopies (P := m.medium) (copie_detecte m) (fun i => by simp [Meta.medium, Meta.copie])
    hn (fun i => hd _) rfl
  have hrun := run_exec (Device.reliable Adresse (List UInt8)) (persiste m n).run d
  have hpost := (hwp.frame (S := fun b => ∀ i, b ≠ m.copie i) (fun b hb => hb _) (fun b _ => hd b)).post hrun
  have hok := hpost.1.reussit id
  refine ⟨((persiste m n).run.exec d).2, Prod.ext hok rfl, fun b => ?_, hpost.1.durable hok,
    fun b hb => (hpost.2 b hb).2⟩
  by_cases hb : ∀ i, b ≠ m.copie i
  · exact (hpost.2 b hb).1
  · push Not at hb
    obtain ⟨i, rfl⟩ := hb
    exact hpost.1.posees i

end BouchaudOS.Update.Noyau
