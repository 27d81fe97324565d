import BouchaudOS.Foundations.Checked
import BouchaudOS.Persist.CacheJetable

/-!
# What is dropped, and that it was necessary

`selectionne` (`src/fs/cache_jetable.rs`) keeps running totals while it drops trees. The loop
is followed with the list of the trees it has dropped, from which every total can be computed
again. The source adds and subtracts machine integers: the same steps with each operation
checked give the same result where the sums fit.
-/

namespace BouchaudOS.CacheJetable

open List Outcome Function

/-- Whether a file is in a dropped tree. -/
def jete (ecartes : ℕ → Bool) (f : Fichier) : Bool := f.groupe.any ecartes

theorem somme_filter_or (w : Fichier → ℕ) {p q r : Fichier → Bool} (l : List Fichier)
    (h : ∀ f, p f = (q f || r f)) (hd : ∀ f, q f = true → r f = false) :
    ((l.filter p).map w).sum = ((l.filter q).map w).sum + ((l.filter r).map w).sum := by
  induction l with
  | nil => rfl
  | cons f l ih =>
    simp only [filter_cons, h]
    cases hq : q f with
    | true => simp [hd f hq, ih]; omega
    | false => cases r f <;> simp [ih]; omega

variable {limites : Limites} {fichiers : List Fichier} {groupes : ℕ} {ecartes : ℕ → Bool}

theorem secteurs_eq_zero {g : ℕ} (h : (candidat limites fichiers g).fichiers = 0) :
    (candidat limites fichiers g).secteurs = 0 := by
  have hvide : (fichiers.filter fun f => f.groupe = some g) = [] := length_eq_zero_iff.mp h
  simp [candidat, hvide, Limites.total]

/-- What `meilleur` returns: a tree that is still there and holds files, and none of those
takes more sectors. -/
theorem meilleur_spec :
    match meilleur limites fichiers groupes ecartes with
    | none => ∀ g < groupes, ecartes g = false → (candidat limites fichiers g).fichiers = 0
    | some c => c = candidat limites fichiers c.groupe ∧ c.groupe < groupes ∧
        ecartes c.groupe = false ∧ c.fichiers ≠ 0 ∧
        ∀ g < groupes, ecartes g = false → (candidat limites fichiers g).secteurs ≤ c.secteurs := by
  unfold meilleur
  induction groupes with
  | zero => exact nofun
  | succ n ih =>
    rw [range_succ, foldl_append, foldl_cons, foldl_nil]
    generalize (List.range n).foldl _ none = m at ih ⊢
    dsimp only
    split_ifs with hc
    · simp only [Bool.or_eq_true, decide_eq_true_eq, Bool.not_eq_true'] at hc
      cases m with
      | none =>
        intro g hg he
        rcases Nat.lt_succ_iff_lt_or_eq.mp hg with hg | rfl
        · exact ih g hg he
        · simpa [he, Candidat.mieux] using hc
      | some c =>
        obtain ⟨h1, h2, h3, h4, h5⟩ := ih
        refine ⟨h1, by omega, h3, h4, fun g hg he => ?_⟩
        rcases Nat.lt_succ_iff_lt_or_eq.mp hg with hg | rfl
        · exact h5 g hg he
        · rcases hc with (hc | hc) | hc
          · simp [he] at hc
          · simp [secteurs_eq_zero hc]
          · simp only [Candidat.mieux, Bool.or_eq_false_iff, decide_eq_false_iff_not] at hc
            omega
    · simp only [Bool.or_eq_true, decide_eq_true_eq, Bool.not_eq_true', not_or,
        Bool.not_eq_true, Bool.not_eq_false] at hc
      refine ⟨rfl, Nat.lt_succ_self n, hc.1.1, hc.1.2, fun g hg he => ?_⟩
      rcases Nat.lt_succ_iff_lt_or_eq.mp hg with hg | rfl
      · cases m with
        | none => simp [secteurs_eq_zero (ih g hg he)]
        | some c =>
          refine (ih.2.2.2.2 g hg he).trans ?_
          have := hc.2
          simp only [Candidat.mieux, Bool.or_eq_true, decide_eq_true_eq, Bool.and_eq_true] at this
          omega
      · exact le_rfl

section

variable (limites : Limites) (fichiers : List Fichier) (groupes : ℕ)

/-- The files that stay. -/
def reste (ecartes : ℕ → Bool) : List Fichier := fichiers.filter fun f => !jete ecartes f

def Limites.tiennent (l : List Fichier) : Bool := limites.tient l.length (limites.total l)

/-- The loop after it dropped the trees of `ordre`, in this order. -/
structure Suivi (ordre : List ℕ) (e : Ecart) : Prop where
  nodup : ordre.Nodup
  bornes : ∀ g ∈ ordre, g < groupes
  ecartes : e.ecartes = fun g => decide (g ∈ ordre)
  tri : ordre.Pairwise fun g g' =>
    (candidat limites fichiers g').secteurs ≤ (candidat limites fichiers g).secteurs
  restants : ∀ g ∈ ordre, ∀ g' < groupes, g' ∉ ordre →
    (candidat limites fichiers g').secteurs ≤ (candidat limites fichiers g).secteurs
  arbres : e.arbres = ordre.length
  jetes : e.fichiers = (fichiers.filter (jete e.ecartes)).length
  octets : e.octets = ((fichiers.filter (jete e.ecartes)).map Fichier.octets).sum
  entrees : e.entrees = (reste fichiers e.ecartes).length
  total : e.total = limites.total (reste fichiers e.ecartes)

variable {limites fichiers groupes}

/-- One more tree is dropped. -/
def Ecart.avec (e : Ecart) (c : Candidat) : Ecart :=
  { ecartes := update e.ecartes c.groupe true
    arbres := e.arbres + 1
    fichiers := e.fichiers + c.fichiers
    octets := e.octets + c.octets
    entrees := e.entrees - c.fichiers
    total := e.total - c.secteurs }

theorem jete_update {ecartes : ℕ → Bool} {g : ℕ} (f : Fichier) :
    jete (update ecartes g true) f = (jete ecartes f || decide (f.groupe = some g)) := by
  unfold jete
  cases f.groupe with
  | none => rfl
  | some g' =>
    by_cases h : g' = g
    · subst h
      simp
    · simp [h]

/-- The weights of what is dropped and of what stays move by those of the tree. -/
theorem somme_avec (w : Fichier → ℕ) {ecartes : ℕ → Bool} {g : ℕ} (h : ecartes g = false) :
    ((fichiers.filter (jete (update ecartes g true))).map w).sum =
      ((fichiers.filter (jete ecartes)).map w).sum +
        ((fichiers.filter fun f => f.groupe = some g).map w).sum ∧
    ((reste fichiers ecartes).map w).sum =
      ((fichiers.filter fun f => f.groupe = some g).map w).sum +
        ((reste fichiers (update ecartes g true)).map w).sum := by
  have hg : ∀ f : Fichier, jete ecartes f = true → decide (f.groupe = some g) = false := by
    intro f hf
    rw [decide_eq_false_iff_not]
    intro hfg
    simp [jete, hfg, h] at hf
  refine ⟨somme_filter_or w _ jete_update hg, somme_filter_or w _ (fun f => ?_) fun f hf => ?_⟩
  · rw [jete_update]
    cases hf : jete ecartes f with
    | true => simp [of_decide_eq_false (hg f hf)]
    | false => cases decide (f.groupe = some g) <;> rfl
  · simp [jete_update, hf]

section

variable {ordre : List ℕ} {e : Ecart} {c : Candidat} (h : Suivi limites fichiers groupes ordre e)
  (hc : meilleur limites fichiers groupes e.ecartes = some c)

include h hc

/-- What stays before the tree is dropped: the tree, and what stays after. -/
theorem Suivi.partage :
    e.entrees = c.fichiers + (reste fichiers (e.avec c).ecartes).length ∧
      e.total = c.secteurs + limites.total (reste fichiers (e.avec c).ecartes) := by
  have hspec := @meilleur_spec limites fichiers groupes e.ecartes
  rw [hc] at hspec
  have hn := (@somme_avec fichiers (fun _ => 1) _ _ hspec.2.2.1).2
  simp only [map_const', sum_replicate, smul_eq_mul, mul_one] at hn
  rw [h.entrees, h.total, hspec.1]
  exact ⟨hn, (@somme_avec fichiers (fun f => secteurs f.octets limites.tailleSecteur) _ _ hspec.2.2.1).2⟩

theorem Suivi.avec : Suivi limites fichiers groupes (ordre ++ [c.groupe]) (e.avec c) := by
  have hspec := @meilleur_spec limites fichiers groupes e.ecartes
  rw [hc] at hspec
  obtain ⟨h1, h2, h3, h4, h5⟩ := hspec
  have hnon : c.groupe ∉ ordre := by simpa [h.ecartes] using h3
  have hs : (candidat limites fichiers c.groupe).secteurs = c.secteurs := by rw [← h1]
  have hn := (@somme_avec fichiers (fun _ => 1) _ _ h3).1
  simp only [map_const', sum_replicate, smul_eq_mul, mul_one] at hn
  obtain ⟨hentrees, htotal⟩ := h.partage hc
  constructor
  · exact nodup_append.mpr ⟨h.nodup, nodup_singleton _,
      by simpa using fun a ha => ne_of_mem_of_not_mem ha hnon⟩
  · intro g hg
    rcases mem_append.mp hg with hg | hg
    · exact h.bornes g hg
    · rwa [mem_singleton.mp hg]
  · funext g
    simp only [Ecart.avec, h.ecartes, update_apply, mem_append, mem_singleton]
    by_cases hg : g = c.groupe <;> simp [hg]
  · refine pairwise_append.mpr ⟨h.tri, pairwise_singleton _ _, fun g hg g' hg' => ?_⟩
    rw [mem_singleton.mp hg']
    exact h.restants g hg _ h2 hnon
  · intro g hg g' hg' hne
    rw [mem_append, not_or] at hne
    rcases mem_append.mp hg with hg | hg
    · exact h.restants g hg g' hg' hne.1
    · rw [mem_singleton.mp hg, hs]
      exact h5 g' hg' (by simpa [h.ecartes] using hne.1)
  · simp [Ecart.avec, h.arbres]
  · rw [Ecart.avec, h.jetes, hn, h1]
    rfl
  · rw [Ecart.avec, h.octets, (@somme_avec fichiers Fichier.octets _ _ h3).1, h1]
    rfl
  · exact Nat.sub_eq_of_eq_add' hentrees
  · exact Nat.sub_eq_of_eq_add' htotal

end

theorem Suivi.length_le {ordre : List ℕ} {e : Ecart} (h : Suivi limites fichiers groupes ordre e) :
    ordre.length ≤ groupes := by
  have hsub : ordre ⊆ List.range groupes := fun g hg => mem_range.mpr (h.bornes g hg)
  exact (h.nodup.subperm hsub).length_le.trans_eq length_range

theorem boucle_spec (hcouvre : ∀ f ∈ fichiers, ∀ g, f.groupe = some g → g < groupes) :
    ∀ {n : ℕ} {ordre : List ℕ} {e : Ecart}, n + ordre.length = groupes + 1 →
      Suivi limites fichiers groupes ordre e → limites.tiennent (reste fichiers e.ecartes) = false →
      (∃ ordre' g e', Suivi limites fichiers groupes (ordre' ++ [g]) e' ∧
        boucle limites fichiers groupes n e = (.ecarte e'.arbres e'.fichiers e'.octets, e'.ecartes) ∧
        limites.tiennent (reste fichiers e'.ecartes) = true ∧
        limites.tiennent (reste fichiers fun x => decide (x ∈ ordre')) = false) ∨
      (boucle limites fichiers groupes n e = (.neTientPas, fun _ => false) ∧
        limites.tiennent (fichiers.filter fun f => f.groupe = none) = false)
  | 0, ordre, e, hn, h, _ => by
    have := h.length_le
    omega
  | n + 1, ordre, e, hn, h, htient => by
    rw [boucle]
    cases hm : meilleur limites fichiers groupes e.ecartes with
    | none =>
      refine .inr ⟨rfl, ?_⟩
      have hspec := @meilleur_spec limites fichiers groupes e.ecartes
      rw [hm] at hspec
      rw [← htient]
      congr 1
      apply filter_congr
      intro f hf
      cases hg : f.groupe with
      | none => simp [jete, hg]
      | some g =>
        cases he : e.ecartes g with
        | true => simp [jete, hg, he]
        | false =>
          have hvide := length_eq_zero_iff.mp (hspec g (hcouvre f hf g hg) he)
          exact absurd hf fun hf => by simpa [hg] using filter_eq_nil_iff.mp hvide f hf
    | some c =>
      have h' := h.avec hm
      have ht : limites.tient (e.entrees - c.fichiers) (e.total - c.secteurs) =
          limites.tiennent (reste fichiers (e.avec c).ecartes) := by
        rw [Limites.tiennent, ← h'.entrees, ← h'.total]
        rfl
      dsimp only
      rw [ht]
      split_ifs with hfin
      · exact .inl ⟨ordre, c.groupe, e.avec c, h', rfl, hfin, by rw [← h.ecartes, htient]⟩
      · refine boucle_spec hcouvre ?_ h' (Bool.not_eq_true _ ▸ hfin)
        rw [length_append, length_singleton]
        omega

theorem suivi_debut : Suivi limites fichiers groupes []
    ⟨fun _ => false, 0, 0, 0, fichiers.length, limites.total fichiers⟩ := by
  have hj : fichiers.filter (jete fun _ => false) = [] :=
    filter_eq_nil_iff.mpr fun f _ => by cases h : f.groupe <;> simp [jete, h]
  have hr : reste fichiers (fun _ => false) = fichiers :=
    filter_eq_self.mpr fun f _ => by cases h : f.groupe <;> simp [jete, h]
  exact ⟨nodup_nil, nofun, by simp, .nil, nofun, rfl, by simp [hj], by simp [hj], by rw [hr], by rw [hr]⟩

theorem tiennent_of_sublist {l l' : List Fichier} (h : l.Sublist l') (ht : limites.tiennent l' = true) :
    limites.tiennent l = true := by
  simp only [Limites.tiennent, Limites.tient, Bool.and_eq_true, decide_eq_true_eq] at ht ⊢
  exact ⟨h.length_le.trans ht.1, ((h.map _).sum_le_sum fun _ _ => Nat.zero_le _).trans ht.2⟩

/-- What the verdict of `selectionne` says, for the trees it drops. -/
structure Juste (limites : Limites) (fichiers : List Fichier) (v : Verdict) (ecartes : ℕ → Bool) : Prop where
  toutTient : v = .toutTient ↔ limites.tiennent fichiers = true
  ecarte : limites.tiennent fichiers = false → ((∃ a n o, v = .ecarte a n o) ↔
    limites.tiennent (fichiers.filter fun f => f.groupe = none) = true)
  neTientPas : v = .neTientPas → ∀ g, ecartes g = false
  comptes : ∀ a n o, v = .ecarte a n o → limites.tiennent (reste fichiers ecartes) = true ∧
    (∀ f ∈ fichiers, f.groupe = none → f ∈ reste fichiers ecartes) ∧
    n = (fichiers.filter (jete ecartes)).length ∧
    o = ((fichiers.filter (jete ecartes)).map Fichier.octets).sum ∧
    ∃ ordre g, a = (ordre ++ [g]).length ∧ (ordre ++ [g]).Nodup ∧
      (∀ x, ecartes x = true ↔ x ∈ ordre ++ [g]) ∧
      ((ordre ++ [g]).Pairwise fun x y =>
        (candidat limites fichiers y).secteurs ≤ (candidat limites fichiers x).secteurs) ∧
      limites.tiennent (reste fichiers fun x => decide (x ∈ ordre)) = false

theorem juste_selectionne (hcouvre : ∀ f ∈ fichiers, ∀ g, f.groupe = some g → g < groupes) :
    Juste limites fichiers (selectionne limites fichiers groupes).1
      (selectionne limites fichiers groupes).2 := by
  by_cases ht : limites.tiennent fichiers = true
  · rw [selectionne_of_tient ht]
    exact ⟨by simp [ht], by simp [ht], nofun, nofun⟩
  · have hr : reste fichiers (fun _ => false) = fichiers :=
      filter_eq_self.mpr fun f _ => by cases h : f.groupe <;> simp [jete, h]
    have hboucle : selectionne limites fichiers groupes = _ := if_neg ht
    rw [hboucle]
    rcases boucle_spec hcouvre (n := groupes + 1) rfl suivi_debut (by rw [hr]; simpa using ht) with
      ⟨ordre, g, e, h, hb, hfin, hlast⟩ | ⟨hb, hfin⟩
    · rw [hb]
      refine ⟨by simpa using ht, fun _ => ⟨fun _ => ?_, fun _ => ⟨_, _, _, rfl⟩⟩, nofun, ?_⟩
      · refine tiennent_of_sublist (monotone_filter_right _ fun f hf => ?_) hfin
        simp [jete, of_decide_eq_true hf]
      · rintro a n o ⟨rfl⟩
        refine ⟨hfin, fun f hf hg => mem_filter.mpr ⟨hf, by simp [jete, hg]⟩, h.jetes, h.octets,
          ordre, g, h.arbres, h.nodup, fun x => ?_, h.tri, hlast⟩
        simp [h.ecartes]
    · rw [hb]
      exact ⟨by simpa using ht, fun _ => ⟨nofun, by simp [hfin]⟩, fun _ _ => rfl, nofun⟩

end

section

open Checked

/-- A division by zero stops the program, too. -/
def secteursVerifies (octets tailleSecteur : ℕ) : Guarded ℕ := do
  let haut ← sub (← fit 64 (octets + tailleSecteur)) 1
  if tailleSecteur = 0 then .fault .overflow else .ok (haut / tailleSecteur)

def sommeVerifiee (w : Fichier → Guarded ℕ) (l : List Fichier) : Guarded ℕ :=
  l.foldlM (fun t f => do fit 64 (t + (← w f))) 0

variable (limites : Limites) (fichiers : List Fichier) (groupes : ℕ)

def totalVerifie (l : List Fichier) : Guarded ℕ :=
  sommeVerifiee (fun f => secteursVerifies f.octets limites.tailleSecteur) l

def candidatVerifie (g : ℕ) : Guarded Candidat := do
  let siens := fichiers.filter fun f => f.groupe = some g
  return ⟨g, ← totalVerifie limites siens, siens.length, ← sommeVerifiee (fun f => .ok f.octets) siens⟩

def meilleurVerifie (ecartes : ℕ → Bool) : Guarded (Option Candidat) :=
  (List.range groupes).foldlM
    (fun m g => if ecartes g then .ok m else do
      let c ← candidatVerifie limites fichiers g
      .ok (if c.fichiers = 0 || !c.mieux m then m else some c))
    none

/-- The count of trees has 32 bits; a count of files is at most the length of the slice. -/
def boucleVerifiee : ℕ → Ecart → Guarded (Verdict × (ℕ → Bool))
  | 0, _ => .ok (.neTientPas, fun _ => false)
  | n + 1, e => do
    match ← meilleurVerifie limites fichiers groupes e.ecartes with
    | none => .ok (.neTientPas, fun _ => false)
    | some c =>
      let arbres ← fit 32 (e.arbres + 1)
      let octets ← fit 64 (e.octets + c.octets)
      let entrees ← sub e.entrees c.fichiers
      let total ← sub e.total c.secteurs
      let e : Ecart :=
        ⟨update e.ecartes c.groupe true, arbres, e.fichiers + c.fichiers, octets, entrees, total⟩
      if limites.tient e.entrees e.total then .ok (.ecarte e.arbres e.fichiers e.octets, e.ecartes)
      else boucleVerifiee n e

def selectionneVerifiee : Guarded (Verdict × (ℕ → Bool)) := do
  let total ← totalVerifie limites fichiers
  if limites.tient fichiers.length total then .ok (.toutTient, fun _ => false)
  else
    boucleVerifiee limites fichiers groupes (groupes + 1) ⟨fun _ => false, 0, 0, 0, fichiers.length, total⟩

/-- The sectors are not empty and the sums fit their types. -/
structure Mesurable : Prop where
  secteur : 0 < limites.tailleSecteur
  arrondi : ∀ f ∈ fichiers, f.octets + limites.tailleSecteur < 2 ^ 64
  total : limites.total fichiers < 2 ^ 64
  octets : (fichiers.map Fichier.octets).sum < 2 ^ 64
  arbres : groupes < 2 ^ 32

variable {limites fichiers groupes}

theorem sommeVerifiee_eq {w : Fichier → ℕ} {wv : Fichier → Guarded ℕ} {l : List Fichier}
    (hw : ∀ f ∈ l, wv f = .ok (w f)) (h : (l.map w).sum < 2 ^ 64) :
    sommeVerifiee wv l = .ok (l.map w).sum := by
  have hacc : ∀ (l : List Fichier) (t : ℕ), (∀ f ∈ l, wv f = .ok (w f)) → t + (l.map w).sum < 2 ^ 64 →
      l.foldlM (fun t f => do fit 64 (t + (← wv f))) t = Outcome.ok (t + (l.map w).sum) := by
    intro l
    induction l with
    | nil => exact fun t _ _ => rfl
    | cons f l ih =>
      intro t hw ht
      rw [map_cons, sum_cons] at ht ⊢
      rw [foldlM_cons, hw f mem_cons_self, ok_bind, fit_of_lt (by omega),
        ok_bind, ih _ (fun f hf => hw f (mem_cons_of_mem _ hf)) (by omega), Nat.add_assoc]
  have hl := hacc l 0 hw (by rwa [Nat.zero_add])
  rwa [Nat.zero_add] at hl

variable (h : Mesurable limites fichiers groupes)

include h

theorem totalVerifie_eq {l : List Fichier} (hl : l.Sublist fichiers) :
    totalVerifie limites l = .ok (limites.total l) := by
  refine sommeVerifiee_eq (fun f hf => ?_) ?_
  · have hp := h.secteur
    rw [secteursVerifies, fit_of_lt (h.arrondi f (hl.mem hf)), ok_bind, sub, if_pos (by omega),
      ok_bind, if_neg (by omega)]
    rfl
  · exact ((hl.map _).sum_le_sum fun _ _ => Nat.zero_le _).trans_lt h.total

theorem candidatVerifie_eq (g : ℕ) :
    candidatVerifie limites fichiers g = .ok (candidat limites fichiers g) := by
  have hl : (fichiers.filter fun f => f.groupe = some g).Sublist fichiers := filter_sublist
  rw [candidatVerifie, totalVerifie_eq h hl, ok_bind, sommeVerifiee_eq (fun _ _ => rfl)
    (((hl.map _).sum_le_sum fun _ _ => Nat.zero_le _).trans_lt h.octets)]
  rfl

theorem meilleurVerifie_eq (ecartes : ℕ → Bool) :
    meilleurVerifie limites fichiers groupes ecartes = .ok (meilleur limites fichiers groupes ecartes) := by
  unfold meilleurVerifie meilleur
  generalize none = m
  induction List.range groupes generalizing m with
  | nil => rfl
  | cons g l ih =>
    rw [foldlM_cons, foldl_cons, ← ih]
    cases he : ecartes g with
    | true => rfl
    | false =>
      rw [candidatVerifie_eq h]
      simp

theorem boucleVerifiee_eq : ∀ {n : ℕ} {ordre : List ℕ} {e : Ecart},
    Suivi limites fichiers groupes ordre e →
      boucleVerifiee limites fichiers groupes n e = .ok (boucle limites fichiers groupes n e)
  | 0, _, _, _ => rfl
  | n + 1, ordre, e, hs => by
    rw [boucleVerifiee, boucle, meilleurVerifie_eq h, ok_bind]
    cases hm : meilleur limites fichiers groupes e.ecartes with
    | none => rfl
    | some c =>
      have hs' := hs.avec hm
      obtain ⟨hentrees, htotal⟩ := hs.partage hm
      have harbres : e.arbres + 1 < 2 ^ 32 :=
        (hs'.arbres.le.trans hs'.length_le).trans_lt h.arbres
      have hoctets : e.octets + c.octets < 2 ^ 64 := hs'.octets.trans_lt
        (((filter_sublist.map _).sum_le_sum fun _ _ => Nat.zero_le _).trans_lt h.octets)
      simp only [fit_of_lt harbres, fit_of_lt hoctets, sub, if_pos (show c.fichiers ≤ e.entrees by omega),
        if_pos (show c.secteurs ≤ e.total by omega), ok_bind]
      split_ifs
      · rfl
      · exact boucleVerifiee_eq hs'

end

/-- Where the sectors are not empty and the sums fit, `selectionne` returns, and its verdict
says what was dropped. -/
theorem selection_juste {limites : Limites} {fichiers : List Fichier} {groupes : ℕ}
    (hcouvre : ∀ f ∈ fichiers, ∀ g, f.groupe = some g → g < groupes)
    (h : Mesurable limites fichiers groupes) :
    ∃ v ecartes, selectionneVerifiee limites fichiers groupes = .ok (v, ecartes) ∧
      Juste limites fichiers v ecartes := by
  refine ⟨_, _, ?_, juste_selectionne hcouvre⟩
  rw [selectionneVerifiee, totalVerifie_eq h (.refl _), ok_bind, boucleVerifiee_eq h suivi_debut, selectionne]
  split_ifs <;> rfl

theorem selection_juste_exemple : ∃ v ecartes,
    selectionneVerifiee ⟨1, 10, 512⟩ [⟨600, some 0⟩, ⟨10, none⟩] 1 = .ok (v, ecartes) ∧
      Juste ⟨1, 10, 512⟩ [⟨600, some 0⟩, ⟨10, none⟩] v ecartes :=
  selection_juste (by decide) ⟨by decide, by decide, by decide, by decide, by decide⟩

/-- Sectors of zero bytes stop the program at the first file. -/
theorem secteur_nul_arrete : selectionneVerifiee ⟨1, 10, 0⟩ [⟨1, none⟩] 0 = .fault .overflow := rfl

end BouchaudOS.CacheJetable
