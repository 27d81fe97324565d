import BouchaudOS.Ordonnanceur.FileExecution

/-!
# The run queue is two sets

The bands of a queue are two disjoint sets of places below 1024, and every operation acts
on them as on sets, even when the words that guide the scans are wrong. Which place is
served depends on these words only when one of them misses a word that is not empty; in a
sequence of operations they never do.
-/

namespace BouchaudOS.Runqueue

open BandeFile Finset FileCpu

inductive Op
  | enfile (emplacement : ℕ) (bande : Bande)
  | defile
  | vole
  | retire (emplacement : ℕ)
  deriving DecidableEq

inductive Sortie
  | booleen (b : Bool)
  | emplacement (e : Option ℕ)
  deriving DecidableEq

namespace FileCpu

def fait (s : FileCpu) : Op → Sortie × FileCpu
  | .enfile e b => ((s.enfile e b).1 |> .booleen, (s.enfile e b).2)
  | .defile => (.emplacement s.defile.1, s.defile.2)
  | .vole => (.emplacement s.vole.1, s.vole.2)
  | .retire e => (.booleen (s.retire e).1, (s.retire e).2)

def joue (s : FileCpu) : List Op → List Sortie × FileCpu
  | [] => ([], s)
  | o :: ops =>
    let (r, s) := s.fait o
    let (rs, s) := joue s ops
    (r :: rs, s)

def avecResume (s : FileCpu) (r : Bande → BitVec 64) : FileCpu :=
  { s with bandes := fun b => { s.bandes b with resume := r b } }

def contenu (s : FileCpu) (b : Bande) : Finset ℕ := (s.bandes b).contenu

/-- The lengths are right and no place is in both bands. -/
structure Saine (s : FileCpu) : Prop where
  compte : ∀ b, (s.bandes b).Compte
  separees : ∀ e, e ∈ s.contenu .interactive → e ∉ s.contenu .normale

def Couvre (s : FileCpu) : Prop := ∀ b, (s.bandes b).Couvre

end FileCpu

/-- The operations of two sets of places. -/
inductive PasAbstrait (A : Bande → Finset ℕ) : Op → Sortie → (Bande → Finset ℕ) → Prop
  | enfile {e : ℕ} {b : Bande} : e < emplacements → PasAbstrait A (.enfile e b)
      (.booleen (decide (e ∉ A b))) (fun k => if k = b then insert e (A k) else (A k).erase e)
  | enfileHors {e : ℕ} {b : Bande} : emplacements ≤ e → PasAbstrait A (.enfile e b) (.booleen false) A
  | defile {e : ℕ} {b : Bande} : e ∈ A b → PasAbstrait A .defile (.emplacement (some e))
      (fun k => if k = b then (A k).erase e else A k)
  | defileVide : (∀ b, A b = ∅) → PasAbstrait A .defile (.emplacement none) A
  | vole {e : ℕ} {b : Bande} : e ∈ A b → PasAbstrait A .vole (.emplacement (some e))
      (fun k => if k = b then (A k).erase e else A k)
  | voleVide : (∀ b, A b = ∅) → PasAbstrait A .vole (.emplacement none) A
  | retire {e : ℕ} : PasAbstrait A (.retire e)
      (.booleen (decide (e ∈ A .interactive ∨ e ∈ A .normale))) (fun k => (A k).erase e)

namespace FileCpu

variable {s s' : FileCpu} {b : Bande} {e : ℕ} {haut : Bool}

theorem autre_ne (b : Bande) : b.autre ≠ b := by
  cases b <;> decide

theorem eq_autre {k : Bande} (h : k ≠ b) : k = b.autre := by
  cases k <;> cases b <;> first | rfl | exact absurd rfl h

@[simp] theorem pose_self (s : FileCpu) (b : Bande) (f : BandeFile) : (s.pose b f).bandes b = f :=
  Function.update_self _ _ _

theorem pose_of_ne {k : Bande} (h : k ≠ b) (s : FileCpu) (f : BandeFile) :
    (s.pose b f).bandes k = s.bandes k := Function.update_of_ne h _ _

@[simp] theorem pose_eq_self (s : FileCpu) (b : Bande) : s.pose b (s.bandes b) = s := by
  rw [pose, Function.update_eq_self]

theorem Saine.not_mem_autre (h : s.Saine) (he : e ∈ s.contenu b) : e ∉ s.contenu b.autre := by
  cases b with
  | interactive => exact h.separees e he
  | normale => exact fun he' => h.separees e he' he

theorem Couvre.pose (h : s.Couvre) {f : BandeFile} (hf : f.Couvre) : (s.pose b f).Couvre :=
  (Function.forall_update_iff s.bandes fun _ f => f.Couvre).mpr ⟨hf, fun k _ => h k⟩

/-- One service of the queue, from the band `b`. -/
structure ServiceDe (s : FileCpu) (haut : Bool) (b : Bande) (e : ℕ) (s' : FileCpu) : Prop where
  service : Service (s.bandes b) haut e (s'.bandes b)
  autre : ∀ k, k ≠ b → s'.bandes k = s.bandes k

theorem ServiceDe.contenu_eq (h : ServiceDe s haut b e s') :
    s'.contenu = fun k => if k = b then (s.contenu k).erase e else s.contenu k := by
  funext k
  by_cases hk : k = b
  · subst hk
    rw [if_pos rfl]
    exact h.service.contenu
  · rw [if_neg hk, contenu, h.autre k hk]
    rfl

theorem ServiceDe.saine (h : ServiceDe s haut b e s') (hs : s.Saine) : s'.Saine := by
  have hmem : ∀ k, s'.contenu k ⊆ s.contenu k := by
    intro k
    rw [h.contenu_eq]
    dsimp only
    split
    · exact erase_subset _ _
    · exact Finset.Subset.refl _
  refine ⟨fun k => ?_, fun x hi hn => hs.separees x (hmem _ hi) (hmem _ hn)⟩
  by_cases hk : k = b
  · subst hk
    exact h.service.compte
  · rw [h.autre k hk]
    exact hs.compte k

theorem ServiceDe.couvre (h : ServiceDe s haut b e s') (hs : s.Couvre) : s'.Couvre := by
  intro k
  by_cases hk : k = b
  · subst hk
    exact h.service.couvre (hs k)
  · rw [h.autre k hk]
    exact hs k

theorem elit_spec (hs : s.Saine) (b : Bande) : (s.contenu b = ∅ ∧ s.elit b = (none, s)) ∨
      ∃ e s', s.elit b = (some e, s') ∧ ServiceDe s false b e s' ∧
        s'.toursInteractifs = match b with
          | .interactive => (s.toursInteractifs + 1) % 2 ^ 32
          | .normale => 0 := by
  rcases sert_spec (s.bandes b) (hs.compte b) false with ⟨hvide, he⟩ | ⟨e, f, he, hf⟩
  · left
    refine ⟨hvide, ?_⟩
    unfold elit
    rw [he]
    simp only [pose_eq_self]
  · right
    unfold elit
    rw [he]
    refine ⟨e, _, rfl, ⟨?_, fun k hk => pose_of_ne hk s f⟩, rfl⟩
    rwa [pose_self]

/-- An election: the band served, and the count of interactive turns. -/
theorem defile_spec (hs : s.Saine) : ((∀ b, s.contenu b = ∅) ∧ s.defile = (none, s)) ∨
      ∃ b e s', s.defile = (some e, s') ∧ ServiceDe s false b e s' ∧
        (b = .interactive → s.contenu .normale ≠ ∅ → s.toursInteractifs < toursInteractifsMax) ∧
        s'.toursInteractifs = match b with
          | .interactive => (s.toursInteractifs + 1) % 2 ^ 32
          | .normale => 0 := by
  have hlong : (s.bandes .normale).longueur ≠ 0 ↔ s.contenu .normale ≠ ∅ := by
    rw [show (s.bandes .normale).longueur = (s.contenu .normale).card from hs.compte .normale]
    exact card_ne_zero.trans nonempty_iff_ne_empty
  have hquota : ¬s.normaleDabord → s.contenu .normale ≠ ∅ → s.toursInteractifs < toursInteractifsMax := by
    intro hn hne
    by_contra hge
    exact hn ⟨not_lt.mp hge, hlong.mpr hne⟩
  rw [defile]
  generalize hp : (if s.normaleDabord then Bande.normale else Bande.interactive) = p
  rcases elit_spec hs p with ⟨hvide, he⟩ | ⟨e, s', he, hserv, htours⟩
  · rw [he]
    rcases elit_spec hs p.autre with ⟨hvide', he'⟩ | ⟨e, s', he', hserv, htours⟩
    · left
      refine ⟨fun b => ?_, he'⟩
      by_cases hb : b = p
      · rwa [hb]
      · rwa [eq_autre hb]
    · right
      refine ⟨p.autre, e, s', he', hserv, fun hint hne => ?_, htours⟩
      cases p with
      | interactive => exact absurd hint (by decide)
      | normale => exact absurd hvide hne
  · right
    rw [he]
    refine ⟨p, e, s', rfl, hserv, fun hint hne => hquota (fun hn => ?_) hne, htours⟩
    rw [if_pos hn] at hp
    exact absurd (hp.trans hint) (by decide)

theorem vole_spec (hs : s.Saine) : ((∀ b, s.contenu b = ∅) ∧ s.vole = (none, s)) ∨
      ∃ b e s', s.vole = (some e, s') ∧ ServiceDe s true b e s' ∧
        s'.toursInteractifs = s.toursInteractifs := by
  rw [vole]
  rcases sert_spec (s.bandes .normale) (hs.compte _) true with ⟨hvide, he⟩ | ⟨e, f, he, hf⟩
  · rw [he]
    simp only [pose_eq_self]
    rcases sert_spec (s.bandes .interactive) (hs.compte _) true with ⟨hvide', he'⟩ | ⟨e, f, he', hf⟩
    · left
      rw [he']
      simp only [pose_eq_self]
      refine ⟨fun b => ?_, trivial⟩
      cases b with
      | interactive => exact hvide'
      | normale => exact hvide
    · right
      rw [he']
      exact ⟨.interactive, e, _, rfl, ⟨by rwa [pose_self], fun k hk => pose_of_ne hk s f⟩, rfl⟩
  · right
    rw [he]
    exact ⟨.normale, e, _, rfl, ⟨by rwa [pose_self], fun k hk => pose_of_ne hk s f⟩, rfl⟩

/-- What an operation that serves nothing keeps. -/
structure Calme (s s' : FileCpu) : Prop where
  saine : s'.Saine
  couvre : s.Couvre → s'.Couvre
  curseur : ∀ b, (s'.bandes b).curseurBas = (s.bandes b).curseurBas
  tours : s'.toursInteractifs = s.toursInteractifs

theorem Calme.trans {s'' : FileCpu} (h : Calme s s') (h' : Calme s' s'') : Calme s s'' :=
  ⟨h'.saine, fun hc => h'.couvre (h.couvre hc), fun b => (h'.curseur b).trans (h.curseur b), h'.tours.trans h.tours⟩

/-- A band changes and stays apart from the other one. -/
theorem calme_pose {f : BandeFile} {r : Bool × BandeFile} {o : Bool} {c : Finset ℕ} (hs : s.Saine) (hf : s.bandes b = f)
    (h : Effet f r o c) (hsep : ∀ x ∈ c, x ∉ s.contenu b.autre) : Calme s (s.pose b r.2) where
  saine := by
    refine ⟨(Function.forall_update_iff s.bandes fun _ f => f.Compte).mpr ⟨h.compte, fun k _ => hs.compte k⟩, ?_⟩
    intro e hi hn
    rw [← h.contenu] at hsep
    cases b with
    | interactive => exact hsep e hi hn
    | normale => exact hsep e hn hi
  couvre hc := hc.pose (h.couvre (hf ▸ hc b))
  curseur := by
    refine (Function.forall_update_iff s.bandes fun k f => f.curseurBas = (s.bandes k).curseurBas).mpr ⟨?_, fun _ _ => rfl⟩
    rw [hf]
    exact h.curseurs.bas
  tours := rfl

theorem enfile_spec (hs : s.Saine) (he : e < emplacements) (b : Bande) :
    (s.enfile e b).1 = decide (e ∉ s.contenu b) ∧
      (s.enfile e b).2.contenu = (fun k => if k = b then insert e (s.contenu k) else (s.contenu k).erase e) ∧
      Calme s (s.enfile e b).2 := by
  -- the place leaves the other band first
  obtain ⟨s1, hs1, hb, hautre, hcalme⟩ : ∃ s1 : FileCpu, s.enfile e b =
        (((s1.bandes b).insere e).1, s1.pose b ((s1.bandes b).insere e).2) ∧
      s1.bandes b = s.bandes b ∧ s1.contenu b.autre = (s.contenu b.autre).erase e ∧ Calme s s1 := by
    by_cases hla : (s.bandes b.autre).contient e = true
    · have h := retire_spec (s.bandes b.autre) e (hs.compte _)
      refine ⟨_, by simp only [enfile, hla, if_true], pose_of_ne (autre_ne b).symm _ _, ?_,
        calme_pose hs rfl h fun x hx => hs.not_mem_autre (mem_of_mem_erase hx)⟩
      rw [contenu, pose_self]
      exact h.contenu
    · refine ⟨s, by simp only [enfile, hla, Bool.false_eq_true, if_false], rfl, ?_, hs, id, fun _ => rfl, rfl⟩
      exact (erase_eq_of_notMem fun hm => hla (contient_iff.mpr hm)).symm
  have h := insere_spec he (hs.compte b)
  rw [hs1, hb]
  refine ⟨h.rend, ?_, hcalme.trans (calme_pose hcalme.saine hb h fun x hx => ?_)⟩
  · funext k
    by_cases hk : k = b
    · rw [if_pos hk, hk, contenu, pose_self]
      exact h.contenu
    · rw [if_neg hk, contenu, pose_of_ne hk, eq_autre hk]
      exact hautre
  · rw [hautre]
    rcases mem_insert.mp hx with rfl | hx
    · exact notMem_erase _ _
    · exact fun hm => hs.not_mem_autre hx (mem_of_mem_erase hm)

theorem enfile_hors (he : emplacements ≤ e) (b : Bande) : s.enfile e b = (false, s) := by
  have hnot : (s.bandes b.autre).contient e = false := if_pos he
  rw [enfile, hnot]
  simp only [Bool.false_eq_true, if_false, insere_hors he, pose_eq_self]

theorem retire_calme (hs : s.Saine) (e : ℕ) :
    (s.retire e).1 = decide (e ∈ s.contenu .interactive ∨ e ∈ s.contenu .normale) ∧
      (s.retire e).2.contenu = (fun k => (s.contenu k).erase e) ∧ Calme s (s.retire e).2 := by
  have h := retire_spec (s.bandes .interactive) e (hs.compte _)
  have hcalme := calme_pose hs rfl h fun x hx => hs.separees x (mem_of_mem_erase hx)
  rw [retire]
  generalize (s.bandes .interactive).retire e = r at *
  obtain ⟨r, f⟩ := r
  by_cases hi : e ∈ s.contenu .interactive
  · obtain rfl : r = true := h.rend.trans (decide_eq_true hi)
    refine ⟨by simp [hi], ?_, hcalme⟩
    funext k
    cases k with
    | interactive => rw [contenu, pose_self]; exact h.contenu
    | normale =>
      rw [contenu, pose_of_ne (by decide), erase_eq_of_notMem (hs.separees e hi)]
      rfl
  · obtain rfl : r = false := h.rend.trans (decide_eq_false hi)
    have h' := retire_spec (s.bandes .normale) e (hs.compte _)
    refine ⟨h'.rend.trans (by simp only [hi, false_or]; rfl), ?_,
      hcalme.trans (calme_pose hcalme.saine (pose_of_ne (by decide) _ _) h' fun x hx => ?_)⟩
    · funext k
      cases k with
      | interactive => rw [contenu, pose_of_ne (by decide), pose_self]; exact h.contenu
      | normale => rw [contenu, pose_self]; exact h'.contenu
    · exact hcalme.saine.not_mem_autre (mem_of_mem_erase hx)

/-- Every operation keeps the queue sound and acts on the sets. -/
theorem fait_spec (hs : s.Saine) (o : Op) :
    PasAbstrait s.contenu o (s.fait o).1 (s.fait o).2.contenu ∧ (s.fait o).2.Saine ∧
      (s.Couvre → (s.fait o).2.Couvre) := by
  cases o with
  | enfile e b =>
    by_cases he : e < emplacements
    · obtain ⟨hout, hcont, hcalme⟩ := enfile_spec hs he b
      refine ⟨?_, hcalme.saine, hcalme.couvre⟩
      show PasAbstrait s.contenu _ (.booleen (s.enfile e b).1) (s.enfile e b).2.contenu
      rw [hout, hcont]
      exact .enfile he
    · have hhors : s.enfile e b = (false, s) := enfile_hors (not_lt.mp he) b
      simp only [fait, hhors]
      exact ⟨.enfileHors (not_lt.mp he), hs, id⟩
  | defile =>
    simp only [fait]
    rcases defile_spec hs with ⟨hvide, he⟩ | ⟨b, e, s', he, hserv, -⟩
    · rw [he]
      exact ⟨.defileVide hvide, hs, id⟩
    · rw [he]
      refine ⟨?_, hserv.saine hs, hserv.couvre⟩
      rw [hserv.contenu_eq]
      exact .defile hserv.service.mem
  | vole =>
    simp only [fait]
    rcases vole_spec hs with ⟨hvide, he⟩ | ⟨b, e, s', he, hserv, -⟩
    · rw [he]
      exact ⟨.voleVide hvide, hs, id⟩
    · rw [he]
      refine ⟨?_, hserv.saine hs, hserv.couvre⟩
      rw [hserv.contenu_eq]
      exact .vole hserv.service.mem
  | retire e =>
    obtain ⟨hout, hcont, hcalme⟩ := retire_calme hs e
    refine ⟨?_, hcalme.saine, hcalme.couvre⟩
    show PasAbstrait s.contenu _ (.booleen (s.retire e).1) (s.retire e).2.contenu
    rw [hout, hcont]
    exact .retire

theorem longueur_eq (hs : s.Saine) : s.longueur = (s.contenu .interactive ∪ s.contenu .normale).card := by
  rw [card_union_of_disjoint (disjoint_left.mpr hs.separees), longueur,
    hs.compte .interactive, hs.compte .normale]
  rfl

/-- The same queue up to words that cover. -/
structure Pareil (s s' : FileCpu) : Prop where
  bandes : ∀ b, Pareille (s.bandes b) (s'.bandes b)
  tours : s'.toursInteractifs = s.toursInteractifs

theorem exists_of_fst {α β : Type} {r r' : α × β} {p : β → β → Prop} (h : r'.1 = r.1 ∧ p r.2 r'.2) :
    ∃ o f f', r = (o, f) ∧ r' = (o, f') ∧ p f f' := ⟨_, _, r'.2, rfl, Prod.ext h.1 rfl, h.2⟩

section

variable (h : Pareil s s')

include h

theorem Pareil.pose {f f' : BandeFile} (hf : Pareille f f') (b : Bande) :
    Pareil (s.pose b f) (s'.pose b f') := by
  refine ⟨fun k => ?_, h.tours⟩
  by_cases hk : k = b
  · rwa [hk, pose_self, pose_self]
  · rw [pose_of_ne hk, pose_of_ne hk]
    exact h.bandes k

theorem Pareil.enfile (e : ℕ) (b : Bande) :
    (s'.enfile e b).1 = (s.enfile e b).1 ∧ Pareil (s.enfile e b).2 (s'.enfile e b).2 := by
  have hcommun : ∀ {t t' : FileCpu}, Pareil t t' →
      ((t'.bandes b).insere e).1 = ((t.bandes b).insere e).1 ∧
        Pareil (t.pose b ((t.bandes b).insere e).2) (t'.pose b ((t'.bandes b).insere e).2) := by
    intro t t' ht
    obtain ⟨hout, hf⟩ := (ht.bandes b).insere e
    exact ⟨hout, ht.pose hf b⟩
  simp only [FileCpu.enfile, (h.bandes b.autre).contient e]
  split
  · exact hcommun (h.pose ((h.bandes _).retire e).2 _)
  · exact hcommun h

theorem Pareil.elit (b : Bande) : (s'.elit b).1 = (s.elit b).1 ∧ Pareil (s.elit b).2 (s'.elit b).2 := by
  obtain ⟨o, f, f', hs, hs', hf⟩ := exists_of_fst ((h.bandes b).sert false)
  have hpose := h.pose hf b
  unfold FileCpu.elit
  rw [hs, hs']
  cases o with
  | none => exact ⟨rfl, hpose⟩
  | some e =>
    refine ⟨rfl, hpose.bandes, ?_⟩
    cases b
    · show (s'.toursInteractifs + 1) % 2 ^ 32 = (s.toursInteractifs + 1) % 2 ^ 32
      rw [h.tours]
    · rfl

theorem Pareil.defile : s'.defile.1 = s.defile.1 ∧ Pareil s.defile.2 s'.defile.2 := by
  have hordre : s'.normaleDabord ↔ s.normaleDabord := by
    unfold normaleDabord
    rw [h.tours, (h.bandes .normale).longueur]
  have hpremiere : (if s'.normaleDabord then Bande.normale else Bande.interactive) =
      if s.normaleDabord then Bande.normale else Bande.interactive := if_congr hordre rfl rfl
  rw [FileCpu.defile, FileCpu.defile, hpremiere]
  generalize (if s.normaleDabord then Bande.normale else Bande.interactive) = p
  obtain ⟨o, t, t', hs, hs', hp⟩ := exists_of_fst (h.elit p)
  rw [hs, hs']
  cases o with
  | none => exact Pareil.elit hp _
  | some e => exact ⟨rfl, hp⟩

theorem Pareil.vole : s'.vole.1 = s.vole.1 ∧ Pareil s.vole.2 s'.vole.2 := by
  obtain ⟨o, f, f', hs, hs', hf⟩ := exists_of_fst ((h.bandes .normale).sert true)
  have hpose := h.pose hf .normale
  rw [FileCpu.vole, FileCpu.vole, hs, hs']
  cases o with
  | none =>
    obtain ⟨hout', hf'⟩ := (hpose.bandes .interactive).sert true
    exact ⟨hout', hpose.pose hf' _⟩
  | some e => exact ⟨rfl, hpose⟩

theorem Pareil.retire (e : ℕ) : (s'.retire e).1 = (s.retire e).1 ∧ Pareil (s.retire e).2 (s'.retire e).2 := by
  obtain ⟨o, f, f', hs, hs', hf⟩ := exists_of_fst ((h.bandes .interactive).retire e)
  have hpose := h.pose hf .interactive
  rw [FileCpu.retire, FileCpu.retire, hs, hs']
  cases o with
  | false =>
    obtain ⟨hout', hf'⟩ := (hpose.bandes .normale).retire e
    exact ⟨hout', hpose.pose hf' _⟩
  | true => exact ⟨rfl, hpose⟩

theorem Pareil.fait (o : Op) : (s'.fait o).1 = (s.fait o).1 ∧ Pareil (s.fait o).2 (s'.fait o).2 := by
  cases o with
  | enfile e b => exact ⟨congrArg Sortie.booleen (h.enfile e b).1, (h.enfile e b).2⟩
  | defile => exact ⟨congrArg Sortie.emplacement h.defile.1, h.defile.2⟩
  | vole => exact ⟨congrArg Sortie.emplacement h.vole.1, h.vole.2⟩
  | retire e => exact ⟨congrArg Sortie.booleen (h.retire e).1, (h.retire e).2⟩

theorem Pareil.joue (ops : List Op) : (s'.joue ops).1 = (s.joue ops).1 := by
  induction ops generalizing s s' with
  | nil => rfl
  | cons o ops ih =>
    obtain ⟨hout, hsuite⟩ := h.fait o
    show (s'.fait o).1 :: ((s'.fait o).2.joue ops).1 = (s.fait o).1 :: ((s.fait o).2.joue ops).1
    rw [hout, ih hsuite]

end

theorem contenu_avecResume (s : FileCpu) (r : Bande → BitVec 64) : (s.avecResume r).contenu = s.contenu :=
  funext fun _ => contenu_congr rfl

theorem Saine.avecResume (hs : s.Saine) (r : Bande → BitVec 64) : (s.avecResume r).Saine := by
  refine ⟨fun b => ?_, by rw [contenu_avecResume]; exact hs.separees⟩
  rw [Compte, show ((s.avecResume r).bandes b).contenu = (s.bandes b).contenu from contenu_congr rfl]
  exact hs.compte b

theorem pareil_avecResume (hs : s.Saine) (hc : s.Couvre) {r : Bande → BitVec 64}
    (hr : (s.avecResume r).Couvre) : Pareil s (s.avecResume r) :=
  ⟨fun b => ⟨contenu_congr rfl, fun haut => by cases haut <;> rfl,
    ⟨hs.compte b, (hs.avecResume r).compte b⟩, hc b, hr b⟩, rfl⟩

end FileCpu

/-- Queues reached by operations one after the other, where the words that guide the
scans may be replaced by any value at any time. -/
inductive Atteinte : FileCpu → Prop
  | neuve : Atteinte .neuve
  | fait {s : FileCpu} (o : Op) : Atteinte s → Atteinte (s.fait o).2
  | perime {s : FileCpu} (r : Bande → BitVec 64) : Atteinte s → Atteinte (s.avecResume r)

theorem saine_neuve : neuve.Saine := by
  have hvide : ∀ b, neuve.contenu b = ∅ := by
    intro b
    rw [eq_empty_iff_forall_notMem]
    intro e he
    have := (mem_contenu.mp he).2
    simp [FileCpu.neuve, BandeFile.neuve] at this
  refine ⟨fun b => ?_, fun e he => ?_⟩
  · rw [Compte, show (neuve.bandes b).contenu = ∅ from hvide b]
    rfl
  · rw [hvide] at he
    exact absurd he (notMem_empty _)

theorem couvre_neuve : FileCpu.neuve.Couvre := fun _ _ _ hne => absurd rfl hne

theorem Atteinte.saine {s : FileCpu} (h : Atteinte s) : s.Saine := by
  induction h with
  | neuve => exact saine_neuve
  | fait o _ ih => exact (fait_spec ih o).2.1
  | perime r _ ih => exact ih.avecResume r

theorem joue_spec {s : FileCpu} (hs : s.Saine) (hc : s.Couvre) (ops : List Op) :
    (s.joue ops).2.Saine ∧ (s.joue ops).2.Couvre := by
  induction ops generalizing s with
  | nil => exact ⟨hs, hc⟩
  | cons o ops ih =>
    obtain ⟨-, hs', hc'⟩ := fait_spec hs o
    exact ih hs' (hc' hc)

/-- The queue is two disjoint sets of places below 1024 whatever the words that guide
the scans are; with words that cover, as in any sequence of operations, the answers do
not depend on them. -/
theorem file_deux_ensembles : (∀ s, Atteinte s → (∀ b, ∀ e ∈ s.contenu b, e < emplacements) ∧
      (∀ e, e ∈ s.contenu .interactive → e ∉ s.contenu .normale) ∧
      s.longueur = (s.contenu .interactive ∪ s.contenu .normale).card ∧
      (s.defile.1 = none ↔ ∀ b, s.contenu b = ∅) ∧ (s.vole.1 = none ↔ ∀ b, s.contenu b = ∅) ∧
      ∀ o, PasAbstrait s.contenu o (s.fait o).1 (s.fait o).2.contenu) ∧
    (∀ ops, (FileCpu.neuve.joue ops).2.Couvre) ∧
    ∀ ops r, ((FileCpu.neuve.joue ops).2.avecResume r).Couvre → ∀ suite,
      (((FileCpu.neuve.joue ops).2.avecResume r).joue suite).1 =
        ((FileCpu.neuve.joue ops).2.joue suite).1 := by
  refine ⟨fun s h => ?_, fun ops => (joue_spec saine_neuve couvre_neuve ops).2, fun ops r hr suite => ?_⟩
  · have hs := h.saine
    refine ⟨fun b e he => (mem_contenu.mp he).1, hs.separees, longueur_eq hs, ?_, ?_,
      fun o => (fait_spec hs o).1⟩
    · rcases defile_spec hs with ⟨hvide, he⟩ | ⟨b, e, s', he, hserv, -⟩
      · rw [he]
        exact iff_of_true rfl hvide
      · rw [he]
        refine iff_of_false (Option.some_ne_none e) fun hvide => ?_
        exact ne_empty_of_mem hserv.service.mem (hvide b)
    · rcases vole_spec hs with ⟨hvide, he⟩ | ⟨b, e, s', he, hserv, -⟩
      · rw [he]
        exact iff_of_true rfl hvide
      · rw [he]
        refine iff_of_false (Option.some_ne_none e) fun hvide => ?_
        exact ne_empty_of_mem hserv.service.mem (hvide b)
  · obtain ⟨hs, hc⟩ := joue_spec saine_neuve couvre_neuve ops
    exact (pareil_avecResume hs hc hr).joue suite

/-- With a word that misses the first one, place 64 is served before place 0. -/
theorem file_resume_perime : ∃ ops r suite, (((FileCpu.neuve.joue ops).2.avecResume r).joue suite).1 ≠
      ((FileCpu.neuve.joue ops).2.joue suite).1 := by
  refine ⟨[.enfile 0 .normale, .enfile 64 .normale], fun _ => 2#64, [.defile], ?_⟩
  decide

/-- After two places are queued, words with all bits change no answer. -/
theorem file_deux_ensembles_pleins :
    (((FileCpu.neuve.joue [.enfile 0 .normale, .enfile 64 .normale]).2.avecResume
        fun _ => BitVec.allOnes 64).joue [.defile, .vole, .defile]).1 =
      [.emplacement (some 0), .emplacement (some 64), .emplacement none] := by
  have hsame := file_deux_ensembles.2.2 [.enfile 0 .normale, .enfile 64 .normale]
    (fun _ => BitVec.allOnes 64) (fun _ m hm _ => ?_) [.defile, .vole, .defile]
  · rw [hsame]
    decide
  · show (BitVec.allOnes 64).getLsbD m = true
    rw [BitVec.getLsbD_allOnes]
    exact decide_eq_true (hm.trans (by decide))

end BouchaudOS.Runqueue
