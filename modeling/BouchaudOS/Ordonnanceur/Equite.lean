import BouchaudOS.Ordonnanceur.DeuxEnsembles

/-!
# Nobody starves in the run queue

A window is a sequence of operations during which a place stays in its band. Elections
serve a band in circular order, so that no other place of the band is served twice in the
window. The interactive band gets at most eight turns in a row while a normal place waits,
so that a normal place waits for fewer than nine elections for each normal place seen.
-/

namespace BouchaudOS.Runqueue

open RoundRobin BandeFile FileCpu List Finset

/-- The place stays in the band, from the first state of the window to the last one. -/
def Attend (b : Bande) (x : ℕ) : FileCpu → List Op → Prop
  | s, [] => x ∈ s.contenu b
  | s, o :: ops => x ∈ s.contenu b ∧ Attend b x (s.fait o).2 ops

/-- The place an operation elects, if it was in the band. -/
def elu (b : Bande) (s : FileCpu) (o : Op) : Option ℕ :=
  match o, (s.fait o).1 with
  | .defile, .emplacement (some e) => if e ∈ s.contenu b then some e else none
  | _, _ => none

def elus (b : Bande) : FileCpu → List Op → List ℕ
  | _, [] => []
  | s, o :: ops => (elu b s o).toList ++ elus b (s.fait o).2 ops

/-- The places that are in the band at some moment of the window. -/
def vus (b : Bande) : FileCpu → List Op → Finset ℕ
  | s, [] => s.contenu b
  | s, o :: ops => s.contenu b ∪ vus b (s.fait o).2 ops

variable {s : FileCpu} {b : Bande} {x : ℕ} {ops : List Op}

theorem Attend.mem (h : Attend b x s ops) : x ∈ s.contenu b := by
  cases ops with
  | nil => exact h
  | cons o ops => exact h.1

theorem contenu_subset_vus (s : FileCpu) (ops : List Op) : s.contenu b ⊆ vus b s ops := by
  cases ops with
  | nil => exact Finset.Subset.refl _
  | cons o ops => exact subset_union_left

theorem elu_mem {o : Op} {e : ℕ} (h : elu b s o = some e) : e ∈ s.contenu b := by
  unfold elu at h
  split at h
  · split at h
    · rename_i hmem
      obtain rfl := Option.some.inj h
      exact hmem
    · exact absurd h (by simp)
  · exact absurd h (by simp)

theorem elus_subset_vus (s : FileCpu) (ops : List Op) : ∀ e ∈ elus b s ops, e ∈ vus b s ops := by
  induction ops generalizing s with
  | nil =>
    intro e he
    exact absurd he not_mem_nil
  | cons o ops ih =>
    intro e he
    rcases mem_append.mp he with he | he
    · exact mem_union_left _ (elu_mem (Option.mem_toList.mp he))
    · exact mem_union_right _ (ih _ e he)

/-- What a step does to a band: an election from it, or the cursor of the elections and
the number of turns stay, but for an interactive turn. -/
theorem elu_cases (hs : s.Saine) (b : Bande) (o : Op) :
    (∃ e, o = .defile ∧ elu b s o = some e ∧ ServiceDe s false b e (s.fait o).2 ∧
        (b = .normale → (s.fait o).2.toursInteractifs = 0)) ∨
      (elu b s o = none ∧ ((s.fait o).2.bandes b).curseurBas = (s.bandes b).curseurBas ∧
        (o ≠ .defile → (s.fait o).2.toursInteractifs = s.toursInteractifs) ∧
        (o = .defile → b = .normale → s.contenu .normale ≠ ∅ →
          s.toursInteractifs < toursInteractifsMax ∧
          (s.fait o).2.toursInteractifs = s.toursInteractifs + 1)) := by
  cases o with
  | defile =>
    rcases defile_spec hs with ⟨hvide, he⟩ | ⟨p, e, s', he, hserv, hquota, htours⟩
    · right
      refine ⟨by simp only [elu, fait, he], by simp only [fait, he], by simp, fun _ _ hne => ?_⟩
      exact absurd (hvide .normale) hne
    · have hfait : s.fait .defile = (.emplacement (some e), s') := by rw [fait, he]
      by_cases hpb : p = b
      · subst hpb
        left
        refine ⟨e, rfl, ?_, by rw [hfait]; exact hserv, ?_⟩
        · simp only [elu, hfait]
          exact if_pos hserv.service.mem
        · rintro rfl
          rw [hfait]
          exact htours
      · right
        have hb : b = p.autre := eq_autre (Ne.symm hpb)
        have hnot : e ∉ s.contenu b := by
          rw [hb]
          exact hs.not_mem_autre hserv.service.mem
        refine ⟨?_, ?_, by simp, fun _ hn hne => ?_⟩
        · simp only [elu, hfait]
          exact if_neg hnot
        · rw [hfait]
          exact congrArg BandeFile.curseurBas (hserv.autre b (Ne.symm hpb))
        · obtain rfl : p = .interactive := by
            cases p
            · rfl
            · exact absurd hn.symm hpb
          have hlt := hquota rfl hne
          refine ⟨hlt, ?_⟩
          rw [hfait]
          refine htours.trans (Nat.mod_eq_of_lt ?_)
          unfold toursInteractifsMax at hlt
          omega
  | enfile e p =>
    right
    by_cases he : e < emplacements
    · obtain ⟨-, -, hcalme⟩ := enfile_spec hs he p
      exact ⟨rfl, hcalme.curseur b, fun _ => hcalme.tours, by simp⟩
    · have hhors : s.enfile e p = (false, s) := enfile_hors (not_lt.mp he) p
      simp only [fait, hhors]
      exact ⟨rfl, trivial, fun _ => trivial, by simp⟩
  | vole =>
    right
    rcases vole_spec hs with ⟨hvide, he⟩ | ⟨p, e, s', he, hserv, htours⟩
    · simp only [fait, he]
      exact ⟨rfl, trivial, fun _ => trivial, by simp⟩
    · simp only [fait, he]
      refine ⟨rfl, ?_, fun _ => htours, by simp⟩
      by_cases hpb : b = p
      · rw [hpb]
        exact hserv.service.autreCurseur
      · rw [hserv.autre b hpb]
  | retire e =>
    right
    obtain ⟨-, -, hcalme⟩ := retire_calme hs e
    exact ⟨rfl, hcalme.curseur b, fun _ => hcalme.tours, by simp⟩

theorem served_elus (hs : s.Saine) (hc : s.Couvre) (h : Attend b x s ops) :
    Served emplacements x ((s.bandes b).curseurBas % emplacements) (elus b s ops) := by
  induction ops generalizing s with
  | nil => exact .nil _
  | cons o ops ih =>
    obtain ⟨hx, hsuite⟩ := h
    obtain ⟨-, hs', hc'⟩ := fait_spec hs o
    have hih := ih hs' (hc' hc) hsuite
    rcases elu_cases hs b o with ⟨e, -, helu, hserv, -⟩ | ⟨helu, hcurs, -⟩
    · rw [elus, helu]
      have he := (mem_contenu.mp hserv.service.mem).1
      have hne : e ≠ x := by
        rintro rfl
        have hmem := hsuite.mem
        rw [hserv.contenu_eq] at hmem
        simp at hmem
      have hle := hserv.service.premier (hc b) x hx
      have hlt : (s.bandes b).curseurBas % emplacements < emplacements := Nat.mod_lt _ (by decide)
      refine .cons he (hle.lt_of_ne fun heq => ?_) ?_
      · exact hne (ahead_inj hlt he (mem_contenu.mp hx).1 heq)
      · have hnext : ((s.fait o).2.bandes b).curseurBas % emplacements = RoundRobin.next emplacements e := by
          have hcurs : ((s.fait o).2.bandes b).curseurBas = emplacementSuivant e false :=
            hserv.service.curseur
          rw [hcurs]
          unfold emplacements at he
          unfold emplacementSuivant RoundRobin.next emplacements
          simp only [Bool.false_eq_true, if_false]
          split <;> omega
        rwa [hnext] at hih
    · rw [elus, helu]
      rwa [hcurs] at hih

/-- Eight interactive turns at most between two elections of normal places. -/
theorem count_defile_le (hs : s.Saine) (h : Attend .normale x s ops) :
    ops.count .defile + min s.toursInteractifs toursInteractifsMax ≤
      9 * (elus .normale s ops).length + toursInteractifsMax := by
  induction ops generalizing s with
  | nil => simp [elus]
  | cons o ops ih =>
    obtain ⟨hx, hsuite⟩ := h
    have hih := ih (fait_spec hs o).2.1 hsuite
    unfold toursInteractifsMax at *
    rcases elu_cases hs .normale o with ⟨e, rfl, helu, -, htours⟩ | ⟨helu, -, hautre, hdefile⟩
    · have h0 := htours rfl
      rw [elus, helu, count_cons_self]
      simp only [Option.toList_some, cons_append, nil_append, length_cons]
      omega
    · rw [elus, helu, count_cons]
      simp only [Option.toList_none, nil_append]
      by_cases ho : o = .defile
      · obtain ⟨hlt, htours⟩ := hdefile ho rfl (ne_empty_of_mem hx)
        unfold toursInteractifsMax at hlt
        simp only [ho, beq_self_eq_true, if_true] at *
        omega
      · have htours := hautre ho
        have hbeq : (o == Op.defile) = false := by simpa using ho
        rw [hbeq]
        simp only [Bool.false_eq_true, if_false]
        omega

/-- While a place waits in its band, no other one is elected twice from it; a normal place
waits for fewer than nine elections for each normal place seen. -/
theorem personne_n_attend_toujours (ops : List Op) :
    (∀ b x suite, Attend b x (FileCpu.neuve.joue ops).2 suite →
      (elus b (FileCpu.neuve.joue ops).2 suite).Nodup ∧ x ∉ elus b (FileCpu.neuve.joue ops).2 suite) ∧
    ∀ x suite, Attend .normale x (FileCpu.neuve.joue ops).2 suite →
      suite.count .defile < 9 * (vus .normale (FileCpu.neuve.joue ops).2 suite).card := by
  obtain ⟨hs, hc⟩ := joue_spec saine_neuve couvre_neuve ops
  generalize (FileCpu.neuve.joue ops).2 = s at *
  have hfenetre : ∀ b x suite, Attend b x s suite → (elus b s suite).Nodup ∧ x ∉ elus b s suite := by
    intro b x suite h
    obtain ⟨hall, hnodup⟩ := (served_elus hs hc h).nodup (Nat.mod_lt _ (by decide)) (mem_contenu.mp h.mem).1
    exact ⟨hnodup, fun hx => lt_irrefl _ (hall x hx).2⟩
  refine ⟨hfenetre, fun x suite h => ?_⟩
  obtain ⟨hnodup, hx⟩ := hfenetre .normale x suite h
  -- the places elected are among those seen, without the one that waits
  have hsub : (elus .normale s suite).toFinset ⊆ (vus .normale s suite).erase x := by
    intro e he
    rw [mem_toFinset] at he
    exact mem_erase.mpr ⟨fun hex => hx (hex ▸ he), elus_subset_vus s suite e he⟩
  have hcard := card_le_card hsub
  have hmem : x ∈ vus .normale s suite := contenu_subset_vus s suite h.mem
  rw [toFinset_card_of_nodup hnodup, card_erase_of_mem hmem] at hcard
  have hpos := card_pos.mpr ⟨x, hmem⟩
  have hcount := count_defile_le hs h
  unfold toursInteractifsMax at hcount
  omega

/-- Place 3 waits behind place 7, which comes back as interactive after each election. -/
theorem personne_n_attend_toujours_un :
    Attend .normale 3 (FileCpu.neuve.joue [.enfile 3 .normale, .enfile 7 .interactive]).2
        [.defile, .enfile 7 .interactive, .defile] ∧
      2 < 9 * (vus .normale (FileCpu.neuve.joue [.enfile 3 .normale, .enfile 7 .interactive]).2
        [.defile, .enfile 7 .interactive, .defile]).card := by
  have h : Attend .normale 3 (FileCpu.neuve.joue [.enfile 3 .normale, .enfile 7 .interactive]).2
      [.defile, .enfile 7 .interactive, .defile] := by
    refine ⟨?_, ?_, ?_, ?_⟩ <;> exact contient_iff.mp (by decide)
  exact ⟨h, (personne_n_attend_toujours [.enfile 3 .normale, .enfile 7 .interactive]).2 3 _ h⟩

end BouchaudOS.Runqueue
