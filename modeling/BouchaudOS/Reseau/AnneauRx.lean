import Mathlib

/-!
# Did the last repair of the reception help?

`SuiviVerdict` of `drivers/network/anneau_rx.rs` keeps one question open at a time: a repair
is judged by the first request that comes at or after the end of its window, and a request
that comes earlier is put off. The failures in a row decide how far the next repair goes.
The counter of failures stays at `2 ^ 32 - 1`.
-/

namespace BouchaudOS.Reseau

inductive Admission
  | reparez (sansEffet : ℕ)
  | differee (restantNs : ℕ)
  deriving DecidableEq

structure IssueVerdict where
  effective : Bool
  sansEffet : ℕ
  ageNs : ℕ
  deriving DecidableEq

structure SuiviVerdict where
  enAttente : Bool := false
  depuisNs : ℕ := 0
  paquetsAvant : ℕ := 0
  sansEffet : ℕ := 0
  deriving DecidableEq

namespace SuiviVerdict

variable (s : SuiviVerdict) (maintenant fenetre paquets : ℕ)

def conclutSiDu : SuiviVerdict × Option IssueVerdict :=
  if !s.enAttente then (s, none)
  else
    let age := maintenant - s.depuisNs
    if age < fenetre then (s, none)
    else
      let effective := decide (s.paquetsAvant < paquets)
      let sansEffet := if effective then 0 else min (s.sansEffet + 1) (2 ^ 32 - 1)
      ({ s with enAttente := false, sansEffet := sansEffet }, some ⟨effective, sansEffet, age⟩)

def presenteDemande : SuiviVerdict × Admission × Option IssueVerdict :=
  let (s', issue) := s.conclutSiDu maintenant fenetre paquets
  if s'.enAttente then (s', .differee (fenetre - (maintenant - s'.depuisNs)), issue)
  else (s', .reparez s'.sansEffet, issue)

def arme : SuiviVerdict := { s with enAttente := true, depuisNs := maintenant, paquetsAvant := paquets }

end SuiviVerdict

inductive Degre
  | draine | rearme | relanceRx | reconstruitAnneau | reinitialiseCarte
  deriving DecidableEq

structure Recensement where
  materiel : ℕ
  processeur : ℕ

def moteurRxARelancer (chipCmd : UInt8) : Bool := chipCmd &&& 0x08 = 0 || chipCmd &&& 0x01 ≠ 0

def degre (invariant : Option String) (recensement : Recensement) (chipCmd : UInt8) (reprisesInfructueuses : ℕ) :
    Degre :=
  if invariant.isSome then .reconstruitAnneau
  else if 3 ≤ reprisesInfructueuses then .reinitialiseCarte
  else if 2 ≤ reprisesInfructueuses then .reconstruitAnneau
  else if moteurRxARelancer chipCmd then .relanceRx
  else if recensement.processeur ≠ 0 then .rearme
  else .draine

/-- A request: when it comes, the packets received by then, and the packets received when
the repair it leads to is over. -/
structure Demande where
  instant : ℕ
  paquets : ℕ
  apres : ℕ

namespace SuiviVerdict

/-- A request, and `arme` after a repair. -/
def demande (fenetre : ℕ) (s : SuiviVerdict) (d : Demande) : SuiviVerdict :=
  match s.presenteDemande d.instant fenetre d.paquets with
  | (s', .reparez _, _) => s'.arme d.instant d.apres
  | (s', .differee _, _) => s'

/-- The state before request `n`. -/
def etat (fenetre : ℕ) (ds : ℕ → Demande) : ℕ → SuiviVerdict
  | 0 => {}
  | n + 1 => (etat fenetre ds n).demande fenetre (ds n)

/-- What request `n` is answered, and the verdict it brings. -/
def reponse (fenetre : ℕ) (ds : ℕ → Demande) (n : ℕ) : Admission × Option IssueVerdict :=
  ((etat fenetre ds n).presenteDemande (ds n).instant fenetre (ds n).paquets).2

/-- The verdicts before request `n`, the last one first: was the repair effective? -/
def verdicts (fenetre : ℕ) (ds : ℕ → Demande) : ℕ → List Bool
  | 0 => []
  | n + 1 =>
    match (reponse fenetre ds n).2 with
    | some issue => issue.effective :: verdicts fenetre ds n
    | none => verdicts fenetre ds n

/-- Concluded repairs without effect since the last one that had an effect. -/
def echecs (fenetre : ℕ) (ds : ℕ → Demande) (n : ℕ) : ℕ := ((verdicts fenetre ds n).takeWhile (! ·)).length

variable {fenetre : ℕ} {ds : ℕ → Demande}

/-- What a verdict makes of the number of failures. -/
def compte (sansEffet : ℕ) (effective : Bool) : ℕ := if effective then 0 else min (sansEffet + 1) (2 ^ 32 - 1)

/-- What request `n` does: it repairs, it is put off, or it concludes and repairs. -/
inductive Pas (fenetre : ℕ) (ds : ℕ → Demande) (n : ℕ) (s : SuiviVerdict) : Prop
  | libre (hs : s.enAttente = false)
      (hetat : etat fenetre ds (n + 1) = ⟨true, (ds n).instant, (ds n).apres, s.sansEffet⟩)
      (hrep : reponse fenetre ds n = (.reparez s.sansEffet, none))
  | tot (hs : s.enAttente = true) (ht : (ds n).instant - s.depuisNs < fenetre)
      (hetat : etat fenetre ds (n + 1) = s)
      (hrep : reponse fenetre ds n = (.differee (fenetre - ((ds n).instant - s.depuisNs)), none))
  | du (effective : Bool) (hs : s.enAttente = true) (ht : fenetre ≤ (ds n).instant - s.depuisNs)
      (heff : effective = decide (s.paquetsAvant < (ds n).paquets))
      (hetat : etat fenetre ds (n + 1) = ⟨true, (ds n).instant, (ds n).apres, compte s.sansEffet effective⟩)
      (hrep : reponse fenetre ds n = (.reparez (compte s.sansEffet effective),
        some ⟨effective, compte s.sansEffet effective, (ds n).instant - s.depuisNs⟩))

theorem pas (fenetre : ℕ) (ds : ℕ → Demande) (n : ℕ) : Pas fenetre ds n (etat fenetre ds n) := by
  cases hs : (etat fenetre ds n).enAttente with
  | false =>
    refine .libre hs ?_ ?_
    · simp [etat, demande, presenteDemande, conclutSiDu, arme, hs]
    · simp [reponse, presenteDemande, conclutSiDu, hs]
  | true =>
    rcases Nat.lt_or_ge ((ds n).instant - (etat fenetre ds n).depuisNs) fenetre with ht | ht
    · refine .tot hs ht ?_ ?_
      · simp [etat, demande, presenteDemande, conclutSiDu, hs, ht]
      · simp [reponse, presenteDemande, conclutSiDu, hs, ht]
    · refine .du _ hs ht rfl ?_ ?_
      · simp [etat, demande, presenteDemande, conclutSiDu, arme, compte, hs, Nat.not_lt.mpr ht]
      · simp [reponse, presenteDemande, conclutSiDu, compte, hs, Nat.not_lt.mpr ht]

theorem depuisNs_etat_le (fenetre : ℕ) (ht : Monotone fun n => (ds n).instant) (n : ℕ) :
    (etat fenetre ds n).depuisNs ≤ (ds n).instant := by
  induction n with
  | zero => exact Nat.zero_le _
  | succ n ih =>
    have hle : (ds n).instant ≤ (ds (n + 1)).instant := ht n.le_succ
    cases pas fenetre ds n with
    | libre _ hetat _ => rwa [hetat]
    | tot _ _ hetat _ =>
      rw [hetat]
      exact ih.trans hle
    | du _ _ _ _ hetat _ => rwa [hetat]

theorem sansEffet_etat (n : ℕ) : (etat fenetre ds n).sansEffet = min (echecs fenetre ds n) (2 ^ 32 - 1) := by
  induction n with
  | zero => rfl
  | succ n ih =>
    rw [echecs, verdicts]
    cases pas fenetre ds n with
    | libre _ hetat hrep =>
      rw [hetat, hrep]
      exact ih
    | tot _ _ hetat hrep =>
      rw [hetat, hrep]
      exact ih
    | du effective _ _ _ hetat hrep =>
      rw [hetat, hrep]
      simp only [compte, ih]
      cases effective with
      | true => rfl
      | false =>
        rw [List.takeWhile_cons_of_pos rfl, List.length_cons, ← echecs]
        simp only [Bool.false_eq_true, if_false]
        omega

/-- A question that request `j` arms is open until the first request at or after the end of
its window. -/
theorem etat_entre (ht : Monotone fun n => (ds n).instant) {j i : ℕ} (hj : (etat fenetre ds (j + 1)).enAttente = true)
    (hdepuis : (etat fenetre ds (j + 1)).depuisNs = (ds j).instant) (hi : j < i)
    (havant : ∀ k, j < k → k < i → (ds k).instant < (ds j).instant + fenetre) :
    etat fenetre ds i = etat fenetre ds (j + 1) := by
  induction i, hi using Nat.le_induction with
  | base => rfl
  | succ i hi ih =>
    have hstate := ih fun k hk hki => havant k hk (Nat.lt_succ_of_lt hki)
    rw [← hstate] at hj hdepuis ⊢
    have hle := depuisNs_etat_le fenetre ht i
    have hlt := havant i hi i.lt_succ_self
    cases pas fenetre ds i with
    | libre hs _ _ => simp [hs] at hj
    | tot _ _ hetat _ => exact hetat
    | du _ _ hge _ _ _ => omega

/-- When the requests go on at most `ecart` apart and nothing is received, a repair is judged
within its window and `ecart`, and counted as a failure. -/
theorem echec_suivant (ht : Monotone fun n => (ds n).instant) {ecart j k N : ℕ}
    (hecart : ∀ n, (ds (n + 1)).instant ≤ (ds n).instant + ecart)
    (hrien : ∀ j i, j < i → (ds i).paquets ≤ (ds j).apres) (hN : (ds j).instant + fenetre ≤ (ds N).instant)
    (hj : etat fenetre ds (j + 1) = ⟨true, (ds j).instant, (ds j).apres, k⟩) (hk : k < 2 ^ 32 - 1) :
    ∃ i, (ds i).instant ≤ (ds j).instant + (fenetre + ecart) ∧ (reponse fenetre ds i).1 = .reparez (k + 1) ∧
      etat fenetre ds (i + 1) = ⟨true, (ds i).instant, (ds i).apres, k + 1⟩ := by
  -- the first request after `j` at or after the end of the window
  have hex : ∃ i, j < i ∧ (ds j).instant + fenetre ≤ (ds i).instant :=
    ⟨max N (j + 1), by omega, hN.trans (ht (le_max_left _ _))⟩
  obtain ⟨hji, hdu⟩ := Nat.find_spec hex
  have havant : ∀ l, j < l → l < Nat.find hex → (ds l).instant < (ds j).instant + fenetre := by
    intro l hl hlt
    by_contra hle
    exact Nat.find_min hex hlt ⟨hl, Nat.not_lt.mp hle⟩
  generalize Nat.find hex = i at hji hdu havant
  have hstate := etat_entre ht (by rw [hj]) (by rw [hj]) hji havant
  rw [hj] at hstate
  have hgain : ¬ (ds j).apres < (ds i).paquets := Nat.not_lt.mpr (hrien j i hji)
  have hpas := pas fenetre ds i
  rw [hstate] at hpas
  obtain ⟨hs, -, -⟩ | ⟨-, hlt, -, -⟩ | ⟨effective, -, -, heff, hsucc, hrep⟩ := hpas
  · cases hs
  · dsimp only at hlt
    omega
  simp only [hgain, decide_false] at heff
  have hcompte : compte k effective = k + 1 := by
    rw [heff]
    exact min_eq_left hk
  simp only [hcompte] at hsucc hrep
  refine ⟨i, ?_, congrArg Prod.fst hrep, hsucc⟩
  obtain ⟨l, rfl⟩ : ∃ l, i = l + 1 := ⟨i - 1, by omega⟩
  have hl := hecart l
  rcases Nat.lt_or_ge j l with hlt | hge
  · have := havant l hlt l.lt_succ_self
    omega
  · obtain rfl : l = j := by omega
    omega

/-- A question that is open stays as it is until the first request at or after the end of its
window, and that request concludes it. `sansEffet` counts the failures in a row up to
`2 ^ 32 - 1`. When requests at most `ecart` apart go on and nothing is received, a request
within three windows and gaps is told to repair after three failures, and the repair
reinitialises the card. -/
theorem reparations_jugees (fenetre : ℕ) (ds : ℕ → Demande) (ht : Monotone fun n => (ds n).instant) :
    (∀ n, (etat fenetre ds n).enAttente = true →
      ((ds n).instant < (etat fenetre ds n).depuisNs + fenetre →
        etat fenetre ds (n + 1) = etat fenetre ds n ∧ (reponse fenetre ds n).2 = none ∧
          ∃ restant, (reponse fenetre ds n).1 = .differee restant) ∧
      ((etat fenetre ds n).depuisNs + fenetre ≤ (ds n).instant →
        ∃ k, reponse fenetre ds n = (.reparez k, some ⟨(etat fenetre ds n).paquetsAvant < (ds n).paquets, k,
          (ds n).instant - (etat fenetre ds n).depuisNs⟩))) ∧
    (∀ n, (etat fenetre ds n).sansEffet = min (echecs fenetre ds n) (2 ^ 32 - 1)) ∧
    ∀ ecart N, (∀ n, (ds (n + 1)).instant ≤ (ds n).instant + ecart) →
      (∀ j i, j < i → (ds i).paquets ≤ (ds j).apres) → (ds 0).instant + 3 * (fenetre + ecart) ≤ (ds N).instant →
      ∃ i k, (ds i).instant ≤ (ds 0).instant + 3 * (fenetre + ecart) ∧ 3 ≤ k ∧
        (reponse fenetre ds i).1 = .reparez k ∧
        ∀ recensement chipCmd, degre none recensement chipCmd k = .reinitialiseCarte := by
  refine ⟨fun n hw => ?_, sansEffet_etat, ?_⟩
  · have hle := depuisNs_etat_le fenetre ht n
    cases pas fenetre ds n with
    | libre hs _ _ => simp [hs] at hw
    | tot _ _ hetat hrep => exact ⟨fun _ => ⟨hetat, by rw [hrep], _, by rw [hrep]⟩, fun hge => by omega⟩
    | du _ _ _ heff _ hrep => exact ⟨fun hlt => by omega, fun _ => ⟨_, heff ▸ hrep⟩⟩
  intro ecart N hecart hrien hN
  have h0 : etat fenetre ds 1 = ⟨true, (ds 0).instant, (ds 0).apres, 0⟩ := rfl
  obtain ⟨i₁, ht₁, -, h₁⟩ := echec_suivant ht hecart hrien (N := N) (by omega) h0 (by omega)
  obtain ⟨i₂, ht₂, -, h₂⟩ := echec_suivant ht hecart hrien (N := N) (by omega) h₁ (by omega)
  obtain ⟨i₃, ht₃, hrep, -⟩ := echec_suivant ht hecart hrien (N := N) (by omega) h₂ (by omega)
  exact ⟨i₃, 3, by omega, le_rfl, hrep, fun _ _ => rfl⟩

/-- A request every 10 units with a window of 25, and nothing received. -/
theorem reparations_jugees_dix : ∃ i k, 10 * i ≤ 105 ∧ 3 ≤ k ∧
    (reponse 25 (fun n => ⟨10 * n, 0, 0⟩) i).1 = .reparez k := by
  have ht : Monotone fun n => (Demande.mk (10 * n) 0 0).instant := fun _ _ h => Nat.mul_le_mul_left 10 h
  obtain ⟨i, k, hi, hk, hrep, -⟩ := (reparations_jugees 25 (fun n => ⟨10 * n, 0, 0⟩) ht).2.2 10 11
    (fun n => by dsimp only; omega) (fun _ _ _ => le_rfl) (by decide)
  exact ⟨i, k, by simpa using hi, hk, hrep⟩

/-- Requests without end at one instant, with an empty window. -/
def sansFin : ℕ → Demande := fun _ => ⟨0, 0, 0⟩

theorem verdicts_sansFin (n : ℕ) : (etat 0 sansFin (n + 1)).enAttente = true ∧
    (etat 0 sansFin (n + 1)).paquetsAvant = 0 ∧ verdicts 0 sansFin (n + 1) = List.replicate n false := by
  induction n with
  | zero => exact ⟨rfl, rfl, rfl⟩
  | succ n ih =>
    obtain ⟨hw, hp, hv⟩ := ih
    rw [verdicts]
    obtain ⟨hs, -, -⟩ | ⟨-, hlt, -, -⟩ | ⟨effective, -, -, heff, hetat, hrep⟩ := pas 0 sansFin (n + 1)
    · simp [hs] at hw
    · omega
    · rw [hetat, hrep, hv, heff, hp]
      exact ⟨rfl, rfl, rfl⟩

theorem echecs_sansFin (n : ℕ) : echecs 0 sansFin (n + 1) = n := by
  rw [echecs, (verdicts_sansFin n).2.2, List.takeWhile_replicate_eq_filter]
  simp

/-- After `2 ^ 32` repairs without effect the counter is one behind. -/
theorem compteur_sature : (Monotone fun n => (sansFin n).instant) ∧ ∃ n, echecs 0 sansFin n = 2 ^ 32 ∧
    (etat 0 sansFin n).sansEffet = 2 ^ 32 - 1 := by
  refine ⟨fun _ _ _ => le_rfl, 2 ^ 32 + 1, echecs_sansFin _, ?_⟩
  rw [sansEffet_etat, echecs_sansFin]
  exact min_eq_right (Nat.sub_le _ _)

end SuiviVerdict

end BouchaudOS.Reseau
