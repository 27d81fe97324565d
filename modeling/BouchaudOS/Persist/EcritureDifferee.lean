import BouchaudOS.Foundations.Runs

/-!
# The policy of deferred writing

The thread of `fs/ecriture_differee.rs` observes the generation of `/persist` from time to
time, and `Etat::decide` says whether to write it. A transaction that captured a generation
succeeds or fails at once. A modification waits for `PLAFOND_MS` at most, and after failures
the attempts are spaced by a delay that doubles up to `ECHEC_MAX_MS`.
-/

open List

namespace BouchaudOS.EcritureDifferee

def CALME_MS : ℕ := 1500

def PLAFOND_MS : ℕ := 8000

def ECHEC_MS : ℕ := 2000

def ECHEC_MAX_MS : ℕ := 60000

structure Etat where
  ecrite : ℕ
  vue : ℕ
  vueMs : ℕ := 0
  retardDepuisMs : Option ℕ := none
  repriseMs : ℕ := 0
  echecMs : ℕ := ECHEC_MS

def Etat.neuf (generation : ℕ) : Etat := { ecrite := generation, vue := generation }

def Etat.decide (e : Etat) (generation maintenant : ℕ) : Bool × Etat :=
  if generation = e.ecrite then (false, { e with retardDepuisMs := none, vue := generation })
  else
    let e := if generation ≠ e.vue then { e with vue := generation, vueMs := maintenant } else e
    let depuis := e.retardDepuisMs.getD maintenant
    let e := { e with retardDepuisMs := some depuis }
    if maintenant < e.repriseMs then (false, e)
    else (CALME_MS ≤ maintenant - e.vueMs ∨ PLAFOND_MS ≤ maintenant - depuis, e)

def Etat.reussie (e : Etat) (generation : ℕ) : Etat :=
  { e with
    ecrite := generation
    echecMs := ECHEC_MS
    repriseMs := 0
    retardDepuisMs := if e.vue = generation then none else e.retardDepuisMs }

/-- None where an addition or a doubling of `u64` overflows, which panics. -/
def Etat.echouee (e : Etat) (maintenant : ℕ) : Option Etat :=
  if maintenant + e.echecMs < 2 ^ 64 ∧ e.echecMs * 2 < 2 ^ 64 then
    some { e with repriseMs := maintenant + e.echecMs, echecMs := min (e.echecMs * 2) ECHEC_MAX_MS }
  else none

/-- A turn of the thread: what it observes and, if it writes, the generation that the transaction
captures, the one observed (as in `fil`) or a later one, and whether it succeeds. -/
structure Observation where
  generation : ℕ
  maintenant : ℕ
  capture : ℕ
  reussit : Bool

/-- The policy and what has happened so far: the least the next observation can show, the last
captured generation, the failures since the last success and the time of the last attempt. -/
structure Suivi where
  etat : Etat
  generation : ℕ
  maintenant : ℕ := 0
  capture : ℕ
  echecs : ℕ := 0
  tentative : ℕ := 0

def Suivi.debut (g : ℕ) : Suivi := { etat := .neuf g, generation := g, capture := g }

def Suivi.tente (s : Suivi) (o : Observation) : Bool := (s.etat.decide o.generation o.maintenant).1

/-- The thread after an observation, before the transaction it may call for. -/
def Suivi.voit (s : Suivi) (o : Observation) : Suivi :=
  { s with
    etat := (s.etat.decide o.generation o.maintenant).2
    generation := o.generation
    maintenant := o.maintenant }

/-- One turn of `fil`. -/
def tour (s : Suivi) (o : Observation) : Option Suivi :=
  if s.generation ≤ o.generation ∧ s.maintenant ≤ o.maintenant ∧ o.generation ≤ o.capture then
    let v := s.voit o
    let fini (e : Etat) (echecs : ℕ) : Suivi := ⟨e, o.capture, o.maintenant, o.capture, echecs, o.maintenant⟩
    if !s.tente o then some v
    else if o.reussit then some (fini (v.etat.reussie o.capture) 0)
    else (v.etat.echouee o.maintenant).map (fini · (s.echecs + 1))
  else none

/-- The delay after `n + 1` failures in a row. -/
def delai (n : ℕ) : ℕ := min (2000 * 2 ^ n) 60000

/-- Nothing changed after the observation `a` of the history `h`. -/
def Calme (h : List Observation) (a : Observation) : Prop :=
  ∃ h₁ h₂, h = h₁ ++ a :: h₂ ∧ ∀ b ∈ h₂, b.generation = a.generation

/-- At `o`, what the observation `a` showed has waited long enough. -/
def Mur (h : List Observation) (o a : Observation) : Prop :=
  a ∈ h ∧ a.maintenant + PLAFOND_MS ≤ o.maintenant ∨ Calme (h ++ [o]) a ∧ a.maintenant + CALME_MS ≤ o.maintenant

/-- A generation that was observed and is not written has waited long enough. -/
def Du (h : List Observation) (s : Suivi) (o : Observation) : Prop :=
  ∃ a, s.etat.ecrite < a.generation ∧ Mur h o a

/-- What the policy keeps about the observations made so far. -/
structure Suit (h : List Observation) (s : Suivi) : Prop where
  passe : ∀ a ∈ h, a.generation ≤ s.generation ∧ a.maintenant ≤ s.maintenant
  vueMs_le : s.etat.vueMs ≤ s.maintenant
  retard_le : ∀ d, s.etat.retardDepuisMs = some d → d ≤ s.maintenant
  ecrite_le : s.etat.ecrite ≤ s.capture
  capture_le : s.capture ≤ s.generation
  echecMs_eq : s.etat.echecMs = delai s.echecs
  repriseMs_eq : s.etat.repriseMs = if s.echecs = 0 then 0 else s.tentative + delai (s.echecs - 1)
  retard : ∀ a ∈ h, a.generation ≤ s.etat.ecrite ∨ ∃ d ≤ a.maintenant, s.etat.retardDepuisMs = some d
  calme : ∀ a, Calme h a → a.generation ≤ s.etat.ecrite ∨ s.etat.vue = a.generation ∧ s.etat.vueMs ≤ a.maintenant

theorem suit_debut (g : ℕ) : Suit [] (.debut g) where
  passe := by simp
  vueMs_le := le_rfl
  retard_le := by simp [Suivi.debut, Etat.neuf]
  ecrite_le := le_rfl
  capture_le := le_rfl
  echecMs_eq := rfl
  repriseMs_eq := rfl
  retard := by simp
  calme := by simp [Calme]

variable {h : List Observation} {s s' : Suivi} {a o : Observation}

theorem Calme.mem (ha : Calme h a) : a ∈ h := by
  obtain ⟨h1, h2, rfl, -⟩ := ha
  simp

theorem Mur.mem (ha : Mur h o a) : a ∈ h ++ [o] :=
  ha.elim (fun h => mem_append_left _ h.1) (·.1.mem)

theorem Calme.of_concat (ha : Calme (h ++ [o]) a) : a = o ∨ Calme h a ∧ o.generation = a.generation := by
  obtain ⟨h1, h2, heq, hsame⟩ := ha
  rcases eq_nil_or_concat' h2 with rfl | ⟨h2, b, rfl⟩
  · cases (append_inj' heq rfl).2
    exact .inl rfl
  · obtain ⟨rfl, hb⟩ := append_inj' (heq.trans (append_assoc h1 (a :: h2) [b]).symm) rfl
    cases hb
    exact .inr ⟨⟨h1, h2, rfl, fun b hb => hsame b (by simp [hb])⟩, hsame o (by simp)⟩

variable {e : Etat} {g t : ℕ}

@[grind =] theorem decide_ecrite : (e.decide g t).2.ecrite = e.ecrite := by
  grind [Etat.decide]

@[grind =] theorem decide_repriseMs : (e.decide g t).2.repriseMs = e.repriseMs := by
  grind [Etat.decide]

@[grind =] theorem decide_echecMs : (e.decide g t).2.echecMs = e.echecMs := by
  grind [Etat.decide]

@[grind =] theorem decide_vue : (e.decide g t).2.vue = g := by
  grind [Etat.decide]

theorem decide_vueMs : (e.decide g t).2.vueMs = e.vueMs ∨ e.vue ≠ g ∧ (e.decide g t).2.vueMs = t := by
  grind [Etat.decide]

@[grind =] theorem decide_retard : (e.decide g t).2.retardDepuisMs =
    if g = e.ecrite then none else some (e.retardDepuisMs.getD t) := by
  grind [Etat.decide]

/-- The answer, from the state that `decide` leaves. -/
theorem decide_iff : (e.decide g t).1 ↔ g ≠ e.ecrite ∧ e.repriseMs ≤ t ∧
    (CALME_MS ≤ t - (e.decide g t).2.vueMs ∨ PLAFOND_MS ≤ t - e.retardDepuisMs.getD t) := by
  grind [Etat.decide]

theorem Suit.voit (hs : Suit h s) (hg : s.generation ≤ o.generation) (ht : s.maintenant ≤ o.maintenant) :
    Suit (h ++ [o]) (s.voit o) := by
  obtain ⟨hpasse, hvueMs, hretard_le, hecrite, hcapture, hechec, hreprise, hretard, hcalme⟩ := hs
  have hv := @decide_vueMs s.etat o.generation o.maintenant
  have hr : s.etat.retardDepuisMs = none ∨ ∃ d, s.etat.retardDepuisMs = some d := by
    cases s.etat.retardDepuisMs <;> simp
  constructor <;> grind [Suivi.voit, Calme.of_concat]

theorem tente_of_du (hs : Suit h s) (hg : s.generation ≤ o.generation) (ht : s.maintenant ≤ o.maintenant)
    (hreprise : s.etat.repriseMs ≤ o.maintenant) (hdu : Du h s o) : s.tente o := by
  obtain ⟨a, ha, hdu⟩ := hdu
  obtain ⟨hpasse, -, -, -, -, -, -, hretard, hcalme⟩ := hs.voit hg ht
  have hmem := hdu.mem
  have hne : o.generation ≠ s.etat.ecrite := (ha.trans_le (hpasse a hmem).1).ne'
  refine decide_iff.mpr ⟨hne, hreprise, ?_⟩
  rcases hdu with ⟨-, hp⟩ | ⟨hc, hp⟩ <;> grind [Suivi.voit]

theorem delai_succ (n : ℕ) : delai (n + 1) = min (delai n * 2) ECHEC_MAX_MS := by
  grind [delai, ECHEC_MAX_MS]

theorem tour_ordonne (ht : tour s o = some s') :
    s.generation ≤ o.generation ∧ s.maintenant ≤ o.maintenant ∧ o.generation ≤ o.capture := by
  simp only [tour, Option.ite_none_right_eq_some] at ht
  exact ht.1

theorem Suit.tour (hs : Suit h s) (ht : tour s o = some s') : Suit (h ++ [o]) s' := by
  obtain ⟨hg, hm, hc⟩ := tour_ordonne ht
  have hv := hs.voit hg hm
  rw [EcritureDifferee.tour, if_pos ⟨hg, hm, hc⟩] at ht
  split_ifs at ht
  · cases ht
    exact hv
  · cases ht
    obtain ⟨hpasse, hvueMs, hretard_le, hecrite, hcapture, hechec, hreprise, hretard, hcalme⟩ := hv
    constructor <;> grind [Etat.reussie, Suivi.voit, Calme.mem, delai, ECHEC_MS]
  · simp only [Etat.echouee, Option.map_eq_some_iff, Option.ite_none_right_eq_some, Option.some.injEq] at ht
    obtain ⟨_, ⟨-, rfl⟩, rfl⟩ := ht
    obtain ⟨hpasse, hvueMs, hretard_le, hecrite, hcapture, hechec, hreprise, hretard, hcalme⟩ := hv
    constructor <;> grind [Suivi.voit, delai_succ]

theorem suit_of_run {g : ℕ} (hrun : Runs.run tour (.debut g) h = some s) : Suit h s := by
  induction h using List.reverseRecOn generalizing s with
  | nil =>
    cases hrun
    exact suit_debut g
  | append_singleton h o ih =>
    obtain ⟨t, ht, hstep⟩ := Runs.run_concat.mp hrun
    exact (ih ht).tour hstep

/-- The loss is bounded. With no failure since the last success, what an observation shows is
written by the first observation `PLAFOND_MS` later, and by the first one `CALME_MS` later
if nothing changed. What is written was captured. After `n + 1` failures in a row the next
attempt waits for the delay, and is made as soon as it is due after it. -/
theorem perte_bornee {g : ℕ} (hrun : Runs.run tour (.debut g) h = some s) (ho : tour s o = some s') :
    (s.echecs = 0 → o.reussit → ∀ a, Mur h o a → a.generation ≤ s'.etat.ecrite) ∧
    s'.etat.ecrite ≤ s'.capture ∧
    ∀ n, s.echecs = n + 1 →
      (s.tente o → s.tentative + min (2000 * 2 ^ n) 60000 ≤ o.maintenant) ∧
      (s.tentative + min (2000 * 2 ^ n) 60000 ≤ o.maintenant → Du h s o → s.tente o) := by
  have hs := suit_of_run hrun
  have hs' := hs.tour ho
  obtain ⟨hg, hm, hc⟩ := tour_ordonne ho
  have hreprise := hs.repriseMs_eq
  refine ⟨fun hechecs hreussit a ha => ?_, hs'.ecrite_le, fun n hn => ?_⟩
  · rw [hechecs, if_pos rfl] at hreprise
    have hpasse := ((hs.voit hg hm).passe a ha.mem).1
    rw [tour, if_pos ⟨hg, hm, hc⟩, hreussit] at ho
    cases htente : s.tente o with
    | false =>
      -- had it been late, it would have been written
      have hdu : ¬ Du h s o := fun hdu => by simp [tente_of_du hs hg hm (by omega) hdu] at htente
      grind [Du, Suivi.voit]
    | true => grind [Etat.reussie, Suivi.voit]
  · rw [hn, if_neg n.succ_ne_zero] at hreprise
    exact ⟨fun htente => hreprise.symm.trans_le (decide_iff.mp htente).2.1,
      fun hle => tente_of_du hs hg hm (hreprise.trans_le hle)⟩

theorem perte_bornee_apres_echec : ∃ s s', Runs.run tour (.debut 0) [⟨1, 0, 1, true⟩, ⟨1, 1500, 1, false⟩] = some s ∧
    tour s ⟨1, 3500, 1, true⟩ = some s' ∧ s'.etat.ecrite ≤ s'.capture ∧
    (s.tente ⟨1, 3500, 1, true⟩ → s.tentative + 2000 ≤ 3500) := by
  have hp := perte_bornee (g := 0) (h := [⟨1, 0, 1, true⟩, ⟨1, 1500, 1, false⟩]) (o := ⟨1, 3500, 1, true⟩) rfl rfl
  exact ⟨_, _, rfl, rfl, hp.2.1, (hp.2.2 0 rfl).1⟩

end BouchaudOS.EcritureDifferee
