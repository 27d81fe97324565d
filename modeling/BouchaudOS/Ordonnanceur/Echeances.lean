import Mathlib

/-!
# The bound on the next deadline

`src/kernel/scheduler/echeances.rs` and the scan of `src/kernel/process/thread/sommeil.rs`:
one atomic value, at most the nearest deadline, says whether a scan of the tasks is needed.
Arming a deadline lowers it; a core that finds it due takes it away, wakes the tasks that
are due, reads all tasks again and puts the minimum back.

Cores and tasks take atomic steps in any order. Scans may overlap, since a deadline armed
during one may be due at once. Alarms have deadlines of their own, which only lower the
bound. The bounds for each core and the diagnostics are left out.
-/

namespace BouchaudOS.Sommeil

/-- `JAMAIS`. -/
def jamais : ℕ := 2 ^ 64 - 1

/-- Where a task is in its way to sleep. -/
inductive Phase
  | eveil
  /-- The deadline is stored. -/
  | posee
  /-- The task has become blocked and has not armed its deadline yet. -/
  | garee
  /-- `arme` has returned. -/
  | armee
  deriving DecidableEq

/-- A task; the deadline 0 is none. A task that is not blocked may still be on its way
to sleep: it was woken before it noticed. -/
structure Tache where
  bloquee : Bool
  echeance : ℕ
  phase : Phase

/-- Where a core is in `wake_sleepers`, with the tasks it still has to read. -/
inductive Coeur (T : Type*)
  | repos
  | reveille (maintenant : ℕ) (reste : List T)
  | recalcule (reste : List T) (minimum : ℕ)

structure Etat (T C : Type*) where
  prochaine : ℕ
  taches : T → Tache
  coeurs : C → Coeur T

/-- `arme`. -/
def arme (prochaine deadline : ℕ) : ℕ := if deadline = 0 then prochaine else min prochaine deadline

/-- The test of `wake_sleepers` on one task. -/
def Tache.reveilleSiDue (t : Tache) (maintenant : ℕ) : Tache :=
  if t.echeance ≠ 0 ∧ t.echeance ≤ maintenant then { t with bloquee := false } else t

/-- The turn of `recalcule_echeance` on one task. -/
def Tache.minimum (t : Tache) (minimum : ℕ) : ℕ :=
  if t.bloquee ∧ t.echeance ≠ 0 ∧ t.echeance < minimum then t.echeance else minimum

section

variable {T C : Type*} [DecidableEq T] [DecidableEq C]

def Etat.poseTache (s : Etat T C) (i : T) (t : Tache) : Etat T C :=
  { s with taches := Function.update s.taches i t }

def Etat.poseCoeur (s : Etat T C) (c : C) (k : Coeur T) : Etat T C :=
  { s with coeurs := Function.update s.coeurs c k }

/-- The atomic steps; `registre` is the order in which a scan reads the tasks. -/
inductive Pas (registre : List T) (s : Etat T C) : Etat T C → Prop
  /-- A task stores its deadline. -/
  | pose (i : T) (d : ℕ) : (s.taches i).phase = .eveil → d < 2 ^ 64 →
    Pas registre s (s.poseTache i { s.taches i with echeance := d, phase := .posee })
  /-- It may not park. -/
  | renonce (i : T) : (s.taches i).phase = .posee →
    Pas registre s (s.poseTache i { s.taches i with echeance := 0, phase := .eveil })
  | bloque (i : T) : (s.taches i).phase = .posee →
    Pas registre s (s.poseTache i { s.taches i with bloquee := true, phase := .garee })
  | arme (i : T) : (s.taches i).phase = .garee →
    Pas registre s { s.poseTache i { s.taches i with phase := .armee } with
      prochaine := arme s.prochaine (s.taches i).echeance }
  /-- Anyone may wake a task. -/
  | reveil (i : T) : Pas registre s (s.poseTache i { s.taches i with bloquee := false })
  | efface (i : T) : (s.taches i).phase = .armee → (s.taches i).bloquee = false →
    Pas registre s (s.poseTache i { s.taches i with echeance := 0, phase := .eveil })
  | alarme (d : ℕ) : Pas registre s { s with prochaine := Sommeil.arme s.prochaine d }
  /-- The exchange of `commence_balayage` succeeds. -/
  | commence (c : C) (maintenant : ℕ) : s.coeurs c = .repos → s.prochaine ≤ maintenant →
    Pas registre s { s.poseCoeur c (.reveille maintenant registre) with prochaine := jamais }
  | litReveil (c : C) (maintenant : ℕ) (i : T) (reste : List T) :
    s.coeurs c = .reveille maintenant (i :: reste) →
    Pas registre s ((s.poseTache i ((s.taches i).reveilleSiDue maintenant)).poseCoeur c
      (.reveille maintenant reste))
  | recommence (c : C) (maintenant : ℕ) : s.coeurs c = .reveille maintenant [] →
    Pas registre s (s.poseCoeur c (.recalcule registre jamais))
  | litMinimum (c : C) (i : T) (reste : List T) (minimum : ℕ) :
    s.coeurs c = .recalcule (i :: reste) minimum →
    Pas registre s (s.poseCoeur c (.recalcule reste ((s.taches i).minimum minimum)))
  /-- The alarms may lower the minimum before `recale`. -/
  | recale (c : C) (minimum alarmes : ℕ) : s.coeurs c = .recalcule [] minimum →
    Pas registre s { s.poseCoeur c .repos with
      prochaine := min s.prochaine (min minimum alarmes) }

def Etat.neuf : Etat T C := ⟨jamais, fun _ => ⟨false, 0, .eveil⟩, fun _ => .repos⟩

inductive Course (registre : List T) : Etat T C → Prop
  | debut : Course registre .neuf
  | pas {s s' : Etat T C} : Course registre s → Pas registre s s' → Course registre s'

/-- A blocked task whose `arme` has returned, with a deadline. -/
def Tache.Attend (t : Tache) (d : ℕ) : Prop :=
  t.bloquee = true ∧ t.phase = .armee ∧ t.echeance = d ∧ d ≠ 0

/-- A scan in progress will put back a bound that is at most `d` for the task `i`. -/
def Coeur.Couvre (i : T) (d : ℕ) : Coeur T → Prop
  | .repos => False
  | .reveille _ _ => True
  | .recalcule reste minimum => i ∈ reste ∨ minimum ≤ d

/-- The bound, or a scan in progress, covers every task that waits. -/
def Etat.Couvert (s : Etat T C) : Prop :=
  ∀ i d, (s.taches i).Attend d → s.prochaine ≤ d ∨ ∃ c, (s.coeurs c).Couvre i d

variable {registre : List T} {s s' : Etat T C}

theorem arme_le (p d : ℕ) : arme p d ≤ p := by
  unfold arme
  split
  · exact le_rfl
  · exact min_le_left _ _

omit [DecidableEq C] in
theorem Etat.Couvert.poseTache (h : s.Couvert) {i : T} {t : Tache}
    (ht : ∀ d, t.Attend d → (s.taches i).Attend d) : (s.poseTache i t).Couvert := by
  intro j d hj
  apply h j d
  by_cases hji : j = i
  · subst hji
    apply ht
    simpa [Etat.poseTache] using hj
  · simpa [Etat.poseTache, hji] using hj

omit [DecidableEq T] [DecidableEq C] in
theorem Etat.Couvert.baisse (h : s.Couvert) {p : ℕ} (hp : p ≤ s.prochaine) :
    ({ s with prochaine := p } : Etat T C).Couvert := by
  intro j d hj
  rcases h j d hj with hle | hc
  · exact .inl (hp.trans hle)
  · exact .inr hc

omit [DecidableEq T] in
theorem Etat.Couvert.poseCoeur (h : s.Couvert) {c : C} {k : Coeur T} {p : ℕ} (hp : p ≤ s.prochaine)
    (hk : ∀ i d, (s.taches i).Attend d → (s.coeurs c).Couvre i d → p ≤ d ∨ k.Couvre i d) :
    ({ s.poseCoeur c k with prochaine := p } : Etat T C).Couvert := by
  intro i d hi
  rcases h i d hi with hle | ⟨c', hc'⟩
  · exact .inl (hp.trans hle)
  · by_cases hcc : c' = c
    · subst hcc
      rcases hk i d hi hc' with hle | hkc
      · exact .inl hle
      · refine .inr ⟨c', ?_⟩
        simpa [Etat.poseCoeur] using hkc
    · refine .inr ⟨c', ?_⟩
      simpa [Etat.poseCoeur, hcc] using hc'

theorem Pas.couvert (hreg : ∀ i, i ∈ registre) (hp : Pas registre s s') (h : s.Couvert) : s'.Couvert := by
  have hsansAlarme {i : T} {t : Tache} (ht : t.phase ≠ .armee) : (s.poseTache i t).Couvert := by
    apply h.poseTache
    rintro e ⟨-, hphase, -⟩
    exact absurd hphase ht
  cases hp with
  | pose i d hi _ => exact hsansAlarme (by simp)
  | renonce i hi => exact hsansAlarme (by simp)
  | bloque i hi => exact hsansAlarme (by simp)
  | arme i hi =>
    intro j d hj
    by_cases hji : j = i
    · subst hji
      -- the bound is at most the deadline just armed
      left
      obtain ⟨-, -, hd, hne⟩ : ({ s.taches j with phase := .armee } : Tache).Attend d := by
        simpa [Etat.poseTache] using hj
      have hd' : (s.taches j).echeance = d := hd
      rw [hd', Sommeil.arme, if_neg hne]
      exact min_le_right _ _
    · have hj' : (s.taches j).Attend d := by simpa [Etat.poseTache, hji] using hj
      rcases h j d hj' with hle | hc
      · exact .inl ((arme_le _ _).trans hle)
      · exact .inr hc
  | reveil i =>
    apply h.poseTache
    rintro e ⟨hbloquee, -⟩
    exact absurd hbloquee (by simp)
  | efface i hi hb => exact hsansAlarme (by simp)
  | alarme d => exact h.baisse (arme_le _ _)
  | commence c maintenant hc hle =>
    intro i d hi
    refine .inr ⟨c, ?_⟩
    simp [Etat.poseCoeur, Coeur.Couvre]
  | litReveil c maintenant i reste hc =>
    have hposee : (s.poseTache i ((s.taches i).reveilleSiDue maintenant)).Couvert := by
      apply h.poseTache
      intro d hd
      unfold Tache.reveilleSiDue at hd
      split at hd
      · exact absurd hd.1 (by simp)
      · exact hd
    exact hposee.poseCoeur le_rfl fun _ _ _ _ => .inr trivial
  | recommence c maintenant hc =>
    exact h.poseCoeur le_rfl fun i _ _ _ => .inr (.inl (hreg i))
  | litMinimum c i reste minimum hc =>
    refine h.poseCoeur le_rfl fun j d hj hcov => .inr ?_
    rw [hc] at hcov
    rcases hcov with hmem | hle
    · rcases List.mem_cons.mp hmem with rfl | hmem
      · -- the task is read while it waits
        right
        obtain ⟨hb, -, hd, hne⟩ := hj
        unfold Tache.minimum
        split
        · exact hd.le
        · rename_i hnot
          by_contra hlt
          exact hnot ⟨hb, by rw [hd]; exact hne, by rw [hd]; exact not_le.mp hlt⟩
      · exact .inl hmem
    · right
      unfold Tache.minimum
      split
      · rename_i hcond
        exact hcond.2.2.le.trans hle
      · exact hle
  | recale c minimum alarmes hc =>
    refine h.poseCoeur (min_le_left _ _) fun i d _ hcov => .inl ?_
    rw [hc] at hcov
    rcases hcov with hmem | hle
    · exact absurd hmem List.not_mem_nil
    · exact (min_le_right _ _).trans ((min_le_left _ _).trans hle)

theorem Course.couvert (hreg : ∀ i, i ∈ registre) (h : Course registre s) : s.Couvert := by
  induction h with
  | debut =>
    rintro i d ⟨hb, -⟩
    exact absurd hb (by simp [Etat.neuf])
  | pas _ hp ih => exact hp.couvert hreg ih

/-- Whenever no core scans, the bound is at most every deadline that waits. -/
theorem borne_inferieure (hreg : ∀ i, i ∈ registre) (h : Course registre s)
    (hrepos : ∀ c, s.coeurs c = .repos) (i : T) (d : ℕ) (hi : (s.taches i).Attend d) :
    s.prochaine ≤ d := by
  rcases h.couvert hreg i d hi with hle | ⟨c, hc⟩
  · exact hle
  · rw [hrepos c] at hc
    exact hc.elim

end

/-- A task that sleeps until 5, with one core. -/
theorem borne_inferieure_un : ∃ s : Etat Unit Unit, Course [()] s ∧ (s.taches ()).Attend 5 ∧
    s.prochaine ≤ 5 := by
  have h : Course (T := Unit) (C := Unit) [()] _ :=
    .pas (.pas (.pas .debut (.pose () 5 rfl (by decide))) (.bloque () rfl)) (.arme () rfl)
  exact ⟨_, h, ⟨rfl, rfl, rfl, by decide⟩, borne_inferieure (fun _ => List.mem_singleton_self _) h
    (fun _ => rfl) () 5 ⟨rfl, rfl, rfl, by decide⟩⟩

end BouchaudOS.Sommeil
