import BouchaudOS.Ordonnanceur.DeuxEnsembles
import BouchaudOS.Foundations.VersionedPair

/-!
# The length of a queue that several cores use

Here every atomic operation of `insere`, of `retire` and of the scan is a step of its own, and
calls of `enfile`, `defile`, `vole` and `retire` may be interleaved in any way. A call sets
or clears a bit first and moves the counter later, so the counter is the number of bits up
to the calls in between, modulo `2 ^ 64`.
-/

open Function Finset

namespace BouchaudOS.Runqueue

/-- What is left of a call: an atomic load or an atomic write outside the words and the
counters, or a call of `insere` or `retire`, and what follows. -/
inductive Code : Type 1
  | rend
  | lit {α : Type} (f : FileCpu → α) (suite : α → Code)
  | resume (b : Bande) (g : BitVec 64 → BitVec 64) (suite : Code)
  | curseur (b : Bande) (haut : Bool) (c : ℕ) (suite : Code)
  | tours (g : ℕ → ℕ) (suite : Code)
  | insere (b : Bande) (e : ℕ) (suite : Bool → Code)
  | retire (b : Bande) (e : ℕ) (suite : Bool → Code)

namespace Code

variable (b : Bande)

def litMot (mot : ℕ) (k : BitVec 64 → Code) : Code := lit (fun s => (s.bandes b).mots mot) k

def litLongueur (k : ℕ → Code) : Code := lit (fun s => (s.bandes b).longueur) k

def poseResume (mot : ℕ) (k : Code) : Code := resume b (· ||| 1#64 <<< mot) k

def rafraichitResume (mot : ℕ) (k : Code) : Code :=
  litMot b mot fun v =>
    if v ≠ 0#64 then k
    else resume b (· &&& ~~~(1#64 <<< mot)) (litMot b mot fun v =>
      if v ≠ 0#64 then poseResume b mot k else k)

/-- One scan of `candidat`, from its steps that are left. -/
def passage (haut : Bool) (depart : ℕ) (resume : BitVec 64) (guide : Bool) (k : Option ℕ → Code) :
    List ℕ → Code
  | [] => k none
  | pas :: reste =>
    let mot := motVisite (depart / 64) pas haut
    if guide ∧ resume &&& 1#64 <<< mot = 0#64 then passage haut depart resume guide k reste
    else litMot b mot fun v =>
      let devant := bitsDevant (depart % 64) haut
      let valeur := if pas = 0 then v &&& devant else if pas = nbMots then v &&& ~~~devant else v
      let e := mot * 64 + bitChoisi valeur haut
      let trouve := curseur b haut (emplacementSuivant e haut) (k (some e))
      if valeur = 0#64 then passage haut depart resume guide k reste
      else if guide then trouve else poseResume b mot trouve

def candidat (haut : Bool) (k : Option ℕ → Code) : Code :=
  lit (fun s => (s.bandes b).curseur haut) fun c => lit (fun s => (s.bandes b).resume) fun resume =>
    let passage := passage b haut (c % emplacements) resume
    let integral := passage false k (List.range (nbMots + 1))
    if resume = 0#64 then integral
    else passage true (fun r => if r = none then integral else k r) (List.range (nbMots + 1))

def sert (haut : Bool) (k : Option ℕ → Code) : ℕ → Code
  | 0 => k none
  | n + 1 => litLongueur b fun v =>
    if v = 0 then k none
    else candidat b haut fun
      | none => sert haut k n
      | some e => retire b e fun ok => if ok then k (some e) else sert haut k n

def enfile (e : ℕ) : Code :=
  let pose := insere b e fun _ => rend
  if emplacements ≤ e then pose
  else litMot b.autre (e / 64) fun v =>
    if v &&& (position e).2 ≠ 0#64 then retire b.autre e fun _ => pose else pose

/-- One band of `defile`. -/
def elit (k : Code) : Code :=
  sert b false (fun
    | none => k
    | some _ => match b with
      | .interactive => tours (fun t => (t + 1) % 2 ^ 32) rend
      | .normale => tours (fun _ => 0) rend) tentativesMax

def defile : Code :=
  let dansLOrdre := elit .interactive (elit .normale rend)
  lit FileCpu.toursInteractifs fun t =>
    if t < toursInteractifsMax then dansLOrdre
    else litLongueur .normale fun v =>
      if v = 0 then dansLOrdre else elit .normale (elit .interactive rend)

def vole : Code :=
  sert .normale true (fun
    | none => sert .interactive true (fun _ => rend) tentativesMax
    | some _ => rend) tentativesMax

end Code

def Op.code : Op → Code
  | .enfile e b => .enfile b e
  | .defile => .defile
  | .vole => .vole
  | .retire e => .retire .interactive e fun ok => if ok then .rend else .retire .normale e fun _ => .rend

/-- Where a core is: at the start of what is left of its call, or inside an `insere` or a
`retire` that has changed its word. -/
inductive Coeur : Type 1
  | code (c : Code)
  | poseResume (b : Bande) (e : ℕ) (neuve : Bool) (suite : Bool → Code)
  | ajoute (b : Bande) (suite : Code)
  | retranche (b : Bande) (e : ℕ) (suite : Code)

/-- One step of a core; when it is in no call, it begins `op`. -/
def Coeur.pas (s : FileCpu) (op : Op) : Coeur → FileCpu × Coeur
  | code .rend => (s, code op.code)
  | code (.lit f k) => (s, code (k (f s)))
  | code (.resume b g k) =>
    let f := s.bandes b
    (s.pose b { f with resume := g f.resume }, code k)
  | code (.curseur b haut c k) => (s.pose b ((s.bandes b).poseCurseur haut c), code k)
  | code (.tours g k) => ({ s with toursInteractifs := g s.toursInteractifs }, code k)
  | code (.insere b e k) =>
    let f := s.bandes b
    let avant := f.mots (e / 64)
    if emplacements ≤ e then (s, code (k false))
    else (s.pose b { f with mots := update f.mots (e / 64) (avant ||| (position e).2) },
      poseResume b e (avant &&& (position e).2 = 0#64) k)
  | poseResume b e neuve k =>
    let f := s.bandes b
    (s.pose b { f with resume := f.resume ||| 1#64 <<< (e / 64) },
      if neuve then ajoute b (k true) else code (k false))
  | ajoute b k =>
    let f := s.bandes b
    (s.pose b { f with longueur := (f.longueur + 1) % 2 ^ 64 }, code k)
  | code (.retire b e k) =>
    let f := s.bandes b
    let avant := f.mots (e / 64)
    if emplacements ≤ e then (s, code (k false))
    else (s.pose b { f with mots := update f.mots (e / 64) (avant &&& ~~~(position e).2) },
      if avant &&& (position e).2 = 0#64 then code (k false) else retranche b e (k true))
  | retranche b e k =>
    let f := s.bandes b
    (s.pose b { f with longueur := (f.longueur + (2 ^ 64 - 1)) % 2 ^ 64 },
      code (.rafraichitResume b (e / 64) k))

/-- The counter that a core has to move for a bit it has set (`true`) or cleared. -/
def Coeur.dette : Coeur → Option (Bande × Bool)
  | poseResume b _ true _ | ajoute b _ => some (b, true)
  | retranche b _ _ => some (b, false)
  | _ => none

/-- A queue and the cores that use it. -/
structure Partagee (n : ℕ) where
  file : FileCpu
  coeurs : Fin n → Coeur

namespace Partagee

variable {n : ℕ}

def avance (s : Partagee n) (i : Fin n) (op : Op) : Partagee n :=
  let r := (s.coeurs i).pas s.file op
  ⟨r.1, update s.coeurs i r.2⟩

/-- The run of an interleaving, given by the core that makes each step. -/
def joue (l : List (Fin n × Op)) : Partagee n :=
  l.foldl (fun s p => s.avance p.1 p.2) ⟨.neuve, fun _ => .code .rend⟩

/-- The cores between a bit they have set (`true`) or cleared and the counter. -/
def enSuspens (s : Partagee n) (b : Bande) (pose : Bool) : ℕ :=
  (univ.filter fun i => (s.coeurs i).dette = some (b, pose)).card

/-- The bits of a band, with those not yet taken off its counter and without those not yet
counted. -/
def attendue (s : Partagee n) (b : Bande) : ℤ :=
  (s.file.contenu b).card + s.enSuspens b false - s.enSuspens b true

end Partagee

open BandeFile Coeur

/-- What a debt adds to the counter of a band. -/
def poids (b : Bande) (d : Option (Bande × Bool)) : ℤ :=
  (if d = some (b, true) then 1 else 0) - if d = some (b, false) then 1 else 0

variable {s : FileCpu} {b b₀ : Bande} {f f' : BandeFile} {d d' : Option (Bande × Bool)}

/-- The counter, the bits and a debt move together, modulo a turn of the counter. -/
def Accorde (b : Bande) (f f' : BandeFile) (d d' : Option (Bande × Bool)) : Prop :=
  f'.longueur < 2 ^ 64 ∧ (2 ^ 64 : ℤ) ∣
    (f'.longueur - f'.contenu.card + poids b d') - (f.longueur - f.contenu.card + poids b d)

theorem Accorde.of_card (hl : f.longueur < 2 ^ 64) (hf : f'.longueur = f.longueur)
    (hc : (f'.contenu.card : ℤ) = f.contenu.card + (poids b d' - poids b d)) : Accorde b f f' d d' := by
  refine ⟨hf ▸ hl, ?_⟩
  omega

theorem Accorde.of_mots (hl : f.longueur < 2 ^ 64) (hm : f'.mots = f.mots)
    (hf : f'.longueur = f.longueur) (hd : poids b d' = poids b d) : Accorde b f f' d d' :=
  .of_card hl hf (by rw [contenu_congr hm, hd, sub_self, add_zero])

/-- The counter pays a debt. -/
theorem accorde_paye {m : ℕ} (hm : m < 2 ^ 64) (h : (2 ^ 64 : ℤ) ∣ m - f.longueur - poids b d) :
    Accorde b f { f with longueur := m } d none := by
  have hc : ({ f with longueur := m } : BandeFile).contenu = f.contenu := contenu_congr rfl
  refine ⟨hm, ?_⟩
  rw [hc, show poids b none = 0 from rfl]
  dsimp only
  omega

theorem accorde_pose (hl : ∀ b, (s.bandes b).longueur < 2 ^ 64) (h : Accorde b₀ (s.bandes b₀) f d d')
    (hd : b ≠ b₀ → poids b d' = poids b d) :
    Accorde b (s.bandes b) ((s.pose b₀ f).bandes b) d d' := by
  by_cases hb : b = b₀
  · rwa [hb, FileCpu.pose_self]
  · rw [FileCpu.pose_of_ne hb]
    exact .of_mots (hl b) rfl rfl (hd hb)

/-- One step of a core, case by case. -/
theorem accorde_pas (hl : ∀ b, (s.bandes b).longueur < 2 ^ 64) (op : Op) (c : Coeur) :
    Accorde b (s.bandes b) ((c.pas s op).1.bandes b) c.dette (c.pas s op).2.dette := by
  have hautre : ∀ {b₀ p}, b ≠ b₀ → poids b (some (b₀, p)) = 0 := fun hb => by simp [poids, hb.symm]
  have hmeme : ∀ {b₀ p}, poids b₀ (some (b₀, p)) = if p then 1 else -1 := by
    intro b₀ p
    cases p <;> simp [poids]
  have hpos := Nat.two_pow_pos 64
  have hcalme : Accorde b (s.bandes b) (s.bandes b) none none := .of_mots (hl b) rfl rfl rfl
  cases c with
  | code c =>
    cases c with
    | rend | lit | tours => exact hcalme
    | resume b₀ => exact accorde_pose hl (.of_mots (hl b₀) rfl rfl rfl) fun _ => rfl
    | curseur b₀ => exact accorde_pose hl (.of_mots (hl b₀) (by simp) (by simp) rfl) fun _ => rfl
    | insere b₀ e k =>
      simp only [pas]
      split_ifs with he
      · exact hcalme
      by_cases hmem : e ∈ (s.bandes b₀).contenu
      all_goals simp only [position, bit_zero_iff (not_le.mp he), hmem]
      · refine accorde_pose hl (.of_card (hl b₀) rfl ?_) fun _ => rfl
        rw [contenu_pose_bit (not_le.mp he) rfl, insert_eq_of_mem hmem]
        simp [poids, dette]
      · refine accorde_pose hl (.of_card (hl b₀) rfl ?_) hautre
        rw [contenu_pose_bit (not_le.mp he) rfl, card_insert_of_notMem hmem]
        simp [poids, dette]
    | retire b₀ e k =>
      simp only [pas]
      split_ifs with he h0
      · exact hcalme
      all_goals simp only [position, bit_zero_iff (not_le.mp he), not_not] at h0
      · refine accorde_pose hl (.of_card (hl b₀) rfl ?_) fun _ => rfl
        rw [contenu_ote_bit rfl, erase_eq_of_notMem h0]
        simp [poids, dette]
      · refine accorde_pose hl (.of_card (hl b₀) rfl ?_) hautre
        rw [contenu_ote_bit rfl, ← card_erase_add_one h0]
        simp [poids, dette]
  | poseResume b₀ e neuve k =>
    cases neuve <;> exact accorde_pose hl (.of_mots (hl b₀) rfl rfl rfl) fun _ => rfl
  | ajoute b₀ k =>
    refine accorde_pose hl (accorde_paye (Nat.mod_lt _ hpos) ?_) fun hb => (hautre hb).symm
    simp only [dette, hmeme, if_true]
    omega
  | retranche b₀ e k =>
    refine accorde_pose hl (accorde_paye (Nat.mod_lt _ hpos) ?_) fun hb => (hautre hb).symm
    simp only [dette, hmeme, Bool.false_eq_true, if_false]
    omega

namespace Partagee

variable {n : ℕ}

/-- The counters are words, and count the bits and the debts modulo a turn. -/
structure Juste (s : Partagee n) : Prop where
  mot : ∀ b, (s.file.bandes b).longueur < 2 ^ 64
  compte : ∀ b, (2 ^ 64 : ℤ) ∣
    (s.file.bandes b).longueur - (s.file.contenu b).card + ∑ i, poids b (s.coeurs i).dette

theorem Juste.avance {s : Partagee n} (h : s.Juste) (i : Fin n) (op : Op) : (s.avance i op).Juste := by
  have hpas b := accorde_pas (b := b) h.mot op (s.coeurs i)
  refine ⟨fun b => (hpas b).1, fun b => ?_⟩
  obtain ⟨q, hq⟩ := h.compte b
  obtain ⟨r, hr⟩ := (hpas b).2
  refine ⟨q + r, ?_⟩
  rw [← add_sum_erase _ _ (mem_univ i), ← sdiff_singleton_eq_erase] at hq
  simp only [Partagee.avance, apply_update fun _ c => poids b (dette c),
    sum_update_of_mem (mem_univ i), FileCpu.contenu] at hq ⊢
  omega

theorem juste_joue (l : List (Fin n × Op)) : (joue l).Juste := by
  refine @List.foldlRecOn _ _ Juste l _ _ ⟨fun _ => Nat.two_pow_pos 64, fun b => ?_⟩
    fun s hs p _ => hs.avance p.1 p.2
  simp [FileCpu.neuve, neuve, FileCpu.contenu, contenu, poids, dette]

theorem longueur_eq (l : List (Fin n × Op)) (b : Bande) :
    (((joue l).file.bandes b).longueur : ℤ) = (joue l).attendue b % 2 ^ 64 := by
  have hmot := (juste_joue l).mot b
  have hcompte := (juste_joue l).compte b
  have hsomme : ∑ i, poids b ((joue l).coeurs i).dette =
      ((joue l).enSuspens b true : ℤ) - (joue l).enSuspens b false := by
    simp [poids, enSuspens, sum_sub_distrib]
  unfold attendue
  omega

/-- The counter is at most 1024 just when the bits and the calls in between say so; at rest
it counts the bits. -/
theorem longueur_le_iff (l : List (Fin n × Op)) : (∀ b, ((joue l).file.bandes b).longueur ≤ emplacements ↔
      (joue l).attendue b % 2 ^ 64 ≤ emplacements) ∧
    ((∀ i, (joue l).coeurs i = .code .rend) →
      ∀ b, ((joue l).file.bandes b).longueur = ((joue l).file.contenu b).card) := by
  refine ⟨fun b => ?_, fun hrepos b => ?_⟩
  · rw [← longueur_eq]
    omega
  · have hval := longueur_eq l b
    have hzero : ∀ p, (joue l).enSuspens b p = 0 := fun p => by
      simp [enSuspens, hrepos, dette]
    have hcard : ((joue l).file.contenu b).card ≤ emplacements := by
      simpa [FileCpu.contenu, contenu] using card_filter_le (range emplacements) _
    rw [attendue, hzero, hzero] at hval
    unfold emplacements at hcard
    omega

theorem longueur_sous_zero : ((joue (n := 2) [(0, .enfile 0 .interactive), (0, .vole), (0, .vole),
    (1, .retire 0), (1, .vole), (1, .vole)]).file.bandes .interactive).longueur = 2 ^ 64 - 1 := by
  decide

end Partagee

end BouchaudOS.Runqueue
