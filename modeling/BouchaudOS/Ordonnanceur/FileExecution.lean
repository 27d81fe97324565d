import BouchaudOS.Foundations.RoundRobin

/-!
# The run queue of a core

`src/kernel/scheduler/runqueue.rs`: two bands, each a bitmap of the places of the task
register with a word that says which words of the bitmap may hold a bit, a length and
two cursors. The scan for a place is guided by that word first and complete after that.

The operations are taken one after the other. The counters of events and the table of
identities decide nothing here and are left out. Only the words `0, …, 15` are read.
-/

namespace BouchaudOS.Runqueue

open RoundRobin List Function BitVec

/-- `EMPLACEMENTS`. -/
def emplacements : ℕ := 1024

/-- `MOTS`. -/
def nbMots : ℕ := emplacements / 64

def toursInteractifsMax : ℕ := 8

def tentativesMax : ℕ := 8

inductive Bande
  | interactive
  | normale
  deriving DecidableEq, Repr

def Bande.autre : Bande → Bande
  | .interactive => .normale
  | .normale => .interactive

/-- `trailing_zeros`. -/
def trailingZeros (v : BitVec 64) : ℕ := ((List.range 64).find? fun i => v.getLsbD i).getD 64

/-- `leading_zeros`. -/
def leadingZeros (v : BitVec 64) : ℕ := ((List.range 64).find? fun i => v.getLsbD (63 - i)).getD 64

def position (emplacement : ℕ) : ℕ × BitVec 64 := (emplacement / 64, 1#64 <<< (emplacement % 64))

def motVisite (depart pas : ℕ) (parLeHaut : Bool) : ℕ :=
  if parLeHaut then (depart + nbMots - pas % nbMots) % nbMots else (depart + pas) % nbMots

def emplacementSuivant (emplacement : ℕ) (parLeHaut : Bool) : ℕ :=
  if parLeHaut then (emplacement + emplacements - 1) % emplacements
  else (emplacement + 1) % emplacements

def bitsDevant (bit : ℕ) (parLeHaut : Bool) : BitVec 64 :=
  if parLeHaut then if bit = 63 then allOnes 64 else (1#64 <<< (bit + 1)) - 1#64
  else allOnes 64 <<< bit

def bitChoisi (valeur : BitVec 64) (parLeHaut : Bool) : ℕ :=
  if parLeHaut then 63 - leadingZeros valeur else trailingZeros valeur

structure BandeFile where
  mots : ℕ → BitVec 64
  resume : BitVec 64
  longueur : ℕ
  curseurBas : ℕ
  curseurHaut : ℕ

namespace BandeFile

def neuve : BandeFile := ⟨fun _ => 0#64, 0#64, 0, 0, 0⟩

variable (b : BandeFile)

def contient (emplacement : ℕ) : Bool :=
  if emplacements ≤ emplacement then false
  else
    let (mot, bit) := position emplacement
    b.mots mot &&& bit ≠ 0#64

/-- The place is new. -/
def insere (emplacement : ℕ) : Bool × BandeFile :=
  if emplacements ≤ emplacement then (false, b)
  else
    let (mot, bit) := position emplacement
    let avant := b.mots mot
    let b := { b with
      mots := Function.update b.mots mot (avant ||| bit)
      resume := b.resume ||| 1#64 <<< mot }
    if avant &&& bit ≠ 0#64 then (false, b) else (true, { b with longueur := b.longueur + 1 })

/-- The second reading of the word, for another core, sees the same word here. -/
def rafraichitResume (mot : ℕ) : BandeFile :=
  if b.mots mot ≠ 0#64 then b
  else
    let b := { b with resume := b.resume &&& ~~~(1#64 <<< mot) }
    if b.mots mot ≠ 0#64 then { b with resume := b.resume ||| 1#64 <<< mot } else b

def retire (emplacement : ℕ) : Bool × BandeFile :=
  if emplacements ≤ emplacement then (false, b)
  else
    let (mot, bit) := position emplacement
    let avant := b.mots mot
    let b := { b with mots := Function.update b.mots mot (avant &&& ~~~bit) }
    if avant &&& bit = 0#64 then (false, b)
    else (true, { b with longueur := b.longueur - 1 }.rafraichitResume mot)

def curseur (parLeHaut : Bool) : ℕ := if parLeHaut then b.curseurHaut else b.curseurBas

def poseCurseur (parLeHaut : Bool) (c : ℕ) : BandeFile :=
  if parLeHaut then { b with curseurHaut := c } else { b with curseurBas := c }

/-- The bits of a word that one step of the scan looks at: those ahead of the cursor in
the first word, the others of this word in the last step. -/
def vue (parLeHaut : Bool) (pas : ℕ) : BitVec 64 :=
  let depart := b.curseur parLeHaut % emplacements
  let valeur := b.mots (motVisite (depart / 64) pas parLeHaut)
  let devant := bitsDevant (depart % 64) parLeHaut
  if pas = 0 then valeur &&& devant else if pas = nbMots then valeur &&& ~~~devant else valeur

/-- The word of one step of the scan and the bit chosen in it. -/
def examine (parLeHaut guide : Bool) (pas : ℕ) : Option (ℕ × ℕ) :=
  let mot := motVisite (b.curseur parLeHaut % emplacements / 64) pas parLeHaut
  if guide ∧ b.resume &&& 1#64 <<< mot = 0#64 then none
  else if b.vue parLeHaut pas = 0#64 then none
  else some (mot, bitChoisi (b.vue parLeHaut pas) parLeHaut)

def passage (parLeHaut guide : Bool) : Option (ℕ × ℕ) :=
  if guide ∧ b.resume = 0#64 then none
  else (List.range (nbMots + 1)).findSome? (b.examine parLeHaut guide)

def candidat (parLeHaut : Bool) : Option ℕ × BandeFile :=
  match b.passage parLeHaut true with
  | some (mot, bit) =>
    let emplacement := mot * 64 + bit
    (some emplacement, b.poseCurseur parLeHaut (emplacementSuivant emplacement parLeHaut))
  | none =>
    match b.passage parLeHaut false with
    | some (mot, bit) =>
      let b := { b with resume := b.resume ||| 1#64 <<< mot }
      let emplacement := mot * 64 + bit
      (some emplacement, b.poseCurseur parLeHaut (emplacementSuivant emplacement parLeHaut))
    | none => (none, b)

/-- The attempts of `sert`. -/
def essaie (parLeHaut : Bool) : ℕ → BandeFile → Option ℕ × BandeFile
  | 0, b => (none, b)
  | n + 1, b =>
    if b.longueur = 0 then (none, b)
    else
      match b.candidat parLeHaut with
      | (none, b) => essaie parLeHaut n b
      | (some emplacement, b) =>
        match b.retire emplacement with
        | (true, b) => (some emplacement, b)
        | (false, b) => essaie parLeHaut n b

def sert (parLeHaut : Bool) : Option ℕ × BandeFile := essaie parLeHaut tentativesMax b

end BandeFile

/-- The queue; the count of interactive turns has 32 bits. -/
structure FileCpu where
  bandes : Bande → BandeFile
  toursInteractifs : ℕ

namespace FileCpu

def neuve : FileCpu := ⟨fun _ => .neuve, 0⟩

variable (s : FileCpu)

def pose (b : Bande) (f : BandeFile) : FileCpu := { s with bandes := Function.update s.bandes b f }

def enfile (emplacement : ℕ) (bande : Bande) : Bool × FileCpu :=
  let s :=
    if (s.bandes bande.autre).contient emplacement then
      s.pose bande.autre ((s.bandes bande.autre).retire emplacement).2
    else s
  let (neuve, f) := (s.bandes bande).insere emplacement
  (neuve, s.pose bande f)

/-- One band of `defile`. -/
def elit (bande : Bande) : Option ℕ × FileCpu :=
  match (s.bandes bande).sert false with
  | (some emplacement, f) =>
    let tours := match bande with
      | .interactive => (s.toursInteractifs + 1) % 2 ^ 32
      | .normale => 0
    (some emplacement, { s.pose bande f with toursInteractifs := tours })
  | (none, f) => (none, s.pose bande f)

def normaleDabord : Prop :=
  toursInteractifsMax ≤ s.toursInteractifs ∧ (s.bandes .normale).longueur ≠ 0

instance : Decidable s.normaleDabord := inferInstanceAs (Decidable (_ ∧ _))

def defile : Option ℕ × FileCpu :=
  let premiere : Bande := if s.normaleDabord then .normale else .interactive
  match s.elit premiere with
  | (some emplacement, s) => (some emplacement, s)
  | (none, s) => s.elit premiere.autre

def vole : Option ℕ × FileCpu :=
  match (s.bandes .normale).sert true with
  | (some emplacement, f) => (some emplacement, s.pose .normale f)
  | (none, f) =>
    let s := s.pose .normale f
    let (r, f) := (s.bandes .interactive).sert true
    (r, s.pose .interactive f)

def retire (emplacement : ℕ) : Bool × FileCpu :=
  match (s.bandes .interactive).retire emplacement with
  | (true, f) => (true, s.pose .interactive f)
  | (false, f) =>
    let s := s.pose .interactive f
    let (r, f) := (s.bandes .normale).retire emplacement
    (r, s.pose .normale f)

def longueur : ℕ := (s.bandes .interactive).longueur + (s.bandes .normale).longueur

end FileCpu

theorem getLsbD_bit {k : ℕ} (hk : k < 64) (i : ℕ) : (1#64 <<< k).getLsbD i = decide (i = k) := by
  rw [← twoPow_eq, getLsbD_twoPow]
  by_cases hi : i = k
  · simp [hi, hk]
  · simp [hi, Ne.symm hi]

variable {v : BitVec 64}

theorem and_bit_eq_zero {k : ℕ} (hk : k < 64) : v &&& 1#64 <<< k = 0#64 ↔ v.getLsbD k = false := by
  constructor
  · intro h
    have hbit := congrArg (fun w => w.getLsbD k) h
    simpa [getLsbD_bit hk] using hbit
  · intro h
    apply eq_of_getLsbD_eq
    intro i _
    rw [getLsbD_and, getLsbD_bit hk]
    by_cases hi : i = k
    · simp [hi, h]
    · simp [hi]

theorem eq_zero_iff_getLsbD : v = 0#64 ↔ ∀ i < 64, v.getLsbD i = false := by
  constructor
  · rintro rfl i _
    simp
  · intro h
    apply eq_of_getLsbD_eq
    intro i hi
    simp [h i hi]

theorem getLsbD_bitsDevant {bit i : ℕ} (hb : bit < 64) (hi : i < 64) (haut : Bool) :
    (bitsDevant bit haut).getLsbD i = if haut then decide (i ≤ bit) else decide (bit ≤ i) := by
  cases haut with
  | false =>
    simp only [bitsDevant, Bool.false_eq_true, if_false]
    rw [getLsbD_shiftLeft, getLsbD_allOnes]
    by_cases h : bit ≤ i
    · simp [h, hi]
      omega
    · simp [h, not_le.mp h]
  | true =>
    simp only [bitsDevant, if_true]
    split
    · rw [getLsbD_allOnes]
      simp [hi]
      omega
    · have hpow : 2 ^ (bit + 1) < 2 ^ 64 := Nat.pow_lt_pow_right (by decide) (by omega)
      have hpos : 0 < 2 ^ (bit + 1) := Nat.two_pow_pos _
      have hnat : ((1#64 <<< (bit + 1)) - 1#64).toNat = 2 ^ (bit + 1) - 1 := by
        rw [toNat_sub, toNat_shiftLeft, Nat.shiftLeft_eq]
        simp only [toNat_ofNat]
        omega
      rw [getLsbD, hnat, Nat.testBit_two_pow_sub_one]
      simp [Nat.lt_succ_iff]

/-- The bit chosen is set, and for an election it is the lowest one. -/
theorem bitChoisi_spec (h : v ≠ 0#64) (haut : Bool) : bitChoisi v haut < 64 ∧ v.getLsbD (bitChoisi v haut) = true ∧
      (haut = false → ∀ i, v.getLsbD i = true → bitChoisi v haut ≤ i) := by
  obtain ⟨k, hk, hbit⟩ : ∃ k < 64, v.getLsbD k = true := by
    by_contra hno
    refine h (eq_zero_iff_getLsbD.mpr fun i hi => ?_)
    by_contra hne
    exact hno ⟨i, hi, by simpa using hne⟩
  cases haut with
  | false =>
    simp only [bitChoisi, trailingZeros, Bool.false_eq_true, if_false, true_implies]
    cases hf : (List.range 64).find? fun i => v.getLsbD i with
    | none => exact absurd hbit (by simpa using find?_eq_none.mp hf k (mem_range.mpr hk))
    | some j =>
      obtain ⟨hset, hj, hlow⟩ := find?_range_eq_some.mp hf
      refine ⟨mem_range.mp hj, hset, fun i hi => not_lt.mp fun hlt => ?_⟩
      exact absurd hi (by simpa using hlow i hlt)
  | true =>
    simp only [bitChoisi, leadingZeros, if_true]
    cases hf : (List.range 64).find? fun i => v.getLsbD (63 - i) with
    | none =>
      have hnone := find?_eq_none.mp hf (63 - k) (mem_range.mpr (by omega))
      rw [show 63 - (63 - k) = k by omega] at hnone
      exact absurd hbit (by simpa using hnone)
    | some j =>
      have hset : v.getLsbD (63 - j) = true := by simpa using find?_some hf
      exact ⟨by simp; omega, hset, by simp⟩

namespace BandeFile

@[irreducible] def contenu (b : BandeFile) : Finset ℕ :=
  (Finset.range emplacements).filter fun e => (b.mots (e / 64)).getLsbD (e % 64) = true

def Couvre (b : BandeFile) : Prop := ∀ m < nbMots, b.mots m ≠ 0#64 → b.resume.getLsbD m = true

def Compte (b : BandeFile) : Prop := b.longueur = b.contenu.card

variable {b : BandeFile} {e : ℕ}

theorem mem_contenu : e ∈ b.contenu ↔ e < emplacements ∧ (b.mots (e / 64)).getLsbD (e % 64) = true := by
  simp [contenu]

theorem mot_lt (he : e < emplacements) : e / 64 < nbMots := by
  unfold emplacements at he
  unfold nbMots emplacements
  omega

theorem contient_iff : b.contient e = true ↔ e ∈ b.contenu := by
  rw [mem_contenu, contient, position]
  by_cases he : emplacements ≤ e
  · simp [he, not_lt.mpr he]
  · rw [if_neg he]
    simp [and_bit_eq_zero (Nat.mod_lt e (by decide)), not_le.mp he]

theorem bit_zero_iff (he : e < emplacements) :
    b.mots (e / 64) &&& 1#64 <<< (e % 64) = 0#64 ↔ e ∉ b.contenu := by
  rw [and_bit_eq_zero (Nat.mod_lt e (by decide)), mem_contenu]
  simp [he]

theorem eq_of_div_mod {x : ℕ} (h : x / 64 = e / 64) (h' : x % 64 = e % 64) : x = e := by
  omega

theorem contenu_pose_bit (he : e < emplacements) {b' : BandeFile}
    (h : b'.mots = Function.update b.mots (e / 64) (b.mots (e / 64) ||| 1#64 <<< (e % 64))) :
    b'.contenu = insert e b.contenu := by
  ext x
  rw [Finset.mem_insert, mem_contenu, mem_contenu, h]
  by_cases hm : x / 64 = e / 64
  · rw [hm, update_self, getLsbD_or, getLsbD_bit (Nat.mod_lt e (by decide))]
    by_cases hx : x = e
    · simp [hx, he]
    · have hbit : x % 64 ≠ e % 64 := fun hbit => hx (eq_of_div_mod hm hbit)
      simp [hx, hbit]
  · have hx : x ≠ e := fun hx => hm (by rw [hx])
    rw [update_of_ne hm]
    simp [hx]

theorem contenu_ote_bit {b' : BandeFile}
    (h : b'.mots = Function.update b.mots (e / 64) (b.mots (e / 64) &&& ~~~(1#64 <<< (e % 64)))) :
    b'.contenu = b.contenu.erase e := by
  ext x
  rw [Finset.mem_erase, mem_contenu, mem_contenu, h]
  by_cases hm : x / 64 = e / 64
  · rw [hm, update_self, getLsbD_and, getLsbD_not, getLsbD_bit (Nat.mod_lt e (by decide))]
    have hlt : x % 64 < 64 := Nat.mod_lt x (by decide)
    by_cases hx : x = e
    · simp [hx]
    · have hbit : x % 64 ≠ e % 64 := fun hbit => hx (eq_of_div_mod hm hbit)
      simp [hx, hbit, hlt]
  · have hx : x ≠ e := fun hx => hm (by rw [hx])
    rw [update_of_ne hm]
    simp [hx]

/-- What an operation may not touch. -/
structure MemesCurseurs (b b' : BandeFile) : Prop where
  bas : b'.curseurBas = b.curseurBas
  haut : b'.curseurHaut = b.curseurHaut

theorem insere_hors (he : emplacements ≤ e) : b.insere e = (false, b) := if_pos he

theorem MemesCurseurs.curseur {b' : BandeFile} (h : MemesCurseurs b b') (haut : Bool) :
    b'.curseur haut = b.curseur haut := by
  cases haut
  · exact h.bas
  · exact h.haut

/-- An operation answers `o` and leaves the places `c`. -/
structure Effet (b : BandeFile) (r : Bool × BandeFile) (o : Bool) (c : Finset ℕ) : Prop where
  rend : r.1 = o
  contenu : r.2.contenu = c
  compte : r.2.Compte
  couvre : b.Couvre → r.2.Couvre
  curseurs : MemesCurseurs b r.2

theorem insere_eq (he : e < emplacements) : b.insere e = (decide (e ∉ b.contenu),
    { b with
      mots := Function.update b.mots (e / 64) (b.mots (e / 64) ||| 1#64 <<< (e % 64))
      resume := b.resume ||| 1#64 <<< (e / 64)
      longueur := if e ∈ b.contenu then b.longueur else b.longueur + 1 }) := by
  rw [insere, if_neg (not_le.mpr he), position]
  dsimp only
  by_cases h : e ∈ b.contenu
  · rw [if_pos (mt (bit_zero_iff he).mp (not_not.mpr h))]
    simp [h]
  · rw [if_neg (not_not.mpr ((bit_zero_iff he).mpr h))]
    simp [h]

theorem insere_spec (he : e < emplacements) (hc : b.Compte) :
    Effet b (b.insere e) (decide (e ∉ b.contenu)) (insert e b.contenu) := by
  rw [insere_eq he]
  refine ⟨rfl, contenu_pose_bit he rfl, ?_, fun hcouvre m hmlt hne => ?_, rfl, rfl⟩
  · refine Eq.trans ?_ (congrArg Finset.card (contenu_pose_bit he rfl).symm)
    rw [Finset.card_insert_eq_ite, ← hc]
  · dsimp only at hne ⊢
    rw [getLsbD_or, getLsbD_bit ((mot_lt he).trans (by decide))]
    by_cases hme : m = e / 64
    · simp [hme]
    · rw [update_of_ne hme] at hne
      simp [hcouvre m hmlt hne]

variable {m pas i : ℕ} {haut : Bool} {b b' : BandeFile}

theorem rafraichitResume_spec (b : BandeFile) (hm : m < nbMots) :
    (b.rafraichitResume m).mots = b.mots ∧ (b.rafraichitResume m).longueur = b.longueur ∧
      MemesCurseurs b (b.rafraichitResume m) ∧ (b.Couvre → (b.rafraichitResume m).Couvre) := by
  rw [rafraichitResume]
  by_cases hz : b.mots m = 0#64
  · simp only [hz, ne_eq, not_true_eq_false, if_false]
    refine ⟨trivial, trivial, ⟨rfl, rfl⟩, fun hcouvre k hk hne => ?_⟩
    have hkm : k ≠ m := fun hkm => hne (hkm ▸ hz)
    rw [getLsbD_and, getLsbD_not, getLsbD_bit (hm.trans (by decide)), hcouvre k hk hne]
    simp [hkm, hk.trans (show nbMots < 64 by decide)]
  · rw [if_pos hz]
    exact ⟨rfl, rfl, ⟨rfl, rfl⟩, id⟩

theorem retire_spec (b : BandeFile) (e : ℕ) (hc : b.Compte) :
    Effet b (b.retire e) (decide (e ∈ b.contenu)) (b.contenu.erase e) := by
  by_cases hhors : emplacements ≤ e
  · have hnot : e ∉ b.contenu := fun hm => absurd (mem_contenu.mp hm).1 (not_lt.mpr hhors)
    rw [retire, if_pos hhors, Finset.erase_eq_of_notMem hnot]
    exact ⟨by simp [hnot], rfl, hc, id, rfl, rfl⟩
  have he := not_le.mp hhors
  have hm := mot_lt he
  have hmoins : b.Couvre → ∀ m < nbMots,
      Function.update b.mots (e / 64) (b.mots (e / 64) &&& ~~~(1#64 <<< (e % 64))) m ≠ 0#64 →
        b.resume.getLsbD m = true := by
    intro hcouvre m hmlt hne
    refine hcouvre m hmlt fun hz => hne ?_
    by_cases hme : m = e / 64
    · rw [hme, update_self, ← hme, hz]
      simp
    · rw [update_of_ne hme, hz]
  rw [retire, if_neg hhors, position]
  dsimp only
  split
  · rename_i h
    have hnot := (bit_zero_iff he).mp h
    refine ⟨by simp [hnot], contenu_ote_bit rfl, ?_, hmoins, rfl, rfl⟩
    rw [Compte, contenu_ote_bit (b := b) (e := e) rfl, Finset.erase_eq_of_notMem hnot]
    exact hc
  · rename_i h
    have hmem := not_not.mp (mt (bit_zero_iff he).mpr h)
    obtain ⟨hmots, hlong, hcurs, hcouv⟩ := rafraichitResume_spec
      { b with
        mots := Function.update b.mots (e / 64) (b.mots (e / 64) &&& ~~~(1#64 <<< (e % 64)))
        longueur := b.longueur - 1 } hm
    have hcontenu := contenu_ote_bit (b := b) (e := e) hmots
    refine ⟨by simp [hmem], hcontenu, ?_, fun hcouvre => hcouv (hmoins hcouvre), hcurs.bas, hcurs.haut⟩
    rw [Compte, hcontenu, hlong, Finset.card_erase_of_mem hmem]
    exact congrArg (· - 1) hc

/-- The place `e` is looked at by one step of the scan from `depart`. -/
def Vise (depart : ℕ) (haut : Bool) (pas e : ℕ) : Prop :=
  motVisite (depart / 64) pas haut = e / 64 ∧
    (pas = 0 → if haut then e % 64 ≤ depart % 64 else depart % 64 ≤ e % 64) ∧
    (pas = nbMots → ¬if haut then e % 64 ≤ depart % 64 else depart % 64 ≤ e % 64)

theorem motVisite_lt (depart pas : ℕ) (haut : Bool) : motVisite depart pas haut < nbMots := by
  unfold motVisite
  split <;> exact Nat.mod_lt _ (by decide)

theorem exists_vise {depart : ℕ} (hd : depart < emplacements) (he : e < emplacements) (haut : Bool) :
    ∃ pas < nbMots + 1, Vise depart haut pas e := by
  unfold emplacements at hd he
  unfold Vise motVisite nbMots emplacements
  cases haut with
  | false =>
    by_cases h : depart / 64 = e / 64 ∧ e % 64 < depart % 64
    · exact ⟨16, by omega, by simp; omega, by simp, by simp; omega⟩
    · exact ⟨(e / 64 + 16 - depart / 64) % 16, by omega, by simp; omega, by simp; omega, by omega⟩
  | true =>
    by_cases h : depart / 64 = e / 64 ∧ depart % 64 < e % 64
    · exact ⟨16, by omega, by simp; omega, by simp, by simp; omega⟩
    · exact ⟨(depart / 64 + 16 - e / 64) % 16, by omega, by simp; omega, by simp; omega, by omega⟩

/-- The steps of an election look at the places in circular order. -/
theorem ahead_of_vise {depart : ℕ} (hd : depart < emplacements) (he : e < emplacements)
    (hp : pas < nbMots + 1) (h : Vise depart false pas e) :
    ahead emplacements depart e + depart % 64 = 64 * pas + e % 64 := by
  unfold Vise motVisite nbMots at h
  unfold nbMots at hp
  unfold emplacements at *
  unfold ahead
  simp only [Bool.false_eq_true, if_false] at h
  obtain ⟨h1, h2, h3⟩ := h
  by_cases h0 : pas = 0
  · have := h2 h0
    split <;> omega
  · by_cases h16 : pas = 16
    · have := h3 h16
      split <;> omega
    · split <;> omega

theorem getLsbD_vue (b : BandeFile) (haut : Bool) (pas : ℕ) (he : e < emplacements)
    (hm : motVisite (b.curseur haut % emplacements / 64) pas haut = e / 64) :
    (b.vue haut pas).getLsbD (e % 64) = true ↔
      e ∈ b.contenu ∧ Vise (b.curseur haut % emplacements) haut pas e := by
  have hbit : e % 64 < 64 := Nat.mod_lt e (by decide)
  have hdep : b.curseur haut % emplacements % 64 < 64 := Nat.mod_lt _ (by decide)
  have hdevant := getLsbD_bitsDevant hdep hbit haut
  rw [mem_contenu, vue]
  unfold Vise
  by_cases h0 : pas = 0
  · rw [if_pos h0, getLsbD_and, hdevant]
    subst h0
    have hz : ¬0 = nbMots := by decide
    cases haut <;> simp [he, hm, hz]
  · rw [if_neg h0]
    by_cases h16 : pas = nbMots
    · rw [if_pos h16, getLsbD_and, getLsbD_not, hdevant]
      subst h16
      cases haut <;> simp [he, hm, h0, hbit]
    · simp [he, hm, h0, h16]

theorem examine_complet (b : BandeFile) (haut : Bool) (pas : ℕ) :
    b.examine haut false pas =
      if b.vue haut pas = 0#64 then none
      else some (motVisite (b.curseur haut % emplacements / 64) pas haut, bitChoisi (b.vue haut pas) haut) := by
  simp only [examine, Bool.false_eq_true, false_and, if_false]

theorem examine_some {guide : Bool} (h : b.examine haut guide pas = some (m, i)) :
    i < 64 ∧ m * 64 + i ∈ b.contenu ∧ Vise (b.curseur haut % emplacements) haut pas (m * 64 + i) ∧
      (haut = false → ∀ x ∈ b.contenu, Vise (b.curseur haut % emplacements) haut pas x →
        (m * 64 + i) % 64 ≤ x % 64) := by
  rw [examine] at h
  split at h
  · exact absurd h (by simp)
  split at h
  · exact absurd h (by simp)
  rename_i hne
  obtain ⟨rfl, rfl⟩ := Prod.mk.inj (Option.some.inj h)
  obtain ⟨hlt, hset, hlow⟩ := bitChoisi_spec hne haut
  have hm := motVisite_lt (b.curseur haut % emplacements / 64) pas haut
  generalize bitChoisi (b.vue haut pas) haut = i at *
  generalize hmot : motVisite (b.curseur haut % emplacements / 64) pas haut = m at *
  have hdiv : (m * 64 + i) / 64 = m := by omega
  have hmod : (m * 64 + i) % 64 = i := by omega
  have he : m * 64 + i < emplacements := by
    unfold nbMots emplacements at hm
    unfold emplacements
    omega
  have hvue := getLsbD_vue b haut pas he (hmot.trans hdiv.symm)
  rw [hmod] at hvue
  obtain ⟨hmem, hvise⟩ := hvue.mp hset
  refine ⟨hlt, hmem, hvise, fun hbas x hx hxv => ?_⟩
  rw [hmod]
  exact hlow hbas _ ((getLsbD_vue b haut pas (mem_contenu.mp hx).1 hxv.1).mpr ⟨hx, hxv⟩)

theorem examine_none (h : b.examine haut false pas = none) :
    ∀ x ∈ b.contenu, ¬Vise (b.curseur haut % emplacements) haut pas x := by
  intro x hx hvise
  rw [examine_complet] at h
  split at h
  · rename_i hz
    have hset := (getLsbD_vue b haut pas (mem_contenu.mp hx).1 hvise.1).mpr ⟨hx, hvise⟩
    rw [hz] at hset
    simp at hset
  · exact absurd h (by simp)

theorem passage_guide (hc : b.Couvre) (haut : Bool) : b.passage haut true = b.passage haut false := by
  have hexamine : ∀ pas, b.examine haut true pas = b.examine haut false pas := by
    intro pas
    rw [examine, examine]
    have hm := motVisite_lt (b.curseur haut % emplacements / 64) pas haut
    split
    · rename_i hvide
      have hbit := (and_bit_eq_zero (hm.trans (by decide))).mp hvide.2
      have hz : b.mots (motVisite (b.curseur haut % emplacements / 64) pas haut) = 0#64 := by
        by_contra hne
        have hset := hc _ hm hne
        rw [hbit] at hset
        exact Bool.false_ne_true hset
      have hvue : b.vue haut pas = 0#64 := by
        rw [vue]
        rw [hz]
        simp
      rw [if_neg (by simp), if_pos hvue]
    · rw [if_neg (show ¬(false = true ∧ _) by simp)]
  rw [passage, passage, if_neg (show ¬(false = true ∧ _) by simp)]
  split
  · rename_i h0
    symm
    rw [findSome?_eq_none_iff]
    intro pas _
    rw [← hexamine, examine]
    rw [if_pos (by simp [h0.2])]
  · congr 1
    exact funext hexamine

theorem passage_some {guide : Bool}
    (h : b.passage haut guide = some (m, i)) : i < 64 ∧ m * 64 + i ∈ b.contenu := by
  rw [passage] at h
  split at h
  · exact absurd h (by simp)
  · obtain ⟨pas, -, hpas⟩ := exists_of_findSome?_eq_some h
    have hspec := examine_some hpas
    exact ⟨hspec.1, hspec.2.1⟩

/-- An election finds the first place in circular order. -/
theorem passage_premier (h : b.passage false false = some (m, i)) :
    ∀ x ∈ b.contenu, ahead emplacements (b.curseurBas % emplacements) (m * 64 + i) ≤
      ahead emplacements (b.curseurBas % emplacements) x := by
  intro x hx
  obtain ⟨pas, hpas, hsome, havant⟩ := findSome?_range h
  obtain ⟨-, hmem, hvise, hlow⟩ := examine_some hsome
  have hd : b.curseurBas % emplacements < emplacements := Nat.mod_lt _ (by decide)
  have hxlt := (mem_contenu.mp hx).1
  obtain ⟨q, hq, hxv⟩ := exists_vise hd hxlt false
  have hpq : pas ≤ q := by
    by_contra hlt
    exact examine_none (havant q (not_le.mp hlt)) x hx hxv
  have h1 := ahead_of_vise hd (mem_contenu.mp hmem).1 hpas hvise
  have h2 := ahead_of_vise hd hxlt hq hxv
  rcases hpq.eq_or_lt with rfl | hlt
  · have := hlow rfl x hx hxv
    omega
  · omega

theorem passage_none (h : b.passage haut false = none) : b.contenu = ∅ := by
  rw [Finset.eq_empty_iff_forall_notMem]
  intro x hx
  obtain ⟨pas, hpas, hvise⟩ := exists_vise (Nat.mod_lt _ (by decide) : b.curseur haut % emplacements < emplacements)
    (mem_contenu.mp hx).1 haut
  exact examine_none (findSome?_eq_none_iff.mp h pas (mem_range.mpr hpas)) x hx hvise

/-- A place is found whatever the word says; a word that covers gives the first one. -/
theorem candidat_spec (h : b.contenu ≠ ∅) (haut : Bool) :
    ∃ e ∈ b.contenu, ∃ r, b.candidat haut =
        (some e, { b with resume := r }.poseCurseur haut (emplacementSuivant e haut)) ∧
      (∀ m, b.resume.getLsbD m = true → r.getLsbD m = true) ∧
      (b.Couvre → b.passage haut false = some (e / 64, e % 64)) := by
  have hpos : ∀ {m i}, i < 64 → ((m * 64 + i) / 64, (m * 64 + i) % 64) = (m, i) :=
    fun hi => Prod.ext (by omega) (by omega)
  cases hg : b.passage haut true with
  | some mi =>
    obtain ⟨hi, hmem⟩ := passage_some hg
    refine ⟨_, hmem, b.resume, by rw [candidat, hg], fun _ hset => hset, fun hc => ?_⟩
    rw [← passage_guide hc, hg, hpos hi]
  | none =>
    cases hf : b.passage haut false with
    | none => exact absurd (passage_none hf) h
    | some mi =>
      obtain ⟨m, i⟩ := mi
      obtain ⟨hi, hmem⟩ := passage_some hf
      refine ⟨_, hmem, b.resume ||| 1#64 <<< m, by rw [candidat, hg, hf], fun k hset => ?_, fun _ => ?_⟩
      · rw [getLsbD_or, hset, Bool.true_or]
      · rw [hpos hi]

@[simp] theorem poseCurseur_mots (b : BandeFile) (haut : Bool) (c : ℕ) :
    (b.poseCurseur haut c).mots = b.mots := by
  cases haut <;> rfl

@[simp] theorem poseCurseur_resume (b : BandeFile) (haut : Bool) (c : ℕ) :
    (b.poseCurseur haut c).resume = b.resume := by
  cases haut <;> rfl

@[simp] theorem poseCurseur_longueur (b : BandeFile) (haut : Bool) (c : ℕ) :
    (b.poseCurseur haut c).longueur = b.longueur := by
  cases haut <;> rfl

theorem contenu_congr (h : b'.mots = b.mots) : b'.contenu = b.contenu := by
  unfold contenu
  rw [h]

/-- One service of a band. -/
structure Service (b : BandeFile) (haut : Bool) (e : ℕ) (b' : BandeFile) : Prop where
  mem : e ∈ b.contenu
  contenu : b'.contenu = b.contenu.erase e
  compte : b'.Compte
  couvre : b.Couvre → b'.Couvre
  curseur : b'.curseur haut = emplacementSuivant e haut
  autreCurseur : b'.curseur (!haut) = b.curseur (!haut)
  passage : b.Couvre → b.passage haut false = some (e / 64, e % 64)

theorem Service.premier {e : ℕ} (h : Service b false e b') (hc : b.Couvre) :
    ∀ x ∈ b.contenu, ahead emplacements (b.curseurBas % emplacements) e ≤
      ahead emplacements (b.curseurBas % emplacements) x := by
  intro x hx
  have hprem := passage_premier (h.passage hc) x hx
  rwa [Nat.div_add_mod' e 64] at hprem

theorem sert_spec (b : BandeFile) (hc : b.Compte) (haut : Bool) : (b.contenu = ∅ ∧ b.sert haut = (none, b)) ∨
      ∃ e b', b.sert haut = (some e, b') ∧ Service b haut e b' := by
  by_cases h : b.contenu = ∅
  · left
    refine ⟨h, ?_⟩
    rw [sert, show tentativesMax = 7 + 1 from rfl, essaie, if_pos]
    rw [hc, h, Finset.card_empty]
  · right
    obtain ⟨e, hmem, r, hcand, hr, hpassage⟩ := candidat_spec h haut
    have hlong : b.longueur ≠ 0 := by
      rw [hc]
      exact Finset.card_ne_zero_of_mem hmem
    generalize hb1 : { b with resume := r }.poseCurseur haut (emplacementSuivant e haut) = b1 at hcand
    have hmots : b1.mots = b.mots := by rw [← hb1, poseCurseur_mots]
    have hcontenu : b1.contenu = b.contenu := contenu_congr hmots
    have hc1 : b1.Compte := by
      rw [Compte, hcontenu, ← hb1, poseCurseur_longueur]
      exact hc
    have hcouvre1 : b.Couvre → b1.Couvre := by
      intro hcouvre m hm hne
      rw [hmots] at hne
      rw [← hb1, poseCurseur_resume]
      exact hr m (hcouvre m hm hne)
    obtain ⟨hout, hcont', hc', hcouvre', hcurs⟩ := retire_spec b1 e hc1
    rw [hcontenu] at hout hcont'
    refine ⟨e, (b1.retire e).2, ?_, hmem, hcont', hc', fun hcv => hcouvre' (hcouvre1 hcv), ?_, ?_, hpassage⟩
    · rw [sert, show tentativesMax = 7 + 1 from rfl, essaie, if_neg hlong, hcand]
      have hvrai : b1.retire e = (true, (b1.retire e).2) := by
        rw [← show (b1.retire e).1 = true by simpa [hmem] using hout]
      dsimp only
      rw [hvrai]
    · rw [hcurs.curseur, ← hb1]
      cases haut <;> simp [curseur, poseCurseur]
    · rw [hcurs.curseur, ← hb1]
      cases haut <;> simp [curseur, poseCurseur]

/-- The same places and cursors, with words that cover. -/
structure Pareille (b b' : BandeFile) : Prop where
  contenu : b'.contenu = b.contenu
  curseur : ∀ haut, b'.curseur haut = b.curseur haut
  compte : b.Compte ∧ b'.Compte
  couvre : b.Couvre ∧ b'.Couvre

theorem mots_of_contenu (h : b'.contenu = b.contenu) (hm : m < nbMots) : b'.mots m = b.mots m := by
  apply eq_of_getLsbD_eq
  intro i hi
  have he : m * 64 + i < emplacements := by
    unfold nbMots emplacements at hm
    unfold emplacements
    omega
  have hmem : m * 64 + i ∈ b'.contenu ↔ m * 64 + i ∈ b.contenu := by rw [h]
  rw [mem_contenu, mem_contenu, show (m * 64 + i) / 64 = m by omega,
    show (m * 64 + i) % 64 = i by omega] at hmem
  exact Bool.eq_iff_iff.mpr (by simpa [he] using hmem)

namespace Pareille

theorem longueur (h : Pareille b b') : b'.longueur = b.longueur := by
  rw [h.compte.1, h.compte.2, h.contenu]

theorem passage (h : Pareille b b') (haut : Bool) : b'.passage haut false = b.passage haut false := by
  have hexamine : ∀ pas, b'.examine haut false pas = b.examine haut false pas := by
    intro pas
    have hmots := mots_of_contenu h.contenu (motVisite_lt (b.curseur haut % emplacements / 64) pas haut)
    have hvue : b'.vue haut pas = b.vue haut pas := by
      simp only [vue, h.curseur haut, hmots]
    rw [examine_complet, examine_complet, hvue, h.curseur haut]
  rw [BandeFile.passage, BandeFile.passage, if_neg (by simp), if_neg (by simp), funext hexamine]

theorem contient (h : Pareille b b') (e : ℕ) : b'.contient e = b.contient e := by
  apply Bool.eq_iff_iff.mpr
  rw [contient_iff, contient_iff, h.contenu]

theorem of_effet (h : Pareille b b') {r r' : Bool × BandeFile} {o : Bool} {c : Finset ℕ} (hr : Effet b r o c)
    (hr' : Effet b' r' o c) : r'.1 = r.1 ∧ Pareille r.2 r'.2 := by
  refine ⟨hr'.rend.trans hr.rend.symm, hr'.contenu.trans hr.contenu.symm, fun haut => ?_, ⟨hr.compte, hr'.compte⟩,
    hr.couvre h.couvre.1, hr'.couvre h.couvre.2⟩
  rw [hr.curseurs.curseur, hr'.curseurs.curseur, h.curseur]

theorem insere (h : Pareille b b') (e : ℕ) :
    (b'.insere e).1 = (b.insere e).1 ∧ Pareille (b.insere e).2 (b'.insere e).2 := by
  by_cases he : e < emplacements
  · exact h.of_effet (insere_spec he h.compte.1) (h.contenu ▸ insere_spec he h.compte.2)
  · rw [insere_hors (not_lt.mp he), insere_hors (not_lt.mp he)]
    exact ⟨rfl, h⟩

theorem retire (h : Pareille b b') (e : ℕ) :
    (b'.retire e).1 = (b.retire e).1 ∧ Pareille (b.retire e).2 (b'.retire e).2 :=
  h.of_effet (retire_spec b e h.compte.1) (h.contenu ▸ retire_spec b' e h.compte.2)

theorem sert (h : Pareille b b') (haut : Bool) :
    (b'.sert haut).1 = (b.sert haut).1 ∧ Pareille (b.sert haut).2 (b'.sert haut).2 := by
  rcases sert_spec b h.compte.1 haut with ⟨hvide, hs⟩ | ⟨e, f, hs, hserv⟩
  · rcases sert_spec b' h.compte.2 haut with ⟨-, hs'⟩ | ⟨e', f', -, hserv'⟩
    · rw [hs, hs']
      exact ⟨rfl, h⟩
    · have hmem := hserv'.mem
      rw [h.contenu, hvide] at hmem
      exact absurd hmem (Finset.notMem_empty _)
  · rcases sert_spec b' h.compte.2 haut with ⟨hvide', -⟩ | ⟨e', f', hs', hserv'⟩
    · have hmem := hserv.mem
      rw [← h.contenu, hvide'] at hmem
      exact absurd hmem (Finset.notMem_empty _)
    · have hsame : e' = e := by
        have hp := hserv'.passage h.couvre.2
        rw [h.passage, hserv.passage h.couvre.1] at hp
        obtain ⟨hdiv, hmod⟩ := Prod.mk.inj (Option.some.inj hp)
        exact eq_of_div_mod hdiv.symm hmod.symm
      subst hsame
      rw [hs, hs']
      refine ⟨rfl, ?_, fun k => ?_, ⟨hserv.compte, hserv'.compte⟩, hserv.couvre h.couvre.1,
        hserv'.couvre h.couvre.2⟩
      · rw [hserv.contenu, hserv'.contenu, h.contenu]
      · by_cases hk : k = haut
        · rw [hk, hserv.curseur, hserv'.curseur]
        · obtain rfl : k = !haut := by
            cases k <;> cases haut <;> first | rfl | exact absurd rfl hk
          rw [hserv.autreCurseur, hserv'.autreCurseur, h.curseur]

end Pareille

end BandeFile

end BouchaudOS.Runqueue
