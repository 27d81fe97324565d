import Mathlib

/-!
# Record locks

`src/compat/linux/verrous.rs`: the locks of all processes on all files, as an unordered
list of intervals. A request first takes its range out of the locks of its process, which
may cut one lock into two, and then adds a lock. Byte by byte this is an update of the
state of the range, whatever the order of the list.
-/

namespace BouchaudOS.Descripteurs

open List

/-- `F_RDLCK`, `F_WRLCK`, `F_UNLCK`. -/
inductive Genre
  | rdlck
  | wrlck
  | unlck
  deriving DecidableEq, Repr

structure Verrou where
  noeud : ℕ
  pid : ℕ
  genre : Genre
  debut : ℕ
  fin : ℕ
  deriving DecidableEq, Repr

/-- `u64::MAX`. -/
def sansFin : ℕ := 2 ^ 64 - 1

def seChevauchent (aDebut aFin bDebut bFin : ℕ) : Bool := aDebut < bFin && bDebut < aFin

def incompatibles (a b : Genre) : Bool := a = .wrlck || b = .wrlck

def conflitDans (table : List Verrou) (noeud pid : ℕ) (genre : Genre) (debut fin : ℕ) : Option Verrou :=
  table.find? fun v => v.noeud = noeud && v.pid ≠ pid && incompatibles v.genre genre &&
    seChevauchent v.debut v.fin debut fin

/-- One lock of `retire_plage_dans`: what stays in its place, and what is added at the end
of the list. -/
def coupe (noeud pid debut fin : ℕ) (v : Verrou) : Option Verrou × Option Verrou :=
  if v.noeud ≠ noeud ∨ v.pid ≠ pid ∨ !seChevauchent v.debut v.fin debut fin then (some v, none)
  else if v.debut < debut ∧ fin < v.fin then
    (some { v with fin := debut }, some { v with debut := fin })
  else if v.debut < debut then (some { v with fin := debut }, none)
  else if fin < v.fin then (some { v with debut := fin }, none)
  else (none, none)

def retirePlageDans (table : List Verrou) (noeud pid debut fin : ℕ) : List Verrou :=
  table.filterMap (fun v => (coupe noeud pid debut fin v).1) ++
    table.filterMap fun v => (coupe noeud pid debut fin v).2

def borne (debut longueur : ℕ) : ℕ :=
  if longueur = 0 then sansFin else min (debut + longueur) sansFin

inductive Pose
  | accorde
  | occupe
  deriving DecidableEq

variable (table : List Verrou)

def pose (noeud pid : ℕ) (genre : Genre) (debut longueur : ℕ) : Pose × List Verrou :=
  let fin := borne debut longueur
  if genre = .unlck then (.accorde, retirePlageDans table noeud pid debut fin)
  else if (conflitDans table noeud pid genre debut fin).isSome then (.occupe, table)
  else (.accorde, retirePlageDans table noeud pid debut fin ++ [⟨noeud, pid, genre, debut, fin⟩])

/-- The first lock in the way: its kind, start, length (0 for no end) and process. -/
def interroge (noeud pid : ℕ) (genre : Genre) (debut longueur : ℕ) : Option (Genre × ℕ × ℕ × ℕ) :=
  (conflitDans table noeud pid genre debut (borne debut longueur)).map fun v =>
    (v.genre, v.debut, if v.fin = sansFin then 0 else v.fin - v.debut, v.pid)

def libereFichier (noeud pid : ℕ) : List Verrou :=
  table.filter fun v => !(v.noeud = noeud && v.pid = pid)

def libereProcessus (pid : ℕ) : List Verrou :=
  table.filter fun v => v.pid ≠ pid

variable {table : List Verrou} {noeud pid debut fin longueur n p b : ℕ} {genre g : Genre} {v w : Verrou}

def Verrou.Couvre (v : Verrou) (b : ℕ) : Prop := v.debut ≤ b ∧ b < v.fin

/-- Process `p` has a lock of kind `g` on byte `b` of file `n`. -/
def Tient (table : List Verrou) (n p : ℕ) (g : Genre) (b : ℕ) : Prop :=
  ∃ v ∈ table, v.noeud = n ∧ v.pid = p ∧ v.genre = g ∧ v.Couvre b

/-- Another process has a lock on the byte that a lock of kind `g` does not go with. -/
def EnConflit (table : List Verrou) (n p : ℕ) (g : Genre) (b : ℕ) : Prop :=
  ∃ p' g', p' ≠ p ∧ Tient table n p' g' b ∧ (g' = .wrlck ∨ g = .wrlck)

/-- The bytes of a request; a length of 0 goes to the end of the file. -/
def DansPlage (debut longueur b : ℕ) : Prop :=
  debut ≤ b ∧ (longueur = 0 ∨ b < debut + longueur)

instance (debut longueur b : ℕ) : Decidable (DansPlage debut longueur b) := by
  unfold DansPlage
  infer_instance

theorem tient_append {table' : List Verrou} :
    Tient (table ++ table') n p g b ↔ Tient table n p g b ∨ Tient table' n p g b := by
  simp only [Tient, mem_append, or_and_right, exists_or]

theorem coupe_pieces (hw : (coupe noeud pid debut fin v).1 = some w ∨
    (coupe noeud pid debut fin v).2 = some w) :
    w.noeud = v.noeud ∧ w.pid = v.pid ∧ w.genre = v.genre := by
  unfold coupe at hw
  split_ifs at hw <;> simp at hw
  · subst hw
    exact ⟨rfl, rfl, rfl⟩
  · rcases hw with rfl | rfl <;> exact ⟨rfl, rfl, rfl⟩
  · subst hw
    exact ⟨rfl, rfl, rfl⟩
  · subst hw
    exact ⟨rfl, rfl, rfl⟩

/-- The pieces of a lock cover what it covered outside the range. -/
theorem couvre_coupe (b : ℕ) :
    (∃ w, ((coupe noeud pid debut fin v).1 = some w ∨ (coupe noeud pid debut fin v).2 = some w) ∧
      w.Couvre b) ↔
      v.Couvre b ∧ ¬ (v.noeud = noeud ∧ v.pid = pid ∧ debut ≤ b ∧ b < fin) := by
  unfold coupe
  split_ifs with h1 h2 h3 h4
  · have hhors : v.Couvre b → ¬ (v.noeud = noeud ∧ v.pid = pid ∧ debut ≤ b ∧ b < fin) := by
      rintro ⟨hd, hf⟩ ⟨hn, hp, hd', hf'⟩
      simp only [hn, hp, ne_eq, not_true_eq_false, false_or, seChevauchent, Bool.not_eq_true',
        Bool.and_eq_false_iff, decide_eq_false_iff_not] at h1
      omega
    simpa using hhors
  all_goals
    simp only [ne_eq, not_or, not_not, Bool.not_eq_true', Bool.not_eq_false, seChevauchent,
      Bool.and_eq_true, decide_eq_true_eq] at h1
    obtain ⟨hn, hp, hch⟩ := h1
    simp [Verrou.Couvre, hn, hp, or_and_right, exists_or]
    omega

theorem mem_retirePlageDans : w ∈ retirePlageDans table noeud pid debut fin ↔ ∃ v ∈ table,
    (coupe noeud pid debut fin v).1 = some w ∨ (coupe noeud pid debut fin v).2 = some w := by
  simp only [retirePlageDans, mem_append, mem_filterMap, and_or_left, exists_or]

theorem tient_retirePlageDans :
    Tient (retirePlageDans table noeud pid debut fin) n p g b ↔
      Tient table n p g b ∧ ¬ (n = noeud ∧ p = pid ∧ debut ≤ b ∧ b < fin) := by
  constructor
  · rintro ⟨w, hw, rfl, rfl, rfl, hb⟩
    obtain ⟨v, hv, hpiece⟩ := mem_retirePlageDans.mp hw
    obtain ⟨hn, hp, hg⟩ := coupe_pieces hpiece
    obtain ⟨hcouvre, hhors⟩ := (couvre_coupe b).mp ⟨w, hpiece, hb⟩
    rw [hn, hp, hg]
    exact ⟨⟨v, hv, rfl, rfl, rfl, hcouvre⟩, hhors⟩
  · rintro ⟨⟨v, hv, rfl, rfl, rfl, hb⟩, hhors⟩
    obtain ⟨w, hpiece, hw⟩ := (couvre_coupe b).mpr ⟨hb, hhors⟩
    obtain ⟨hn, hp, hg⟩ := coupe_pieces hpiece
    exact ⟨w, mem_retirePlageDans.mpr ⟨v, hv, hpiece⟩, hn, hp, hg, hw⟩

theorem tient_filter {f : Verrou → Bool} {P : Prop} (h : ∀ v : Verrou, v.noeud = n → v.pid = p → (f v = true ↔ P)) :
    Tient (table.filter f) n p g b ↔ Tient table n p g b ∧ P := by
  constructor
  · rintro ⟨v, hv, hn, hp, hg, hb⟩
    obtain ⟨hv, hf⟩ := mem_filter.mp hv
    exact ⟨⟨v, hv, hn, hp, hg, hb⟩, (h v hn hp).mp hf⟩
  · rintro ⟨⟨v, hv, hn, hp, hg, hb⟩, hP⟩
    exact ⟨v, mem_filter.mpr ⟨hv, (h v hn hp).mpr hP⟩, hn, hp, hg, hb⟩

theorem tient_libereFichier : Tient (libereFichier table noeud pid) n p g b ↔
    Tient table n p g b ∧ ¬ (n = noeud ∧ p = pid) := by
  refine tient_filter ?_
  rintro v rfl rfl
  simp [imp_iff_not_or]

theorem tient_libereProcessus : Tient (libereProcessus table pid) n p g b ↔
    Tient table n p g b ∧ p ≠ pid := by
  refine tient_filter ?_
  rintro v - rfl
  simp

def Verrou.Plein (v : Verrou) : Prop := v.debut < v.fin ∧ v.fin ≤ sansFin ∧ v.genre ≠ .unlck

/-- Nobody has a lock on a byte that another process has locked for writing. -/
def Exclusif (table : List Verrou) : Prop :=
  ∀ n p p' g b, Tient table n p .wrlck b → Tient table n p' g b → p = p'

structure Saine (table : List Verrou) : Prop where
  plein : ∀ v ∈ table, v.Plein
  exclusif : Exclusif table

theorem saine_nil : Saine [] := ⟨by simp, by simp [Exclusif, Tient]⟩

theorem Exclusif.of_tient {table' : List Verrou} (h : Exclusif table)
    (hsub : ∀ n p g b, Tient table' n p g b → Tient table n p g b) : Exclusif table' :=
  fun n p p' g b hw ht => h n p p' g b (hsub _ _ _ _ hw) (hsub _ _ _ _ ht)

theorem plein_coupe (hv : v.Plein) (hw : (coupe noeud pid debut fin v).1 = some w ∨
    (coupe noeud pid debut fin v).2 = some w) : w.Plein := by
  obtain ⟨hlt, hfin, hg⟩ := hv
  unfold coupe at hw
  split_ifs at hw with h1 h2 h3 h4 <;> simp at hw
  · subst hw
    exact ⟨hlt, hfin, hg⟩
  all_goals
    simp only [ne_eq, not_or, not_not, Bool.not_eq_true', Bool.not_eq_false, seChevauchent,
      Bool.and_eq_true, decide_eq_true_eq] at h1
  · rcases hw with rfl | rfl
    · exact ⟨h2.1, by dsimp only; omega, hg⟩
    · exact ⟨h2.2, hfin, hg⟩
  · subst hw
    exact ⟨h3, by dsimp only; omega, hg⟩
  · subst hw
    exact ⟨h4, hfin, hg⟩

theorem Saine.retirePlageDans (h : Saine table) (noeud pid debut fin : ℕ) :
    Saine (retirePlageDans table noeud pid debut fin) where
  plein := by
    intro w hw
    obtain ⟨v, hv, hw⟩ := mem_retirePlageDans.mp hw
    exact plein_coupe (h.plein v hv) hw
  exclusif := h.exclusif.of_tient fun n p g b ht => (tient_retirePlageDans.mp ht).1

theorem Saine.filter (h : Saine table) (q : Verrou → Bool) : Saine (table.filter q) where
  plein := fun v hv => h.plein v (mem_of_mem_filter hv)
  exclusif := h.exclusif.of_tient fun _ _ _ _ ⟨v, hv, ht⟩ => ⟨v, mem_of_mem_filter hv, ht⟩

theorem conflitDans_isSome_iff (h : Saine table) (hlt : debut < fin) :
    (conflitDans table noeud pid genre debut fin).isSome ↔
      ∃ b, debut ≤ b ∧ b < fin ∧ EnConflit table noeud pid genre b := by
  rw [conflitDans, find?_isSome]
  constructor
  · rintro ⟨v, hv, hc⟩
    simp only [Bool.and_eq_true, decide_eq_true_eq, incompatibles, Bool.or_eq_true, seChevauchent] at hc
    obtain ⟨⟨⟨rfl, hpid⟩, hinc⟩, hch⟩ := hc
    have hplein := (h.plein v hv).1
    exact ⟨max debut v.debut, by omega, by omega, v.pid, v.genre, hpid,
      ⟨v, hv, rfl, rfl, rfl, by omega, by omega⟩, hinc⟩
  · rintro ⟨b, hb, hb', p', g', hpid, ⟨v, hv, rfl, rfl, rfl, hc, hc'⟩, hinc⟩
    refine ⟨v, hv, ?_⟩
    simp only [Bool.and_eq_true, decide_eq_true_eq, incompatibles, Bool.or_eq_true, seChevauchent]
    exact ⟨⟨⟨trivial, hpid⟩, hinc⟩, by omega, by omega⟩

theorem lt_borne (hlt : debut + longueur < 2 ^ 63) :
    debut < borne debut longueur ∧ borne debut longueur ≤ sansFin := by
  unfold borne sansFin
  split_ifs <;> omega

theorem dansPlage_iff (hlt : debut + longueur < 2 ^ 63) (hb : b < sansFin) :
    DansPlage debut longueur b ↔ debut ≤ b ∧ b < borne debut longueur := by
  unfold DansPlage borne sansFin at *
  split_ifs <;> omega

theorem conflitDans_borne_iff (h : Saine table) (hlt : debut + longueur < 2 ^ 63) :
    (conflitDans table noeud pid genre debut (borne debut longueur)).isSome ↔
      ∃ b < sansFin, DansPlage debut longueur b ∧ EnConflit table noeud pid genre b := by
  obtain ⟨hdebut, hfin⟩ := @lt_borne debut longueur hlt
  rw [conflitDans_isSome_iff h hdebut]
  constructor
  · rintro ⟨b, hb, hb', hc⟩
    have hlast : b < sansFin := hb'.trans_le hfin
    exact ⟨b, hlast, (dansPlage_iff hlt hlast).mpr ⟨hb, hb'⟩, hc⟩
  · rintro ⟨b, hlast, hb, hc⟩
    obtain ⟨hb, hb'⟩ := (dansPlage_iff hlt hlast).mp hb
    exact ⟨b, hb, hb', hc⟩

/-- A lock that is granted is added where nothing is in its way. -/
theorem Saine.append (h : Saine table) (hg : genre ≠ .unlck) (hlt : debut < fin) (hfin : fin ≤ sansFin)
    (hlibre : ∀ b, debut ≤ b → b < fin → ¬ EnConflit table noeud pid genre b) :
    Saine (table ++ [⟨noeud, pid, genre, debut, fin⟩]) where
  plein := by
    intro v hv
    rcases mem_append.mp hv with hv | hv
    · exact h.plein v hv
    · obtain rfl := mem_singleton.mp hv
      exact ⟨hlt, hfin, hg⟩
  exclusif := by
    have hneuf : ∀ {n p g b}, Tient [⟨noeud, pid, genre, debut, fin⟩] n p g b →
        n = noeud ∧ p = pid ∧ g = genre ∧ debut ≤ b ∧ b < fin := by
      rintro n p g b ⟨v, hv, rfl, rfl, rfl, hb⟩
      obtain rfl := mem_singleton.mp hv
      exact ⟨rfl, rfl, rfl, hb⟩
    intro n p p' g b hw ht
    rcases tient_append.mp hw with hancien | hw' <;> rcases tient_append.mp ht with hancien' | ht'
    · exact h.exclusif n p p' g b hancien hancien'
    · obtain ⟨rfl, rfl, rfl, hb, hb'⟩ := hneuf ht'
      by_contra hne
      exact hlibre b hb hb' ⟨p, .wrlck, hne, hancien, .inl rfl⟩
    · obtain ⟨rfl, rfl, rfl, hb, hb'⟩ := hneuf hw'
      by_contra hne
      exact hlibre b hb hb' ⟨p', g, Ne.symm hne, hancien', .inr rfl⟩
    · exact (hneuf hw').2.1.trans (hneuf ht').2.1.symm

/-- What a request does: it is granted unless a byte of its range is in conflict, and then
gives exactly the bytes of its range the state asked for. -/
theorem pose_spec (h : Saine table) (hlt : debut + longueur < 2 ^ 63) :
    Saine (pose table noeud pid genre debut longueur).2 ∧
    ((pose table noeud pid genre debut longueur).1 = .occupe ↔
      genre ≠ .unlck ∧ ∃ b < sansFin, DansPlage debut longueur b ∧ EnConflit table noeud pid genre b) ∧
    ((pose table noeud pid genre debut longueur).1 = .occupe →
      (pose table noeud pid genre debut longueur).2 = table) ∧
    ((pose table noeud pid genre debut longueur).1 = .accorde → ∀ n p g, ∀ b < sansFin,
      (Tient (pose table noeud pid genre debut longueur).2 n p g b ↔
        if n = noeud ∧ p = pid ∧ DansPlage debut longueur b then g = genre ∧ genre ≠ .unlck
        else Tient table n p g b)) := by
  obtain ⟨hdebut, hfin⟩ := @lt_borne debut longueur hlt
  have hsaine := h.retirePlageDans noeud pid debut (borne debut longueur)
  have hretire : ∀ n p g, ∀ b < sansFin,
      (Tient (retirePlageDans table noeud pid debut (borne debut longueur)) n p g b ↔
        Tient table n p g b ∧ ¬ (n = noeud ∧ p = pid ∧ DansPlage debut longueur b)) := by
    intro n p g b hb
    rw [tient_retirePlageDans, dansPlage_iff hlt hb]
  unfold pose
  dsimp only
  split_ifs with hun hconf
  · refine ⟨hsaine, by simp [hun], by simp, fun _ n p g b hb => ?_⟩
    rw [hretire n p g b hb]
    split_ifs with hplage <;> simp [hplage, hun]
  · refine ⟨h, ?_, fun _ => rfl, by simp⟩
    simp only [true_iff]
    exact ⟨hun, (conflitDans_borne_iff h hlt).mp hconf⟩
  · have hlibre := (conflitDans_borne_iff h hlt).not.mp hconf
    refine ⟨hsaine.append hun hdebut hfin ?_, ?_, by simp, fun _ n p g b hb => ?_⟩
    · rintro b hb hb' ⟨p', g', hne, ht, hinc⟩
      have hlast : b < sansFin := hb'.trans_le hfin
      exact hlibre ⟨b, hlast, (dansPlage_iff hlt hlast).mpr ⟨hb, hb'⟩, p', g', hne,
        (tient_retirePlageDans.mp ht).1, hinc⟩
    · simp only [false_iff, not_and]
      exact fun _ => hlibre
    · rw [tient_append, hretire n p g b hb]
      have hneuf : Tient [⟨noeud, pid, genre, debut, borne debut longueur⟩] n p g b ↔
          (n = noeud ∧ p = pid ∧ DansPlage debut longueur b) ∧ g = genre := by
        rw [dansPlage_iff hlt hb]
        simp only [Tient, mem_singleton, exists_eq_left, Verrou.Couvre]
        tauto
      rw [hneuf]
      split_ifs with hplage <;> simp [hplage, hun]

end BouchaudOS.Descripteurs
