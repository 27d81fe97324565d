import Mathlib

/-!
# The geometry of a FAT32 volume

`src/fs/fat32.rs`: `calcule` looks for the size of the FAT and the number of clusters,
which depend on each other, by at most eight turns of an iteration; `choisitAmas` takes
the largest cluster that leaves enough clusters for the volume to be FAT32. The
iteration need not have reached its fixed point after eight turns: its values lie in turn
below and above it, and it is the even number of turns that makes the result fit.
-/

namespace BouchaudOS.Fat32

open List

/-- `RESERVES`: sectors before the first FAT. -/
def reserves : ℕ := 32

/-- `FATS`: copies of the FAT. -/
def nombreFats : ℕ := 2

/-- `PREMIER_AMAS`. -/
def premierAmas : ℕ := 2

/-- `FIN_DE_CHAINE`. -/
def finDeChaine : ℕ := 0x0FFFFFFF

/-- `AMAS_MINIMUM_FAT32`. -/
def amasMinimumFat32 : ℕ := 65525

structure Parametres where
  octetsParSecteur : ℕ
  secteursParAmas : ℕ
  secteursReserves : ℕ
  fats : ℕ
  secteursParFat : ℕ
  secteursTotal : ℕ
  amas : ℕ
  premierSecteurDonnees : ℕ
  amasRacine : ℕ
  deriving DecidableEq, Repr

namespace Parametres

variable (g : Parametres)

def octetsParAmas : ℕ := g.octetsParSecteur * g.secteursParAmas

def secteurDeLAmas (amas : ℕ) : ℕ :=
  g.premierSecteurDonnees + (amas - premierAmas) * g.secteursParAmas

def parSecteur : ℕ := g.octetsParSecteur / 4

def entreesParSecteur : ℕ := g.octetsParSecteur / 32

end Parametres

variable (total parSecteur spa : ℕ)

/-- Clusters left when each FAT takes `f` sectors. -/
def amasRestants (f : ℕ) : ℕ := (total - (reserves + f * nombreFats)) / spa

def fatVoulue (f : ℕ) : ℕ := (amasRestants total spa f + premierAmas + parSecteur - 1) / parSecteur

/-- The turns of the loop: the sectors of a FAT and the clusters of the last turn. -/
def itere : ℕ → ℕ → ℕ → Option (ℕ × ℕ)
  | 0, f, amas => some (f, amas)
  | n + 1, f, _ =>
    if 2 ^ 32 ≤ reserves + f * nombreFats then none
    else if total ≤ reserves + f * nombreFats then none
    else if amasRestants total spa f = 0 then none
    else if fatVoulue total parSecteur spa f = f then some (f, amasRestants total spa f)
    else itere n (fatVoulue total parSecteur spa f) (amasRestants total spa f)

def calcule (secteursTotal octetsParSecteur secteursParAmas : ℕ) : Option Parametres :=
  if ¬(octetsParSecteur = 512 ∨ octetsParSecteur = 1024 ∨ octetsParSecteur = 2048 ∨
      octetsParSecteur = 4096) then none
  else if secteursParAmas = 0 ∨ 2 ^ secteursParAmas.log2 ≠ secteursParAmas then none
  else if secteursTotal ≤ reserves + 2 then none
  else match itere secteursTotal (octetsParSecteur / 4) secteursParAmas 8 1 0 with
    | none => none
    | some (f, amas) =>
      if 268435445 < amas then none
      else some
        { octetsParSecteur := octetsParSecteur
          secteursParAmas := secteursParAmas
          secteursReserves := reserves
          fats := nombreFats
          secteursParFat := f
          secteursTotal := secteursTotal
          amas := amas
          premierSecteurDonnees := reserves + f * nombreFats
          amasRacine := premierAmas }

/-- The candidates, the largest first. A candidate whose geometry cannot be computed ends
the search. -/
def choisitParmi (secteursTotal octetsParSecteur : ℕ) : List ℕ → Option ℕ
  | [] => none
  | candidat :: suite =>
    if candidat * octetsParSecteur > 65536 then choisitParmi secteursTotal octetsParSecteur suite
    else match calcule secteursTotal octetsParSecteur candidat with
      | none => none
      | some g =>
        if amasMinimumFat32 ≤ g.amas then some candidat
        else choisitParmi secteursTotal octetsParSecteur suite

def choisitAmas (secteursTotal octetsParSecteur : ℕ) : Option ℕ :=
  choisitParmi secteursTotal octetsParSecteur [64, 32, 16, 8, 4, 2, 1]

/-- The FAT describes every cluster and the clusters fit behind the FATs. -/
structure Parametres.Valide (g : Parametres) : Prop where
  octets : g.octetsParSecteur = 512 ∨ g.octetsParSecteur = 1024 ∨ g.octetsParSecteur = 2048 ∨
    g.octetsParSecteur = 4096
  spa_pos : 0 < g.secteursParAmas
  reserves_eq : g.secteursReserves = reserves
  fats_eq : g.fats = nombreFats
  donnees_eq : g.premierSecteurDonnees = reserves + g.secteursParFat * nombreFats
  racine_eq : g.amasRacine = premierAmas
  amas_pos : 0 < g.amas
  amas_le : g.amas ≤ 268435445
  fat_couvre : g.amas + premierAmas ≤ g.secteursParFat * g.parSecteur
  donnees_tiennent : g.premierSecteurDonnees + g.amas * g.secteursParAmas ≤ g.secteursTotal

theorem amasRestants_antitone (total spa : ℕ) {f f' : ℕ} (h : f ≤ f') :
    amasRestants total spa f' ≤ amasRestants total spa f := by
  apply Nat.div_le_div_right
  have := Nat.mul_le_mul_right nombreFats h
  omega

theorem fatVoulue_antitone (total parSecteur spa : ℕ) {f f' : ℕ} (h : f ≤ f') :
    fatVoulue total parSecteur spa f' ≤ fatVoulue total parSecteur spa f := by
  apply Nat.div_le_div_right
  have := amasRestants_antitone total spa h
  omega

theorem amasRestants_le_fatVoulue (total spa : ℕ) {parSecteur : ℕ} (hp : 0 < parSecteur) (f : ℕ) :
    amasRestants total spa f + premierAmas ≤ fatVoulue total parSecteur spa f * parSecteur := by
  have h := Nat.div_add_mod (amasRestants total spa f + premierAmas + parSecteur - 1) parSecteur
  have hm := Nat.mod_lt (amasRestants total spa f + premierAmas + parSecteur - 1) hp
  rw [fatVoulue, Nat.mul_comm]
  omega

theorem amasRestants_tiennent {total f : ℕ} (spa : ℕ) (h : reserves + f * nombreFats ≤ total) :
    reserves + f * nombreFats + amasRestants total spa f * spa ≤ total := by
  have := Nat.div_mul_le_self (total - (reserves + f * nombreFats)) spa
  rw [amasRestants]
  omega

/-- What the loop leaves: `f` sectors hold the entries of `amas` clusters, and these fit
behind the FATs. -/
structure Convient (total parSecteur spa f amas : ℕ) : Prop where
  pos : 0 < amas
  couvre : amas + premierAmas ≤ f * parSecteur
  tiennent : reserves + f * nombreFats + amas * spa ≤ total

/-- Where an even number of turns is left the value is at most the one it asks for, where
an odd number is left at least. -/
theorem convient_of_itere {total parSecteur spa : ℕ} (hp : 0 < parSecteur) :
    ∀ {n f amas f' amas' : ℕ},
      (n % 2 = 0 → f ≤ fatVoulue total parSecteur spa f) →
      (n % 2 = 1 → fatVoulue total parSecteur spa f ≤ f) →
      (n = 0 → Convient total parSecteur spa f amas) →
      itere total parSecteur spa n f amas = some (f', amas') →
      Convient total parSecteur spa f' amas'
  | 0, f, amas, f', amas', _, _, hfin, h => by
    cases h
    exact hfin rfl
  | n + 1, f, amas, f', amas', hbas, hhaut, _, h => by
    rw [itere] at h
    split_ifs at h with h32 htot hpos hfixe
    · -- the fixed point is reached
      cases h
      refine ⟨Nat.pos_of_ne_zero hpos, ?_, amasRestants_tiennent spa (by omega)⟩
      have := amasRestants_le_fatVoulue total spa hp f
      rwa [hfixe] at this
    · refine convient_of_itere hp ?_ ?_ ?_ h
      · intro hn
        exact fatVoulue_antitone total parSecteur spa (hhaut (by omega))
      · intro hn
        exact fatVoulue_antitone total parSecteur spa (hbas (by omega))
      · rintro rfl
        -- the last turn started above the fixed point
        have hle := Nat.mul_le_mul_right nombreFats (hhaut rfl)
        have ht := amasRestants_tiennent spa (Nat.le_of_not_le htot)
        exact ⟨Nat.pos_of_ne_zero hpos, amasRestants_le_fatVoulue total spa hp f, by omega⟩

theorem convient_of_calcule {total octets spa f amas : ℕ} (hp : 0 < octets / 4)
    (h : itere total (octets / 4) spa 8 1 0 = some (f, amas)) :
    Convient total (octets / 4) spa f amas := by
  refine convient_of_itere hp (fun _ => ?_) (fun h => by omega) (fun h => by omega) h
  rw [fatVoulue, Nat.le_div_iff_mul_le hp]
  simp only [premierAmas]
  omega

theorem calcule_valide {total octets spa : ℕ} {g : Parametres} (h : calcule total octets spa = some g) :
    g.Valide ∧ g.octetsParSecteur = octets ∧ g.secteursTotal = total ∧ g.secteursParAmas = spa := by
  unfold calcule at h
  split_ifs at h with ho hs ht
  have hp : 0 < octets / 4 := by omega
  cases hi : itere total (octets / 4) spa 8 1 0 with
  | none => simp [hi] at h
  | some r =>
    have hc := convient_of_calcule hp hi
    simp only [hi] at h
    split_ifs at h with hmax
    cases h
    rw [not_or, not_not] at hs
    exact ⟨⟨ho, Nat.pos_of_ne_zero hs.1, rfl, rfl, rfl, rfl, hc.pos, Nat.le_of_not_lt hmax, hc.couvre,
      hc.tiennent⟩, rfl, rfl, rfl⟩

/-- What the loop leaves unused is less than a cluster and two sectors. -/
structure Serre (total parSecteur spa f amas : ℕ) : Prop where
  fat : f = (amas + premierAmas + parSecteur - 1) / parSecteur
  reste : total < reserves + f * nombreFats + amas * spa + spa + 2

variable {total parSecteur spa : ℕ}

/-- A turn divides the distance between two values by at least sixty-four. -/
theorem fatVoulue_le_add (hp : 128 ≤ parSecteur) (hs : 0 < spa) {f f' : ℕ} (h : f ≤ f') :
    fatVoulue total parSecteur spa f ≤ fatVoulue total parSecteur spa f' + (f' - f + 63) / 64 := by
  have hamas : amasRestants total spa f ≤ amasRestants total spa f' + (f' - f) * nombreFats := by
    rw [amasRestants, amasRestants, ← Nat.add_mul_div_right _ _ hs]
    apply Nat.div_le_div_right
    have := Nat.le_mul_of_pos_right ((f' - f) * nombreFats) hs
    simp only [nombreFats] at *
    omega
  have hpas : (f' - f) * nombreFats ≤ (f' - f + 63) / 64 * parSecteur := by
    have := Nat.mul_le_mul_left ((f' - f + 63) / 64) hp
    simp only [nombreFats]
    omega
  rw [fatVoulue, fatVoulue, ← Nat.add_mul_div_right _ _ (by omega)]
  apply Nat.div_le_div_right
  omega

theorem amasRestants_reste (hs : 0 < spa) (f : ℕ) :
    total < reserves + f * nombreFats + amasRestants total spa f * spa + spa := by
  have h := Nat.div_add_mod (total - (reserves + f * nombreFats)) spa
  have hm := Nat.mod_lt (total - (reserves + f * nombreFats)) hs
  rw [amasRestants, Nat.mul_comm _ spa]
  omega

/-- With `n` turns left the value is within `64 ^ (n - 3)` of the one it asks for: five
turns bring any volume down to a distance of one, which the last three keep. -/
theorem serre_of_itere (hp : 128 ≤ parSecteur) (hs : 0 < spa) :
    ∀ {n f amas f' amas' : ℕ},
      fatVoulue total parSecteur spa f ≤ f + 64 ^ (n - 3) →
      f ≤ fatVoulue total parSecteur spa f + 64 ^ (n - 3) →
      (n = 0 → Serre total parSecteur spa f amas) →
      itere total parSecteur spa n f amas = some (f', amas') →
      Serre total parSecteur spa f' amas'
  | 0, f, amas, f', amas', _, _, hfin, h => by
    cases h
    exact hfin rfl
  | n + 1, f, amas, f', amas', hbas, hhaut, _, h => by
    have hreste : total < _ := amasRestants_reste hs f
    rw [itere] at h
    split_ifs at h with h32 htot hpos hfixe
    · cases h
      exact ⟨hfixe.symm, by omega⟩
    · have hpas : (64 ^ (n + 1 - 3) + 63) / 64 ≤ 64 ^ (n - 3) := by
        rcases Nat.lt_or_ge n 3 with hn | hn
        · simp [show n + 1 - 3 = 0 by omega, show n - 3 = 0 by omega]
        · rw [show n + 1 - 3 = n - 3 + 1 by omega, pow_succ]
          omega
      refine serre_of_itere hp hs ?_ ?_ ?_ h
      · rcases Nat.le_total f (fatVoulue total parSecteur spa f) with hle | hle
        · have := fatVoulue_antitone total parSecteur spa hle
          omega
        · have : fatVoulue total _ _ _ ≤ _ := fatVoulue_le_add hp hs hle
          omega
      · rcases Nat.le_total f (fatVoulue total parSecteur spa f) with hle | hle
        · have : fatVoulue total _ _ _ ≤ _ := fatVoulue_le_add hp hs hle
          omega
        · have := fatVoulue_antitone total parSecteur spa hle
          omega
      · rintro rfl
        refine ⟨rfl, ?_⟩
        simp only [nombreFats, zero_add, Nat.reduceSubDiff, pow_zero] at *
        omega

/-- The loop gives up on the smallest volumes only. -/
theorem total_lt_of_itere_none (hp : 128 ≤ parSecteur) (hs : 0 < spa) (ht : total < 2 ^ 32) :
    ∀ {n f amas : ℕ}, f ≤ total / 128 + 2 → itere total parSecteur spa n f amas = none → total < 200 + 2 * spa
  | 0, _, _, _, h => by cases h
  | n + 1, f, amas, hf, h => by
    rw [itere] at h
    split_ifs at h with h32 htot hpos hfixe
    · simp only [reserves, nombreFats] at h32
      omega
    · simp only [reserves, nombreFats] at htot
      omega
    · rw [amasRestants, Nat.div_eq_zero_iff] at hpos
      simp only [reserves, nombreFats] at *
      omega
    · refine total_lt_of_itere_none hp hs ht ?_ h
      have hamas : amasRestants total spa f ≤ total :=
        (Nat.div_le_self _ _).trans (Nat.sub_le _ _)
      calc fatVoulue total parSecteur spa f
          ≤ (total + premierAmas) / parSecteur + 1 := by
            rw [fatVoulue, ← Nat.add_div_right _ (by omega)]
            exact Nat.div_le_div_right (by omega)
        _ ≤ (total + premierAmas) / 128 + 1 :=
            Nat.add_le_add_right (Nat.div_le_div_left hp (by omega)) 1
        _ ≤ total / 128 + 2 := by
            simp only [premierAmas]
            omega

theorem calcule_serre {total octets spa : ℕ} {g : Parametres} (ht : total < 2 ^ 32)
    (h : calcule total octets spa = some g) :
    Serre total (octets / 4) spa g.secteursParFat g.amas := by
  unfold calcule at h
  split_ifs at h with ho hs hr
  have hp : 128 ≤ octets / 4 := by omega
  cases hi : itere total (octets / 4) spa 8 1 0 with
  | none => simp [hi] at h
  | some r =>
    have hamas : amasRestants total spa 1 ≤ total :=
      (Nat.div_le_self _ _).trans (Nat.sub_le _ _)
    have hvoulue : fatVoulue total (octets / 4) spa 1 ≤ 64 ^ 5 := by
      refine (Nat.div_le_div_left hp (by omega)).trans ?_
      simp only [premierAmas]
      omega
    simp only [hi] at h
    split_ifs at h with hmax
    cases h
    exact serre_of_itere hp (Nat.pos_of_ne_zero (not_or.mp hs).1) (by omega) (by omega) (fun h => by omega) hi

/-- A candidate of the source that makes the volume FAT32 with clusters of at most 64 KiB. -/
def Candidat (total octets c : ℕ) : Prop :=
  c ∈ [64, 32, 16, 8, 4, 2, 1] ∧ c * octets ≤ 65536 ∧ ∃ g ∈ calcule total octets c, amasMinimumFat32 ≤ g.amas

theorem isGreatest_find {α : Type*} [LinearOrder α] {p : α → Bool} {l : List α} (hl : l.Pairwise (· > ·))
    {c : α} (h : l.find? p = some c) : IsGreatest {x | x ∈ l ∧ p x} c := by
  obtain ⟨hc, avant, apres, rfl, havant⟩ := find?_eq_some_iff_append.mp h
  refine ⟨⟨by simp, hc⟩, ?_⟩
  rintro x ⟨hx, hpx⟩
  rcases mem_append.mp hx with hx | hx
  · simpa [hpx] using havant x hx
  · rcases mem_cons.mp hx with rfl | hx
    · exact le_rfl
    · exact (rel_of_pairwise_cons (pairwise_append.mp hl).2.1 hx).le

/-- The test that `choisitParmi` makes of a candidate. -/
def admet (total octets c : ℕ) : Bool :=
  c * octets ≤ 65536 && (calcule total octets c).any fun g => amasMinimumFat32 ≤ g.amas

theorem candidat_iff {total octets c : ℕ} :
    Candidat total octets c ↔ c ∈ [64, 32, 16, 8, 4, 2, 1] ∧ admet total octets c = true := by
  simp only [Candidat, admet, Bool.and_eq_true, decide_eq_true_eq, Option.any_eq_true]
  rfl

variable {octets : ℕ}

/-- A candidate that the search reaches has no geometry on the smallest volumes only: the
limit on the number of clusters is not met from sixteen sectors a cluster on. -/
theorem total_lt_of_calcule_none (ho : octets = 512 ∨ octets = 1024 ∨ octets = 2048 ∨ octets = 4096)
    (ht : total < 2 ^ 32) {c : ℕ} (hc : c ∈ [64, 32, 16, 8, 4, 2, 1])
    (hm : total ≤ 268435445 ∨ 16 ≤ c) (h : calcule total octets c = none) : total < 328 := by
  have hp : 128 ≤ octets / 4 ∧ octets / 4 ≤ 1024 := by omega
  have hpos : 0 < c ∧ c ≤ 64 ∧ 2 ^ c.log2 = c := by
    simp only [mem_cons, not_mem_nil, or_false] at hc
    rcases hc with rfl | rfl | rfl | rfl | rfl | rfl | rfl <;> decide
  unfold calcule at h
  rw [if_neg (not_not.mpr ho), if_neg (by omega)] at h
  split_ifs at h with hr
  · simp only [reserves] at hr
    omega
  · cases hi : itere total (octets / 4) c 8 1 0 with
    | none =>
      have := total_lt_of_itere_none hp.1 hpos.1 ht (by omega) hi
      omega
    | some r =>
      simp only [hi] at h
      split_ifs at h with hmax
      obtain ⟨-, hcouvre, htiennent⟩ := convient_of_calcule (by omega) hi
      have hfat := hcouvre.trans (Nat.mul_le_mul_left r.1 hp.2)
      have hpetit := (Nat.le_mul_of_pos_right r.2 hpos.1)
      simp only [premierAmas, nombreFats] at *
      rcases hm with hm | hm
      · omega
      · have := Nat.mul_le_mul_left r.2 hm
        omega

theorem not_admet_of_total_lt (h : total < 65525) (c : ℕ) : ¬admet total octets c = true := by
  simp only [admet, Bool.and_eq_true, Option.any_eq_true, decide_eq_true_eq, not_and]
  rintro - ⟨g, hg, hmin⟩
  obtain ⟨hv, -, rfl, -⟩ := calcule_valide hg
  have := Nat.le_mul_of_pos_right g.amas hv.spa_pos
  have := hv.donnees_tiennent
  simp only [amasMinimumFat32] at hmin
  omega

theorem choisitParmi_eq_find (ho : octets = 512 ∨ octets = 1024 ∨ octets = 2048 ∨ octets = 4096)
    (ht : total < 2 ^ 32) :
    ∀ {l : List ℕ}, (∀ c ∈ l, c ∈ [64, 32, 16, 8, 4, 2, 1]) →
      (total ≤ 268435445 ∨ ∀ c ∈ l.find? (· * octets ≤ 65536), 16 ≤ c) →
      choisitParmi total octets l = l.find? (admet total octets)
  | [], _, _ => rfl
  | c :: l, hl, hm => by
    have hl' : ∀ c ∈ l, c ∈ [64, 32, 16, 8, 4, 2, 1] := fun c h => hl c (mem_cons_of_mem _ h)
    rw [choisitParmi]
    split_ifs with hgros
    · rw [find?_cons_of_neg (by simp [hgros])] at hm
      rw [find?_cons_of_neg (by simp [admet, hgros]), choisitParmi_eq_find ho ht hl' hm]
    · rw [find?_cons_of_pos (by simpa using hgros)] at hm
      cases hg : calcule total octets c with
      | none =>
        have hpetit := total_lt_of_calcule_none ho ht (hl c mem_cons_self) (hm.imp_right fun h => h c rfl) hg
        exact (find?_eq_none.mpr fun c _ => not_admet_of_total_lt (by omega) c).symm
      | some g =>
        have hadmet : admet total octets c = decide (amasMinimumFat32 ≤ g.amas) := by
          simpa [admet, hg] using fun _ => Nat.le_of_not_lt hgros
        rw [find?_cons, hadmet]
        by_cases hmin : amasMinimumFat32 ≤ g.amas
        · simp [hmin]
        · -- with so few clusters of at most 64 sectors the volume is small
          obtain ⟨hfat, hreste⟩ := calcule_serre ht hg
          have hle : g.secteursParFat ≤ _ := hfat.le.trans (Nat.div_le_self _ _)
          have hc : c ≤ 64 := by
            have := hl c mem_cons_self
            simp only [mem_cons, not_mem_nil, or_false] at this
            omega
          have := Nat.mul_le_mul_left g.amas hc
          simp only [hmin, if_false, decide_false]
          refine choisitParmi_eq_find ho ht hl' (.inl ?_)
          simp only [amasMinimumFat32, premierAmas, reserves, nombreFats] at *
          omega

/-- The FAT describes every cluster, the clusters fit, fewer than a cluster and two sectors
are lost; and the cluster size taken is the largest candidate, if there is one. -/
theorem geometrie_sure_et_serree (total : UInt32) {octets : ℕ}
    (ho : octets = 512 ∨ octets = 1024 ∨ octets = 2048 ∨ octets = 4096) :
    (∀ (spa : UInt32) (g : Parametres), calcule total.toNat octets spa.toNat = some g →
      g.amas + 2 ≤ g.secteursParFat * (octets / 4) ∧
      g.premierSecteurDonnees + g.amas * spa.toNat ≤ total.toNat ∧
      total.toNat - (g.premierSecteurDonnees + g.amas * spa.toNat) < spa.toNat + 2) ∧
    (∀ c, choisitAmas total.toNat octets = some c ↔ IsGreatest {c | Candidat total.toNat octets c} c) ∧
    (choisitAmas total.toNat octets = none ↔ ∀ c, ¬Candidat total.toNat octets c) := by
  have ht := total.toNat_lt
  have hfind : choisitAmas total.toNat octets =
      [64, 32, 16, 8, 4, 2, 1].find? (admet total.toNat octets) := by
    refine choisitParmi_eq_find ho ht (fun _ h => h) (.inr ?_)
    rcases ho with rfl | rfl | rfl | rfl <;> decide
  have hsome : ∀ {c}, choisitAmas total.toNat octets = some c →
      IsGreatest {c | Candidat total.toNat octets c} c := by
    intro c h
    simp only [candidat_iff]
    exact isGreatest_find (by decide) (hfind.symm.trans h)
  have hnone : choisitAmas total.toNat octets = none ↔ ∀ c, ¬Candidat total.toNat octets c := by
    simp only [hfind, find?_eq_none, candidat_iff, not_and]
  refine ⟨fun spa g h => ?_, fun c => ⟨hsome, fun hc => ?_⟩, hnone⟩
  · obtain ⟨hv, rfl, hg, hspa⟩ := calcule_valide h
    have hs := (calcule_serre ht h).reste
    have hd := hv.donnees_tiennent
    rw [hspa, hg] at hd
    rw [hv.donnees_eq] at hd ⊢
    exact ⟨hv.fat_couvre, hd, by omega⟩
  · cases h : choisitAmas total.toNat octets with
    | none => exact absurd hc.1 (hnone.mp h c)
    | some c' => rw [(hsome h).unique hc]

theorem geometrie_sure_et_serree_esp :
    choisitAmas 1048576 512 = some 8 ∧ IsGreatest {c | Candidat 1048576 512 c} 8 :=
  have h : choisitAmas 1048576 512 = some 8 := by decide
  ⟨h, ((geometrie_sure_et_serree 1048576 (.inl rfl)).2.1 8).mp h⟩

end BouchaudOS.Fat32
