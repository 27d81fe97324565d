import BouchaudOS.Fat32.Volume

/-!
# A volume and the rest of the disk

`ouvre` checks every field of the boot sector, so a cluster number that belongs to the volume
leads to sectors of the volume. Nothing checks the links of the FAT: `suivant` and `cherche`
follow whatever they read. As long as the links designate clusters of the volume, and the FAT
is long enough for all of them, the calls that write to the volume compute without overflow
and touch no other sector.
-/

namespace BouchaudOS.Fat32

open Bytes Checked StProg List

/-- What `ouvre` checks. -/
structure Parametres.Coherent (g : Parametres) : Prop where
  octets : g.octetsParSecteur ∈ [512, 1024, 2048, 4096]
  octetsParAmas_le : g.octetsParAmas ≤ 65536
  spa_pos : 0 < g.secteursParAmas
  fats_pos : 0 < g.fats
  donnees_eq : g.premierSecteurDonnees = g.secteursParFat * g.fats + g.secteursReserves
  amas_le : g.amas + premierAmas ≤ g.secteursTotal
  total_lt : g.secteursTotal < 2 ^ 32
  tiennent : g.premierSecteurDonnees + g.amas * g.secteursParAmas ≤ g.secteursTotal

theorem coherent_of_lus {s : List UInt8} {g : Parametres} (hg : parametresLus s = some g) : g.Coherent := by
  have htotal : ofLeBytes (slice s 32 4) < 2 ^ 32 :=
    (ofLeBytes_lt _).trans_le (Nat.pow_le_pow_right (by decide) (by simp) : _ ≤ 256 ^ 4)
  unfold parametresLus at hg
  generalize ofLeBytes (slice s 32 4) = total at hg htotal
  generalize ofLeBytes (slice s 13 1) = spa at hg
  simp only at hg
  split_ifs at hg with hoctets hspa hnuls hoccupe hamas hracine
  cases hg
  simp only [not_or, not_not, not_lt, not_le] at hoctets hspa hnuls hoccupe
  generalize hocc : ofLeBytes (slice s 36 4) * ofLeBytes (slice s 16 1) + ofLeBytes (slice s 14 2) = occupe
    at hoccupe ⊢
  have hfats := Nat.mul_pos (Nat.pos_of_ne_zero hnuls.1) (Nat.pos_of_ne_zero hnuls.2.1)
  have hdiv := Nat.div_le_self (total - occupe) spa
  have hmul := Nat.div_mul_le_self (total - occupe) spa
  refine ⟨hoctets, (Nat.mul_comm _ _).trans_le hspa.2, ?_, Nat.pos_of_ne_zero hnuls.2.1, hocc.symm,
    ?_, htotal, ?_⟩
  · refine Nat.pos_of_ne_zero ?_
    rintro rfl
    simp at hspa
  · show (total - occupe) / spa + 2 ≤ total
    omega
  · show occupe + (total - occupe) / spa * spa ≤ total
    omega

namespace VolumeFat

variable (v : VolumeFat)

/-- The clusters of the volume. -/
def Contient (amas : ℕ) : Prop := premierAmas ≤ amas ∧ amas < v.params.amas + premierAmas

/-- A FAT entry that, where it is a link, designates a cluster of the volume. -/
def LienBon (valeur : ℕ) : Prop := EstLien valeur → v.Contient valeur

theorem lienBon_fin : v.LienBon (finDeChaine % 2 ^ 28) :=
  fun hlien => absurd hlien (by decide)

variable {v} in
theorem Contient.lienBon {amas : ℕ} (ha : v.Contient amas) : v.LienBon (amas % 2 ^ 28) :=
  fun hlien => ⟨hlien.1, (Nat.mod_le _ _).trans_lt ha.2⟩

def adresse (k : ℕ) : Adresse := (v.support.volume, v.decalage + UInt64.ofNat k)

def Dedans (a : Adresse) : Prop := ∃ k < v.params.secteursTotal, a = v.adresse k

/-- The entry of a cluster in its sector of the FAT. -/
def entreeDans (bloc : List UInt8) (amas : ℕ) : ℕ :=
  ofLeBytes (slice bloc (amas % v.params.parSecteur * 4) 4) % 2 ^ 28

/-- Every link of the FAT designates a cluster of the volume. -/
def FatSaine (d : DisqueBloc) : Prop :=
  ∀ amas, v.Contient amas → v.LienBon (v.entreeDans
    ((d.read (v.adresse (v.params.secteursReserves + amas / v.params.parSecteur))).takeD
      v.params.octetsParSecteur 0) amas)

/-- An open volume with the blocks of its disk and a FAT long enough for its clusters. -/
structure Ferme : Prop where
  coherent : v.params.Coherent
  couvre : v.params.amas + premierAmas ≤ v.params.secteursParFat * v.params.parSecteur
  bloc : v.support.tailleBloc.toNat = v.params.octetsParSecteur

/-- The volume `w` is still the one that was opened, and its FAT is sane. -/
structure Tenu (w : VolumeFat) (d : DisqueBloc) : Prop where
  support_eq : w.support = v.support
  decalage_eq : w.decalage = v.decalage
  params_eq : w.params = v.params
  fat : v.FatSaine d

end VolumeFat

def SansFaute : Arret → Prop
  | .erreur _ => True
  | .faute _ => False

/-- The operation keeps the volume, touches only its sectors and does not stop the kernel. -/
abbrev Sur {α : Type} (v : VolumeFat) (c : Vol α) (Q : α → Prop := fun _ => True) : Prop :=
  Keeps v.Tenu v.Dedans SansFaute c Q

section

variable {v : VolumeFat} (h : v.Ferme) {k amas valeur n : ℕ}

include h

theorem adresse_inj {k' : ℕ} (hk : k < v.params.secteursTotal) (hk' : k' < v.params.secteursTotal)
    (ha : v.adresse k = v.adresse k') : k = k' := by
  have ht := h.coherent.total_lt
  have heq : UInt64.ofNat k = UInt64.ofNat k' := by simpa [VolumeFat.adresse] using ha
  exact uint64_ofNat_inj (by omega) (by omega) heq

theorem parSecteur_pos : 0 < v.params.parSecteur ∧ v.params.parSecteur * 4 = v.params.octetsParSecteur := by
  have ho := h.coherent.octets
  unfold Parametres.parSecteur
  simp only [mem_cons, not_mem_nil, or_false] at ho
  omega

theorem secteurFat_lt_donnees {copie : ℕ} (ha : v.Contient amas) (hc : copie < v.params.fats) :
    v.params.secteursReserves + copie * v.params.secteursParFat + amas / v.params.parSecteur <
      v.params.premierSecteurDonnees := by
  have hlt : amas / v.params.parSecteur < v.params.secteursParFat :=
    (Nat.div_lt_iff_lt_mul (parSecteur_pos h).1).mpr (ha.2.trans_le h.couvre)
  have hmul := Nat.mul_le_mul_right v.params.secteursParFat (Nat.succ_le_of_lt hc)
  rw [h.coherent.donnees_eq, Nat.mul_comm v.params.secteursParFat]
  rw [Nat.succ_mul] at hmul
  omega

theorem secteurFat_lt_total (ha : v.Contient amas) :
    v.params.secteursReserves + amas / v.params.parSecteur < v.params.secteursTotal := by
  have hlt := secteurFat_lt_donnees h ha h.coherent.fats_pos
  have htotal := h.coherent.tiennent
  omega

/-- A cluster of the volume is made of sectors behind the FATs and inside the volume. -/
theorem debutDeLAmas_eq (ha : v.Contient amas) : ∃ debut,
    v.params.debutDeLAmas amas = .ok debut ∧ v.params.premierSecteurDonnees ≤ debut ∧
      debut + v.params.secteursParAmas ≤ v.params.secteursTotal := by
  have hdebut := ha.1
  have hmul := Nat.mul_le_mul_right v.params.secteursParAmas
    (show amas - premierAmas + 1 ≤ v.params.amas by have := ha.2; omega)
  rw [Nat.succ_mul] at hmul
  have htotal := h.coherent.total_lt
  have htient := h.coherent.tiennent
  refine ⟨v.params.premierSecteurDonnees + (amas - premierAmas) * v.params.secteursParAmas, ?_, by omega,
    by omega⟩
  unfold Parametres.debutDeLAmas
  rw [Checked.sub, if_pos hdebut, Outcome.ok_bind, fit_of_lt (by omega), Outcome.ok_bind,
    fit_of_lt (by omega)]

end

theorem sur_verifie_bind {α : Type} {v : VolumeFat} {x : Guarded ℕ} {a : ℕ} {f : ℕ → Vol α}
    {Q : α → Prop} (hx : x = .ok a) (hf : Sur v (f a) Q) : Sur v (verifie x >>= f) Q := by
  subst hx
  exact (Keeps.pure rfl : Sur v (pure a) fun y => y = a).bind fun _ hy => hy ▸ hf

theorem premierePlace_le {k i libres premier : ℕ} {es : List (List UInt8)} (hl : libres ≤ i)
    (hp : premierePlace k es i libres = some premier) : premier + k ≤ i + es.length := by
  induction es generalizing i libres with
  | nil => simp [premierePlace] at hp
  | cons e es ih =>
    have hle : (if Libre e then libres + 1 else 0) ≤ i + 1 := by split <;> omega
    rw [premierePlace, length_cons] at *
    generalize (if Libre e then libres + 1 else 0) = libres' at hle hp
    by_cases hk : k ≤ libres'
    · rw [if_pos hk] at hp
      cases hp
      omega
    · rw [if_neg hk] at hp
      have := ih hle hp
      omega

theorem adresses_un (v : VolumeFat) (k : ℕ) :
    adresses v.support.volume (v.decalage + UInt64.ofNat k) 1 = [v.adresse k] := by
  simp [adresses, VolumeFat.adresse]

section

variable {v : VolumeFat} (h : v.Ferme) {k amas valeur n : ℕ} {donnees : List UInt8}

include h

theorem nombreBlocs_eq : v.params.octetsParSecteur / v.support.tailleBloc.toNat = 1 := by
  have hpos := parSecteur_pos h
  rw [h.bloc, Nat.div_self (by omega)]

/-- A sector of the volume is read as the disk has it. -/
theorem sur_litSecteur (hk : k < v.params.secteursTotal) {P : List UInt8 → Prop}
    (hP : ∀ d, v.FatSaine d → P ((d.read (v.adresse k)).takeD v.params.octetsParSecteur 0)) :
    Sur v (litSecteur k) P := by
  refine .get_bind fun w _ hw => ?_
  refine sur_verifie_bind (fit_of_lt (hk.trans h.coherent.total_lt)) ?_
  have hlit : w.support.lit (w.decalage + UInt64.ofNat k) w.params.octetsParSecteur =
      .read [v.adresse k] fun r => .pure (r.map (octetsDe v.params.octetsParSecteur)) := by
    rw [SupportVolume.lit, hw.support_eq, hw.params_eq, hw.decalage_eq, nombreBlocs_eq h,
      if_neg one_ne_zero, h.bloc, litBlocs, adresses_un]
    refine congrArg (Prog.read _) (funext fun r => ?_)
    cases r <;> rfl
  rw [hlit]
  refine (Keeps.device (Q := fun r => ∃ bloc, r = some bloc ∧ P bloc) fun w d hw => ⟨⟨?_, ?_⟩, hw, ?_⟩).bind ?_
  · rintro as has a ha
    rw [mem_singleton.mp has] at ha
    exact ⟨k, hk, mem_singleton.mp ha⟩
  · exact fun _ hws => absurd hws not_mem_nil
  · exact ⟨_, rfl, by simpa [octetsDe] using hP d hw.fat⟩
  · rintro _ ⟨bloc, rfl, hbloc⟩
    exact .pure hbloc

theorem sur_ecritSecteur (hk : k < v.params.secteursTotal) (hlen : donnees.length = v.params.octetsParSecteur)
    (hsain : ∀ d, v.FatSaine d → v.FatSaine (d.write [(v.adresse k, donnees)])) :
    Sur v (ecritSecteur k donnees) := by
  refine .get_bind fun w _ hw => ?_
  refine sur_verifie_bind (fit_of_lt (hk.trans h.coherent.total_lt)) ?_
  have hecrit : w.support.ecrit (w.decalage + UInt64.ofNat k) donnees =
      Prog.ecrit [(v.adresse k, donnees)] := by
    rw [SupportVolume.ecrit, hw.support_eq, hw.decalage_eq, hlen, nombreBlocs_eq h,
      if_neg one_ne_zero, h.bloc, ecritBlocs, adresses_un, decoupe, decoupe,
      take_of_length_le hlen.le]
    rfl
  rw [hecrit]
  refine (Keeps.device (Q := fun _ => True) fun w d hw => ⟨⟨?_, ?_⟩, ?_, trivial⟩).bind ?_
  · exact fun _ has => absurd has not_mem_nil
  · rintro ws hws x hx
    rw [mem_singleton.mp hws] at hx
    rw [mem_singleton.mp hx]
    exact ⟨k, hk, rfl⟩
  · exact ⟨hw.support_eq, hw.decalage_eq, hw.params_eq, hsain d hw.fat⟩
  · intro ok _
    cases ok with
    | true => exact .pure trivial
    | false => exact .throw trivial

/-- A write keeps the FAT sane when the entries it may hold are links of the volume. -/
theorem fatSaine_write (hk : k < v.params.secteursTotal) {d : DisqueBloc} (hd : v.FatSaine d)
    (hbloc : ∀ amas, v.Contient amas → v.params.secteursReserves + amas / v.params.parSecteur = k →
      v.LienBon (v.entreeDans (donnees.takeD v.params.octetsParSecteur 0) amas)) :
    v.FatSaine (d.write [(v.adresse k, donnees)]) := by
  intro amas ha
  by_cases hs : v.params.secteursReserves + amas / v.params.parSecteur = k
  · rw [hs, Disk.read_write_single]
    exact hbloc amas ha hs
  · rw [Disk.read_write_of_notMem]
    · exact hd amas ha
    · intro w hw heq
      rw [mem_singleton.mp hw] at heq
      exact hs (adresse_inj h hk (secteurFat_lt_total h ha) heq).symm

theorem sur_litDonnees (hk : k < v.params.secteursTotal) :
    Sur v (litSecteur k) fun bloc => bloc.length = v.params.octetsParSecteur :=
  sur_litSecteur h hk fun _ _ => takeD_length _ _ _

theorem sur_ecritDonnees (hk : v.params.premierSecteurDonnees ≤ k) (hk' : k < v.params.secteursTotal)
    (hlen : donnees.length = v.params.octetsParSecteur) :
    Sur v (ecritSecteur k donnees) := by
  refine sur_ecritSecteur h hk' hlen fun d hd => fatSaine_write h hk' hd fun amas ha hs => ?_
  have hlt := secteurFat_lt_donnees h ha h.coherent.fats_pos
  omega

theorem sur_fat (ha : v.Contient amas) : Sur v (fat amas) v.LienBon := by
  refine .get_bind fun w _ hw => ?_
  rw [hw.params_eq]
  refine (sur_litSecteur h (secteurFat_lt_total h ha)
    (P := fun bloc => v.LienBon (v.entreeDans bloc amas)) fun d hd => hd amas ha).bind ?_
  exact fun bloc hbloc => .pure hbloc

theorem sur_poseCopie {copie : ℕ} (ha : v.Contient amas) (hc : copie < v.params.fats)
    (hv : v.LienBon (valeur % 2 ^ 28)) : Sur v (poseCopie amas valeur copie) := by
  refine .get_bind fun w _ hw => ?_
  rw [hw.params_eq]
  have hpos := parSecteur_pos h
  have hmod := Nat.mod_lt amas hpos.1
  have hk : v.params.secteursReserves + copie * v.params.secteursParFat + amas / v.params.parSecteur <
      v.params.secteursTotal := by
    have hlt := secteurFat_lt_donnees h ha hc
    have htotal := h.coherent.tiennent
    omega
  generalize v.params.secteursReserves + copie * v.params.secteursParFat + amas / v.params.parSecteur =
    k at hk
  refine (sur_litSecteur h hk (P := fun bloc => bloc.length = v.params.octetsParSecteur ∧
    ∀ a, v.Contient a → v.params.secteursReserves + a / v.params.parSecteur = k →
      v.LienBon (v.entreeDans bloc a)) ?_).bind ?_
  · rintro d hd
    exact ⟨takeD_length _ _ _, fun a ha' hs => hs ▸ hd a ha'⟩
  · rintro bloc ⟨hlen, hbloc⟩
    have hplace : amas % v.params.parSecteur * 4 + (leBytes 4 (valeur % 2 ^ 28)).length ≤ bloc.length := by
      rw [length_leBytes]
      omega
    have hlen' := (length_splice hplace).trans hlen
    refine sur_ecritSecteur h hk hlen' fun d hd => fatSaine_write h hk hd fun a ha' hs => ?_
    rw [takeD_eq_take _ hlen'.ge, take_of_length_le hlen'.le, VolumeFat.entreeDans]
    by_cases heq : a % v.params.parSecteur = amas % v.params.parSecteur
    · rw [heq, slice_splice_self (length_leBytes 4 _).symm hplace, ofLeBytes_leBytes]
      simpa using hv
    · rw [slice_splice_disjoint hplace (by rw [length_leBytes]; omega)]
      exact hbloc a ha' hs

theorem sur_poseFat (ha : v.Contient amas) (hv : v.LienBon (valeur % 2 ^ 28)) :
    Sur v (poseFat amas valeur) := by
  refine .get_bind fun w _ hw => ?_
  rw [hw.params_eq]
  exact .forM fun copie hc => sur_poseCopie h ha (mem_range.mp hc) hv

theorem sur_effaceAmas (ha : v.Contient amas) : Sur v (effaceAmas amas) := by
  refine .get_bind fun w _ hw => ?_
  rw [hw.params_eq]
  obtain ⟨debut, hdebut, hbas, hhaut⟩ := debutDeLAmas_eq h ha
  refine sur_verifie_bind hdebut (.forM fun i hi => ?_)
  rw [mem_range] at hi
  exact sur_ecritDonnees h (by omega) (by omega) (by simp [Parametres.vide])

/-- What `alloue` returns is a cluster of the volume. -/
theorem sur_alloueDepuis (hbas : premierAmas ≤ amas) (hn : n = 0 ∨ amas + n = v.params.amas + premierAmas) :
    Sur v (alloueDepuis n amas) v.Contient := by
  induction n generalizing amas with
  | zero => exact .throw trivial
  | succ n ih =>
    have ha : v.Contient amas := ⟨hbas, by omega⟩
    have hle := h.coherent.amas_le
    have htotal := h.coherent.total_lt
    refine (sur_fat h ha).bind fun valeur _ => ?_
    split
    · refine (sur_poseFat h ha v.lienBon_fin).bind fun _ _ => ?_
      refine sur_verifie_bind (fit_of_lt (by omega)) ?_
      refine (Keeps.modify fun w d hw => ⟨hw.support_eq, hw.decalage_eq, hw.params_eq, hw.fat⟩).bind
        fun _ _ => ?_
      exact (sur_effaceAmas h ha).bind fun _ _ => .pure ha
    · exact ih (by omega) (by omega)

theorem sur_alloue : Sur v alloue v.Contient := by
  refine .get_bind fun w _ hw => ?_
  rw [hw.params_eq]
  have hle := h.coherent.amas_le
  have htotal := h.coherent.total_lt
  refine sur_verifie_bind (fit_of_lt (by omega)) ?_
  exact sur_alloueDepuis h (le_max_right _ _) (by omega)

theorem sur_suivant (ha : v.Contient amas) : Sur v (suivant amas) v.Contient := by
  refine (sur_fat h ha).bind fun valeur hvaleur => ?_
  split
  · exact .pure (hvaleur ‹_›)
  · refine (sur_alloue h).bind fun neuf hneuf => ?_
    exact (sur_poseFat h ha hneuf.lienBon).bind fun _ _ => .pure hneuf

section

variable {entrees : List (List UInt8)} (he : ∀ e ∈ entrees, e.length = 32)

include he

/-- Entries are put in one sector of the directory or nowhere. -/
theorem sur_poseEntrees (hk : v.params.premierSecteurDonnees ≤ k) (hk' : k + n ≤ v.params.secteursTotal) :
    Sur v (poseEntrees entrees n k) := by
  induction n generalizing k with
  | zero => exact .pure trivial
  | succ n ih =>
    refine (sur_litDonnees h (by omega)).bind fun bloc hlen => ?_
    cases hp : premierePlace entrees.length (emplacements bloc) 0 0 with
    | none => exact ih (by omega) (by omega)
    | some premier =>
      have hle := premierePlace_le le_rfl hp
      have hplace : premier * 32 + entrees.flatten.length ≤ bloc.length := by
        simp only [emplacements, length_map, length_range] at hle
        rw [length_flatten_of_length he]
        omega
      refine (sur_ecritDonnees h hk (by omega) ?_).bind fun _ _ => .pure trivial
      exact (length_splice hplace).trans hlen

theorem sur_ajouteDepuis (ha : v.Contient amas) : Sur v (ajouteDepuis entrees n amas) := by
  induction n generalizing amas with
  | zero => exact .throw trivial
  | succ n ih =>
    refine .get_bind fun w _ hw => ?_
    rw [hw.params_eq]
    obtain ⟨debut, hdebut, hbas, hhaut⟩ := debutDeLAmas_eq h ha
    refine sur_verifie_bind hdebut ((sur_poseEntrees h he hbas hhaut).bind fun pose _ => ?_)
    cases pose with
    | true => exact .pure trivial
    | false => exact (sur_suivant h ha).bind fun suite hsuite => ih hsuite

theorem sur_ajouteEntrees (ha : v.Contient amas) : Sur v (ajouteEntrees amas entrees) :=
  .get_bind fun _ _ _ => sur_ajouteDepuis h he ha

end

theorem sur_chercheSecteurs (court : List UInt8) (hk' : k + n ≤ v.params.secteursTotal) :
    Sur v (chercheSecteurs court n k) := by
  induction n generalizing k with
  | zero => exact .pure trivial
  | succ n ih =>
    refine (sur_litDonnees h (by omega)).bind fun bloc _ => ?_
    cases chercheParmi court (emplacements bloc) with
    | some r => exact .pure trivial
    | none => exact ih (by omega)

theorem sur_chercheDepuis (court : List UInt8) (ha : v.Contient amas) :
    Sur v (chercheDepuis court n amas) := by
  induction n generalizing amas with
  | zero => exact .pure trivial
  | succ n ih =>
    refine .get_bind fun w _ hw => ?_
    rw [hw.params_eq]
    obtain ⟨debut, hdebut, -, hhaut⟩ := debutDeLAmas_eq h ha
    refine sur_verifie_bind hdebut ((sur_chercheSecteurs h court hhaut).bind fun r _ => ?_)
    cases r with
    | some r => exact .pure trivial
    | none =>
      refine (sur_fat h ha).bind fun valeur hvaleur => ?_
      split
      · exact ih (hvaleur ‹_›)
      · exact .pure trivial

theorem sur_creeRepertoire (nom : Nom) (ha : v.Contient amas) : Sur v (creeRepertoire amas nom) := by
  unfold creeRepertoire
  split
  · exact .throw trivial
  · refine (Keeps.get_bind fun _ _ _ => sur_chercheDepuis h (nomCourt nom 1) ha).bind fun existant _ => ?_
    cases existant with
    | some existant => exact .pure trivial
    | none =>
      refine (sur_alloue h).bind fun neuf hneuf => .get_bind fun w _ hw => ?_
      have hinit : ∀ e ∈ entreesInitiales w.params.amasRacine amas neuf, e.length = 32 := by
        simp [entreesInitiales, length_entreeCourte, point, deuxPoints]
      refine (sur_ajouteEntrees h hinit hneuf).bind fun _ _ => ?_
      exact (sur_ajouteEntrees h length_of_mem_entreesDe ha).bind fun _ _ => .pure trivial

theorem sur_ecritAmas (ha : v.Contient amas) : Sur v (ecritAmas amas donnees) := by
  refine .get_bind fun w _ hw => ?_
  rw [hw.params_eq]
  obtain ⟨debut, hdebut, hbas, hhaut⟩ := debutDeLAmas_eq h ha
  refine sur_verifie_bind hdebut (.forM fun i hi => ?_)
  rw [mem_range] at hi
  split
  · exact .pure trivial
  · exact sur_ecritDonnees h (by omega) (by omega) (takeD_length _ _ _)

theorem sur_ecritSuite (ha : v.Contient amas) : Sur v (ecritSuite n amas donnees) := by
  induction n generalizing amas donnees with
  | zero => exact .pure trivial
  | succ n ih =>
    refine .get_bind fun w _ hw => (sur_ecritAmas h ha).bind fun _ _ => ?_
    split
    · exact .pure trivial
    · refine (sur_alloue h).bind fun neuf hneuf => ?_
      exact (sur_poseFat h ha hneuf.lienBon).bind fun _ _ => ih hneuf

theorem sur_ecritFichier (nom : Nom) (ha : v.Contient amas) : Sur v (ecritFichier amas nom donnees) := by
  have hoctets := h.coherent.octetsParAmas_le
  unfold ecritFichier
  split
  · exact .throw trivial
  split
  · exact .throw trivial
  · refine .get_bind fun w _ hw => ?_
    rw [hw.params_eq]
    refine sur_verifie_bind (fit_of_lt (by omega)) ?_
    have hdonnees : Sur v (ecritDonnees donnees) := by
      unfold ecritDonnees
      split
      · exact .pure trivial
      · exact (sur_alloue h).bind fun premier hp => (sur_ecritSuite h hp).bind fun _ _ => .pure trivial
    exact hdonnees.bind fun premier _ => sur_ajouteEntrees h length_of_mem_entreesDe ha

end

inductive Appel
  | creeRepertoire (parent : ℕ) (nom : Nom)
  | ecritFichier (parent : ℕ) (nom : Nom) (donnees : List UInt8)

namespace Appel

def parent : Appel → ℕ
  | creeRepertoire parent _ | ecritFichier parent _ _ => parent

def joue : Appel → Vol Unit
  | creeRepertoire parent nom => Fat32.creeRepertoire parent nom >>= fun _ => pure ()
  | ecritFichier parent nom donnees => Fat32.ecritFichier parent nom donnees

/-- The volume and the disk after some calls; an error does not close the volume. -/
def apres : List Appel → VolumeFat → DisqueBloc → VolumeFat × DisqueBloc
  | [], w, d => (w, d)
  | a :: suite, w, d => apres suite ((a.joue.start w).exec d).1.2 ((a.joue.start w).exec d).2

end Appel

/-- A call on the volume opened as `v` ends, does not stop the kernel, and asks only for
sectors of the volume. -/
structure AppelSur (v : VolumeFat) (a : Appel) (w : VolumeFat) (d : DisqueBloc) : Prop where
  finit : ∃ r d', Prog.Run (Device.reliable _ _) (a.joue.start w, d) (.pure r, d')
  sansFaute : ∀ f, ((a.joue.start w).exec d).1.1 ≠ .error (.faute f)
  dedans : (a.joue.start w).Within v.Dedans d

theorem sur_joue {v : VolumeFat} (h : v.Ferme) {a : Appel} (ha : v.Contient a.parent) : Sur v a.joue := by
  cases a with
  | creeRepertoire parent nom => exact (sur_creeRepertoire h nom ha).bind fun _ _ => .pure trivial
  | ecritFichier parent nom donnees => exact sur_ecritFichier h nom ha

theorem tenu_apres {v w : VolumeFat} (h : v.Ferme) {appels : List Appel}
    (ha : ∀ a ∈ appels, v.Contient a.parent) {d : DisqueBloc} (hw : v.Tenu w d) :
    v.Tenu (Appel.apres appels w d).1 (Appel.apres appels w d).2 := by
  induction appels generalizing w d with
  | nil => exact hw
  | cons a appels ih =>
    exact ih (fun b hb => ha b (mem_cons_of_mem _ hb)) (sur_joue h (ha a mem_cons_self) w d hw).inv

theorem coherent_of_ouvre {s : SupportVolume} {decalage : UInt64} {d : DisqueBloc} {v : VolumeFat}
    (hv : ((ouvre s decalage).exec d).1 = .ok v) : v.params.Coherent ∧ v.support = s := by
  rw [ouvre, Prog.exec_bind] at hv
  split at hv
  · cases hv
  · split at hv
    · cases hv
    · next g hg =>
      cases hv
      exact ⟨coherent_of_lus hg, rfl⟩

/-- Every call on an open volume stays in it, in any sequence of calls on its clusters, when
the FAT is long enough for them and its links designate some of them. -/
theorem volume_confine {s : SupportVolume} {decalage : UInt64} {d : DisqueBloc} {v : VolumeFat}
    (hv : ((ouvre s decalage).exec d).1 = .ok v) (hbloc : s.tailleBloc.toNat = v.params.octetsParSecteur)
    (hcouvre : v.params.amas + premierAmas ≤ v.params.secteursParFat * v.params.parSecteur)
    (hsaine : v.FatSaine d) {appels : List Appel} (ha : ∀ a ∈ appels, v.Contient a.parent)
    {avant suite : List Appel} {a : Appel} (happels : appels = avant ++ a :: suite) :
    AppelSur v a (Appel.apres avant v d).1 (Appel.apres avant v d).2 := by
  subst happels
  obtain ⟨hcoherent, rfl⟩ := coherent_of_ouvre hv
  have h : v.Ferme := ⟨hcoherent, hcouvre, hbloc⟩
  have htenu := tenu_apres h (fun b hb => ha b (mem_append_left _ hb)) ⟨rfl, rfl, rfl, hsaine⟩
  have hsur := sur_joue h (ha a (mem_append_right _ mem_cons_self)) _ _ htenu
  refine ⟨⟨_, _, Prog.run_exec _ _ _⟩, fun f hf => ?_, hsur.within⟩
  have hres := hsur.result
  rw [hf] at hres
  exact hres

/-- A disk whose first block is a boot sector with clusters of `spa` sectors; the FAT is the
second block and every other block is `reste`. -/
def disqueFat (spa total : UInt8) (fat reste : List UInt8) : DisqueBloc where
  durable a :=
    if a.2 = 0 then
      splice (splice (List.replicate 48 0) 11 [0, 2, spa, 1, 0, 1]) 32
        [total, 0, 0, 0, 1, 0, 0, 0, 0, 0, 0, 0, 2]
    else if a.2 = 1 then fat else reste
  cache := []

def supportFat : SupportVolume := ⟨0, 512, 64⟩

def volumeFat (spa total amas : ℕ) : VolumeFat :=
  .vierge supportFat 0 ⟨512, spa, 1, 1, 1, total, amas, 2, 2⟩

/-- A volume of three clusters of one sector, all of them free. -/
theorem volume_confine_exemple :
    AppelSur (volumeFat 1 5 3) (.creeRepertoire 2 ['A']) (volumeFat 1 5 3) (disqueFat 1 5 [] []) := by
  have hv : ((ouvre supportFat 0).exec (disqueFat 1 5 [] [])).1 = .ok (volumeFat 1 5 3) := by decide
  have hsaine : (volumeFat 1 5 3).FatSaine (disqueFat 1 5 [] []) := by
    rintro amas ⟨hbas, hhaut⟩
    have : amas = 2 ∨ amas = 3 ∨ amas = 4 := by
      simp only [premierAmas, volumeFat, VolumeFat.vierge] at hbas hhaut
      omega
    rintro hlien
    rcases this with rfl | rfl | rfl <;> exact absurd hlien (by decide)
  have ha : ∀ a ∈ [Appel.creeRepertoire 2 ['A']], (volumeFat 1 5 3).Contient a.parent := by
    intro a ha
    rw [mem_singleton.1 ha]
    exact ⟨by decide, by decide⟩
  exact @volume_confine _ _ _ _ hv rfl (by decide) hsaine _ ha [] [] _ rfl

/-- A full root directory, and a link from it to a cluster that the volume does not have. -/
def disqueHostile : DisqueBloc :=
  disqueFat 1 5 [0, 0, 0, 0, 0, 0, 0, 0, 0xF0, 0xFF, 0xFF, 0x0F] (List.replicate 512 0xE5)

/-- `cherche` follows the link and reads sector 268435440 of a volume of five sectors. -/
theorem lien_hostile_sort : ((ouvre supportFat 0).exec disqueHostile).1 = .ok (volumeFat 1 5 3) ∧
      ¬AppelSur (volumeFat 1 5 3) (.creeRepertoire 2 ['A']) (volumeFat 1 5 3) disqueHostile := by
  refine ⟨by decide +kernel, fun h => ?_⟩
  have hlu : (((Appel.creeRepertoire 2 ['A']).joue.start (volumeFat 1 5 3)).requests disqueHostile)[2]? =
      some [(volumeFat 1 5 3).adresse 268435440] := by decide +kernel
  obtain ⟨k, hk, ha⟩ := h.dedans.reads _ (mem_of_getElem? hlu) _ mem_cons_self
  have hk' : k < 5 := hk
  interval_cases k <;> exact absurd ha (by decide)

end BouchaudOS.Fat32
