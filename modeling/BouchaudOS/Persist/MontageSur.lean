import BouchaudOS.Foundations.Checked
import BouchaudOS.Persist.Migration

/-!
# Mounting a hostile zone

`src/fs/persistance/montage.rs`: the sizes of a table come from the disk. They are rounded
to sectors and added up, entry after entry, and each file is read where the sum points. In
a build with checks a sum that does not fit stops the kernel; nothing compares it with the
end of the zone. A mount is safe on exactly the zones whose sizes keep every sum in 64 bits
and every file inside the zone.
-/

namespace BouchaudOS.Persist

open Bytes Checked List Outcome UInt64
open Prog hiding pure

/-- Is the content of the entry read? -/
def EntreeTable.fichier (e : EntreeTable) : Bool :=
  aRestaurer e.chemin e.taille e.metadonnees && (e.metadonnees.filter Meta.dossier).isNone

/-- The sector behind a content of `taille` bytes. -/
def placeVerifiee (lu : Bool) (taille secteur : ℕ) : Guarded ℕ := do
  let arrondie ← fit 64 (taille + tailleSecteur)
  let secteurs := (arrondie - 1) / tailleSecteur
  -- the size of the buffer
  let _ ← (if lu then fit 64 (secteurs * tailleSecteur) else pure 0)
  fit 64 (secteur + secteurs)

/-- The entry `index` of the table, whose content is at `secteur`. -/
def pasVerifie (table : List UInt8) (secteur index : ℕ) : Guarded ℕ := do
  let debutEntree ← fit 64 (index * tailleEntree)
  let finEntree ← fit 64 (debutEntree + tailleEntree)
  let brut ← range table debutEntree finEntree
  let e := EntreeTable.decode brut
  placeVerifiee e.fichier e.taille.toNat secteur

def suitVerifie (table : List UInt8) : List ℕ → ℕ → Guarded ℕ
  | [], secteur => pure secteur
  | index :: reste, secteur => pasVerifie table secteur index >>= suitVerifie table reste

variable (lire : ℕ → List UInt8) (base : UInt64)

def tableVerifiee (nombre secteurTable premierContenu : ℕ) (somme : Option UInt32) : Guarded ℕ := do
  let _ ← fit 64 (base.toNat + secteurTable)
  let contenu ← fit 64 (base.toNat + premierContenu)
  let _ ← fit 64 (nombre * tailleEntree + tailleSecteur)
  let _ ← fit 64 (secteursTableUtiles nombre * tailleSecteur)
  if somme.all (tableSaine lire nombre secteurTable) then
    suitVerifie (plage lire secteurTable (secteursTableUtiles nombre)) (List.range nombre) contenu
  else pure contenu

def zoneVerifiee : Guarded ℕ := do
  let second ← fit 64 (base.toNat + 1)
  match courant lire with
  | some (_, s) =>
    if nombreInvalide s.entrees.toNat then pure second
    else
      tableVerifiee lire base s.entrees.toNat (debutDemi s.demi) (contenuDemi s.demi) (some s.sommeTable)
  | none =>
    if enteteV1 lire then tableVerifiee lire base (nombreV1 lire) 1 secteurContenu none
    else pure second

variable {base : UInt64} {d : DisqueBloc} {e : EntreeTable} {es : List EntreeTable} {r n : ℕ}

def DansLaZone (base : UInt64) (a : Adresse) : Prop :=
  a.1 = volumePersistant ∧ base.toNat ≤ a.2.toNat ∧ a.2.toNat < base.toNat + secteursZone

/-- The requests stay inside the zone, and so do the buffers they fill. -/
def RequetesDedans (base : UInt64) (requetes : List (List Adresse)) : Prop :=
  ∀ as ∈ requetes, as.length ≤ secteursZone ∧ ∀ a ∈ as, DansLaZone base a

/-- A mount of the zone at `base` ends, computes without overflow, reads only sectors of the
zone and asks for no buffer larger than it. -/
structure MontageSur (base : UInt64) (s : Etat) (d : DisqueBloc) : Prop where
  finit : ∃ lu, Run (Device.reliable _ _) (releveZone base s, d) (.pure lu, d)
  calcule : (zoneVerifiee (vue base d) base).Safe
  lit : RequetesDedans base ((releveZone base s).requests d)

/-- What the sizes of a table must satisfy, for contents that start at sector `r`: none is
within a sector of `2 ^ 64`, their sum stays in 64 bits and each file ends in the zone. -/
def SuiteSaine (base : UInt64) (es : List EntreeTable) (r : ℕ) : Prop :=
  ∀ i e, es[i]? = some e → e.taille.toNat + tailleSecteur < 2 ^ 64 ∧
    base.toNat + finDe (es.take (i + 1)) r < 2 ^ 64 ∧
    (e.fichier → e.secteurs = 0 ∨ finDe (es.take (i + 1)) r ≤ secteursZone)

/-- The table that a mount follows is sane. -/
def ZoneSaine (base : UInt64) (lire : ℕ → List UInt8) : Prop :=
  match courant lire with
  | some (_, s) => nombreInvalide s.entrees.toNat = false →
      tableSaine lire s.entrees.toNat (debutDemi s.demi) s.sommeTable →
      SuiteSaine base (entreesLues lire s.entrees.toNat (debutDemi s.demi)) (contenuDemi s.demi)
  | none => enteteV1 lire → SuiteSaine base (entreesLues lire (nombreV1 lire) 1) secteurContenu

theorem suiteSaine_nil : SuiteSaine base [] r := by
  simp [SuiteSaine]

theorem suiteSaine_cons : SuiteSaine base (e :: es) r ↔
    (e.taille.toNat + tailleSecteur < 2 ^ 64 ∧ base.toNat + (r + e.secteurs) < 2 ^ 64 ∧
      (e.fichier → e.secteurs = 0 ∨ r + e.secteurs ≤ secteursZone)) ∧
    SuiteSaine base es (r + e.secteurs) := by
  constructor
  · intro h
    exact ⟨h 0 e rfl, fun i e' he => h (i + 1) e' he⟩
  · rintro ⟨hzero, hsuite⟩ i e' he
    cases i with
    | zero =>
      cases he
      exact hzero
    | succ i => exact hsuite i e' he

theorem placeVerifiee_eq_ok {lu : Bool} {taille secteur s : ℕ} :
    placeVerifiee lu taille secteur = .ok s ↔
      taille + tailleSecteur < 2 ^ 64 ∧ secteur + secteursDe taille < 2 ^ 64 ∧
        s = secteur + secteursDe taille := by
  by_cases ht : taille + tailleSecteur < 2 ^ 64
  · have hbuf : secteursDe taille * tailleSecteur < 2 ^ 64 := by
      unfold secteursDe tailleSecteur at *
      omega
    have hpas : placeVerifiee lu taille secteur =
        (if lu then fit 64 (secteursDe taille * tailleSecteur) else pure 0) >>=
          fun _ => fit 64 (secteur + secteursDe taille) := by
      unfold placeVerifiee
      rw [fit_of_lt ht, ok_bind]
      rfl
    rw [hpas, fit_of_lt hbuf]
    cases lu <;> simp only [fit_eq_ok, Bool.false_eq_true, if_true, if_false, pure_eq_ok, ok_bind, ht, true_and]
  · have hpas : placeVerifiee lu taille secteur = .fault .overflow := by
      unfold placeVerifiee
      rw [fit, if_neg ht, fault_bind]
    rw [hpas]
    exact iff_of_false nofun fun h => ht h.1

theorem secteurs_eq (h : e.taille.toNat + tailleSecteur < 2 ^ 64) :
    e.secteurs = secteursDe e.taille.toNat := by
  unfold tailleSecteur at h
  simp only [EntreeTable.secteurs, secteursDe, tailleSecteur, UInt64.toNat_div, UInt64.toNat_add,
    UInt64.reduceToNat]
  omega

theorem toNat_adresse {i : ℕ} (h : base.toNat + r + n < 2 ^ 64) (hi : i < n) :
    (base + ofNat r + ofNat i).toNat = base.toNat + r + i := by
  simp only [UInt64.toNat_add, UInt64.toNat_ofNat']
  omega

/-- A request that overflows nothing stays in the zone when its end does. -/
theorem requete_dedans_iff (h : base.toNat + r + n < 2 ^ 64) :
    RequetesDedans base [adresses volumePersistant (base + ofNat r) n] ↔ n = 0 ∨ r + n ≤ secteursZone := by
  simp only [RequetesDedans, forall_mem_singleton, length_adresses]
  constructor
  · rintro ⟨-, hd⟩
    rcases Nat.eq_zero_or_pos n with hn | hn
    · exact .inl hn
    · have hlast := (hd _ (mem_map.mpr ⟨n - 1, mem_range.mpr (by omega), rfl⟩)).2.2
      rw [toNat_adresse h (by omega)] at hlast
      exact .inr (by omega)
  · rintro hr
    refine ⟨by omega, fun a ha => ?_⟩
    obtain ⟨i, hi, rfl⟩ := mem_adresses ha
    refine ⟨rfl, ?_⟩
    rw [toNat_adresse h hi]
    omega

theorem requetesDedans_append {a b : List (List Adresse)} :
    RequetesDedans base (a ++ b) ↔ RequetesDedans base a ∧ RequetesDedans base b := by
  simp only [RequetesDedans, forall_mem_append]

@[simp] theorem requests_volumeLit (base : UInt64) (r n : ℕ) (d : DisqueBloc) :
    (volumeLit base r n).requests d = [adresses volumePersistant (base + ofNat r) n] := rfl

theorem requests_litEntree (e : EntreeTable) (r : ℕ) : (litEntree base e r).requests d =
      if e.fichier then [adresses volumePersistant (base + ofNat r) e.secteurs] else [] := by
  unfold litEntree EntreeTable.fichier
  cases aRestaurer e.chemin e.taille e.metadonnees with
  | false => rfl
  | true =>
    cases e.metadonnees.filter Meta.dossier with
    | some m => rfl
    | none => rfl

theorem litEntree_dedans_iff (h : base.toNat + (r + e.secteurs) < 2 ^ 64) :
    RequetesDedans base ((litEntree base e r).requests d) ↔
      (e.fichier → e.secteurs = 0 ∨ r + e.secteurs ≤ secteursZone) := by
  rw [requests_litEntree]
  cases e.fichier with
  | false => simp [RequetesDedans]
  | true =>
    rw [if_pos rfl, requete_dedans_iff (by omega)]
    exact ⟨fun h _ => h, fun h => h rfl⟩

theorem requests_litEntrees_cons : (litEntrees base (e :: es) r).requests d =
    (litEntree base e r).requests d ++ (litEntrees base es (r + e.secteurs)).requests d := by
  rw [litEntrees, requests_bind, requests_bind, exec_litEntree]
  simp [requests]

theorem pasVerifie_eq {table : List UInt8} {i secteur : ℕ} (ht : table.length < 2 ^ 64)
    (hi : i * tailleEntree + tailleEntree ≤ table.length) (he : .decode (slice table (i * tailleEntree) tailleEntree) = e) :
    pasVerifie table secteur i = placeVerifiee e.fichier e.taille.toNat secteur := by
  have hbrut : (range table (i * tailleEntree) (i * tailleEntree + tailleEntree) : Guarded _) =
      .ok (slice table (i * tailleEntree) tailleEntree) := by
    rw [range_of_le (by omega) hi, Nat.add_sub_cancel_left]
    rfl
  unfold pasVerifie
  rw [fit_of_lt (by omega), ok_bind, fit_of_lt (by omega), ok_bind, hbrut, ok_bind, he]

/-- Step by step, the walk and its reads are safe when the sizes are sane. -/
theorem suitVerifie_iff {table : List UInt8} {reste : List ℕ}
    (ht : table.length < 2 ^ 64) (hr : ∀ i ∈ reste, i * tailleEntree + tailleEntree ≤ table.length) :
    ((suitVerifie table reste (base.toNat + r)).Safe ∧
      RequetesDedans base ((litEntrees base
        (reste.map fun i => .decode (slice table (i * tailleEntree) tailleEntree)) r).requests d)) ↔
      SuiteSaine base (reste.map fun i => .decode (slice table (i * tailleEntree) tailleEntree)) r := by
  induction reste generalizing r with
  | nil => simp [suitVerifie, litEntrees, requests, RequetesDedans, suiteSaine_nil]
  | cons i reste ih =>
    generalize he : EntreeTable.decode (slice table (i * tailleEntree) tailleEntree) = e
    have hi := hr i mem_cons_self
    rw [map_cons, he, suiteSaine_cons, ← ih fun j hj => hr j (mem_cons_of_mem _ hj),
      suitVerifie, pasVerifie_eq ht hi he, Guarded.safe_bind, requests_litEntrees_cons,
      requetesDedans_append]
    constructor
    · rintro ⟨⟨s, hs, hsuite⟩, hlit, hreste⟩
      obtain ⟨htaille, hfin, rfl⟩ := placeVerifiee_eq_ok.mp hs
      rw [← secteurs_eq htaille, Nat.add_assoc] at hfin hsuite
      exact ⟨⟨htaille, hfin, (litEntree_dedans_iff hfin).mp hlit⟩, hsuite, hreste⟩
    · rintro ⟨⟨htaille, hfin, hlit⟩, hsuite, hreste⟩
      refine ⟨⟨_, placeVerifiee_eq_ok.mpr ⟨htaille, ?_, rfl⟩, ?_⟩, (litEntree_dedans_iff hfin).mpr hlit,
        hreste⟩
      · rwa [← secteurs_eq htaille, Nat.add_assoc]
      · rwa [← secteurs_eq htaille, Nat.add_assoc]

variable {nombre secteurTable premierContenu : ℕ}

theorem requests_releveTable (s : Etat) (somme : Option UInt32) :
    (releveTable base s nombre secteurTable premierContenu somme).requests d =
      [adresses volumePersistant (base + ofNat secteurTable) (secteursTableUtiles nombre)] ++
        if somme.all (tableSaine (vue base d) nombre secteurTable) then
          (litEntrees base (entreesLues (vue base d) nombre secteurTable) premierContenu).requests d
        else [] := by
  rw [releveTable, requests_bind, requests_volumeLit, exec_volumeLit]
  congr 1
  cases somme with
  | none => simp [requests_bind, requests, entreesLues]
  | some attendue =>
    by_cases h : tableSaine (vue base d) nombre secteurTable attendue
    · have h' := of_decide_eq_true h
      simp [requests_bind, requests, entreesLues, h, h']
    · have h' := of_decide_eq_false (Bool.eq_false_iff.mpr h)
      simp [requests, h, h']

/-- A table that lies in the zone is followed safely when its sizes are sane. -/
theorem tableVerifiee_iff (s : Etat) (somme : Option UInt32) (hb : base.toNat + secteursZone < 2 ^ 64) (hn : nombre ≤ entreesMax)
    (ht : secteurTable + secteursTable ≤ secteursZone) (hc : premierContenu ≤ secteursZone) :
    ((tableVerifiee (vue base d) base nombre secteurTable premierContenu somme).Safe ∧
      RequetesDedans base ((releveTable base s nombre secteurTable premierContenu somme).requests d)) ↔
      (somme.all (tableSaine (vue base d) nombre secteurTable) →
        SuiteSaine base (entreesLues (vue base d) nombre secteurTable) premierContenu) := by
  have hutiles := secteursTableUtiles_le hn
  have hmax : nombre ≤ 2048 := hn
  have hsecteurs : secteursTable = 1024 := rfl
  have htable : nombre * tailleEntree + tailleSecteur < 2 ^ 64 := by
    unfold tailleEntree tailleSecteur
    omega
  have htampon : secteursTableUtiles nombre * tailleSecteur < 2 ^ 64 := by
    unfold tailleSecteur
    omega
  have hlen : (plage (vue base d) secteurTable (secteursTableUtiles nombre)).length =
      secteursTableUtiles nombre * tailleSecteur := by simp [plage, length_octetsDe]
  have hindices : ∀ i ∈ List.range nombre, i * tailleEntree + tailleEntree ≤
      (plage (vue base d) secteurTable (secteursTableUtiles nombre)).length := by
    intro i hi
    have hle : i * tailleEntree + tailleEntree ≤ nombre * tailleEntree := by
      rw [← Nat.succ_mul]
      exact Nat.mul_le_mul_right _ (mem_range.mp hi)
    rw [hlen]
    exact hle.trans (le_secteursTableUtiles nombre)
  have hsuit := @suitVerifie_iff base d premierContenu _ _ (hlen ▸ htampon) hindices
  unfold tableVerifiee
  rw [requests_releveTable, requetesDedans_append, requete_dedans_iff (by omega),
    fit_of_lt (by omega), ok_bind, fit_of_lt (by omega), ok_bind,
    fit_of_lt htable, ok_bind, fit_of_lt htampon, ok_bind]
  cases somme.all (tableSaine (vue base d) nombre secteurTable) with
  | false => simp [RequetesDedans]; omega
  | true =>
    rw [if_pos rfl, if_pos rfl, and_left_comm, entreesLues, entreesDe, hsuit]
    exact ⟨fun h _ => h.2, fun h => ⟨.inr (by omega), h rfl⟩⟩

section

variable (hb : base.toNat + secteursZone < 2 ^ 64)

include hb

theorem entete_dedans {r : ℕ} (hr : r ≤ 1) :
    RequetesDedans base [adresses volumePersistant (base + ofNat r) 1] := by
  have hzone : secteursZone = 262144 := rfl
  exact (requete_dedans_iff (by omega)).mpr (.inr (by omega))

theorem releveZone_iff (s : Etat) (d : DisqueBloc) :
    ((zoneVerifiee (vue base d) base).Safe ∧ RequetesDedans base ((releveZone base s).requests d)) ↔
      ZoneSaine base (vue base d) := by
  have hzone : secteursZone = 262144 := rfl
  have hdemi : ∀ demi : Fin 2, debutDemi demi + secteursTable ≤ secteursZone ∧
      contenuDemi demi ≤ secteursZone := by decide
  have hsuper : RequetesDedans base ((superblocCourant base).requests d) :=
    requetesDedans_append.mpr ⟨entete_dedans hb (Nat.zero_le 1), entete_dedans hb le_rfl⟩
  unfold zoneVerifiee ZoneSaine
  rw [fit_of_lt (by omega), ok_bind, releveZone, requests_bind, exec_superblocCourant,
    requetesDedans_append, and_iff_right hsuper]
  cases courant (vue base d) with
  | some p =>
    cases hn : nombreInvalide p.2.entrees.toNat with
    | true => simp [hn, requests, RequetesDedans]
    | false =>
      have htable := @tableVerifiee_iff base d _ _ _ s.oublieLeDisque.oublieLaV1
        (some p.2.sommeTable) hb (nombreInvalide_eq_false.mp hn).2 (hdemi p.2.demi).1
        (hdemi p.2.demi).2
      simpa [hn] using htable
  | none =>
    have hnombre : ofLeBytes (slice (plage (vue base d) 0 1) 12 4) = nombreV1 (vue base d) := rfl
    simp only [requests_bind, requests_volumeLit, exec_volumeLit, requetesDedans_append,
      and_iff_right (entete_dedans hb (Nat.zero_le 1)), hnombre]
    by_cases hm : slice (plage (vue base d) 0 1) 0 8 = magie
    · cases hn : nombreInvalide (nombreV1 (vue base d)) with
      | true => simp [enteteV1, hm, hn, requests, RequetesDedans]
      | false =>
        have htable := @tableVerifiee_iff base d _ 1 secteurContenu s.oublieLeDisque none hb
          (nombreInvalide_eq_false.mp hn).2 (by decide) (by decide)
        simpa [enteteV1, hm, hn] using htable
    · simp [enteteV1, hm, requests, RequetesDedans]

end

/-- A mount is safe on exactly the zones whose followed table is sane. -/
theorem montage_sur_iff (m : Materiel) (s : Etat) (d : DisqueBloc) :
    (∀ base, debut m = some base → MontageSur base s d) ↔
      ∀ base, debut m = some base → ZoneSaine base (vue base d) := by
  refine forall_congr' fun base => imp_congr_right fun hb => ?_
  rw [← releveZone_iff (debut_add_lt hb) s d]
  have hfinit := run_exec (Device.reliable Adresse (List UInt8)) (releveZone base s) d
  rw [exec_releveZone] at hfinit
  exact ⟨fun h => ⟨h.calcule, h.lit⟩, fun h => ⟨⟨_, hfinit⟩, h.1, h.2⟩⟩

/-- A volume of 300000 sectors with a header of the first format and one entry, whose size is
`2 ^ 64 - 1`. -/
def materielHostile : Materiel := fun v => if v = volumePersistant then some ⟨512, 300000, true⟩ else none

@[inherit_doc materielHostile]
def disqueHostile : DisqueBloc where
  durable a :=
    if a.2 = 37856 then magie ++ [0, 0, 0, 0, 1, 0, 0, 0]
    else if a.2 = 37857 then List.replicate cheminMax 0x61 ++ List.replicate 8 0xFF
    else []
  cache := []

theorem taille_hostile_arrete :
    ¬∀ base, debut materielHostile = some base → MontageSur base .demarrage disqueHostile := by
  intro h
  have hfaute : zoneVerifiee (vue 37856 disqueHostile) 37856 = .fault .overflow := by decide +kernel
  exact (h 37856 (by decide +kernel)).calcule _ hfaute

end BouchaudOS.Persist
