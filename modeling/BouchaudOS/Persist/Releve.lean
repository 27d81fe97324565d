import BouchaudOS.Persist.Zone

/-!
# What a mount reads

On a device that serves every request, what a mount restores is a function of
the sectors of the zone. It looks at the two superblocks and at the half the
current one designates, so it does not change when other sectors do; and from a
half that holds a snapshot it restores that snapshot, as the table keeps it.
-/
namespace BouchaudOS.Persist

open Bytes List SnapshotEntree
open Prog hiding pure

def vue (base : UInt64) (d : Disk Adresse (List UInt8)) (r : ℕ) : List UInt8 :=
  d.read (secteur base r)

variable (lire : ℕ → List UInt8)

/-- The bytes of `n` sectors. -/
def plage (r n : ℕ) : List UInt8 :=
  octetsDe tailleSecteur ((List.range n).map fun i => lire (r + i))

def superblocs (i : Fin 2) : Option Superbloc := Superbloc.decode (plage lire i.val 1)

def courant : Option (Fin 2 × Superbloc) := choisit (superblocs lire 0) (superblocs lire 1)

def EntreeTable.lue (e : EntreeTable) (r : ℕ) : Option Lue :=
  if !aRestaurer e.chemin e.taille e.metadonnees then none
  else
    match e.metadonnees.filter Meta.dossier with
    | some m => some (.dossier e.chemin m)
    | none => some (.fichier e.chemin e.metadonnees ((plage lire r e.secteurs).take e.taille.toNat))

def luesDe : List EntreeTable → ℕ → List Lue
  | [], _ => []
  | e :: es, r => (e.lue lire r).toList ++ luesDe es (r + e.secteurs)

def finDe : List EntreeTable → ℕ → ℕ
  | [], r => r
  | e :: es, r => finDe es (r + e.secteurs)

def entreesLues (nombre secteurTable : ℕ) : List EntreeTable :=
  entreesDe (plage lire secteurTable (secteursTableUtiles nombre)) nombre

def tableSaine (nombre secteurTable : ℕ) (somme : UInt32) : Bool :=
  sommeControle (plage lire secteurTable (secteursTableUtiles nombre)) = somme

/-- The number of entries in a header of the first format. -/
def nombreV1 : ℕ := ofLeBytes (slice (plage lire 0 1) 12 4)

/-- Does sector 0 hold a header of the first format that is followed? -/
def enteteV1 : Bool := slice (plage lire 0 1) 0 8 = magie && !nombreInvalide (nombreV1 lire)

def luesV1 : List Lue :=
  if enteteV1 lire then luesDe lire (entreesLues lire (nombreV1 lire) 1) secteurContenu else []

/-- What the half of a superblock holds. -/
def luesV2 (s : Superbloc) : List Lue :=
  if !nombreInvalide s.entrees.toNat && tableSaine lire s.entrees.toNat (debutDemi s.demi) s.sommeTable then
    luesDe lire (entreesLues lire s.entrees.toNat (debutDemi s.demi)) (contenuDemi s.demi)
  else []

/-- What a mount restores. -/
def zoneLue : List Lue :=
  match courant lire with
  | some (_, s) => luesV2 lire s
  | none => luesV1 lire

/-- The extent of the first format that a mount notes. -/
def etendueLue (base v1Fin : UInt64) : UInt64 :=
  match courant lire with
  | some _ => 0
  | none =>
    if slice (plage lire 0 1) 0 8 ≠ magie then 0
    else if nombreInvalide (nombreV1 lire) then v1Fin
    else etendueV1 base (finDe (entreesLues lire (nombreV1 lire) 1) secteurContenu)

variable {base : UInt64} {d : DisqueBloc} (base : UInt64)

theorem map_adresses {α : Type} (f : Adresse → α) (base : UInt64) (r n : ℕ) :
    (adresses volumePersistant (base + UInt64.ofNat r) n).map f =
      (List.range n).map fun i => f (secteur base (r + i)) := by
  simp [adresses, secteur, UInt64.add_assoc, Function.comp_def]

@[simp] theorem exec_volumeLit (r n : ℕ) (d : DisqueBloc) :
    (volumeLit base r n).exec d = (some (plage (vue base d) r n), d) := by
  rw [volumeLit, exec_litBlocs, map_adresses]
  rfl

@[simp] theorem exec_superblocCourant (d : DisqueBloc) :
    (superblocCourant base).exec d = (courant (vue base d), d) := by
  simp [superblocCourant, exec_bind, courant, superblocs]

theorem exec_litEntree (e : EntreeTable) (r : ℕ) :
    (litEntree base e r).exec d = (e.lue (vue base d) r, d) := by
  unfold litEntree EntreeTable.lue
  split
  · rfl
  · cases e.metadonnees.filter Meta.dossier with
    | some m => rfl
    | none => simp [exec_bind]

theorem exec_litEntrees (es : List EntreeTable) (r : ℕ) :
    (litEntrees base es r).exec d = ((luesDe (vue base d) es r, finDe es r), d) := by
  induction es generalizing r with
  | nil => rfl
  | cons e es ih => simp [litEntrees, exec_bind, exec_litEntree, ih, luesDe, finDe]

theorem exec_releveTable (s : Etat) (nombre secteurTable premierContenu : ℕ) (somme : Option UInt32) :
    (releveTable base s nombre secteurTable premierContenu somme).exec d =
      if somme.all (tableSaine (vue base d) nombre secteurTable) then
        ((luesDe (vue base d) (entreesLues (vue base d) nombre secteurTable) premierContenu,
          if somme.isNone then
            ⟨s.disque, etendueV1 base (finDe (entreesLues (vue base d) nombre secteurTable) premierContenu)⟩
          else s), d)
      else (([], s), d) := by
  rw [releveTable, exec_bind, exec_volumeLit]
  cases somme with
  | none => simp [exec_bind, exec_litEntrees, entreesLues]
  | some attendue =>
    by_cases h : tableSaine (vue base d) nombre secteurTable attendue = true
    · have h' : sommeControle (plage (vue base d) secteurTable (secteursTableUtiles nombre)) =
        attendue := by simpa [tableSaine] using h
      simp [exec_bind, exec_litEntrees, entreesLues, h, h']
    · have h' : sommeControle (plage (vue base d) secteurTable (secteursTableUtiles nombre)) ≠
        attendue := by simpa [tableSaine] using h
      simp [h, h']

/-- A mount restores what the sectors of the zone say and writes nothing. -/
theorem exec_releveZone (s : Etat) (d : DisqueBloc) : (releveZone base s).exec d =
      ((zoneLue (vue base d), ⟨[], etendueLue (vue base d) base s.v1Fin⟩), d) := by
  rw [releveZone, exec_bind, exec_superblocCourant]
  unfold zoneLue etendueLue
  cases courant (vue base d) with
  | some es =>
    cases hn : nombreInvalide es.2.entrees.toNat with
    | false =>
      simp only [hn, Bool.false_eq_true, if_false, exec_releveTable, luesV2, Bool.not_false,
        Bool.true_and, Option.all_some]
      split <;> rfl
    | true =>
      simp only [hn, luesV2]
      rfl
  | none =>
    simp only [exec_bind, exec_volumeLit]
    by_cases hm : slice (plage (vue base d) 0 1) 0 8 = magie
    · cases hn : nombreInvalide (ofLeBytes (slice (plage (vue base d) 0 1) 12 4)) with
      | false =>
        simp [hm, hn, exec_releveTable, luesV1, enteteV1, nombreV1, Etat.oublieLeDisque]
      | true => simp [hm, hn, luesV1, enteteV1, nombreV1, Etat.oublieLeDisque]
    · simp [hm, luesV1, enteteV1, Etat.oublieLeDisque, Etat.oublieLaV1]

variable {lire lire' : ℕ → List UInt8}

variable {n : ℕ} {s : Superbloc}

theorem plage_congr {r : ℕ} (h : ∀ k, r ≤ k → k < r + n → lire k = lire' k) : plage lire r n = plage lire' r n := by
  refine congrArg (octetsDe tailleSecteur) (map_congr_left fun i hi => ?_)
  rw [mem_range] at hi
  exact h _ (by omega) (by omega)

theorem le_finDe (es : List EntreeTable) (r : ℕ) : r ≤ finDe es r := by
  induction es generalizing r with
  | nil => exact le_rfl
  | cons e es ih => exact (Nat.le_add_right r e.secteurs).trans (ih _)

theorem luesDe_congr {es : List EntreeTable} {r : ℕ} (h : ∀ k, r ≤ k → k < finDe es r → lire k = lire' k) :
    luesDe lire es r = luesDe lire' es r := by
  induction es generalizing r with
  | nil => rfl
  | cons e es ih =>
    have hfin := le_finDe es (r + e.secteurs)
    have hplage : plage lire r e.secteurs = plage lire' r e.secteurs :=
      plage_congr fun k h1 h2 => h k h1 (h2.trans_le hfin)
    have hsuite := ih fun k h1 h2 => h k (by omega) h2
    simp only [luesDe, EntreeTable.lue, hplage, hsuite]

theorem secteursTableUtiles_le (h : n ≤ entreesMax) : secteursTableUtiles n ≤ secteursTable := by
  simp only [entreesMax] at h
  simp only [secteursTableUtiles, secteursTable, entreesMax, tailleEntree, tailleSecteur]
  omega

theorem contenuDemi_le_finDemi (demi : Fin 2) : contenuDemi demi ≤ finDemi demi := by
  simp only [contenuDemi, finDemi, secteursTable, secteursDemi, secteursZone, secteursSuperblocs,
    entreesMax, tailleEntree, tailleSecteur]
  omega

theorem nombreInvalide_eq_false : nombreInvalide n = false ↔ 0 < n ∧ n ≤ entreesMax := by
  simp [nombreInvalide, Nat.pos_iff_ne_zero]

/-- The contents a superblock's table describes end inside its half. -/
def Dedans (lire : ℕ → List UInt8) (s : Superbloc) : Prop :=
  nombreInvalide s.entrees.toNat = false →
    tableSaine lire s.entrees.toNat (debutDemi s.demi) s.sommeTable = true →
    finDe (entreesLues lire s.entrees.toNat (debutDemi s.demi)) (contenuDemi s.demi) ≤ finDemi s.demi

def MemeDemi (demi : Fin 2) (lire lire' : ℕ → List UInt8) : Prop :=
  ∀ k, debutDemi demi ≤ k → k < finDemi demi → lire k = lire' k

theorem MemeDemi.plage_table (h : MemeDemi s.demi lire lire') (hn : nombreInvalide s.entrees.toNat = false) :
    plage lire (debutDemi s.demi) (secteursTableUtiles s.entrees.toNat) =
      plage lire' (debutDemi s.demi) (secteursTableUtiles s.entrees.toNat) := by
  refine plage_congr fun k h1 h2 => h k h1 ?_
  have hle := secteursTableUtiles_le (nombreInvalide_eq_false.mp hn).2
  have hfin := contenuDemi_le_finDemi s.demi
  unfold contenuDemi at hfin
  omega

theorem MemeDemi.dedans (h : MemeDemi s.demi lire lire') (hd : Dedans lire s) : Dedans lire' s := by
  intro hn ht
  have hd' := hd hn
  rw [entreesLues, tableSaine, h.plage_table hn] at hd'
  exact hd' ht

theorem MemeDemi.luesV2_eq (h : MemeDemi s.demi lire lire') (hd : Dedans lire s) :
    luesV2 lire' s = luesV2 lire s := by
  unfold luesV2
  cases hn : nombreInvalide s.entrees.toNat with
  | true => rfl
  | false =>
    have htable := h.plage_table hn
    cases ht : tableSaine lire s.entrees.toNat (debutDemi s.demi) s.sommeTable with
    | false =>
      rw [tableSaine, htable] at ht
      simp [tableSaine, ht]
    | true =>
      have hfin := hd hn ht
      have hent : entreesLues lire' s.entrees.toNat (debutDemi s.demi) =
          entreesLues lire s.entrees.toNat (debutDemi s.demi) := by
        rw [entreesLues, entreesLues, htable]
      have hdebut : debutDemi s.demi ≤ contenuDemi s.demi := Nat.le_add_right _ _
      have hlues :
          luesDe lire (entreesLues lire s.entrees.toNat (debutDemi s.demi)) (contenuDemi s.demi) =
            luesDe lire' (entreesLues lire s.entrees.toNat (debutDemi s.demi)) (contenuDemi s.demi) :=
        luesDe_congr fun k h1 h2 => h k (hdebut.trans h1) (h2.trans_le hfin)
      rw [tableSaine, htable] at ht
      simp [tableSaine, ht, hent, hlues]

/-- What is restored of one entry: its path up to a NUL, and nothing for an
empty one; a directory has no content. -/
def SnapshotEntree.relue (e : SnapshotEntree) : Option Lue :=
  if e.chemin.jusquaNul.octets.isEmpty then none
  else if e.metadonnees.dossier then some (.dossier e.chemin.jusquaNul e.metadonnees.douzeBits)
  else some (.fichier e.chemin.jusquaNul (some e.metadonnees.douzeBits) e.contenu)

def image (es : List SnapshotEntree) : List Lue := es.filterMap relue

/-- The contents stand one after the other from sector `r` on. -/
def Contenus (lire : ℕ → List UInt8) : List SnapshotEntree → ℕ → Prop
  | [], _ => True
  | e :: es, r =>
    plage lire r (secteursDe e.contenu.length) = bourre e.contenu (secteursDe e.contenu.length) ∧
    Contenus lire es (r + secteursDe e.contenu.length)

def finContenus : List SnapshotEntree → ℕ → ℕ
  | [], r => r
  | e :: es, r => finContenus es (r + secteursDe e.contenu.length)

/-- A half holds a snapshot. -/
structure Loge (lire : ℕ → List UInt8) (demi : Fin 2) (es : List SnapshotEntree) : Prop where
  chemins : CheminsTiennent es
  nombre : es.length ≤ entreesMax
  table : plage lire (debutDemi demi) (secteursTableUtiles es.length) = Persist.table es
  contenus : Contenus lire es (contenuDemi demi)
  fin : finContenus es (contenuDemi demi) ≤ finDemi demi

def SnapshotEntree.enTable (e : SnapshotEntree) : EntreeTable :=
  ⟨e.chemin.jusquaNul, UInt64.ofNat e.contenu.length, some e.metadonnees.douzeBits⟩

variable {es : List SnapshotEntree} {r : ℕ} {lire : ℕ → List UInt8}

theorem entreesDe_table (h : CheminsTiennent es) : entreesDe (table es) es.length = es.map enTable := by
  apply ext_getElem (by simp [entreesDe])
  intro i hi hi'
  have hi : i < es.length := by simpa using hi'
  simp only [entreesDe, getElem_map, getElem_range]
  rw [slice_table h i hi, decode_encode (h _ (get_mem _ _))]
  rfl

def Petit (e : SnapshotEntree) : Prop := e.contenu.length < 2 ^ 63

theorem secteurs_enTable {e : SnapshotEntree} (h : Petit e) :
    e.enTable.secteurs = secteursDe e.contenu.length := by
  unfold Petit at h
  simp only [EntreeTable.secteurs, enTable, secteursDe, tailleSecteur,
    UInt64.toNat_div, UInt64.toNat_add, UInt64.toNat_ofNat', UInt64.reduceToNat]
  omega

theorem le_finContenus (es : List SnapshotEntree) (r : ℕ) : r ≤ finContenus es r := by
  induction es generalizing r with
  | nil => exact le_rfl
  | cons e es ih => exact (Nat.le_add_right r _).trans (ih _)

theorem petit_of_finContenus {n : ℕ} (h : finContenus es r ≤ n) (hn : n < 2 ^ 50) : ∀ e ∈ es, Petit e := by
  induction es generalizing r with
  | nil => exact fun e he => absurd he not_mem_nil
  | cons e es ih =>
    intro e' he'
    rcases mem_cons.mp he' with rfl | he'
    · have h1 := (le_finContenus es (r + secteursDe e'.contenu.length)).trans h
      have h2 := le_secteursDe e'.contenu.length
      unfold Petit
      unfold tailleSecteur at h2
      omega
    · exact ih h e' he'

theorem finDe_enTable (h : ∀ e ∈ es, Petit e) (r : ℕ) : finDe (es.map enTable) r = finContenus es r := by
  induction es generalizing r with
  | nil => rfl
  | cons e es ih =>
    rw [map_cons, finDe, secteurs_enTable (h e (by simp)), finContenus, ih fun e' he' => h e' (by simp [he'])]

theorem lue_enTable {e : SnapshotEntree} (h : Petit e) (hc : plage lire r (secteursDe e.contenu.length) =
      bourre e.contenu (secteursDe e.contenu.length)) :
    e.enTable.lue lire r = e.relue := by
  have htaille : e.enTable.taille.toNat = e.contenu.length := by
    unfold Petit at h
    simp only [enTable, UInt64.toNat_ofNat']
    omega
  have htake : (bourre e.contenu (secteursDe e.contenu.length)).take e.contenu.length =
      e.contenu := by simp [bourre]
  have hrest : aRestaurer e.enTable.chemin e.enTable.taille e.enTable.metadonnees =
      !e.chemin.jusquaNul.octets.isEmpty := by
    simp [aRestaurer, enTable]
  unfold EntreeTable.lue relue
  rw [secteurs_enTable h, hc, htaille, htake, hrest, Bool.not_not]
  split
  · rfl
  · cases hd : e.metadonnees.dossier <;>
      simp [enTable, Option.filter, Meta.douzeBits, hd]

theorem luesDe_image (h : ∀ e ∈ es, Petit e) (hc : Contenus lire es r) :
    luesDe lire (es.map enTable) r = image es := by
  induction es generalizing r with
  | nil => rfl
  | cons e es ih =>
    have he := h e (by simp)
    rw [map_cons, luesDe, lue_enTable he hc.1, secteurs_enTable he,
      ih (fun e' he' => h e' (by simp [he'])) hc.2, image, image, filterMap_cons]
    cases e.relue <;> rfl

theorem finDemi_lt (demi : Fin 2) : finDemi demi < 2 ^ 50 := by
  simp only [finDemi, debutDemi, secteursSuperblocs, secteursDemi, secteursZone]
  omega

/-- From a half that holds a snapshot, the snapshot is restored. -/
theorem Loge.luesV2_eq {s : Superbloc} (h : Loge lire s.demi es) (hn : s.entrees.toNat = es.length)
    (hs : s.sommeTable = sommeControle (Persist.table es)) :
    luesV2 lire s = image es ∧ Dedans lire s := by
  have hp := petit_of_finContenus h.fin (finDemi_lt _)
  have hent : entreesLues lire s.entrees.toNat (debutDemi s.demi) = es.map enTable := by
    rw [entreesLues, hn, h.table, entreesDe_table h.chemins]
  have ht : tableSaine lire s.entrees.toNat (debutDemi s.demi) s.sommeTable = true := by
    rw [tableSaine, hn, h.table, hs]
    simp
  refine ⟨?_, fun _ _ => by rw [hent, finDe_enTable hp]; exact h.fin⟩
  unfold luesV2
  rw [ht, hent, luesDe_image hp h.contenus]
  cases hi : nombreInvalide s.entrees.toNat with
  | false => simp
  | true =>
    -- a snapshot without entries is restored as nothing
    have h0 : es = [] := by
      rw [hn] at hi
      rw [← length_eq_zero_iff]
      by_contra h0
      have := nombreInvalide_eq_false.mpr ⟨Nat.pos_of_ne_zero h0, h.nombre⟩
      rw [hi] at this
      cases this
    simp [h0, image]

end BouchaudOS.Persist
