import BouchaudOS.Persist.Commit

/-!
# From the first format to the second

A zone of the first format has its header in sector 0, which is also the place
of the first superblock. The first synchronisation spares the old table and the
old contents and then replaces the header by a superblock. Power lost while that
one sector is written may leave a tear of the header and of the superblock: what
is restored then is the old state or the new one exactly when the 44 bytes a
superblock occupies are whole.
-/
namespace BouchaudOS.Persist

open Bytes VersionedPair List Machine Disk
open Prog hiding pure

variable {lire lire' : ℕ → List UInt8}

/-- The sector behind the last content of the first format. -/
def finV1 (lire : ℕ → List UInt8) : ℕ := finDe (entreesLues lire (nombreV1 lire) 1) secteurContenu

/-- A valid zone of the first format, as a mount sees it. -/
structure ZoneV1 (lire : ℕ → List UInt8) : Prop where
  sansSuperbloc : ∀ i, superblocs lire i = none
  entete : enteteV1 lire = true
  dedans : finV1 lire ≤ secteursZone

theorem secteurContenu_le_finV1 (lire : ℕ → List UInt8) : 1025 ≤ finV1 lire :=
  le_finDe _ secteurContenu

theorem actif_eq_none (h : ∀ i, superblocs lire i = none) : actif lire = none := by
  rw [actif, newest, h 0, h 1]

theorem ZoneV1.zoneLue_eq (h : ZoneV1 lire) : zoneLue lire = luesV1 lire := by
  rw [Persist.zoneLue_eq, actif_eq_none h.sansSuperbloc]

theorem ZoneV1.magie_eq (h : ZoneV1 lire) : slice (plage lire 0 1) 0 8 = magie := by
  have he := h.entete
  rw [enteteV1, Bool.and_eq_true, decide_eq_true_eq] at he
  exact he.1

theorem ZoneV1.nombre_le (h : ZoneV1 lire) : nombreV1 lire ≤ entreesMax := by
  have he := h.entete
  rw [enteteV1, Bool.and_eq_true, Bool.not_eq_true'] at he
  exact (nombreInvalide_eq_false.mp he.2).2

/-- The old state is read as long as the header, the table and the contents
are there. -/
theorem ZoneV1.zoneLue_congr (h : ZoneV1 lire) (h0 : MemeTete (lire' 0) (lire 0))
    (hk : ∀ k, 1 ≤ k → k < finV1 lire → lire' k = lire k) : zoneLue lire' = zoneLue lire := by
  have hfin := secteurContenu_le_finV1 lire
  have hsb : ∀ i, superblocs lire' i = none := by
    intro i
    obtain rfl | rfl : i = 0 ∨ i = 1 := by omega
    · exact h0.litSuperbloc_eq.trans (h.sansSuperbloc 0)
    · exact (congrArg litSuperbloc (hk 1 le_rfl (by omega))).trans (h.sansSuperbloc 1)
  have hslice : ∀ {k l : ℕ}, k + l ≤ 44 →
      slice (plage lire' 0 1) k l = slice (plage lire 0 1) k l := fun hkl => h0.slice_eq hkl
  have hnombre : nombreV1 lire' = nombreV1 lire := by
    rw [nombreV1, nombreV1, hslice (by norm_num)]
  have hentete : enteteV1 lire' = enteteV1 lire := by
    rw [enteteV1, enteteV1, hslice (by norm_num), hnombre]
  have htable := secteursTableUtiles_le h.nombre_le
  have hmax : secteursTable = 1024 := rfl
  have hentrees : entreesLues lire' (nombreV1 lire) 1 = entreesLues lire (nombreV1 lire) 1 := by
    exact congrArg (entreesDe · _) (plage_congr fun k h1 h2 => hk k h1 (by omega))
  have hlues : luesDe lire' (entreesLues lire (nombreV1 lire) 1) secteurContenu =
      luesDe lire (entreesLues lire (nombreV1 lire) 1) secteurContenu :=
    luesDe_congr fun k h1 h2 => hk k (le_trans (by decide) h1) h2
  rw [h.zoneLue_eq, Persist.zoneLue_eq, actif_eq_none hsb]
  simp only [luesV1, hentete, hnombre, hentrees, hlues]

theorem actif_of_premier {n : Superbloc} (h0 : superblocs lire 0 = some n)
    (h1 : superblocs lire 1 = none) : actif lire = some n := by
  rw [actif, newest, h0, h1]

theorem zoneLue_perdue (h : ∀ i, superblocs lire i = none)
    (hm : slice (plage lire 0 1) 0 8 ≠ magie) : zoneLue lire = [] := by
  rw [zoneLue_eq, actif_eq_none h]
  simp [luesV1, enteteV1, hm]

/-- A sector torn at a byte: the front of a pending version, then the durable
content. -/
def Dechire (base : UInt64) (d d' : Disk Adresse (List UInt8)) : Prop :=
  ∀ i : Fin 2, ∃ v ∈ d.versions (secteur base i.val), ∃ k,
    d'.durable (secteur base i.val) = v.take k ++ (d.durable (secteur base i.val)).drop k

/-- The volume of the zone when superblock sectors are torn at one byte. -/
def volumeDechire (base : UInt64) : Device Adresse (List UInt8) :=
  { volumeZone base with
    cut d d' := (PowerLoss d d' ∧ SuperblocsDetectes base d d') ∧ Dechire base d d'
    cut_cache h := h.1.1.1
    cut_settled h _ ha := h.1.1.durable_eq ha }

/-- The superblock of the first synchronisation of such a zone. -/
def premierSuperbloc (es : List SnapshotEntree) : Superbloc :=
  superblocDe 1 1 es (finContenus es (contenuDemi 1))

/-- The bytes of a superblock, in sector 0, are all of the old header or all of
the new superblock. -/
def TeteEntiere (base : UInt64) (d : Disk Adresse (List UInt8)) (es : List SnapshotEntree)
    (d' : Disk Adresse (List UInt8)) : Prop :=
  MemeTete (vue base d' 0) (vue base d 0) ∨ MemeTete (vue base d' 0) (premierSuperbloc es).encode

/-- What is found after a cut: the old state, the new one, or nothing where the
sector is torn. -/
inductive Verdict (base : UInt64) (d : Disk Adresse (List UInt8)) (es : List SnapshotEntree)
    (d' : Disk Adresse (List UInt8)) : Prop
  | ancien : MemeTete (vue base d' 0) (vue base d 0) → restaure base d' = restaure base d →
      Verdict base d es d'
  | nouveau : MemeTete (vue base d' 0) (premierSuperbloc es).encode →
      restaure base d' = image es → Verdict base d es d'
  | perdu : ¬TeteEntiere base d es d' → restaure base d' = [] → Verdict base d es d'

variable {base : UInt64} {d d₁ d' : DisqueBloc} {es : List SnapshotEntree}

def AncienneGardee (base : UInt64) (d d' : Disk Adresse (List UInt8)) : Prop :=
  ∀ k, 1 ≤ k → k < finV1 (vue base d) → vue base d' k = vue base d k

theorem verdict_ancien (hz : ZoneV1 (vue base d)) (hg : AncienneGardee base d d')
    (h0 : MemeTete (vue base d' 0) (vue base d 0)) : Verdict base d es d' := by
  refine .ancien h0 ?_
  rw [restaure_eq, restaure_eq, hz.zoneLue_congr h0 hg]

theorem superblocs_un (hz : ZoneV1 (vue base d)) (hg : AncienneGardee base d d') :
    superblocs (vue base d') 1 = none := by
  have hfin := secteurContenu_le_finV1 (vue base d)
  exact (congrArg litSuperbloc (hg 1 le_rfl (by omega))).trans (hz.sansSuperbloc 1)

theorem verdict_nouveau (hes : es.length ≤ entreesMax) (hz : ZoneV1 (vue base d))
    (hg : AncienneGardee base d d') (hl : Loge (vue base d') 1 es)
    (h0 : MemeTete (vue base d' 0) (premierSuperbloc es).encode) : Verdict base d es d' := by
  refine .nouveau h0 ?_
  have hsb : superblocs (vue base d') 0 = some (premierSuperbloc es) :=
    h0.litSuperbloc_eq.trans (litSuperbloc_encode _)
  have hlen : (UInt32.ofNat es.length).toNat = es.length :=
    UInt32.toNat_ofNat_of_lt' (hes.trans_lt (by decide))
  rw [restaure_eq]
  exact (saine_image (actif_of_premier hsb (superblocs_un hz hg)) hl ⟨hlen, rfl⟩).restaure

/-- A front of the new superblock that stops within the seven bytes both magics
share leaves the old header. -/
theorem dechirure_courte (hz : ZoneV1 (vue base d)) (hlen : (vue base d 0).length = tailleSecteur) {k : ℕ}
    (hk : k ≤ 7) :
    (premierSuperbloc es).encode.take k ++ (vue base d 0).drop k = vue base d 0 := by
  have hm : slice (vue base d 0) 0 8 = magie := by
    have h := hz.magie_eq
    have hp : slice (plage (vue base d) 0 1) 0 8 = slice (vue base d 0) 0 8 := by
      rw [plage_un]
      apply ext_getElem?
      intro j
      rw [getElem?_slice, getElem?_slice]
      split_ifs with hj
      · have hj' : 0 + j < tailleSecteur := by unfold tailleSecteur; omega
        rw [getElem?_takeD _ _ hj', getD_eq_getElem?_getD, getElem?_eq_getElem (by omega)]
        rfl
      · rfl
    rwa [hp] at h
  have htake : (premierSuperbloc es).encode.take 7 = (vue base d 0).take 7 := by
    have h1 := congrArg (List.take 7) (premierSuperbloc es).slice_encode_magie
    have h2 := congrArg (List.take 7) hm
    rw [slice_zero, take_take] at h1 h2
    exact h1.trans h2.symm
  have htake' : (premierSuperbloc es).encode.take k = (vue base d 0).take k := by
    have h := congrArg (List.take k) htake
    rwa [take_take, take_take, min_eq_left hk] at h
  rw [htake', take_append_drop]

/-- What the one sector of the commit leaves when power is lost. -/
theorem verdict_pose (hes : es.length ≤ entreesMax) (hz : ZoneV1 (vue base d))
    (hlen : (vue base d 0).length = tailleSecteur)
    (hg : ∀ k, k < finV1 (vue base d) → vue base d₁ k = vue base d k)
    (hl : Loge (vue base d₁) 1 es)
    (hc : (volumeDechire base).cut
      (pose base (0 : Fin 2).val 1 (premierSuperbloc es).encode (barriere d₁)) d') :
    Verdict base d es d' := by
  have hfin := secteurContenu_le_finV1 (vue base d)
  have h0 : vue base d₁ (0 : Fin 2).val = vue base d 0 := hg 0 (by omega)
  have hk : SaufSuperbloc base 0 d₁ d' := by
    have hk := saufSuperbloc_of_cut hc
    rwa [SaufSuperbloc, vue_barriere] at hk
  have hgarde : AncienneGardee base d d' := by
    intro k h1 h2
    have hzone : secteursZone = 262144 := rfl
    have hdedans := hz.dedans
    rw [hk k (by omega) (show k ≠ 0 by omega), hg k h2]
  have hlu : vue base d' 0 = d'.durable (secteur base (0 : Fin 2).val) :=
    (settled_of_cache_nil hc.1.1.1 _).read_eq
  have hdur : (pose base (0 : Fin 2).val 1 (premierSuperbloc es).encode (barriere d₁)).durable
      (secteur base (0 : Fin 2).val) = vue base d 0 := by
    rw [← h0, ← vue_barriere, vue, (barriere_settled base d₁ _).read_eq]
    rfl
  by_cases htete : TeteEntiere base d es d'
  · rcases htete with h | h
    · exact verdict_ancien hz hgarde h
    · exact verdict_nouveau hes hz hgarde (hl.congr (hk.memeDemi 1)) h
  · refine .perdu htete ?_
    have hsb : superblocs (vue base d') 0 = none := by
      rcases hc.1.2 0 with ⟨v, hv, hx⟩ | hx
      · rw [versions_pose, h0] at hv
        rw [← hlu] at hx
        rcases mem_cons.mp hv with rfl | hv
        · exact absurd (.inl hx) htete
        · rw [mem_singleton.mp hv] at hx
          exact absurd (.inr hx) htete
      · rw [← hlu] at hx
        exact hx
    have hmagie : slice (plage (vue base d') 0 1) 0 8 ≠ magie := by
      obtain ⟨v, hv, j, hx⟩ := hc.2 0
      rw [versions_pose, h0] at hv
      rw [hdur, ← hlu] at hx
      rcases mem_cons.mp hv with rfl | hv
      · rw [take_append_drop] at hx
        exact absurd (.inl (congrArg (List.take _) hx)) htete
      · rw [mem_singleton.mp hv] at hx
        by_cases hj : j ≤ 7
        · rw [dechirure_courte hz hlen hj] at hx
          exact absurd (.inl (congrArg (List.take _) hx)) htete
        · have htake : (vue base d' 0).take 8 = (premierSuperbloc es).encode.take 8 := by
            rw [hx, take_append_of_le_length (by simp; omega), take_take, min_eq_left (by omega)]
          have hself : (premierSuperbloc es).encode.takeD tailleSecteur 0 = (premierSuperbloc es).encode := by
            rw [takeD_eq_take 0 (by simp [tailleSecteur]), take_of_length_le (by simp [tailleSecteur])]
          rw [plage_un, slice_takeD_congr 0 htake (by norm_num) (by decide), hself,
            (premierSuperbloc es).slice_encode_magie]
          decide
    rw [restaure_eq]
    refine zoneLue_perdue (fun i => ?_) hmagie
    obtain rfl | rfl : i = 0 ∨ i = 1 := by omega
    · exact hsb
    · exact superblocs_un hz hgarde

variable {m : Materiel}

theorem debut_add_lt (hb : debut m = some base) : base.toNat + secteursZone < 2 ^ 64 := by
  unfold debut at hb
  simp only at hb
  split_ifs at hb with hle
  cases hb
  have hlt := UInt64.lt_iff_toNat_lt.mp (UInt64.not_le.mp hle)
  have hmax := (volumeSecteurs m).toNat_lt
  have h1 : (UInt64.ofNat (secteursZone + secteurContenu)).toNat = 263169 := by decide
  have h2 : (UInt64.ofNat secteursZone).toNat = 262144 := by decide
  have hle' : UInt64.ofNat secteursZone ≤ volumeSecteurs m := by
    rw [UInt64.le_iff_toNat_le, h2]
    omega
  rw [UInt64.toNat_sub_of_le _ _ hle', h2, secteursZone]
  omega

theorem etendueV1_toNat (hb : debut m = some base) {r : ℕ} (hr : r ≤ secteursZone) :
    (etendueV1 base r).toNat = r := by
  have hlt := debut_add_lt hb
  have hr' : (UInt64.ofNat r).toNat = r := by
    refine UInt64.toNat_ofNat_of_lt' (lt_of_le_of_lt hr ?_)
    decide
  have hadd : (base + UInt64.ofNat r).toNat = base.toNat + r := by
    rw [UInt64.toNat_add, hr', Nat.mod_eq_of_lt (by omega)]
  have hle : base ≤ base + UInt64.ofNat r := by
    rw [UInt64.le_iff_toNat_le, hadd]
    omega
  rw [etendueV1, if_pos hle, UInt64.toNat_sub_of_le _ _ hle, hadd]
  omega

theorem ZoneV1.etatMonte_eq (hz : ZoneV1 (vue base d)) :
    etatMonte base d = ⟨[], etendueV1 base (finV1 (vue base d))⟩ := by
  have hc : courant (vue base d) = none :=
    choisit_eq_none.mpr (actif_eq_none hz.sansSuperbloc)
  have hn : nombreInvalide (nombreV1 (vue base d)) = false := by
    have he := hz.entete
    rw [enteteV1, Bool.and_eq_true, Bool.not_eq_true'] at he
    exact he.2
  rw [etatMonte, exec_releveZone]
  simp [etendueLue, hc, hz.magie_eq, hn, finV1]

/-- The first synchronisation takes the second half, or refuses when the old
contents reach it. -/
theorem ZoneV1.demiSure_eq (hb : debut m = some base) (hz : ZoneV1 (vue base d)) :
    (etatMonte base d).demiSure 0 =
      if finV1 (vue base d) < debutDemi 1 then some 1 else none := by
  have hfin := secteurContenu_le_finV1 (vue base d)
  have hext := etendueV1_toNat hb hz.dedans
  have hne : etendueV1 base (finV1 (vue base d)) ≠ 0 := by
    intro h0
    rw [h0] at hext
    simp at hext
    omega
  have h2 : debutDemi 0 = 2 := rfl
  rw [hz.etatMonte_eq]
  simp only [Etat.demiSure, Etat.demiRecouvreLaV1, hext, h2]
  by_cases h : finV1 (vue base d) < debutDemi 1
  · have h' : ¬debutDemi 1 ≤ finV1 (vue base d) := not_le.mpr h
    simp [h, h', hne, show 2 ≤ finV1 (vue base d) by omega]
  · have h' : debutDemi 1 ≤ finV1 (vue base d) := not_lt.mp h
    simp [h, h', hne, show 2 ≤ finV1 (vue base d) by omega]

theorem verdict_of_kept (hz : ZoneV1 (vue base d)) (hd : d.cache = [])
    {d₁ : DisqueBloc} (hk : Kept (Entre base 0 (finV1 (vue base d))) d d₁)
    (hc : (volumeDechire base).cut d₁ d') : Verdict base d es d' := by
  have hset : ∀ a, d.Settled a := settled_of_cache_nil hd
  have hset' : ∀ a, d'.Settled a := settled_of_cache_nil hc.1.1.1
  have hvue : ∀ k, k < finV1 (vue base d) → vue base d' k = vue base d k := by
    intro k hlt
    obtain ⟨hs, hv⟩ := hk (secteur base k) ⟨k, Nat.zero_le k, hlt, rfl⟩
    rw [vue, (hset' _).read_eq, (volumeDechire base).cut_settled hc hs, hv, vue, (hset _).read_eq]
  have hfin := secteurContenu_le_finV1 (vue base d)
  exact verdict_ancien hz (fun k _ h2 => hvue k h2) (congrArg _ (hvue 0 (by omega)))

/-- The second half is written without touching the old state. -/
theorem wp_demi_un (hz : ZoneV1 (vue base d)) (hd : d.cache = []) (hes : es.length ≤ entreesMax)
    (hplace : finV1 (vue base d) < debutDemi 1) :
    wp (volumeDechire base) (Kept (Entre base 0 (finV1 (vue base d))) d) (fun _ => True)
      (fun res d₁ => (∀ x, res = some x → DemiEcrite base 1 es d₁ x.1 x.2) ∧
        Kept (Entre base 0 (finV1 (vue base d))) d d₁)
      (ecritDemi base (etatMonte base d) 1 es) d := by
  have hs : Ailleurs (etatMonte base d) (contenuDemi 1) (finDemi 1) := by
    rw [hz.etatMonte_eq]
    exact fun x hx => absurd hx not_mem_nil
  have hsep : ∀ a, Entre base 0 (finV1 (vue base d)) a → ¬Entre base (debutDemi 1) (finDemi 1) a := by
    rintro a ⟨k, -, h2, rfl⟩ ⟨k', h3, h4, hkk⟩
    have hlt := finDemi_lt 1
    have := secteur_inj (by omega) (by omega) hkk
    omega
  refine ((wp_ecritDemi (volumeDechire base) base hes hs d).frame_inv hsep
    fun a _ => ⟨settled_of_cache_nil hd a, rfl⟩).mono ?_ (fun a _ => trivial) fun _ _ h => h
  exact fun d₁ h => h.2

theorem vue_eq_of_kept_v1 (hd : d.cache = []) {d₁ : DisqueBloc}
    (hk : Kept (Entre base 0 (finV1 (vue base d))) d d₁) {k : ℕ} (hlt : k < finV1 (vue base d)) :
    vue base d₁ k = vue base d k :=
  vue_eq_of_kept hk (fun a _ => settled_of_cache_nil hd a) ⟨k, Nat.zero_le k, hlt, rfl⟩

/-- Wherever power is lost during the first synchronisation, the verdict holds. -/
theorem wp_premiere (hb : debut m = some base) (hz : ZoneV1 (vue base d))
    (hlen : (vue base d 0).length = tailleSecteur) (hd : d.cache = [])
    (es : List SnapshotEntree) :
    wp (volumeDechire base) (fun d₁ => ∀ d', (volumeDechire base).cut d₁ d' → Verdict base d es d')
      (fun _ => True) (fun _ _ => True) (synchroniseSnapshot m es (etatMonte base d)) d := by
  have hD : ¬(volumeDechire base).faulty := id
  have hset : ∀ a, d.Settled a := settled_of_cache_nil hd
  have hI : ∀ {d₁}, Kept (Entre base 0 (finV1 (vue base d))) d d₁ →
      ∀ d', (volumeDechire base).cut d₁ d' → Verdict base d es d' :=
    fun hk d' hc => verdict_of_kept hz hd hk hc
  have hI0 : ∀ d', (volumeDechire base).cut d d' → Verdict base d es d' :=
    hI fun a _ => ⟨hset a, rfl⟩
  have hcour : courant (vue base d) = none := choisit_eq_none.mpr (actif_eq_none hz.sansSuperbloc)
  unfold synchroniseSnapshot
  rw [hb]
  simp only
  split
  next => exact ⟨hI0, trivial⟩
  next hmax =>
  have hes := not_lt.mp hmax
  apply wp_bind
  refine wp_superblocCourant hD hI0 ?_
  rw [hcour]
  have hdemi := hz.demiSure_eq hb
  rcases lt_or_ge (finV1 (vue base d)) (debutDemi 1) with hplace | hplace
  · rw [if_pos hplace] at hdemi
    simp only [prochain, hdemi]
    apply wp_bind
    refine (wp_demi_un hz hd hes hplace).mono (fun d₁ hd1 => hI hd1) (fun a _ => trivial) ?_
    rintro res d₁ ⟨hres, hk⟩
    cases res with
    | none => exact ⟨hI hk, trivial⟩
    | some x =>
      obtain ⟨hl, hr, -⟩ := hres x rfl
      have hg : ∀ k, k < finV1 (vue base d) → vue base d₁ k = vue base d k :=
        fun k hlt => vue_eq_of_kept_v1 hd hk hlt
      have hkb : Kept (Entre base 0 (finV1 (vue base d))) d (barriere d₁) := fun a ha =>
        ⟨(hk a ha).1.flush _, ((hk a ha).1.flush_durable _).trans (hk a ha).2⟩
      have hn : superblocDe 1 1 es x.1 = premierSuperbloc es := by rw [hr, premierSuperbloc]
      have hfinal : ∀ d', (volumeDechire base).cut (barriere (pose base (0 : Fin 2).val 1
          (premierSuperbloc es).encode (barriere d₁))) d' → Verdict base d es d' := by
        intro d' hc
        have hset' := barriere_settled base (pose base (0 : Fin 2).val 1
          (premierSuperbloc es).encode (barriere d₁))
        have hvue : ∀ k, vue base d' k = vue base (pose base (0 : Fin 2).val 1
            (premierSuperbloc es).encode (barriere d₁)) k := by
          intro k
          rw [vue, (settled_of_cache_nil hc.1.1.1 _).read_eq,
            (volumeDechire base).cut_settled hc (hset' k), ← (hset' k).read_eq]
          exact read_flush _ _ _
        have hsauf : SaufSuperbloc base 0 d₁ d' := by
          intro k hk hne
          rw [hvue, saufSuperbloc_pose k hk hne, vue_barriere]
        refine verdict_nouveau hes hz (fun k h1 h2 => ?_) (hl.congr (hsauf.memeDemi 1)) ?_
        · have hzone : secteursZone = 262144 := rfl
          have hdedans := hz.dedans
          rw [hsauf k (by omega) (show k ≠ 0 by omega), hg k h2]
        · rw [hvue]
          exact memeTete_pose (t := 0)
      apply wp_bind
      rw [hn]
      exact wp_commet hD (hI hk) (hI hkb) trivial
        (fun d' hc => verdict_pose hes hz hlen hg hl hc) ⟨hfinal, hfinal, trivial⟩
  · rw [if_neg (not_lt.mpr hplace)] at hdemi
    simp only [prochain, hdemi]
    exact ⟨hI0, trivial⟩

/-- Power lost at any point of the first synchronisation of a zone of the first
format: the old files or the new snapshot are restored when the bytes of the
superblock in sector 0 are whole, and only then, unless there was nothing to
lose. -/
theorem migration_v1 {m : Materiel} (hb : debut m = some base) (hz : ZoneV1 (vue base d))
    (hlen : (vue base d 0).length = tailleSecteur) (hd : d.cache = [])
    {p : ProgBloc (ℤ × Etat)} {d₁ : Disk Adresse (List UInt8)}
    (hr : Run (volumeDechire base) (synchroniseSnapshot m es (etatMonte base d), d) (p, d₁))
    (hc : (volumeDechire base).cut d₁ d') :
    (TeteEntiere base d es d' → restaure base d' = restaure base d ∨ restaure base d' = image es) ∧
    (restaure base d ≠ [] → image es ≠ [] →
      restaure base d' = restaure base d ∨ restaure base d' = image es →
      TeteEntiere base d es d') := by
  have hv : Verdict base d es d' := (wp_premiere hb hz hlen hd es).inv_run hr d' hc
  cases hv with
  | ancien ht h => exact ⟨fun _ => .inl h, fun _ _ _ => .inl ht⟩
  | nouveau ht h => exact ⟨fun _ => .inr h, fun _ _ _ => .inr ht⟩
  | perdu ht h =>
    refine ⟨fun ht' => absurd ht' ht, fun h1 h2 hor => ?_⟩
    rw [h] at hor
    rcases hor with hor | hor
    · exact absurd hor.symm h1
    · exact absurd hor.symm h2

variable {n : Superbloc} {k : ℕ}

theorem cut_refl (hd : d.cache = []) : (volumeDechire base).cut d d := by
  have hset : ∀ a, d.Settled a := settled_of_cache_nil hd
  have hmem : ∀ a, d.durable a ∈ d.versions a := fun a => by
    rw [(hset a).versions_eq]
    exact mem_singleton_self _
  refine ⟨⟨⟨hd, fun a => mixture_of_mem (hmem a)⟩, fun i => .inl ⟨_, hmem _, rfl⟩⟩, fun i => ?_⟩
  exact ⟨_, hmem _, 0, rfl⟩

/-- The disk on which the first `k` bytes of the superblock reached sector 0. -/
def dechireA (base : UInt64) (n : Superbloc) (k : ℕ) (d : Disk Adresse (List UInt8)) :
    Disk Adresse (List UInt8) where
  durable a :=
    if a = secteur base 0 then n.encode.take k ++ (vue base d 0).drop k
    else (pose base 0 1 n.encode (barriere d)).read a
  cache := []

/-- Power lost while the superblock is written may leave that disk. -/
theorem cut_dechireA (hk : k ≤ 512) (hx : litSuperbloc (n.encode.take k ++ (vue base d 0).drop k) = none) :
    (volumeDechire base).cut (pose base (0 : Fin 2).val 1 n.encode (barriere d)) (dechireA base n k d) := by
  have hun : secteur base (1 : Fin 2).val ≠ secteur base 0 := fun h => by
    have := secteur_inj (by norm_num) (by norm_num) h
    omega
  have h0 : (dechireA base n k d).durable (secteur base 0) = n.encode.take k ++ (vue base d 0).drop k := if_pos rfl
  have h1 : ∀ a, a ≠ secteur base 0 → (dechireA base n k d).durable a =
      (pose base (0 : Fin 2).val 1 n.encode (barriere d)).read a := fun a ha => if_neg ha
  have hvide : (dechireA base n k d).cache = [] := rfl
  have hver : Disk.versions _ (secteur base 0) = [vue base d 0, n.encode] := @versions_pose base d n 0
  have hdur : (pose base (0 : Fin 2).val 1 n.encode (barriere d)).durable (secteur base 0) = vue base d 0 := rfl
  have hset : (pose base (0 : Fin 2).val 1 n.encode (barriere d)).Settled (secteur base (1 : Fin 2).val) := by
    rw [pose_un n.length_encode]
    refine (barriere_settled base d _).write fun w hw hwk => ?_
    rw [mem_singleton.mp hw] at hwk
    exact hun hwk.symm
  generalize pose base (0 : Fin 2).val 1 n.encode (barriere d) = e at *
  generalize dechireA base n k d = e' at *
  have hmem : ∀ a, a ≠ secteur base 0 → e'.durable a ∈ e.versions a := fun a ha => h1 a ha ▸ read_mem_versions _ _
  refine ⟨⟨⟨hvide, fun a => ?_⟩, fun i => ?_⟩, fun i => ?_⟩
  · by_cases ha : a = secteur base 0
    · intro j
      have hlen : (n.encode.take k).length = k := by simp [hk]
      rw [ha, hver, h0]
      by_cases hj : j < k
      · refine ⟨n.encode, by simp, ?_⟩
        rw [getElem?_append_left (by omega), getElem?_take_of_lt hj]
      · refine ⟨vue base d 0, by simp, ?_⟩
        rw [getElem?_append_right (by omega), hlen, getElem?_drop]
        congr 1
        omega
    · exact mixture_of_mem (hmem a ha)
  · obtain rfl | rfl : i = 0 ∨ i = 1 := by omega
    · exact .inr (h0 ▸ hx)
    · exact .inl ⟨_, hmem _ hun, rfl⟩
  · obtain rfl | rfl : i = 0 ∨ i = 1 := by omega
    · exact ⟨n.encode, hver ▸ mem_cons_of_mem _ (mem_singleton_self _), k, h0.trans (by rw [← hdur]; rfl)⟩
    · exact ⟨_, hmem _ hun, 0, (h1 _ hun).trans hset.read_eq⟩

def enteteA : List UInt8 :=
  splice (splice (splice secteurNul 0 magie) 8 (leBytes 4 1)) 12 (leBytes 4 1)

/-- A table of the first format: the file "a", of one byte. -/
def tableA : List UInt8 := splice (splice secteurNul 0 [0x61]) 240 (leBytes 8 1)

/-- A volume with that zone. -/
def volumeV1 : Disk Adresse (List UInt8) where
  durable a :=
    if a = secteur 262144 0 then enteteA
    else if a = secteur 262144 1 then tableA
    else if a = secteur 262144 1025 then [0x62]
    else []
  cache := []

theorem zoneV1_volumeV1 : ZoneV1 (vue 262144 volumeV1) where
  sansSuperbloc i := by
    obtain rfl | rfl : i = 0 ∨ i = 1 := by omega
    · decide +kernel
    · decide +kernel
  entete := by decide +kernel
  dedans := by decide +kernel

theorem restaure_volumeV1 : restaure 262144 volumeV1 ≠ [] := by
  decide +kernel

/-- The first synchronisation has just started: nothing is torn. -/
theorem migration_v1_intacte :
    TeteEntiere 262144 volumeV1 [Machine.dossierA] volumeV1 ∧
      (restaure 262144 volumeV1 = restaure 262144 volumeV1 ∨
        restaure 262144 volumeV1 = image [Machine.dossierA]) := by
  have htete : TeteEntiere 262144 volumeV1 [Machine.dossierA] volumeV1 := .inl rfl
  exact ⟨htete, (migration_v1 debut_donnees zoneV1_volumeV1 (by decide +kernel) rfl
    Relation.ReflTransGen.refl (cut_refl rfl)).1 htete⟩

def enteteDechiree : List UInt8 := magieV2 ++ enteteA.drop 8

set_option maxRecDepth 100000 in
/-- Power lost when the first eight bytes of the superblock have reached sector
0: neither the old file nor the new directory is restored. -/
theorem entete_dechire : ∃ p d₁ d',
    Run (volumeDechire 262144) (synchroniseSnapshot Machine.donnees [Machine.dossierA]
      (etatMonte 262144 volumeV1), volumeV1) (p, d₁) ∧
    (volumeDechire 262144).cut d₁ d' ∧ restaure 262144 d' ≠ restaure 262144 volumeV1 ∧
    restaure 262144 d' ≠ image [Machine.dossierA] := by
  have hcour : courant (vue 262144 volumeV1) = none :=
    choisit_eq_none.mpr (actif_eq_none zoneV1_volumeV1.sansSuperbloc)
  have hplace : finV1 (vue 262144 volumeV1) < debutDemi 1 := by decide +kernel
  have hdemi : (etatMonte 262144 volumeV1).demiSure
      (prochain (courant (vue 262144 volumeV1))).2.1 = some 1 := by
    rw [hcour]
    exact (zoneV1_volumeV1.demiSure_eq debut_donnees).trans (if_pos hplace)
  obtain ⟨-, _, rfl, -, hrun⟩ := synchroniseSnapshot_reussit debut_donnees hdemi (tient_dossierA 1)
  obtain ⟨p, hrun⟩ := hrun (volumeDechire 262144)
  rw [hcour] at hrun
  have hx : (premierSuperbloc [Machine.dossierA]).encode.take 8 ++
      (vue 262144 ((ecritDemi 262144 (etatMonte 262144 volumeV1) 1 [Machine.dossierA]).exec volumeV1).2 0).drop 8 =
        enteteDechiree := by
    decide +kernel
  have hlost : restaure 262144 (dechireA 262144 (premierSuperbloc [Machine.dossierA]) 8
      ((ecritDemi 262144 (etatMonte 262144 volumeV1) 1 [Machine.dossierA]).exec volumeV1).2) = [] := by
    decide +kernel
  have hnone : litSuperbloc enteteDechiree = none := by decide +kernel
  generalize ((ecritDemi 262144 (etatMonte 262144 volumeV1) 1 [Machine.dossierA]).exec volumeV1).2 = e
    at hrun hx hlost
  have hcut := @cut_dechireA 262144 e (premierSuperbloc [Machine.dossierA]) 8 (by norm_num) (by rw [hx]; exact hnone)
  refine ⟨p, _, _, hrun, hcut, ?_⟩
  rw [hlost]
  exact ⟨restaure_volumeV1.symm, by decide⟩

end BouchaudOS.Persist
