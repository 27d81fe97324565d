import BouchaudOS.Persist.Synchronise

/-!
# The commit is atomic

Along every sequence of synchronisations and power cuts, what a mount restores
is the snapshot of the last synchronisation that succeeded, or the one in
flight when power was lost. No write of a synchronisation touches the superblock
or the half of the committed generation.
-/
namespace BouchaudOS.Persist

open Bytes VersionedPair List Superbloc Function
open Prog hiding pure

variable {lire lire' : ℕ → List UInt8} {lues : List Lue}

section

variable (lire : ℕ → List UInt8)

def actif : Option Superbloc := newest version (superblocs lire)

theorem actif_eq : actif lire = (courant lire).map Prod.snd :=
  (choisit_eq_newest _).symm

theorem zoneLue_eq :
    zoneLue lire = match actif lire with
      | some s => luesV2 lire s
      | none => luesV1 lire := by
  rw [zoneLue, actif_eq]
  cases courant lire <;> rfl

/-- The eighth byte of sector 0 is not the one of a header of the first format,
so no tear of a superblock leaves such a header there. -/
def SansV1 : Prop := (lire 0)[7]? ≠ some 0x31

theorem plage_un (r : ℕ) : plage lire r 1 = (lire r).takeD tailleSecteur 0 := append_nil _

end

theorem slice_plage_ne_magie (h : SansV1 lire) : slice (plage lire 0 1) 0 8 ≠ magie := by
  intro hm
  have h7 : (slice (plage lire 0 1) 0 8)[7]? = some 0x31 := by rw [hm]; rfl
  rw [getElem?_slice, if_pos (by norm_num), plage_un, Nat.zero_add,
    getElem?_takeD _ _ (show 7 < tailleSecteur by decide), getD_eq_getElem?_getD] at h7
  cases h8 : (lire 0)[7]? with
  | none => rw [h8] at h7; cases h7
  | some b =>
    rw [h8] at h7
    exact h (h8.trans h7)

theorem luesV1_eq_nil (h : SansV1 lire) : luesV1 lire = [] := by
  simp [luesV1, enteteV1, slice_plage_ne_magie h]

/-- A zone from which `lues` is restored: the contents of the active half lie
inside it, and without an active half there is nothing. -/
structure Saine (lire : ℕ → List UInt8) (lues : List Lue) : Prop where
  dedans : ∀ s, actif lire = some s → Dedans lire s
  vierge : actif lire = none → SansV1 lire
  restaure : zoneLue lire = lues

theorem Saine.congr (h : Saine lire lues) (ha : actif lire' = actif lire)
    (hm : ∀ s, actif lire = some s → MemeDemi s.demi lire lire')
    (hv : actif lire = none → SansV1 lire') : Saine lire' lues := by
  refine ⟨fun s hs => ?_, fun hn => hv (ha.symm.trans hn), ?_⟩
  · rw [ha] at hs
    exact (hm s hs).dedans (h.dedans s hs)
  · rw [← h.restaure, zoneLue_eq, zoneLue_eq, ha]
    cases hs : actif lire with
    | none => exact (luesV1_eq_nil (hv hs)).trans (luesV1_eq_nil (h.vierge hs)).symm
    | some s => exact (hm s hs).luesV2_eq (h.dedans s hs)

/-- The superblock a synchronisation writes. -/
structure Annonce (s : Superbloc) (es : List SnapshotEntree) : Prop where
  entrees : s.entrees.toNat = es.length
  somme : s.sommeTable = sommeControle (table es)

theorem saine_image {s : Superbloc} {es : List SnapshotEntree} (ha : actif lire = some s)
    (hl : Loge lire s.demi es) (hs : Annonce s es) : Saine lire (image es) := by
  obtain ⟨hlues, hdedans⟩ := hl.luesV2_eq hs.entrees hs.somme
  refine ⟨fun s' hs' => ?_, fun hn => ?_, ?_⟩
  · rw [ha] at hs'
    cases hs'
    exact hdedans
  · rw [ha] at hn
    cases hn
  · rw [zoneLue_eq, ha]
    exact hlues

def cible (lire : ℕ → List UInt8) : Fin 2 := (prochain (courant lire)).1

theorem actif_perdu (h : superblocs lire' = update (superblocs lire) (cible lire) none) :
    actif lire' = actif lire := by
  unfold actif
  cases hc : courant lire with
  | none =>
    have hn : newest version (superblocs lire) = none := choisit_eq_none.mp hc
    have hp : superblocs lire' = superblocs lire := by
      rw [h, update_eq_self_iff]
      exact (eq_none_of_newest hn _).symm
    rw [hp]
  | some es =>
    have hg : Guards version (superblocs lire) (1 - es.1) es.2 := guards_of_choisit hc
    have ht : cible lire = 1 - es.1 := by rw [cible, hc]; rfl
    rw [h, ht, hg.newest_update_none, hg.current]

theorem actif_commis {t : Fin 2} {n : Superbloc} (h : superblocs lire' = update (superblocs lire) t (some n))
    (hn : ∀ s, actif lire = some s → version s < version n) : actif lire' = some n := by
  rw [actif, h]
  exact newest_update_newer hn t

theorem superblocs_congr {t : Fin 2} (h : ∀ i : Fin 2, i ≠ t → lire' i.val = lire i.val) :
    superblocs lire' = update (superblocs lire) t (superblocs lire' t) := by
  refine eq_update_of_eq rfl ?_
  show decode (plage lire' _ 1) = decode (plage lire _ 1)
  rw [plage_un, plage_un, h (1 - t) (by omega)]

theorem debutDemi_ge (demi : Fin 2) : 2 ≤ debutDemi demi := Nat.le_add_right _ _

def litSuperbloc (o : List UInt8) : Option Superbloc :=
  decode (octetsDe tailleSecteur [o])

def MemeTete (x y : List UInt8) : Prop := x.take tailleSuperbloc = y.take tailleSuperbloc

variable {x y : List UInt8}

theorem MemeTete.slice_eq (h : MemeTete x y) {k l : ℕ} (hk : k + l ≤ 44) :
    slice (octetsDe tailleSecteur [x]) k l = slice (octetsDe tailleSecteur [y]) k l := by
  have hun : ∀ o : List UInt8, octetsDe tailleSecteur [o] = o.takeD tailleSecteur 0 := fun _ =>
    append_nil _
  rw [hun, hun]
  exact slice_takeD_congr 0 h hk (by decide)

theorem MemeTete.litSuperbloc_eq (h : MemeTete x y) : litSuperbloc x = litSuperbloc y := by
  apply decode_congr
  rw [← slice_zero, ← slice_zero]
  exact h.slice_eq le_rfl

theorem MemeTete.getElem? (h : MemeTete x y) {k : ℕ} (hk : k < 44) : x[k]? = y[k]? := by
  rw [← getElem?_take_of_lt hk, ← getElem?_take_of_lt (l := y) hk]
  exact congrArg (·[k]?) h

/-- A torn superblock whose checksummed bytes are neither the old nor the new
ones fails to decode. -/
def SuperblocsDetectes (base : UInt64) (d d' : Disk Adresse (List UInt8)) : Prop :=
  ∀ i : Fin 2, (∃ v ∈ d.versions (secteur base i.val), MemeTete (d'.durable (secteur base i.val)) v) ∨
    litSuperbloc (d'.durable (secteur base i.val)) = none

/-- The volume of the zone: power loss tears the pending sectors into any byte
mixture, and torn superblocks are detected. Requests do not fail, barriers
included. -/
def volumeZone (base : UInt64) : Device Adresse (List UInt8) where
  cut d d' := PowerLoss d d' ∧ SuperblocsDetectes base d d'
  faulty := False
  fault _ _ := False
  cut_cache h := h.1.1
  cut_settled h _ ha := h.1.durable_eq ha
  fault_settled h := h.elim

variable {base : UInt64} {d d' : DisqueBloc} {lues : List Lue}

def Garde (base : UInt64) (lire : ℕ → List UInt8) (a : Adresse) : Prop :=
  (∃ i : Fin 2, a = secteur base i.val) ∨
    ∃ s, actif lire = some s ∧ Entre base (debutDemi s.demi) (finDemi s.demi) a

/-- The zone is at rest: `lues` is restored from it, whatever happens to the
writes still pending. -/
structure Repos (base : UInt64) (d : Disk Adresse (List UInt8)) (lues : List Lue) : Prop where
  saine : Saine (vue base d) lues
  posee : ∀ a, Garde base (vue base d) a → d.Settled a

theorem vue_eq_of_kept {S : Adresse → Prop} (h : Kept S d d') (hd : ∀ a, S a → d.Settled a)
    {k : ℕ} (hk : S (secteur base k)) : vue base d' k = vue base d k := by
  obtain ⟨hs, hv⟩ := h _ hk
  rw [vue, vue, hs.read_eq, hv, (hd _ hk).read_eq]

theorem Repos.kept (h : Repos base d lues) (hk : Kept (Garde base (vue base d)) d d') :
    Repos base d' lues := by
  have hsb : ∀ i : Fin 2, vue base d' i.val = vue base d i.val := fun i =>
    vue_eq_of_kept hk h.posee (.inl ⟨i, rfl⟩)
  have hp : superblocs (vue base d') = superblocs (vue base d) := by
    funext i
    show decode (plage _ _ 1) = decode (plage _ _ 1)
    rw [plage_un, plage_un, hsb i]
  have ha : actif (vue base d') = actif (vue base d) := by rw [actif, actif, hp]
  refine ⟨h.saine.congr ha (fun s hs k h1 h2 => ?_) fun hn => ?_, fun a hga => ?_⟩
  · exact (vue_eq_of_kept hk h.posee (.inr ⟨s, hs, k, h1, h2, rfl⟩)).symm
  · have h0 : vue base d' 0 = vue base d 0 := hsb 0
    rw [SansV1, h0]
    exact h.saine.vierge hn
  · rw [Garde, ha] at hga
    exact (hk a hga).1

theorem kept_of_cut (hc : (volumeZone base).cut d d') {S : Adresse → Prop}
    (hd : ∀ a, S a → d.Settled a) : Kept S d d' := fun a ha =>
  ⟨Disk.settled_of_cache_nil ((volumeZone base).cut_cache hc) a, (volumeZone base).cut_settled hc (hd a ha)⟩

theorem Repos.cut (h : Repos base d lues) (hc : (volumeZone base).cut d d') : Repos base d' lues :=
  h.kept (kept_of_cut hc h.posee)

/-- Wherever power is lost, one of the two snapshots is restored. -/
def Atomique (base : UInt64) (lues nouvelles : List Lue) (d : Disk Adresse (List UInt8)) : Prop :=
  ∀ d', (volumeZone base).cut d d' → Repos base d' lues ∨ Repos base d' nouvelles

theorem Repos.atomique (h : Repos base d lues) (nouvelles : List Lue) :
    Atomique base lues nouvelles d := fun _ hc => .inl (h.cut hc)

theorem Repos.barriere (h : Repos base d lues) : Repos base (barriere d) lues :=
  h.kept fun a ha => ⟨(h.posee a ha).flush _, (h.posee a ha).flush_durable _⟩

/-- A disk on which the snapshot is in place and only the superblock is missing. -/
structure Prete (base : UInt64) (lues : List Lue) (es : List SnapshotEntree) (n : Superbloc)
    (d : Disk Adresse (List UInt8)) : Prop where
  repos : Repos base d lues
  loge : Loge (vue base d) n.demi es
  annonce : Annonce n es
  plusRecent : ∀ s, actif (vue base d) = some s → version s < version n

theorem pose_un {r : ℕ} {o : List UInt8} (ho : o.length = tailleSecteur) :
    pose base r 1 o d = d.write [(secteur base r, o)] := by
  have hd : decoupe tailleSecteur 1 o = [o] := by
    rw [decoupe, decoupe, take_of_length_le ho.le]
  have ha : adresses volumePersistant (base + UInt64.ofNat r) 1 = [secteur base r] := by
    simp [adresses, secteur]
  rw [pose, hd, ha]
  rfl

theorem litSuperbloc_encode (n : Superbloc) : litSuperbloc n.encode = some n := by
  have h : octetsDe tailleSecteur [n.encode] = n.encode := octetsDe_singleton n.length_encode
  rw [litSuperbloc, h, Superbloc.decode_encode]

theorem encode_sept (n : Superbloc) : n.encode[7]? = some 0x32 := by
  have h : (slice n.encode 0 8)[7]? = some 0x32 := by rw [n.slice_encode_magie]; rfl
  rwa [getElem?_slice, if_pos (by norm_num)] at h

variable {es : List SnapshotEntree} {n : Superbloc} {t : Fin 2}

/-- The disks agree on the zone, except for the superblock at `t`. -/
def SaufSuperbloc (base : UInt64) (t : Fin 2) (d d' : Disk Adresse (List UInt8)) : Prop :=
  ∀ k, k < 2 ^ 50 → k ≠ t.val → vue base d' k = vue base d k

theorem SaufSuperbloc.superblocs_eq (hk : SaufSuperbloc base t d d') :
    superblocs (vue base d') = update (superblocs (vue base d)) t (litSuperbloc (vue base d' t.val)) :=
  superblocs_congr fun i hi => hk i.val (by omega) (by omega)

theorem SaufSuperbloc.memeDemi (hk : SaufSuperbloc base t d d') (demi : Fin 2) :
    MemeDemi demi (vue base d) (vue base d') := by
  intro k h1 h2
  have hlt := finDemi_lt demi
  have hge := debutDemi_ge demi
  exact (hk k (by omega) (by omega)).symm

theorem Prete.saine_ancien (hp : Prete base lues es n d) (hk : SaufSuperbloc base t d d')
    (hx : MemeTete (vue base d' t.val) (vue base d t.val)) : Saine (vue base d') lues := by
  have hsame : superblocs (vue base d') = superblocs (vue base d) := by
    rw [hk.superblocs_eq, update_eq_self_iff, hx.litSuperbloc_eq]
    rfl
  have h7 : (vue base d' 0)[7]? = (vue base d 0)[7]? := by
    by_cases h0 : t.val = 0
    · rw [h0] at hx
      exact hx.getElem? (by norm_num)
    · rw [hk 0 (by norm_num) (Ne.symm h0)]
  refine hp.repos.saine.congr (by rw [actif, actif, hsame]) (fun s _ => hk.memeDemi _) fun hn => ?_
  rw [SansV1, h7]
  exact hp.repos.saine.vierge hn

theorem Prete.saine_commise (hp : Prete base lues es n d) (hk : SaufSuperbloc base t d d')
    (hx : MemeTete (vue base d' t.val) n.encode) :
    Saine (vue base d') (image es) ∧ actif (vue base d') = some n := by
  have hn : actif (vue base d') = some n := by
    refine actif_commis (t := t) ?_ hp.plusRecent
    rw [hk.superblocs_eq, hx.litSuperbloc_eq, litSuperbloc_encode]
  exact ⟨saine_image hn (hp.loge.congr (hk.memeDemi _)) hp.annonce, hn⟩

theorem Prete.saine_perdue (hp : Prete base lues es n d) (ht : t = cible (vue base d))
    (hk : SaufSuperbloc base t d d') (hx : litSuperbloc (vue base d' t.val) = none)
    (hv : SansV1 (vue base d) → SansV1 (vue base d')) : Saine (vue base d') lues := by
  have ha : actif (vue base d') = actif (vue base d) := by
    apply actif_perdu
    rw [hk.superblocs_eq, hx, ht]
  exact hp.repos.saine.congr ha (fun s _ => hk.memeDemi _) fun hn => hv (hp.repos.saine.vierge hn)

theorem Prete.barriere (hp : Prete base lues es n d) : Prete base lues es n (barriere d) := by
  obtain ⟨hr, hl, ha, hv⟩ := hp
  exact ⟨hr.barriere, by rwa [vue_barriere], ha, by rwa [vue_barriere]⟩

theorem saufSuperbloc_pose : SaufSuperbloc base t d (pose base t.val 1 n.encode d) := fun _ hk hne =>
  vue_pose (by omega) (by omega) (by omega)

theorem vue_pose_encode : vue base (pose base t.val 1 n.encode d) t.val = n.encode := by
  rw [pose_un n.length_encode, vue, Disk.read_write_single]

theorem memeTete_pose : MemeTete (vue base (pose base t.val 1 n.encode d) t.val) n.encode := by
  rw [vue_pose_encode]
  rfl

/-- Power lost after the superblock was handed to the disk leaves the rest of
the zone as the barrier left it. -/
theorem saufSuperbloc_of_cut {D : Device Adresse (List UInt8)}
    (hc : D.cut (pose base t.val 1 n.encode (Persist.barriere d)) d') :
    SaufSuperbloc base t (Persist.barriere d) d' := by
  have hset := barriere_settled base d
  intro k hk hne
  have hs : (pose base t.val 1 n.encode (Persist.barriere d)).Settled (secteur base k) := by
    rw [pose_un n.length_encode]
    refine (hset k).write fun w hw hwk => ?_
    rw [mem_singleton.mp hw] at hwk
    exact hne (secteur_inj (by omega) (by omega) hwk).symm
  rw [vue, (Disk.settled_of_cache_nil (D.cut_cache hc) _).read_eq, D.cut_settled hc hs, vue, (hset k).read_eq]
  rfl

theorem versions_pose : (pose base t.val 1 n.encode (Persist.barriere d)).versions
      (secteur base t.val) = [vue base d t.val, n.encode] := by
  have hset := barriere_settled base d t.val
  rw [pose_un n.length_encode, Disk.versions_write_single hset, ← hset.read_eq]
  exact congrArg (fun v => [v, n.encode]) (Disk.read_flush _ _ _)

theorem Prete.atomique_pose (hp : Prete base lues es n d) (ht : t = cible (vue base d)) :
    Atomique base lues (image es) (pose base t.val 1 n.encode (Persist.barriere d)) := by
  intro d' hc
  have hk : SaufSuperbloc base t d d' := by
    have hk := saufSuperbloc_of_cut hc
    rwa [SaufSuperbloc, vue_barriere] at hk
  have hlu : ∀ k, vue base d' k = d'.durable (secteur base k) := fun k =>
    (Disk.settled_of_cache_nil hc.1.1 _).read_eq
  have hposee : ∀ a, Garde base (vue base d') a → d'.Settled a := fun a _ =>
    Disk.settled_of_cache_nil hc.1.1 a
  rcases hc.2 t with ⟨v, hv, hx⟩ | hx
  · rw [versions_pose] at hv
    rw [← hlu] at hx
    rcases mem_cons.mp hv with rfl | hv
    · exact .inl ⟨hp.saine_ancien hk hx, hposee⟩
    · rw [mem_singleton.mp hv] at hx
      exact .inr ⟨(hp.saine_commise hk hx).1, hposee⟩
  · rw [← hlu] at hx
    refine .inl ⟨hp.saine_perdue ht hk hx fun hv => ?_, hposee⟩
    by_cases h0 : t.val = 0
    · have hmix := hc.1.2 (secteur base t.val) 7
      rw [versions_pose, ← hlu, h0] at hmix
      obtain ⟨v, hv', hv7⟩ := hmix
      rw [SansV1, hv7]
      rcases mem_cons.mp hv' with rfl | hv'
      · exact hv
      · rw [mem_singleton.mp hv', encode_sept]
        decide
    · rw [SansV1, hk 0 (by norm_num) (Ne.symm h0)]
      exact hv

theorem Prete.repos_commis (hp : Prete base lues es n d) :
    Repos base (Persist.barriere (pose base t.val 1 n.encode (Persist.barriere d))) (image es) ∧
      actif (vue base (Persist.barriere (pose base t.val 1 n.encode (Persist.barriere d)))) =
        some n := by
  rw [vue_barriere]
  obtain ⟨hs, ha⟩ := hp.barriere.saine_commise (t := t) saufSuperbloc_pose memeTete_pose
  refine ⟨⟨by rwa [vue_barriere], fun a hga => ?_⟩, ha⟩
  rcases hga with ⟨i, rfl⟩ | ⟨s, -, k, -, -, rfl⟩
  · exact barriere_settled _ _ _
  · exact barriere_settled _ _ _

variable {base : UInt64} {d : DisqueBloc} {lues : List Lue} {lire : ℕ → List UInt8} {s : Etat}

/-- The sectors a synchronisation may write: the superblock and the half that
are not active. -/
def Ecrivable (base : UInt64) (lire : ℕ → List UInt8) (a : Adresse) : Prop :=
  a = secteur base (cible lire).val ∨
    Entre base (debutDemi (prochain (courant lire)).2.1) (finDemi (prochain (courant lire)).2.1) a

/-- What is known of the disk is in the active half. -/
structure Connu (s : Etat) (lire : ℕ → List UInt8) : Prop where
  sansV1 : s.v1Fin = 0
  actif : ∀ x ∈ s.disque, x.longueur ≠ 0 →
    ∃ a, actif lire = some a ∧ contenuDemi a.demi ≤ x.secteur ∧ x.secteur < finDemi a.demi

def PeutCroitre (lire : ℕ → List UInt8) : Prop :=
  ∀ s, actif lire = some s → s.generation.toNat < 2 ^ 64 - 1

theorem demi_separees {demi : Fin 2} {k k' : ℕ} (h1 : debutDemi demi ≤ k) (h2 : k < finDemi demi)
    (h3 : debutDemi (1 - demi) ≤ k') (h4 : k' < finDemi (1 - demi)) : k ≠ k' := by
  have hd : demi = 0 ∨ demi = 1 := by omega
  rcases hd with rfl | rfl
  · simp [debutDemi, finDemi, secteursDemi, secteursSuperblocs, secteursZone] at h1 h2 h3 h4
    omega
  · simp [debutDemi, finDemi, secteursDemi, secteursSuperblocs, secteursZone] at h1 h2 h3 h4
    omega

theorem Connu.ailleurs (h : Connu s lire) :
    Ailleurs s (contenuDemi (prochain (courant lire)).2.1) (finDemi (prochain (courant lire)).2.1) := by
  intro x hx hl ⟨h1, h2⟩
  obtain ⟨a, ha, h3, h4⟩ := h.actif x hx hl
  rw [actif_eq, Option.map_eq_some_iff] at ha
  obtain ⟨⟨e, s⟩, hc, rfl⟩ := ha
  rw [hc] at h1 h2
  have hge : ∀ demi, debutDemi demi ≤ contenuDemi demi := fun _ => Nat.le_add_right _ _
  exact demi_separees ((hge _).trans h3) h4 ((hge _).trans h1) h2 rfl

theorem Connu.demiSure (h : Connu s lire) (demi : Fin 2) : s.demiSure demi = some demi := by
  simp [Etat.demiSure, Etat.demiRecouvreLaV1, h.sansV1]

theorem Connu.oublie (h : Connu s lire) (lire' : ℕ → List UInt8) : Connu s.oublieLeDisque lire' :=
  ⟨h.sansV1, fun _ hx => absurd hx not_mem_nil⟩

/-- The half that is written is not guarded. -/
theorem not_garde_demi {a : Adresse} (hg : Garde base lire a) :
    ¬Entre base (debutDemi (prochain (courant lire)).2.1) (finDemi (prochain (courant lire)).2.1) a := by
  rintro ⟨k, h1, h2, rfl⟩
  have hlt := finDemi_lt (prochain (courant lire)).2.1
  rcases hg with ⟨i, hi⟩ | ⟨s, hs, k', h3, h4, hk'⟩
  · have hki := secteur_inj (by omega) (by omega) hi
    have hge := debutDemi_ge (prochain (courant lire)).2.1
    omega
  · have hlt' := finDemi_lt s.demi
    have hkk := secteur_inj (by omega) (by omega) hk'
    rw [actif_eq, Option.map_eq_some_iff] at hs
    obtain ⟨⟨e, s⟩, hc, rfl⟩ := hs
    rw [hc] at h1 h2
    exact demi_separees h3 h4 h1 h2 hkk.symm

theorem version_prochain (hg : PeutCroitre lire) {n : Superbloc}
    (hn : n.generation = (prochain (courant lire)).2.2) :
    ∀ s, actif lire = some s → version s < version n := by
  intro s hs
  have hlt := hg s hs
  rw [actif_eq, Option.map_eq_some_iff] at hs
  obtain ⟨⟨e, s⟩, hc, rfl⟩ := hs
  rw [hc] at hn
  rw [version, version, hn]
  show s.generation.toNat < (s.generation + 1).toNat
  rw [UInt64.toNat_add]
  simp only [UInt64.reduceToNat]
  change s.generation.toNat < 2 ^ 64 - 1 at hlt
  omega

def Issue (base : UInt64) (lues : List Lue) (es : List SnapshotEntree) (r : ℤ × Etat)
    (d' : Disk Adresse (List UInt8)) : Prop :=
  Repos base d' (if 0 ≤ r.1 then image es else lues) ∧ Connu r.2 (vue base d')

theorem issue_echec {es : List SnapshotEntree}
    (hr : Repos base d lues) (hs : Connu s lire) : Issue base lues es (-1, s.oublieLeDisque) d :=
  ⟨hr, hs.oublie _⟩

/-- A synchronisation from a zone at rest is atomic, writes only what is not
active, and leaves a zone at rest. -/
theorem wp_synchroniseSnapshot {m : Materiel} (hb : debut m = some base)
    (hr : Repos base d lues) (hs : Connu s (vue base d)) (hg : PeutCroitre (vue base d))
    (es : List SnapshotEntree) :
    wp (volumeZone base) (Atomique base lues (image es)) (Ecrivable base (vue base d))
      (Issue base lues es) (synchroniseSnapshot m es s) d := by
  have hD : ¬(volumeZone base).faulty := id
  have hat := hr.atomique (image es)
  unfold synchroniseSnapshot
  rw [hb]
  simp only
  split
  next => exact ⟨hat, issue_echec hr hs⟩
  next hmax =>
  apply wp_bind
  refine wp_superblocCourant hD hat ?_
  simp only [hs.demiSure]
  apply wp_bind
  -- the half is written under the frame of the guarded sectors
  have hframe := (wp_ecritDemi (volumeZone base) base (not_lt.mp hmax) hs.ailleurs d).frame_inv
    (S := Garde base (vue base d)) (fun a ha => not_garde_demi ha) fun a ha => ⟨hr.posee a ha, rfl⟩
  refine hframe.mono (fun d' hd' => (hr.kept hd'.2).atomique _) (fun a ha => .inr ha) ?_
  rintro res d' ⟨hres, hkept⟩
  have hr' := hr.kept hkept
  cases res with
  | none => exact ⟨hr'.atomique _, issue_echec hr' hs⟩
  | some x =>
    obtain ⟨hloge, -, hconnus⟩ := hres x rfl
    have hsb : superblocs (vue base d') = superblocs (vue base d) := by
      funext i
      show decode (plage _ _ 1) = decode (plage _ _ 1)
      rw [plage_un, plage_un, vue_eq_of_kept hkept hr.posee (.inl ⟨i, rfl⟩)]
    have hcour : courant (vue base d') = courant (vue base d) := by rw [courant, courant, hsb]
    have hact : actif (vue base d') = actif (vue base d) := by rw [actif, actif, hsb]
    have hlen : (UInt32.ofNat es.length).toNat = es.length := by
      have : es.length < 2 ^ 32 := (not_lt.mp hmax).trans_lt (by decide)
      exact UInt32.toNat_ofNat_of_lt' this
    have hp : Prete base lues es (superblocDe (prochain (courant (vue base d))).2.2
        (prochain (courant (vue base d))).2.1 es x.1) d' :=
      ⟨hr', hloge, ⟨hlen, rfl⟩, by rw [hact]; exact version_prochain hg rfl⟩
    have ht : (prochain (courant (vue base d))).1 = cible (vue base d') := by rw [cible, hcour]
    obtain ⟨hfin, hactif⟩ := hp.repos_commis (t := (prochain (courant (vue base d))).1)
    apply wp_bind
    refine wp_commet hD (hr'.atomique _) (hr'.barriere.atomique _) (.inl rfl)
      (hp.atomique_pose ht) ⟨fun _ hc => .inr (hfin.cut hc), fun _ hc => .inr (hfin.cut hc), ?_⟩
    refine ⟨by simpa using hfin, rfl, fun y hy hl => ⟨_, hactif, hconnus y hy hl⟩⟩

def restaure (base : UInt64) (d : Disk Adresse (List UInt8)) : List Lue :=
  ((releveZone base .demarrage).exec d).1.1

def etatMonte (base : UInt64) (d : Disk Adresse (List UInt8)) : Etat :=
  ((releveZone base .demarrage).exec d).1.2

/-- A synchronisation in flight: its snapshot, the superblock committed when it
started, and what remains of it. -/
structure Vol where
  snapshot : List SnapshotEntree
  commis : Option (Fin 2 × Superbloc)
  prog : ProgBloc (ℤ × Etat)

/-- The machine: the disk, the state in memory, the last snapshot committed, as
a mount restores it, and the synchronisation in flight. -/
structure Machine where
  disque : Disk Adresse (List UInt8)
  etat : Etat
  dernier : List Lue
  enVol : Option Vol

def Machine.monte (base : UInt64) (d : Disk Adresse (List UInt8)) : Machine :=
  ⟨d, etatMonte base d, restaure base d, none⟩

/-- One step of the machine. -/
inductive Machine.Pas (m : Materiel) (base : UInt64) : Machine → Machine → Prop
  /-- A synchronisation starts, below the last generation. -/
  | lance {c : Machine} (es : List SnapshotEntree) : c.enVol = none →
      PeutCroitre (vue base c.disque) →
      Pas m base c { c with
        enVol := some ⟨es, courant (vue base c.disque), synchroniseSnapshot m es c.etat⟩ }
  /-- Its next request is served. -/
  | avance {c : Machine} {v : Vol} {p : ProgBloc (ℤ × Etat)} {d : Disk Adresse (List UInt8)} :
      c.enVol = some v → Step (volumeZone base) (v.prog, c.disque) (p, d) →
      Pas m base c { c with disque := d, enVol := some { v with prog := p } }
  /-- It returns. -/
  | termine {c : Machine} {v : Vol} {r : ℤ} {s : Etat} :
      c.enVol = some v → v.prog = .pure (r, s) →
      Pas m base c ⟨c.disque, s, if 0 ≤ r then image v.snapshot else c.dernier, none⟩
  /-- Power is lost; the machine boots and mounts the zone. -/
  | coupure {c : Machine} {d : Disk Adresse (List UInt8)} : (volumeZone base).cut c.disque d →
      Pas m base c (monte base d)

/-- A blank zone, or a zone of the second format whose contents lie in its
active half. -/
structure ViergeOuV2 (lire : ℕ → List UInt8) : Prop where
  dedans : ∀ s, actif lire = some s → Dedans lire s
  vierge : actif lire = none → SansV1 lire

/-- The invariant of the machine. -/
def Machine.Inv (base : UInt64) (c : Machine) : Prop :=
  match c.enVol with
  | none => Repos base c.disque c.dernier ∧ Connu c.etat (vue base c.disque)
  | some v => ∃ lire, v.commis = courant lire ∧
      wp (volumeZone base) (Atomique base c.dernier (image v.snapshot)) (Ecrivable base lire)
        (Issue base c.dernier v.snapshot) v.prog c.disque

namespace Machine

variable {m : Materiel} {base : UInt64} {c c' : Machine} {d : DisqueBloc}

theorem restaure_eq (base : UInt64) (d : DisqueBloc) : restaure base d = zoneLue (vue base d) := by
  rw [restaure, exec_releveZone]

theorem connu_etatMonte (h : ViergeOuV2 (vue base d)) : Connu (etatMonte base d) (vue base d) := by
  rw [etatMonte, exec_releveZone]
  refine ⟨?_, fun _ hx => absurd hx not_mem_nil⟩
  unfold etendueLue
  cases hc : courant (vue base d) with
  | some es => rfl
  | none =>
    have ha : actif (vue base d) = none := by rw [actif_eq, hc]; rfl
    simp [slice_plage_ne_magie (h.vierge ha)]

theorem inv_of_repos {lues : List Lue} (h : Repos base d lues) : Inv base (monte base d) := by
  refine ⟨?_, connu_etatMonte ⟨h.saine.dedans, h.saine.vierge⟩⟩
  change Repos base d (restaure base d)
  rwa [restaure_eq, h.saine.restaure]

theorem inv_monte (hz : ViergeOuV2 (vue base d)) (hc : d.cache = []) : Inv base (monte base d) :=
  inv_of_repos ⟨⟨hz.dedans, hz.vierge, rfl⟩, fun a _ => Disk.settled_of_cache_nil hc a⟩

theorem Inv.coupure (h : Inv base c) (hc : (volumeZone base).cut c.disque d) :
    Repos base d c.dernier ∨ ∃ v, c.enVol = some v ∧ Repos base d (image v.snapshot) := by
  unfold Inv at h
  split at h
  next => exact .inl (h.1.cut hc)
  next v hv =>
    obtain ⟨lire, -, hwp⟩ := h
    rcases hwp.inv d hc with hr | hr
    · exact .inl hr
    · exact .inr ⟨v, hv, hr⟩

theorem inv_pas (hb : debut m = some base) (h : Inv base c) (hs : Pas m base c c') : Inv base c' := by
  cases hs with
  | lance es hv hg =>
    unfold Inv at h
    rw [hv] at h
    exact ⟨_, rfl, wp_synchroniseSnapshot hb h.1 h.2 hg es⟩
  | avance hv hstep =>
    unfold Inv at h
    rw [hv] at h
    obtain ⟨lire, hcommis, hwp⟩ := h
    exact ⟨lire, hcommis, wp.step hwp hstep⟩
  | termine hv hpure =>
    unfold Inv at h
    rw [hv] at h
    obtain ⟨lire, -, hwp⟩ := h
    rw [hpure] at hwp
    exact hwp.2
  | coupure hc =>
    rcases h.coupure hc with hr | ⟨v, -, hr⟩
    · exact inv_of_repos hr
    · exact inv_of_repos hr

theorem inv_run (hb : debut m = some base) (h : Inv base c)
    (hr : Relation.ReflTransGen (Pas m base) c c') : Inv base c' := by
  induction hr with
  | refl => exact h
  | tail _ hs ih => exact inv_pas hb ih hs

/-- The superblock and the half of a committed generation. -/
def Commise (base : UInt64) (commis : Option (Fin 2 × Superbloc)) (a : Adresse) : Prop :=
  ∃ e s, commis = some (e, s) ∧ (a = secteur base e.val ∨ Entre base (debutDemi s.demi) (finDemi s.demi) a)

theorem not_commise_of_ecrivable {lire : ℕ → List UInt8} {a : Adresse}
    (h : Ecrivable base lire a) : ¬Commise base (courant lire) a := by
  rintro ⟨e, s, hc, ha⟩
  have hgarde : Garde base lire a := by
    rcases ha with rfl | ha
    · exact .inl ⟨e, rfl⟩
    · exact .inr ⟨s, by rw [actif_eq, hc]; rfl, ha⟩
  rcases h with rfl | h
  · have ht : cible lire = 1 - e := by rw [cible, hc]; rfl
    rcases ha with ha | ⟨k, h1, h2, hk⟩
    · have := secteur_inj (by omega) (by omega) ha
      omega
    · have hlt := finDemi_lt s.demi
      have hge := debutDemi_ge s.demi
      have := secteur_inj (by omega) (by omega) hk
      omega
  · exact not_garde_demi hgarde h

def donnees : Materiel := fun v => if v = volumePersistant then some ⟨512, 524288, true⟩ else none

theorem debut_donnees : debut donnees = some 262144 := by decide

def volumeVierge : Disk Adresse (List UInt8) := ⟨fun _ => [], []⟩

theorem superblocs_volumeVierge : superblocs (vue 262144 volumeVierge) = fun _ => none := by
  funext i
  have hvue : plage (vue 262144 volumeVierge) i.val 1 = plage (fun _ => []) 0 1 := rfl
  have hnul : decode (plage (fun _ => []) 0 1) = none := by decide +kernel
  rw [superblocs, hvue, hnul]

theorem actif_volumeVierge : actif (vue 262144 volumeVierge) = none := by
  rw [actif, superblocs_volumeVierge]
  rfl

theorem viergeOuV2_volumeVierge : ViergeOuV2 (vue 262144 volumeVierge) := by
  refine ⟨fun s hs => ?_, fun _ => ?_⟩
  · rw [actif_volumeVierge] at hs
    cases hs
  · have h0 : vue 262144 volumeVierge 0 = [] := rfl
    rw [SansV1, h0]
    simp

/-- A directory "a". -/
def dossierA : SnapshotEntree where
  chemin := ⟨[0x61], Utf8.valid_of_ascii (by simp)⟩
  contenu := []
  metadonnees := ⟨true, 0o755, 0, 0⟩

end Machine

variable {m : Materiel} {base : UInt64} {s : Etat} {d : DisqueBloc} {demi : Fin 2} {es : List SnapshotEntree}

/-- The zone can take a snapshot in `demi`: nothing of the first format is in the
way, nothing is known of that half, and the generation can grow. -/
structure Pret (m : Materiel) (base : UInt64) (s : Etat) (d : Disk Adresse (List UInt8))
    (demi : Fin 2) : Prop where
  debut : debut m = some base
  sure : s.demiSure (prochain (courant (vue base d))).2.1 = some demi
  ailleurs : Ailleurs s (contenuDemi demi) (finDemi demi)
  croit : PeutCroitre (vue base d)

theorem Machine.Inv.pret {c : Machine} (hb : Persist.debut m = some base) (h : c.Inv base)
    (hv : c.enVol = none) (hg : PeutCroitre (vue base c.disque)) :
    ∃ demi, Pret m base c.etat c.disque demi := by
  unfold Machine.Inv at h
  rw [hv] at h
  exact ⟨_, hb, h.2.demiSure _, h.2.ailleurs, hg⟩

theorem superblocs_ecritDemi (hs : Ailleurs s (contenuDemi demi) (finDemi demi))
    (hes : es.length ≤ entreesMax) (d : DisqueBloc) :
    superblocs (vue base ((ecritDemi base s demi es).exec d).2) = superblocs (vue base d) := by
  have hwp := wp_ecritDemi (volumeZone base) base hes hs d
  funext i
  have hlu : vue base ((ecritDemi base s demi es).exec d).2 i.val = vue base d i.val := by
    refine hwp.read_exec ?_
    rintro ⟨k, h1, h2, hk⟩
    have hlt := finDemi_lt demi
    have hge := debutDemi_ge demi
    have := secteur_inj (by omega) (by omega) hk
    omega
  show decode (plage _ _ 1) = decode (plage _ _ 1)
  rw [plage_un, plage_un, hlu]

/-- What a synchronisation wrote is what the next mount restores. -/
theorem Pret.restaure (hp : Pret m base s d demi) (h : Tient es demi) :
    ∃ s' d', (synchroniseSnapshot m es s).exec d = (((es.length : ℤ), s'), d') ∧
      zoneLue (vue base d') = image es := by
  obtain ⟨nouveau, _, rfl, hexec, -⟩ := synchroniseSnapshot_reussit hp.debut hp.sure h
  refine ⟨_, _, hexec, ?_⟩
  obtain ⟨nouveau', hdemi⟩ := exec_ecritDemi base s h d
  have hpost := (wp_ecritDemi (volumeZone base) base h.nombre hp.ailleurs d).post (run_exec _ _ _)
  obtain ⟨hloge, -, -⟩ := hpost _ hdemi
  have hsb : superblocs (vue base ((ecritDemi base s demi es).exec d).2) = superblocs (vue base d) :=
    superblocs_ecritDemi hp.ailleurs h.nombre d
  generalize ((ecritDemi base s demi es).exec d).2 = d1 at hloge hsb
  have hlen : (UInt32.ofNat es.length).toNat = es.length :=
    UInt32.toNat_ofNat_of_lt' (h.nombre.trans_lt (by decide))
  generalize hn : superblocDe (prochain (courant (vue base d))).2.2 demi es _ = n
  generalize (prochain (courant (vue base d))).1 = t
  have hann : Annonce n es := by
    rw [← hn]
    exact ⟨hlen, rfl⟩
  have hdn : n.demi = demi := by
    rw [← hn]
    rfl
  have hk : SaufSuperbloc base t d1 (barriere (pose base t.val 1 n.encode (barriere d1))) := by
    have hpose : SaufSuperbloc base t (barriere d1) (pose base t.val 1 n.encode (barriere d1)) :=
      saufSuperbloc_pose
    unfold SaufSuperbloc at hpose ⊢
    rw [vue_barriere] at hpose
    rwa [vue_barriere]
  have hactif : actif (vue base (barriere (pose base t.val 1 n.encode (barriere d1)))) = some n := by
    refine actif_commis (t := t) ?_ (version_prochain hp.croit (by rw [← hn]; rfl))
    rw [hk.superblocs_eq, hsb, vue_barriere, vue_pose_encode, litSuperbloc_encode]
  refine (saine_image hactif ?_ hann).restaure
  rw [hdn]
  exact hloge.congr (hk.memeDemi demi)

/-- The superblock of an empty snapshot, at the last generation. -/
def superblocMax : Superbloc := ⟨18446744073709551615, 0, 0, 0, 0⟩

def volumeMax : Disk Adresse (List UInt8) :=
  ⟨fun a => if a = secteur 262144 0 then superblocMax.encode else [], []⟩

theorem superblocs_volumeMax :
    superblocs (vue 262144 volumeMax) = update (fun _ => none) 0 (some superblocMax) := by
  refine eq_update_of_eq ?_ ?_
  · exact litSuperbloc_encode superblocMax
  · have hvue : plage (vue 262144 volumeMax) 1 1 = plage (fun _ => []) 0 1 := rfl
    have hnul : decode (plage (fun _ => []) 0 1) = none := by decide +kernel
    exact (congrArg decode hvue).trans hnul

theorem actif_volumeMax : actif (vue 262144 volumeMax) = some superblocMax := by
  rw [actif, superblocs_volumeMax]
  rfl

theorem saine_volumeMax : Saine (vue 262144 volumeMax) [] := by
  have hvide : nombreInvalide superblocMax.entrees.toNat = true := rfl
  refine ⟨fun s hs hn => ?_, fun hn => ?_, ?_⟩
  · rw [actif_volumeMax, Option.some.injEq] at hs
    rw [← hs, hvide] at hn
    cases hn
  · rw [actif_volumeMax] at hn
    cases hn
  · rw [zoneLue_eq, actif_volumeMax]
    simp [luesV2, hvide]

theorem tient_dossierA (demi : Fin 2) : Tient [Machine.dossierA] demi where
  chemins e he := by
    rw [mem_singleton.mp he]
    decide
  nombre := by decide
  fin := contenuDemi_le_finDemi demi

end BouchaudOS.Persist
