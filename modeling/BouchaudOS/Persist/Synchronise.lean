import BouchaudOS.Persist.Releve

/-!
# What a synchronisation writes

The parts of `synchronise_snapshot` as rules for device programs: the contents
and the table end up in the half they are written to, nothing else is touched,
and the commit is one sector between two barriers. A content is skipped only
when the last synchronisation wrote it at the very same sector, so never when
the halves alternate.
-/
namespace BouchaudOS.Persist

open Prog hiding pure

variable {base : UInt64} {D : Device Adresse (List UInt8)} {d : DisqueBloc}

/-- The disk after `n` sectors were handed to its cache. -/
def pose (base : UInt64) (r n : ℕ) (o : List UInt8) (d : Disk Adresse (List UInt8)) :
    Disk Adresse (List UInt8) :=
  d.write ((adresses volumePersistant (base + UInt64.ofNat r) n).zip (decoupe tailleSecteur n o))

def barriere (d : Disk Adresse (List UInt8)) : Disk Adresse (List UInt8) :=
  d.flush fun a => a.1 = volumePersistant

variable {k index : ℕ} {lire lire' : ℕ → List UInt8} {m : Materiel}

theorem secteur_inj {k' : ℕ} (hk : k < 2 ^ 64) (hk' : k' < 2 ^ 64)
    (h : secteur base k = secteur base k') : k = k' :=
  uint64_ofNat_inj hk hk' (by simpa [secteur] using h)

variable {r n fin : ℕ} {o : List UInt8} {s : Etat} {es : List SnapshotEntree} {demi : Fin 2}

theorem mem_pose {w : Adresse × List UInt8} (h : w ∈ (adresses volumePersistant (base + UInt64.ofNat r) n).zip
      (decoupe tailleSecteur n o)) :
    ∃ k, r ≤ k ∧ k < r + n ∧ w.1 = secteur base k := by
  obtain ⟨i, hi, hw⟩ := mem_adresses (List.of_mem_zip h).1
  refine ⟨r + i, by omega, by omega, ?_⟩
  rw [hw, secteur, UInt64.ofNat_add, UInt64.add_assoc]

theorem plage_pose (hn : n ≤ 2 ^ 64)
    (ho : o.length = n * tailleSecteur) : plage (vue base (pose base r n o d)) r n = o := by
  have h : octetsDe tailleSecteur ((adresses volumePersistant (base + UInt64.ofNat r) n).map
      (pose base r n o d).read) = o := octetsDe_write d hn ho
  rwa [map_adresses] at h

theorem vue_pose (hk : k < r ∨ r + n ≤ k) (hr : r + n ≤ 2 ^ 64)
    (hk' : k < 2 ^ 64) : vue base (pose base r n o d) k = vue base d k := by
  refine Disk.read_write_of_notMem fun w hw hwk => ?_
  obtain ⟨j, h1, h2, hj⟩ := mem_pose hw
  have hjk : j = k := secteur_inj (by omega) hk' (hj.symm.trans hwk)
  omega

@[simp] theorem vue_barriere (d : DisqueBloc) : vue base (barriere d) = vue base d :=
  funext fun _ => Disk.read_flush _ _ _

theorem barriere_settled (base : UInt64) (d : DisqueBloc) (k : ℕ) : (barriere d).Settled (secteur base k) :=
  Disk.flush_settled _ (by simp [secteur])

section

variable {I : DisqueBloc → Prop} {W : Adresse → Prop}

variable {Q : Bool → DisqueBloc → Prop}

theorem wp_volumeEcrit {r n : ℕ} {o : List UInt8} (hI : I d) (hW : ∀ k, r ≤ k → k < r + n → W (secteur base k))
    (hok : I (pose base r n o d) ∧ Q true (pose base r n o d))
    (hko : D.faulty → ∀ d', D.fault (pose base r n o d) d' → I d' ∧ Q false d') :
    wp D I W Q (volumeEcrit base r n o) d := by
  refine wp_ecrit hI (fun w hw => ?_) hok hko
  obtain ⟨k, h1, h2, hk⟩ := mem_pose hw
  rw [hk]
  exact hW k h1 h2

variable {m : Materiel}

theorem wp_volumeBarriere (hD : ¬D.faulty) (hI : I d) (hok : ∀ b, I (barriere d) ∧ Q b (barriere d)) :
    wp D I W Q (volumeBarriere m) d := by
  apply wp_bind
  exact wp_vidange hI ⟨(hok true).1, hok _⟩ fun hf => absurd hf hD

theorem wp_superblocCourant {Q : Option (Fin 2 × Superbloc) → DisqueBloc → Prop}
    (hD : ¬D.faulty) (hI : I d) (hok : Q (courant (vue base d)) d) :
    wp D I W Q (superblocCourant base) d := by
  have hlu : ∀ r, octetsDe tailleSecteur ((adresses volumePersistant (base + UInt64.ofNat r) 1).map
      d.read) = plage (vue base d) r 1 := by
    intro r
    rw [map_adresses]
    rfl
  apply wp_bind
  refine wp_litBlocs hI ?_ fun hf => absurd hf hD
  rw [hlu]
  apply wp_bind
  refine wp_litBlocs hI ?_ fun hf => absurd hf hD
  rw [hlu]
  exact ⟨hI, hok⟩

/-- The commit on a device without faults. -/
theorem wp_commet {e : Fin 2} {s : Superbloc} (hD : ¬D.faulty) (h0 : I d) (h1 : I (barriere d))
    (hW : W (secteur base e.val)) (h2 : I (pose base e.val 1 s.encode (barriere d)))
    (h3 : I (barriere (pose base e.val 1 s.encode (barriere d))) ∧
      Q true (barriere (pose base e.val 1 s.encode (barriere d)))) :
    wp D I W Q (commet m base e s) d := by
  have hW' : ∀ k, e.val ≤ k → k < e.val + 1 → W (secteur base k) := by
    intro k hk hk'
    obtain rfl : k = e.val := by omega
    exact hW
  apply wp_bind
  refine wp_volumeBarriere hD h0 fun b => ⟨h1, ?_⟩
  apply wp_bind
  refine wp_volumeEcrit h1 hW' ⟨h2, ?_⟩ fun hf => absurd hf hD
  apply wp_bind
  exact wp_volumeBarriere hD h2 fun b => ⟨h3.1, h3⟩

end

/-- The sectors from `r` to `fin`. -/
def Entre (base : UInt64) (r fin : ℕ) (a : Adresse) : Prop :=
  ∃ k, r ≤ k ∧ k < fin ∧ a = secteur base k

theorem Entre.mono {r' fin' : ℕ} {a : Adresse} (h : Entre base r fin a) (hr : r' ≤ r)
    (hfin : fin ≤ fin') : Entre base r' fin' a := by
  obtain ⟨k, h1, h2, rfl⟩ := h
  exact ⟨k, by omega, by omega, rfl⟩

/-- Nothing the last synchronisation wrote lies between `r` and `fin`. -/
def Ailleurs (s : Etat) (r fin : ℕ) : Prop :=
  ∀ x ∈ s.disque, x.longueur ≠ 0 → ¬(r ≤ x.secteur ∧ x.secteur < fin)

/-- The contents were written from `r` on; `d` is the disk before. -/
structure ContenusEcrits (base : UInt64) (es : List SnapshotEntree) (r fin : ℕ)
    (d d' : Disk Adresse (List UInt8)) (r' : ℕ) (nouveau : List SurDisque) : Prop where
  chemins : CheminsTiennent es
  suivant : r' = finContenus es r
  fin_le : finContenus es r ≤ fin
  contenus : Contenus (vue base d') es r
  avant : ∀ k, k < r → vue base d' k = vue base d k
  connus : ∀ x ∈ nouveau, x.longueur ≠ 0 → r ≤ x.secteur ∧ x.secteur < fin

theorem secteursDe_eq_zero : secteursDe n = 0 ↔ n = 0 := by
  unfold secteursDe tailleSecteur
  omega

theorem dejaEcrite_eq_false {longueur : ℕ} {chemin : Chaine}
    {c : UInt64 × UInt64} (hs : Ailleurs s r fin) (hl : longueur ≠ 0) (hr : r < fin) :
    s.dejaEcrite index chemin r longueur c = false := by
  unfold Etat.dejaEcrite
  cases h : s.disque[index]? with
  | none => rfl
  | some x =>
    have hx := hs x (List.mem_of_getElem? h)
    simp only [decide_eq_false_iff_not]
    rintro rfl
    exact hx hl ⟨le_rfl, hr⟩

/-- One content is on the disk, and nothing before it changed. -/
theorem wp_ecritContenu {e : SnapshotEntree} (hfin : fin < 2 ^ 50)
    (hr : r + secteursDe e.contenu.length ≤ fin) (hs : Ailleurs s r fin)
    (d : DisqueBloc) :
    wp D (fun _ => True) (Entre base r fin)
      (fun ok d' => ok = true →
        plage (vue base d') r (secteursDe e.contenu.length) = bourre e.contenu (secteursDe e.contenu.length) ∧
        ∀ k, k < r → vue base d' k = vue base d k)
      (ecritContenu base s index e r) d := by
  unfold ecritContenu
  split
  next h0 =>
    have hvide : e.contenu = [] := List.length_eq_zero_iff.mp (secteursDe_eq_zero.mp h0)
    refine ⟨trivial, fun _ => ⟨?_, fun _ _ => rfl⟩⟩
    rw [h0, hvide]
    rfl
  next h0 =>
    rw [dejaEcrite_eq_false hs (fun hl => h0 (secteursDe_eq_zero.mpr hl)) (by omega),
      if_neg Bool.false_ne_true]
    refine wp_volumeEcrit trivial (fun k h1 h2 => ⟨k, h1, by omega, rfl⟩) ⟨trivial, fun _ => ⟨?_, ?_⟩⟩
      fun _ d' _ => ⟨trivial, fun hf => by cases hf⟩
    · exact plage_pose (by omega) (length_bourre (le_secteursDe _))
    · exact fun k hk => vue_pose (.inl hk) (by omega) (by omega)

theorem wp_ecritContenus (hfin : fin < 2 ^ 50) (hr : r ≤ fin) (hs : Ailleurs s r fin) (index : ℕ) (d : DisqueBloc) :
    wp D (fun _ => True) (Entre base r fin)
      (fun res d' => ∀ x, res = some x → ContenusEcrits base es r fin d d' x.1 x.2)
      (ecritContenus base s fin index es r) d := by
  induction es generalizing index r d with
  | nil =>
    refine ⟨trivial, fun x hx => ?_⟩
    cases hx
    exact ⟨fun e he => absurd he List.not_mem_nil, rfl, hr, trivial, fun _ _ => rfl,
      fun x hx => absurd hx List.not_mem_nil⟩
  | cons e es ih =>
    rw [ecritContenus]
    split
    next => exact ⟨trivial, fun x hx => by cases hx⟩
    next hchemin =>
    split
    next => exact ⟨trivial, fun x hx => by cases hx⟩
    next hle =>
    apply wp_bind
    refine (wp_ecritContenu hfin (not_lt.mp hle) hs d).imp fun ok d1 hok => ?_
    cases ok with
    | false => exact ⟨trivial, fun x hx => by cases hx⟩
    | true =>
      obtain ⟨hplage, havant⟩ := hok rfl
      have hs' : Ailleurs s (r + secteursDe e.contenu.length) fin :=
        fun x hx hl h => hs x hx hl ⟨by omega, h.2⟩
      apply wp_bind
      refine (ih (not_lt.mp hle) hs' (index + 1) d1).mono (fun _ _ => trivial)
        (fun a ha => ha.mono (by omega) le_rfl) fun res d' hres => ?_
      cases res with
      | none => exact ⟨trivial, fun x hx => by cases hx⟩
      | some x =>
        obtain ⟨hch, hsuiv, hfinle, hcont, hav, hcon⟩ := hres x rfl
        refine ⟨trivial, fun y hy => ?_⟩
        cases hy
        refine ⟨?_, hsuiv, hfinle, ⟨?_, hcont⟩, fun k hk => ?_, fun y hy hl => ?_⟩
        · intro e' he'
          rcases List.mem_cons.mp he' with rfl | he'
          · exact not_le.mp hchemin
          · exact hch e' he'
        · exact (plage_congr fun k _ hk => hav k hk).trans hplage
        · rw [hav k (by omega), havant k hk]
        · rcases List.mem_cons.mp hy with rfl | hy
          · have : secteursDe e.contenu.length ≠ 0 := fun h0 => hl (secteursDe_eq_zero.mp h0)
            exact ⟨le_rfl, by show r < fin; omega⟩
          · have := hcon y hy hl
            exact ⟨by omega, this.2⟩

theorem contenus_congr (h : ∀ k, r ≤ k → k < finContenus es r → lire k = lire' k) (hc : Contenus lire es r) :
    Contenus lire' es r := by
  induction es generalizing r with
  | nil => trivial
  | cons e es ih =>
    have hfin := le_finContenus es (r + secteursDe e.contenu.length)
    refine ⟨(plage_congr fun k h1 h2 => ?_).trans hc.1, ih (fun k h1 h2 => h k (by omega) h2) hc.2⟩
    exact (h k h1 (h2.trans_le hfin)).symm

theorem Loge.congr (h : MemeDemi demi lire lire') (hl : Loge lire demi es) : Loge lire' demi es := by
  have hn := secteursTableUtiles_le hl.nombre
  have hle := contenuDemi_le_finDemi demi
  have hcd : contenuDemi demi = debutDemi demi + secteursTable := rfl
  refine ⟨hl.chemins, hl.nombre, ?_, ?_, hl.fin⟩
  · rw [← hl.table]
    exact plage_congr fun k h1 h2 => (h k h1 (by omega)).symm
  · exact contenus_congr (fun k h1 h2 => h k (by omega) (h2.trans_le hl.fin)) hl.contenus

/-- The half `demi` was written with a snapshot. -/
structure DemiEcrite (base : UInt64) (demi : Fin 2) (es : List SnapshotEntree)
    (d' : Disk Adresse (List UInt8)) (r : ℕ) (nouveau : List SurDisque) : Prop where
  loge : Loge (vue base d') demi es
  suivant : r = finContenus es (contenuDemi demi)
  connus : ∀ x ∈ nouveau, x.longueur ≠ 0 → contenuDemi demi ≤ x.secteur ∧ x.secteur < finDemi demi

theorem wp_ecritDemi (D : Device Adresse (List UInt8)) (base : UInt64) (hes : es.length ≤ entreesMax) (hs : Ailleurs s (contenuDemi demi) (finDemi demi))
    (d : DisqueBloc) :
    wp D (fun _ => True) (Entre base (debutDemi demi) (finDemi demi))
      (fun res d' => ∀ x, res = some x → DemiEcrite base demi es d' x.1 x.2)
      (ecritDemi base s demi es) d := by
  have hlt := finDemi_lt demi
  have hle := contenuDemi_le_finDemi demi
  have hn := secteursTableUtiles_le hes
  have hcd : contenuDemi demi = debutDemi demi + secteursTable := rfl
  apply wp_bind
  refine (wp_ecritContenus hlt hle hs 0 d).mono (fun _ _ => trivial)
    (fun a ha => ha.mono (by omega) le_rfl) fun res d1 hres => ?_
  cases res with
  | none => exact ⟨trivial, fun x hx => by cases hx⟩
  | some x =>
    obtain ⟨hch, hsuiv, hfin, hcont, -, hcon⟩ := hres x rfl
    have hlen := length_table hch
    apply wp_bind
    unfold ecritTable
    split
    next h0 =>
      refine ⟨trivial, trivial, fun y hy => ?_⟩
      cases hy
      refine ⟨⟨hch, hes, ?_, hcont, hfin⟩, hsuiv, hcon⟩
      rw [h0, Nat.zero_mul] at hlen
      rw [h0, List.length_eq_zero_iff.mp hlen]
      rfl
    next h0 =>
      refine wp_volumeEcrit trivial (fun k h1 h2 => ⟨k, h1, by omega, rfl⟩)
        ⟨trivial, trivial, fun y hy => ?_⟩ fun _ d' _ => ⟨trivial, trivial, fun y hy => by cases hy⟩
      cases hy
      refine ⟨⟨hch, hes, plage_pose (by omega) hlen, ?_, hfin⟩, hsuiv, hcon⟩
      exact contenus_congr (fun k h1 h2 => (vue_pose (.inr (by omega)) (by omega) (by omega)).symm) hcont

/-- A snapshot within the limits of a half. -/
structure Tient (es : List SnapshotEntree) (demi : Fin 2) : Prop where
  chemins : CheminsTiennent es
  nombre : es.length ≤ entreesMax
  fin : finContenus es (contenuDemi demi) ≤ finDemi demi

theorem exec_ecritContenu (base : UInt64) (s : Etat) (index : ℕ) (e : SnapshotEntree) (r : ℕ)
    (d : DisqueBloc) : ((ecritContenu base s index e r).exec d).1 = true := by
  unfold ecritContenu
  split
  · rfl
  · split <;> rfl

theorem exec_ecritContenus (base : UInt64) (s : Etat)
    (hch : CheminsTiennent es) (hfin : finContenus es r ≤ fin) (index : ℕ)
    (d : DisqueBloc) : ∃ nouveau,
      ((ecritContenus base s fin index es r).exec d).1 = some (finContenus es r, nouveau) := by
  induction es generalizing index r d with
  | nil => exact ⟨[], rfl⟩
  | cons e es ih =>
    have hle := (le_finContenus es (r + secteursDe e.contenu.length)).trans hfin
    have hok := exec_ecritContenu base s index e r d
    obtain ⟨nouveau, hn⟩ := ih (fun e' he' => hch e' (by simp [he'])) hfin (index + 1)
      ((ecritContenu base s index e r).exec d).2
    refine ⟨⟨e.chemin, r, e.contenu.length, sceau e.contenu⟩ :: nouveau, ?_⟩
    rw [ecritContenus, if_neg (not_le.mpr (hch e (by simp))), if_neg (not_lt.mpr hle), exec_bind, hok]
    simp only [Bool.not_true, Bool.false_eq_true, if_false]
    rw [exec_bind, hn]
    rfl

theorem exec_ecritDemi (base : UInt64) (s : Etat) (h : Tient es demi) (d : DisqueBloc) : ∃ nouveau,
      ((ecritDemi base s demi es).exec d).1 =
        some (finContenus es (contenuDemi demi), nouveau) := by
  obtain ⟨nouveau, hn⟩ := exec_ecritContenus base s h.chemins h.fin 0 d
  refine ⟨nouveau, ?_⟩
  have htable : ∀ d', ((ecritTable base demi es).exec d').1 = true := by
    intro d'
    unfold ecritTable
    split <;> rfl
  rw [ecritDemi, exec_bind, hn]
  rw [exec_bind, htable]
  rfl

/-- Without faults, a snapshot within the limits is written and committed; on the way there
the superblock has been handed to the disk. -/
theorem synchroniseSnapshot_reussit (hb : debut m = some base) {d : DisqueBloc}
    (hdemi : s.demiSure (prochain (courant (vue base d))).2.1 = some demi) (h : Tient es demi) :
    ∃ nouveau e, e = pose base (prochain (courant (vue base d))).1.val 1
        (superblocDe (prochain (courant (vue base d))).2.2 demi es (finContenus es (contenuDemi demi))).encode
        (barriere ((ecritDemi base s demi es).exec d).2) ∧
      (synchroniseSnapshot m es s).exec d = (((es.length : ℤ), ⟨nouveau, 0⟩), barriere e) ∧
      ∀ D, ∃ p, Run D (synchroniseSnapshot m es s, d) (p, e) := by
  obtain ⟨nouveau, hn⟩ := exec_ecritDemi base s h d
  refine ⟨nouveau, _, rfl, ?_⟩
  unfold synchroniseSnapshot
  rw [hb]
  simp only
  rw [if_neg (not_lt.mpr h.nombre)]
  constructor
  · rw [exec_bind, exec_superblocCourant]
    simp only [hdemi]
    rw [exec_bind, hn]
    rfl
  · intro D
    refine Exists.imp (fun p hp => (run_bind D (superblocCourant base) _ d).trans hp) ?_
    rw [exec_superblocCourant]
    simp only [hdemi]
    refine Exists.imp (fun p hp => (run_bind D (ecritDemi base s demi es) _ d).trans hp) ?_
    rw [hn]
    exact ⟨_, .head (.flush _ _ _) (.single (.write _ _ _))⟩

end BouchaudOS.Persist
