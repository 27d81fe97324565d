import BouchaudOS.Update.Confinement

/-!
# An installed image is the signed one

`installation_termine` compares the digest of the bytes that were read back
with the signed one. The read-back goes forward by whole blocks as long as the
bytes read so far are a whole number of blocks; after a shorter length it starts
again inside a block it has already read, and the hash is fed bytes that are not
where the image has them. Without that, what was hashed is what the slot holds.
-/
namespace BouchaudOS.Update.Noyau

open Gpt List UInt64 Systeme Option Device
open Prog hiding pure

namespace Installation

variable (inst : Installation)

/-- The bytes of `n` blocks of the slot, from block `i`. -/
def blocsLus (d : Disk Adresse (List UInt8)) (i n : ℕ) : List UInt8 :=
  octetsDe inst.tailleBloc.toNat ((adresses inst.volume (inst.premier + UInt64.ofNat i) n).map d.read)

/-- The first `k` bytes stored in the partition. -/
def stocke (d : Disk Adresse (List UInt8)) (k : ℕ) : List UInt8 :=
  (inst.blocsLus d 0 inst.partition.blocs.toNat).take k

def blocsImage : ℕ :=
  (inst.attenduOctets.toNat + inst.tailleBloc.toNat - 1) / inst.tailleBloc.toNat

def image : List Adresse := adresses inst.volume inst.premier inst.blocsImage

variable {inst} {ctx : Contexte} {d d' : DisqueBloc}

theorem blocsLus_add (i m n : ℕ) :
    inst.blocsLus d i (m + n) = inst.blocsLus d i m ++ inst.blocsLus d (i + m) n := by
  simp [blocsLus, adresses_add, octetsDe_append, UInt64.add_assoc]

@[simp] theorem length_blocsLus (i n : ℕ) : (inst.blocsLus d i n).length = n * inst.tailleBloc.toNat := by
  simp [blocsLus, length_octetsDe]

theorem stocke_eq_take {n k : ℕ} (hn : n ≤ inst.partition.blocs.toNat)
    (hk : k ≤ n * inst.tailleBloc.toNat) : inst.stocke d k = (inst.blocsLus d 0 n).take k := by
  obtain ⟨m, hm⟩ := Nat.exists_eq_add_of_le hn
  rw [stocke, hm, blocsLus_add, take_append_of_le_length (by simpa using hk)]

theorem stocke_append {q m r : ℕ} (hn : q + m ≤ inst.partition.blocs.toNat)
    (hr : r ≤ m * inst.tailleBloc.toNat) :
    inst.stocke d (q * inst.tailleBloc.toNat + r) =
      inst.stocke d (q * inst.tailleBloc.toNat) ++ (inst.blocsLus d q m).take r := by
  have hlen : (inst.blocsLus d 0 q).length = q * inst.tailleBloc.toNat := length_blocsLus 0 q
  rw [stocke_eq_take hn (by rw [Nat.add_mul]; omega), stocke_eq_take (by omega) le_rfl,
    blocsLus_add, Nat.zero_add, ← hlen, take_length, take_length_add_append]

theorem Ouverte.blocsImage_le (ho : inst.Ouverte ctx) : inst.blocsImage ≤ inst.partition.blocs.toNat := by
  have hle := (le_iff_toNat_le.mp ho.tient).trans ho.octets_le
  have hpos := ho.pos
  apply Nat.le_of_lt_succ
  rw [blocsImage, Nat.div_lt_iff_lt_mul hpos, Nat.succ_mul]
  omega

theorem Ouverte.attendu_le (ho : inst.Ouverte ctx) :
    inst.attenduOctets.toNat ≤ inst.blocsImage * inst.tailleBloc.toNat := by
  have hpos := ho.pos
  have hdiv := Nat.div_add_mod (inst.attenduOctets.toNat + inst.tailleBloc.toNat - 1) inst.tailleBloc.toNat
  have hmod := Nat.mod_lt (inst.attenduOctets.toNat + inst.tailleBloc.toNat - 1) hpos
  rw [blocsImage, Nat.mul_comm]
  omega

theorem Ouverte.stocke_congr (ho : inst.Ouverte ctx) {k : ℕ} (hk : k ≤ inst.attenduOctets.toNat)
    (h : ∀ b ∈ inst.image, d'.read b = d.read b) : inst.stocke d' k = inst.stocke d k := by
  have hk' := hk.trans ho.attendu_le
  rw [stocke_eq_take ho.blocsImage_le hk', stocke_eq_take ho.blocsImage_le hk']
  have hmap : (adresses inst.volume (inst.premier + UInt64.ofNat 0) inst.blocsImage).map d'.read =
      (adresses inst.volume (inst.premier + UInt64.ofNat 0) inst.blocsImage).map d.read := by
    apply map_congr_left
    intro b hb
    exact h b (by simpa [image] using hb)
  rw [blocsLus, hmap, ← blocsLus]

variable {longueur : UInt64}

/-- A read-back never reads past the slot. -/
theorem Ouverte.blocsALire_le (ho : inst.Ouverte ctx)
    (hlt : inst.verifie < longueur) (hle : longueur ≤ inst.octets) :
    inst.verifie.toNat / inst.tailleBloc.toNat + (inst.blocsALire longueur).toNat ≤
      inst.partition.blocs.toNat := by
  have hpos := ho.pos
  have hlt' := lt_iff_toNat_lt.mp hlt
  have hle' := (le_iff_toNat_le.mp hle).trans ho.octets_le
  have hreste : (longueur - inst.verifie).toNat = longueur.toNat - inst.verifie.toNat :=
    UInt64.toNat_sub_of_le _ _ (UInt64.le_of_lt hlt)
  -- the rounded sum may wrap, which only makes it smaller
  have hsomme : (longueur - inst.verifie + inst.tailleBloc - 1).toNat ≤
      longueur.toNat - inst.verifie.toNat + inst.tailleBloc.toNat - 1 := by
    rw [UInt64.toNat_sub, UInt64.toNat_add, hreste, UInt64.toNat_one]
    omega
  have hlire : (inst.blocsALire longueur).toNat ≤
      (longueur.toNat - inst.verifie.toNat + inst.tailleBloc.toNat - 1) / inst.tailleBloc.toNat := by
    have hmin : inst.blocsALire longueur ≤
        (longueur - inst.verifie + inst.tailleBloc - 1) / inst.tailleBloc := by
      change (if _ ≤ _ then _ else _) ≤ _
      split
      · exact UInt64.le_refl _
      · exact UInt64.le_of_lt (UInt64.not_le.mp (by assumption))
    calc (inst.blocsALire longueur).toNat
        ≤ (longueur - inst.verifie + inst.tailleBloc - 1).toNat / inst.tailleBloc.toNat := by
          simpa using le_iff_toNat_le.mp hmin
      _ ≤ _ := Nat.div_le_div_right hsomme
  have hq : inst.verifie.toNat / inst.tailleBloc.toNat * inst.tailleBloc.toNat ≤
      inst.verifie.toNat := Nat.div_mul_le_self _ _
  have hqN : inst.verifie.toNat / inst.tailleBloc.toNat < inst.partition.blocs.toNat :=
    Nat.lt_of_mul_lt_mul_right (a := inst.tailleBloc.toNat) (by omega)
  have hplein : (longueur.toNat - inst.verifie.toNat + inst.tailleBloc.toNat - 1) /
      inst.tailleBloc.toNat ≤ inst.partition.blocs.toNat - inst.verifie.toNat / inst.tailleBloc.toNat := by
    apply Nat.le_of_lt_succ
    rw [Nat.div_lt_iff_lt_mul hpos, Nat.succ_mul, Nat.sub_mul]
    omega
  omega

theorem relu_eq : inst.relu longueur d = (inst.blocsLus d (inst.verifie.toNat / inst.tailleBloc.toNat)
      (inst.blocsALire longueur).toNat).take (longueur - inst.verifie).toNat := by
  have hdiv : UInt64.ofNat (inst.verifie.toNat / inst.tailleBloc.toNat) = inst.verifie / inst.tailleBloc := by
    apply UInt64.toNat_inj.mp
    exact Nat.mod_eq_of_lt ((Nat.div_le_self _ _).trans_lt inst.verifie.toNat_lt)
  rw [relu, blocsLus, hdiv]

theorem Ouverte.stocke_relu (ho : inst.Ouverte ctx) (hlt : inst.verifie < longueur) (hle : longueur ≤ inst.octets)
    (hal : inst.verifie % inst.tailleBloc = 0) :
    inst.stocke d (inst.verifie.toNat + (inst.relu longueur d).length) =
      inst.stocke d inst.verifie.toNat ++ inst.relu longueur d := by
  have hv : inst.verifie.toNat / inst.tailleBloc.toNat * inst.tailleBloc.toNat = inst.verifie.toNat := by
    apply Nat.div_mul_cancel
    exact Nat.dvd_of_mod_eq_zero (by simpa using congrArg UInt64.toNat hal)
  have h := stocke_append (d := d) (ho.blocsALire_le hlt hle)
    (r := (inst.relu longueur d).length) (by simp [relu_eq])
  rw [hv] at h
  rw [h, relu_eq, length_take, ← take_take, take_length]

theorem verifie_add_relu (hlt : inst.verifie < longueur) :
    (inst.verifie + UInt64.ofNat (inst.relu longueur d).length).toNat =
      inst.verifie.toNat + (inst.relu longueur d).length := by
  have hreste : (longueur - inst.verifie).toNat = longueur.toNat - inst.verifie.toNat :=
    UInt64.toNat_sub_of_le _ _ (UInt64.le_of_lt hlt)
  have hlen : (inst.relu longueur d).length ≤ longueur.toNat - inst.verifie.toNat := by
    rw [relu, length_take, hreste]
    exact min_le_left _ _
  have hlt' := UInt64.lt_iff_toNat_lt.mp hlt
  have := longueur.toNat_lt
  rw [UInt64.toNat_add, UInt64.toNat_ofNat']
  omega

end Installation

variable (ctx : Contexte) (D : Device Adresse (List UInt8))

/-- The read-back goes on from a whole number of blocks, and the blocks of META that
the call may write are not blocks of the image. -/
def Appel.Fiable (x : Systeme) : Appel → Prop
  | .verifie _ longueur => ∀ inst, x.etat.installation = some inst →
      longueur ≤ inst.verifie ∨ inst.verifie % inst.tailleBloc = 0
  | .ecrit .. => True
  | a => ∀ inst, x.etat.installation = some inst → ∀ b ∈ inst.image, ¬a.Ecrits ctx D x b

/-- The bytes fed to the hash are the ones the slot holds, and nothing is pending
on the image. -/
structure Relue (x : Systeme) (inst : Installation) : Prop where
  fed : x.etat.verification = some (inst.stocke x.disques inst.verifie.toNat)
  posee : ∀ b ∈ inst.image, x.disques.Settled b

/-- Every session is signed, and faithful once its read-back has started and has
not gone past the image. -/
structure Systeme.Fidele (x : Systeme) : Prop where
  sain : x.Sain ctx
  relue : ∀ inst, x.etat.installation = some inst → inst.verifie ≠ 0 →
    inst.verifie ≤ inst.attenduOctets → Relue x inst

variable {ctx D} {x y : Systeme} {inst : Installation}

theorem Relue.transporte (h : Relue x inst) (ho : inst.Ouverte ctx)
    (hv : inst.verifie ≤ inst.attenduOctets) (hy : y.etat.verification = x.etat.verification)
    (hd : ∀ b ∈ inst.image, y.disques.Settled b ∧ y.disques.durable b = x.disques.durable b) :
    Relue y inst := by
  have hread : ∀ b ∈ inst.image, y.disques.read b = x.disques.read b := by
    intro b hb
    rw [(hd b hb).1.read_eq, (hd b hb).2, (h.posee b hb).read_eq]
  refine ⟨?_, fun b hb => (hd b hb).1⟩
  rw [hy, h.fed, ho.stocke_congr (le_iff_toNat_le.mp hv) hread]

variable {a : Appel} {ok : Bool}

theorem Systeme.Appelle.garde (h : x.Appelle ctx D a ok y)
    (hx : x.Sain ctx) (hr : Relue x inst) (hW : ∀ b ∈ inst.image, ¬a.Ecrits ctx D x b) :
    ∀ b ∈ inst.image, y.disques.Settled b ∧ y.disques.durable b = x.disques.durable b :=
  (((wp_execute hx a).frame hW hr.posee).post h).2

/-- One more step of the read-back. -/
theorem Avance.relue {longueur : UInt64} {lu : List UInt8} (h : Avance x longueur inst lu y.etat y.disques)
    (hx : x.Fidele ctx) (hal : inst.verifie % inst.tailleBloc = 0)
    {inst' : Installation} (hi : y.etat.installation = some inst')
    (hv : inst'.verifie ≤ inst'.attenduOctets) : Relue y inst' := by
  have ho := hx.sain inst h.session
  obtain rfl : { inst with
      verifie := inst.verifie + UInt64.ofNat (inst.relu longueur y.disques).length } = inst' := by
    rw [h.etat] at hi
    exact some.inj hi
  have hadd := inst.verifie_add_relu (d := y.disques) h.reste
  have hle : inst.verifie ≤ inst.attenduOctets := by
    rw [le_iff_toNat_le] at hv ⊢
    simp only [hadd] at hv
    omega
  -- what was fed before this step, on the disk it leaves
  have hlu : lu = inst.stocke y.disques inst.verifie.toNat ∧ ∀ b ∈ inst.image, y.disques.Settled b := by
    by_cases h0 : inst.verifie = 0
    · obtain ⟨rfl, hd⟩ := h.debut h0
      refine ⟨by simp [h0, Installation.stocke], fun b hb => ?_⟩
      obtain ⟨i, -, rfl⟩ := mem_adresses hb
      rw [hd]
      exact Disk.flush_settled _ (by simp)
    · obtain ⟨hlu, hd⟩ := h.suite h0
      have hr := hx.relue inst h.session h0 hle
      rw [hr.fed, some.injEq] at hlu
      rw [hd]
      exact ⟨hlu.symm, hr.posee⟩
  refine ⟨?_, hlu.2⟩
  rw [h.etat]
  change some (lu ++ _) = some (inst.stocke y.disques _)
  rw [hadd, ho.stocke_relu h.reste h.borne hal, hlu.1]

theorem Systeme.Fidele.inchangee (hx : x.Fidele ctx)
    (h : x.Appelle ctx D a ok y) (hi : y.etat.installation = x.etat.installation)
    (hv : y.etat.verification = x.etat.verification)
    (hW : ∀ inst, x.etat.installation = some inst → ∀ b ∈ inst.image, ¬a.Ecrits ctx D x b) :
    y.Fidele ctx := by
  refine ⟨h.sain hx.sain, fun inst hinst h0 hle => ?_⟩
  rw [hi] at hinst
  have hr := hx.relue inst hinst h0 hle
  exact hr.transporte (hx.sain inst hinst) hle hv (h.garde hx.sain hr (hW inst hinst))

theorem Systeme.Fidele.appelle (hx : x.Fidele ctx)
    (ha : a.Fiable ctx D x) (h : x.Appelle ctx D a ok y) : y.Fidele ctx := by
  have he := h.effet hx.sain
  cases a with
  | commitSante | rollbackManuel | remetCompteur =>
    obtain ⟨c, he⟩ := he
    exact hx.inchangee h (by rw [he]) (by rw [he]) ha
  | commence =>
    obtain ⟨-, he⟩ | ⟨inst', -, h0, he⟩ := he
    · exact hx.inchangee h (by rw [he]) (by rw [he]) ha
    · refine ⟨h.sain hx.sain, fun inst hinst hne => ?_⟩
      obtain rfl : inst' = inst := by simpa [he] using hinst
      exact absurd h0 hne
  | ecrit =>
    obtain ⟨he, hd⟩ | he := he
    · obtain rfl : y = x := by
        cases x
        cases y
        simp_all
      exact hx
    · refine ⟨h.sain hx.sain, fun inst hinst hne => ?_⟩
      rw [he] at hinst
      obtain ⟨i, -, rfl⟩ := map_eq_some_iff.mp hinst
      exact absurd rfl hne
  | verifie appelant longueur =>
    obtain he | ⟨he, inst', hinst', h0⟩ | ⟨inst', lu, he⟩ := he
    · exact hx.inchangee h (by rw [he]) (by rw [he]) fun _ _ _ _ => id
    · refine ⟨h.sain hx.sain, fun inst hinst hne => ?_⟩
      rw [he] at hinst
      obtain rfl : inst' = inst := by simpa [hinst'] using hinst
      exact absurd h0 hne
    · refine ⟨h.sain hx.sain, fun inst hinst _ hle => ?_⟩
      rcases ha inst' he.session with hfin | hal
      · exact absurd he.reste (UInt64.not_lt.mpr hfin)
      · exact he.relue hx hal hinst hle
  | termine =>
    obtain ⟨-, he⟩ | ⟨inst', lu, -, he⟩ := he
    · exact hx.inchangee h (by rw [he]) (by rw [he]) ha
    · refine ⟨h.sain hx.sain, fun inst hinst => ?_⟩
      rw [he] at hinst
      cases hinst

theorem Systeme.Suite.fidele (h : x.Suite ctx D (fun a x => a.Fiable ctx D x) y)
    (hx : x.Fidele ctx) : y.Fidele ctx := by
  induction h with
  | refl => exact hx
  | tail _ hs ih =>
    obtain ⟨a, ok, ha, hs⟩ := hs
    exact ih.appelle ha hs

/-- In a run whose read-backs go on from whole blocks, a finished installation has
hashed, in order and once, exactly what the slot holds, and the digest is the
signed one. -/
theorem installe_est_signe {z : Systeme} (hx : x.etat.installation = none)
    (hr : x.Suite ctx D (fun a x => a.Fiable ctx D x) y) {appelant : UInt32} {empreinte : Image}
    {longueur : UInt64} {essais : UInt8}
    (hf : (Appel.termine appelant empreinte longueur essais).Fiable ctx D y)
    (ht : y.Appelle ctx D (.termine appelant empreinte longueur essais) true z) :
    ∃ inst texte signature m cle, y.etat.installation = some inst ∧
      Manifeste.verifieSigne ctx.ed25519 texte signature ctx.cles = .ok (m, cle) ∧
      inst.attendu = m.empreinte ∧ inst.attenduOctets = m.octets ∧
      y.etat.verification = some (inst.stocke z.disques m.octets.toNat) ∧
      ctx.sha256 (inst.stocke z.disques m.octets.toNat) = m.empreinte ∧
      ∀ b ∈ inst.image, z.disques.Settled b := by
  have hy : y.Fidele ctx := hr.fidele ⟨by simp [Sain, hx], by simp [hx]⟩
  obtain ⟨hfaux, -⟩ | ⟨inst, lu, ha, -⟩ := ht.effet hy.sain
  · cases hfaux
  obtain ⟨texte, signature, m, cle, hm, hatt, hoct, -⟩ := (hy.sain inst ha.session).signe
  have hrel : Relue y inst :=
    hy.relue inst ha.session (ha.complete ▸ ha.non_vide) (ha.complete ▸ UInt64.le_refl _)
  have hgarde := ht.garde hy.sain hrel (hf inst ha.session)
  have hstocke : inst.stocke z.disques m.octets.toNat = lu := by
    have hread : ∀ b ∈ inst.image, z.disques.read b = y.disques.read b := by
      intro b hb
      rw [(hgarde b hb).1.read_eq, (hgarde b hb).2, (hrel.posee b hb).read_eq]
    have hfed := hrel.fed
    rw [ha.relecture, ha.complete, some.injEq] at hfed
    rw [← hoct, (hy.sain inst ha.session).stocke_congr le_rfl hread, hfed]
  refine ⟨inst, texte, signature, m, cle, ha.session, hm, hatt, hoct, ?_, ?_, fun b hb =>
    (hgarde b hb).1⟩
  · rw [hstocke, ha.relecture]
  · rw [hstocke, ha.empreinte, hatt]

/-! ## Two installations on a small disk

The signed image is 612 zero bytes: one block and a hundred bytes of the next.
The first block of slot B is zero, and the second one is zero or not. -/

def texteZeros : List UInt8 :=
  ("bouchaud-manifeste-v1\nversion=1\nimage_sha256=" ++
    "fea95ee6654315a11e31ce972ff371fc74f2ad8dc02dd7439dafe6ceff383e9a" ++
    "\nimage_octets=612\nessais=2\n").toUTF8.toList

theorem verifieSigne_zeros : Manifeste.verifieSigne contexteNvme.ed25519 texteZeros []
    contexteNvme.cles = .ok (⟨[0x31], empreinteZeros, 612, 2⟩, ⟨"essai", Vector.replicate 32 0, true⟩) := by
  have ha : Manifeste.analyse texteZeros = .ok ⟨[0x31], empreinteZeros, 612, 2⟩ := by
    decide +kernel
  change (Manifeste.analyse texteZeros).map _ = _
  rw [ha]
  rfl

/-- The session of process 7 for slot B. -/
def sessionB (verifie : UInt64) : Installation where
  proprietaire := 7
  attendu := empreinteZeros
  attenduOctets := 612
  attenduEssais := 2
  verifie := verifie
  cible := .B
  volume := 2
  tailleBloc := 512
  premier := 41
  octets := 2048
  partition := entreeSlotB 36

/-- The disk of the small machine while `e` is the current record: nothing is
pending and only the record copies may have changed. -/
structure Amorce (ancien : UInt8) (e : Enregistrement) (d : Disk Adresse (List UInt8)) : Prop where
  posee : ∀ b, d.Settled b
  courant : selection (Meta.copie ⟨supportNvme, 34⟩) d = some e
  reste : ∀ b, b ≠ (2, 34) → b ≠ (2, 35) → d.durable b = (systemeTrois ancien).disques.durable b

variable {ancien : UInt8} {e n : Enregistrement} {d : DisqueBloc} (v : UInt64)

theorem amorce_initiale (ancien : UInt8) : Amorce ancien enregistrementA (systemeTrois ancien).disques where
  posee b := Disk.settled_of_cache_nil rfl b
  courant := by
    change selectionne ((blocDe enregistrementA.encode).take octets)
      ((blocDe enregistrementA.encode).take octets) = _
    decide +kernel
  reste _ _ _ := rfl

theorem Amorce.read_eq (h : Amorce ancien e d) {b : Adresse} (h0 : b ≠ (2, 34)) (h1 : b ≠ (2, 35)) :
    d.read b = (systemeTrois ancien).disques.durable b := by
  rw [(h.posee b).read_eq, h.reste b h0 h1]

theorem Amorce.trouveMeta_exec (h : Amorce ancien e d) :
    (trouveMeta contexteNvme passageA).run.exec d = (.ok ⟨supportNvme, 34⟩, d) :=
  tableValide_trois.trouveMeta_exec (h.read_eq (by decide) (by decide)) (h.read_eq (by decide) (by decide))

theorem Amorce.litTable_exec (h : Amorce ancien e d) :
    (litTable supportNvme).exec d = (.ok (decodeTableau (tableauGpt 36) 4, false), d) :=
  tableValide_trois.litTable_exec (h.read_eq (by decide) (by decide)) (h.read_eq (by decide) (by decide))

theorem Amorce.flush (h : Amorce ancien e d) (P : Adresse → Bool) : Amorce ancien e (d.flush P) where
  posee b := (h.posee b).flush P
  courant := by
    rw [← h.courant]
    simp [selection]
  reste b h0 h1 := by
    rw [(h.posee b).flush_durable P]
    exact h.reste b h0 h1

theorem Amorce.persiste_exec (h : Amorce ancien e d) (hn : n.ActifBon) (hv : version e < version n) :
    ∃ d', (persiste ⟨supportNvme, 34⟩ n).run.exec d = (.ok (), d') ∧ Amorce ancien n d' := by
  obtain ⟨d', hexec, hs, hl, hd⟩ := Noyau.persiste_exec (m := ⟨supportNvme, 34⟩) hn h.posee
  refine ⟨d', hexec, hs, ?_, fun b h0 h1 => ?_⟩
  · rw [selection_eq_newest, hl]
    apply VersionedPair.newest_update_newer
    intro x hx
    rw [← selection_eq_newest, h.courant, some.injEq] at hx
    exact hx ▸ hv
  · refine (hd b fun i hb => ?_).trans (h.reste b h0 h1)
    have hi : i = 0 ∨ i = 1 := by omega
    rcases hi with rfl | rfl
    · exact h0 hb
    · exact h1 hb

/-- The record after the installation has begun, and after it is finished. -/
def enregistrementVide : Enregistrement := enregistrementA.suivant.avecSlot .B .neuf

def enregistrementCandidat : Enregistrement :=
  enregistrementVide.suivant.avecSlot .B ⟨.candidat 2, empreinteZeros⟩

def etatB (verifie : UInt64) (lu : Option (List UInt8)) : EtatNoyau :=
  ⟨some passageA, false, some (sessionB verifie), lu⟩

theorem Amorce.commence_exec (h : Amorce ancien enregistrementA d) :
    ∃ d', (Appel.execute contexteNvme etatA (.commence 7 .B texteZeros [])).exec d =
      ((true, etatB 0 none), d') ∧ Amorce ancien enregistrementVide d' := by
  obtain ⟨d', hp, hd'⟩ := h.persiste_exec (n := enregistrementVide) (by decide) (by decide)
  refine ⟨d', ?_, hd'⟩
  have hprep : (prepareInstallation contexteNvme 7 .B texteZeros [] etatA).run.exec d =
      (.ok (sessionB 0), d') := by
    have htable := h.litTable_exec
    have hslot := tableValide_trois.entreeSlotB
    generalize decodeTableau (tableauGpt 36) 4 = parts at htable hslot
    rw [prepareInstallation, verifieSigne_zeros]
    simp only [etatA]
    rw [exec_run_bind (exec_traduit h.trouveMeta_exec), exec_run_bind (exec_traduit (lit_exec h.courant)),
      show enregistrementA.commenceInstallation .B passageA.slot = .ok enregistrementVide by
        decide]
    rw [exec_run_bind (exec_traduit htable)]
    simp only [hslot]
    rw [if_neg (by decide), exec_run_bind (exec_traduit hp)]
    rfl
  rw [Appel.execute, exec_bind, installationCommence, exec_bind, hprep]
  rfl

/-- What slot B holds. -/
theorem Amorce.read_slot (h : Amorce ancien e d) : d.read (2, 41) = blocDe [] ∧
    d.read (2, 42) = List.replicate 512 ancien ∧ d.read (2, 43) = blocDe [] ∧ d.read (2, 44) = blocDe [] :=
  ⟨h.read_eq (by decide) (by decide), h.read_eq (by decide) (by decide), h.read_eq (by decide) (by decide),
    h.read_eq (by decide) (by decide)⟩

theorem Amorce.stocke_eq (h : Amorce ancien e d) : (sessionB v).stocke d 612 =
    (octetsDe 512 [blocDe [], List.replicate 512 ancien, blocDe [], blocDe []]).take 612 := by
  rw [Installation.stocke, show (sessionB v).partition.blocs.toNat = (entreeSlotB 36).blocs.toNat from rfl,
    show (entreeSlotB 36).blocs.toNat = 4 by decide]
  change (octetsDe 512 [d.read (2, 41), d.read (2, 42), d.read (2, 43), d.read (2, 44)]).take 612 = _
  obtain ⟨h1, h2, h3, h4⟩ := h.read_slot
  rw [h1, h2, h3, h4]

theorem Amorce.termine_exec (h : Amorce ancien enregistrementVide d) :
    ∃ d', (Appel.execute contexteNvme (etatB 612 (some imageZeros)) (.termine 7 (sessionB 612).attendu
      (sessionB 612).attenduOctets (sessionB 612).attenduEssais)).exec d = ((true, etatA), d') ∧
        Amorce ancien enregistrementCandidat d' := by
  obtain ⟨d', hp, hd'⟩ := h.persiste_exec (n := enregistrementCandidat) (by decide) (by decide)
  refine ⟨d', ?_, hd'⟩
  have hsha : contexteNvme.sha256 imageZeros = empreinteZeros := by
    rw [show contexteNvme.sha256 = sha256Zeros from rfl, sha256Zeros_image]
  have hmarque : (marque contexteNvme (sessionB 612) passageA (contexteNvme.sha256
      imageZeros)).run.exec d = (.ok (), d') := by
    rw [hsha, marque, exec_run_bind (exec_traduit h.trouveMeta_exec),
      exec_run_bind (exec_traduit (lit_exec h.courant)),
      show enregistrementVide.marqueCandidat (sessionB 612).cible (sessionB 612).attendu
        empreinteZeros (sessionB 612).attenduEssais = .ok enregistrementCandidat by decide]
    exact exec_traduit hp
  rw [Appel.execute, exec_bind]
  have hfin : (installationTermine contexteNvme 7 (sessionB 612).attendu (sessionB 612).attenduOctets
      (sessionB 612).attenduEssais (etatB 612 (some imageZeros))).exec d = ((.ok (), etatA), d') := by
    change ((marque contexteNvme (sessionB 612) passageA (contexteNvme.sha256 imageZeros)).run >>= _).exec d = _
    rw [exec_bind, hmarque]
    rfl
  rw [hfin]
  rfl

theorem appelle_commence (ancien : UInt8) : ∃ d, Amorce ancien enregistrementVide d ∧
    (systemeTrois ancien).Appelle contexteNvme (reliable _ _) (.commence 7 .B texteZeros [])
      true ⟨etatB 0 none, d⟩ := by
  obtain ⟨d, hexec, hd⟩ := (amorce_initiale ancien).commence_exec
  exact ⟨d, hd, appelle_of_exec (x := systemeTrois ancien) (y := ⟨etatB 0 none, d⟩) _ hexec⟩

theorem Amorce.appelle_termine (h : Amorce ancien enregistrementVide d) :
    ∃ d', Amorce ancien enregistrementCandidat d' ∧
      Appelle contexteNvme (reliable _ _) (.termine 7 (sessionB 612).attendu
        (sessionB 612).attenduOctets (sessionB 612).attenduEssais)
        ⟨etatB 612 (some imageZeros), d⟩ true ⟨etatA, d'⟩ := by
  obtain ⟨d', hexec, hd'⟩ := h.termine_exec
  exact ⟨d', hd', appelle_of_exec (x := ⟨etatB 612 (some imageZeros), d⟩) (y := ⟨etatA, d'⟩)
    _ hexec⟩

/-- A step of the read-back that read `tampon`. -/
theorem appelle_verifie {v' l : UInt64} {o : Option (List UInt8)} {lu' : List UInt8} {d' : DisqueBloc}
    (lu tampon : List UInt8) (hexec : (Appel.execute contexteNvme (etatB v o) (.verifie 7 l)).exec d =
      ((true, (nourrit 7 l (sessionB v) tampon (etatB v (some lu))).2), d'))
    (hlu : lu ++ tampon.take (min tampon.length (l - v).toNat) = lu')
    (hv : v + UInt64.ofNat (min tampon.length (l - v).toNat) = v') :
    Appelle contexteNvme (reliable _ _) (.verifie 7 l) ⟨etatB v o, d⟩ true ⟨etatB v' (some lu'), d'⟩ := by
  refine appelle_of_exec (x := ⟨etatB v o, d⟩) (y := ⟨etatB v' (some lu'), d'⟩) _ (hexec.trans ?_)
  rw [← hlu, ← hv]
  rfl

/-- Hundred bytes are read back, then 612: the first block is hashed twice, the
second one never, and an image that is not the signed one becomes a candidate. -/
theorem installe_non_signe : ∃ (x y z : Systeme) (inst : Installation) (lu : List UInt8),
    x.etat.installation = none ∧
    x.Suite contexteNvme (Device.reliable _ _) (fun _ _ => True) y ∧
    y.etat.installation = some inst ∧ y.etat.verification = some lu ∧
    y.Appelle contexteNvme (Device.reliable _ _)
      (.termine 7 inst.attendu inst.attenduOctets inst.attenduEssais) true z ∧
    inst.stocke z.disques inst.attenduOctets.toNat ≠ lu ∧
    contexteNvme.sha256 (inst.stocke z.disques inst.attenduOctets.toNat) ≠ inst.attendu := by
  obtain ⟨d, hd, hcommence⟩ := appelle_commence 7
  have hf := hd.flush fun a => a.1 = 2
  have hlu := hf.read_slot.1
  have h₁ : Appelle contexteNvme (reliable _ _) (.verifie 7 100) ⟨etatB 0 none, d⟩ true
      ⟨etatB 100 (some (List.replicate 100 0)), d.flush fun a => a.1 = 2⟩ :=
    appelle_verifie 0 [] (octetsDe 512 [blocDe []]) (by rw [← hlu]; rfl) (by decide +kernel) (by decide +kernel)
  have h₂ : Appelle contexteNvme (reliable _ _) (.verifie 7 612)
      ⟨etatB 100 (some (List.replicate 100 0)), d.flush fun a => a.1 = 2⟩ true
      ⟨etatB 612 (some imageZeros), d.flush fun a => a.1 = 2⟩ :=
    appelle_verifie 100 (List.replicate 100 0) (octetsDe 512 [blocDe []]) (by rw [← hlu]; rfl)
      (by decide +kernel) (by decide +kernel)
  obtain ⟨d₂, hd₂, h₃⟩ := hf.appelle_termine
  refine ⟨systemeTrois 7, _, _, sessionB 612, imageZeros, rfl, ?_, rfl, rfl, h₃, ?_, ?_⟩
  · exact (Relation.ReflTransGen.single ⟨_, _, trivial, hcommence⟩).tail ⟨_, _, trivial, h₁⟩ |>.tail
      ⟨_, _, trivial, h₂⟩
  · rw [show (sessionB 612).attenduOctets.toNat = 612 from rfl, hd₂.stocke_eq]
    decide +kernel
  · rw [show (sessionB 612).attenduOctets.toNat = 612 from rfl, hd₂.stocke_eq]
    decide +kernel

theorem Amorce.fiable_termine (h : Amorce ancien enregistrementVide d) :
    (Appel.termine 7 (sessionB 612).attendu (sessionB 612).attenduOctets
      (sessionB 612).attenduEssais).Fiable contexteNvme (reliable _ _) ⟨etatB 612 (some imageZeros), d⟩ := by
  rintro inst hinst b hb ⟨p, s, m, hp, ht, i, hi, rfl⟩
  obtain rfl : sessionB 612 = inst := some.inj hinst
  obtain rfl : passageA = p := some.inj hp
  obtain ⟨rfl, rfl⟩ := tableValide_trois.trouve_eq (h.read_eq (by decide) (by decide))
    (h.read_eq (by decide) (by decide)) ht
  have hi' : i = 0 ∨ i = 1 := by omega
  rcases hi' with rfl | rfl <;> exact absurd hb (by decide)

/-- Read back in one piece, the zero image is installed. -/
theorem installe_est_signe_zeros : ∃ y z : Systeme,
    y.Appelle contexteNvme (Device.reliable _ _) (.termine 7 (sessionB 612).attendu
      (sessionB 612).attenduOctets (sessionB 612).attenduEssais) true z ∧
    ∃ inst texte signature m cle, y.etat.installation = some inst ∧
      Manifeste.verifieSigne contexteNvme.ed25519 texte signature contexteNvme.cles = .ok (m, cle) ∧
      inst.attendu = m.empreinte ∧ inst.attenduOctets = m.octets ∧
      y.etat.verification = some (inst.stocke z.disques m.octets.toNat) ∧
      contexteNvme.sha256 (inst.stocke z.disques m.octets.toNat) = m.empreinte ∧
      ∀ b ∈ inst.image, z.disques.Settled b := by
  obtain ⟨d, hd, hcommence⟩ := appelle_commence 0
  have hf := hd.flush fun a => a.1 = 2
  obtain ⟨hlu, hlu', -⟩ := hf.read_slot
  have h₁ : Appelle contexteNvme (reliable _ _) (.verifie 7 612) ⟨etatB 0 none, d⟩ true
      ⟨etatB 612 (some imageZeros), d.flush fun a => a.1 = 2⟩ :=
    appelle_verifie 0 [] (octetsDe 512 [blocDe [], List.replicate 512 0]) (by rw [← hlu, ← hlu']; rfl)
      (by decide +kernel) (by decide +kernel)
  obtain ⟨d₂, hd₂, h₂⟩ := hf.appelle_termine
  have hsuite : (systemeTrois 0).Suite contexteNvme (reliable _ _)
      (fun a x => a.Fiable contexteNvme (reliable _ _) x)
      ⟨etatB 612 (some imageZeros), d.flush fun a => a.1 = 2⟩ := by
    refine (Relation.ReflTransGen.single ⟨_, _, ?_, hcommence⟩).tail ⟨_, _, ?_, h₁⟩
    · intro inst hinst
      obtain rfl : sessionB 0 = inst := some.inj hinst
      exact .inr (by decide)
    · intro inst hinst
      cases hinst
  exact ⟨_, _, h₂, installe_est_signe rfl hsuite hf.fiable_termine h₂⟩

end BouchaudOS.Update.Noyau
