import BouchaudOS.Update.Effets

/-!
# The update mechanism writes only its own partitions

The record copies are META blocks 0 and 1 and the search for META accepts a
partition of two blocks, but the failure counter is META block 2. With a META
partition of exactly two blocks a counter reset overwrites the first block of
the next partition. In every other case all writes stay in META or in the slot
being installed.
-/
namespace BouchaudOS.Update.Noyau

open Bytes Gpt Enregistrement List
open Prog hiding pure

variable (ctx : Contexte) (D : Device Adresse (List UInt8))

/-- The block lies in the META partition the kernel finds. -/
def DansMeta (x : Systeme) (b : Adresse) : Prop :=
  ∃ p s m, x.etat.passage = some p ∧ Trouve ctx D p x.disques s m ∧ b.1 = s.volume ∧ m.Contient b.2

/-- The block lies in the partition of the slot being installed. -/
def DansSlot (x : Systeme) (b : Adresse) : Prop :=
  ∃ inst, x.etat.installation = some inst ∧ inst.partition.typeGuid = typeDuSlot inst.cible ∧
    b.1 = inst.volume ∧ inst.partition.Contient b.2

/-- The counter has a block in META, and the bounds of the slot are in order. -/
def Appel.Tient (x : Systeme) : Appel → Prop
  | .commitSante | .rollbackManuel | .remetCompteur =>
    ∀ p s m, x.etat.passage = some p → Trouve ctx D p x.disques s m → 3 ≤ m.blocs
  | .ecrit .. => ∀ inst, x.etat.installation = some inst → inst.partition.premier ≤ inst.partition.dernier
  | .commence .. | .verifie .. | .termine .. => True

variable {ctx D} {x y : Systeme} {b : Adresse}

theorem BlocMeta.dansMeta {n : ℕ} (h : BlocMeta ctx D n x b) (hn : n < 2 ^ 64)
    (hb : ∀ p s m, x.etat.passage = some p → Trouve ctx D p x.disques s m →
      n ≤ m.blocs.toNat) : DansMeta ctx D x b := by
  obtain ⟨p, s, m, hp, ht, i, hi, rfl⟩ := h
  have hordre : m.premier ≤ m.dernier := by
    apply premier_le_dernier
    exact UInt64.lt_of_lt_of_le (by decide) ht.metaTrouvee.blocs
  refine ⟨p, s, m, hp, ht, rfl, contient_add hordre ?_⟩
  have := hb p s m hp ht
  rw [UInt64.toNat_ofNat', Nat.mod_eq_of_lt (by omega)]
  omega

theorem BlocSlot.dansSlot (h : BlocSlot x b) (hx : x.Sain ctx)
    (hordre : ∀ inst, x.etat.installation = some inst →
      inst.partition.premier ≤ inst.partition.dernier) : DansSlot x b := by
  obtain ⟨inst, hi, k, rfl, hk⟩ := h
  have ho := hx inst hi
  refine ⟨inst, hi, ho.slot, rfl, ?_⟩
  rw [ho.premier]
  apply contient_add (hordre inst hi)
  have hmul := Nat.le_of_mul_le_mul_right (hk.trans ho.octets_le) ho.pos
  omega

theorem Appel.Ecrits.dans {a : Appel} (h : a.Ecrits ctx D x b) (hx : x.Sain ctx)
    (ha : a.Tient ctx D x) : DansMeta ctx D x b ∨ DansSlot x b := by
  cases a with
  | commitSante | rollbackManuel | remetCompteur =>
    exact .inl (BlocMeta.dansMeta h (by decide) fun p s m hp ht =>
      UInt64.le_iff_toNat_le.mp (ha p s m hp ht))
  | commence | termine =>
    exact .inl (BlocMeta.dansMeta h (by decide) fun p s m _ ht =>
      UInt64.le_iff_toNat_le.mp ht.metaTrouvee.blocs)
  | ecrit => exact .inr (BlocSlot.dansSlot h hx ha)
  | verifie => exact h.elim

/-- Whatever calls came before and whatever requests failed, a call whose
partitions are large enough writes only blocks of META or of the slot being
installed. -/
theorem ecritures_confinees (hx : x.etat.installation = none)
    (hr : x.Suite ctx D (fun _ _ => True) y) (a : Appel) (ha : a.Tient ctx D y)
    {ws : List (Adresse × List UInt8)} {k : Bool → ProgBloc (Bool × EtatNoyau)}
    {d : Disk Adresse (List UInt8)}
    (hw : Run D (a.execute ctx y.etat, y.disques) (.write ws k, d)) :
    ∀ w ∈ ws, DansMeta ctx D y w.1 ∨ DansSlot y w.1 := by
  have hy : y.Sain ctx := hr.sain (by simp [Systeme.Sain, hx])
  intro w hmem
  exact ((wp_execute hy a).writes hw w hmem).dans hy ha

/-! ## A small boot disk

Volume 2 with blocks of 512 bytes: the table in block 2, META from block 34 to
block `fin`, and right after it slots A and B of four blocks each. The kernel
runs from slot A. -/

def uniqueMeta : Guid := ⟨1, 2, 3, Vector.replicate 8 4⟩

def entreeGpt (type unique : Guid) (premier dernier : UInt64) : List UInt8 :=
  type.octets ++ unique.octets ++ leBytes 8 premier.toNat ++ leBytes 8 dernier.toNat ++ replicate 80 0

def tableauGpt (fin : UInt64) : List UInt8 :=
  entreeGpt typeMeta uniqueMeta 34 fin ++
    entreeGpt (typeDuSlot .A) ⟨5, 6, 7, Vector.replicate 8 8⟩ (fin + 1) (fin + 4) ++
    entreeGpt (typeDuSlot .B) ⟨9, 10, 11, Vector.replicate 8 12⟩ (fin + 5) (fin + 8) ++
    replicate 128 0

/-- A header with the given checksums of itself and of the table. -/
def enteteGpt (crc crcTableau : UInt32) : List UInt8 :=
  signature ++ leBytes 4 0x10000 ++ leBytes 4 tailleEntete ++ leBytes 4 crc.toNat ++ leBytes 4 0 ++
    leBytes 8 1 ++ leBytes 8 63 ++ leBytes 8 34 ++ leBytes 8 62 ++ replicate 16 13 ++
    leBytes 8 2 ++ leBytes 4 4 ++ leBytes 4 tailleEntree ++ leBytes 4 crcTableau.toNat

def enregistrementA : Enregistrement := initial .A (Vector.replicate 32 1)

def blocDe (o : List UInt8) : List UInt8 := o.takeD 512 0

/-- Block 42 holds what an earlier installation left there. -/
def disqueAmorce (fin : UInt64) (crc crcTableau : UInt32) (ancien : UInt8) : Disk Adresse (List UInt8) where
  durable a :=
    if a = (2, 1) then blocDe (enteteGpt crc crcTableau)
    else if a = (2, 2) then tableauGpt fin
    else if a = (2, 34) ∨ a = (2, 35) then blocDe enregistrementA.encode
    else if a = (2, 42) then replicate 512 ancien
    else blocDe []
  cache := []

def passageA : Passage := ⟨.A, .actif, 0, 1, 1, toVector 16 uniqueMeta.octets⟩

def materielNvme : Materiel := fun v => if v = 2 then some ⟨512, 64, true⟩ else none

def imageZeros : List UInt8 := replicate 612 0

def empreinteZeros : Image :=
  #v[254, 169, 94, 230, 101, 67, 21, 161, 30, 49, 206, 151, 47, 243, 113, 252, 116, 242, 173, 141,
    192, 45, 215, 67, 157, 175, 230, 206, 255, 56, 62, 154]

def sha256Zeros (o : List UInt8) : Image :=
  if o = imageZeros then empreinteZeros else Vector.replicate 32 0

theorem sha256Zeros_image : sha256Zeros imageZeros = empreinteZeros := by
  rw [sha256Zeros, if_pos rfl]

/-- One trusted key that accepts every signature. -/
def contexteNvme : Contexte where
  materiel := materielNvme
  cles := [⟨"essai", Vector.replicate 32 0, true⟩]
  ed25519 _ _ _ := true
  sha256 := sha256Zeros

def etatA : EtatNoyau := ⟨some passageA, false, none, none⟩

def supportNvme : SupportVolume := ⟨2, 512, 64⟩

def entreeMeta (fin : UInt64) : Partition := ⟨typeMeta, uniqueMeta, 34, fin, 0⟩

def entreeSlotB (fin : UInt64) : Partition :=
  ⟨typeDuSlot .B, ⟨9, 10, 11, Vector.replicate 8 12⟩, fin + 5, fin + 8, 0⟩

def enteteLu (crcTableau : UInt32) : Entete :=
  ⟨1, 63, 34, 62, Guid.depuisOctets (replicate 16 13), 2, 4, 128, crcTableau⟩

/-- The header and the table of the small disk carry the right checksums. -/
structure TableValide (fin : UInt64) (crc crcTableau : UInt32) : Prop where
  entete : decodeEntete (blocDe (enteteGpt crc crcTableau)) = some (enteteLu crcTableau)
  tableau : Gpt.crc32 (tableauGpt fin) = crcTableau
  longueur : (tableauGpt fin).length = 512
  entreeMeta : (decodeTableau (tableauGpt fin) 4).find? (fun x => x.typeGuid = typeMeta ∧
    x.unique.octets = passageA.metaUnique.toList) =
    some (Noyau.entreeMeta fin)
  entreeSlotB : (decodeTableau (tableauGpt fin) 4).find? (fun x => x.typeGuid = typeDuSlot .B) =
    some (Noyau.entreeSlotB fin)
  blocs : ¬(Noyau.entreeMeta fin).blocs < 2

theorem tableValide_deux : TableValide 35 4101115557 1525733158 where
  entete := by
    simp only [decodeEntete, crc32_eq_masque]
    decide +kernel
  tableau := by
    rw [crc32_eq_masque]
    decide +kernel
  longueur := by decide +kernel
  entreeMeta := by decide +kernel
  entreeSlotB := by decide +kernel
  blocs := by decide

theorem tableValide_trois : TableValide 36 2746938799 2000895317 where
  entete := by
    simp only [decodeEntete, crc32_eq_masque]
    decide +kernel
  tableau := by
    rw [crc32_eq_masque]
    decide +kernel
  longueur := by decide +kernel
  entreeMeta := by decide +kernel
  entreeSlotB := by decide +kernel
  blocs := by decide

namespace TableValide

variable {fin : UInt64} {crc crcTableau : UInt32} {d : DisqueBloc}

variable (h : TableValide fin crc crcTableau) (h1 : d.read (2, 1) = blocDe (enteteGpt crc crcTableau)) (h2 : d.read (2, 2) = tableauGpt fin)

include h h1 h2

/-- What the kernel reads on every disk that has that table. -/
theorem litTable_exec : (litTable supportNvme).exec d = (.ok (decodeTableau (tableauGpt fin) 4, false), d) := by
  refine Gpt.litTable_exec (s := supportNvme) (e := enteteLu crcTableau) ?_ rfl
    (by decide : (4 : UInt32) ≠ 0) (by decide : (4 : ℕ) ≤ 512)
    (by decide : (4 * 128 + 512 - 1) / 512 = 1) ?_ ?_
  · have hb : (blocDe (enteteGpt crc crcTableau)).length = 512 := takeD_length _ _ _
    have ho := octetsDe_singleton hb
    rw [← h1] at ho
    exact (congrArg decodeEntete (ho.trans h1)).trans h.entete
  · have ho := octetsDe_singleton h.longueur
    rw [← h2] at ho
    exact ho.trans h2
  · have ht : (tableauGpt fin).take (4 * 128) = tableauGpt fin :=
      take_of_length_le h.longueur.le
    exact (congrArg Gpt.crc32 ht).trans h.tableau

theorem trouvePartitionMeta_exec :
    (trouvePartitionMeta contexteNvme passageA).exec d = (.ok (supportNvme, Noyau.entreeMeta fin), d) := by
  have hdesc : contexteNvme.materiel.descripteur 2 = ⟨512, 64, true⟩ := rfl
  exact chercheMeta_exec hdesc (by decide) (by decide) (h.litTable_exec h1 h2) h.entreeMeta h.blocs
    rfl

theorem trouveMeta_exec : (trouveMeta contexteNvme passageA).run.exec d = (.ok ⟨supportNvme, 34⟩, d) := by
  rw [trouveMeta, run_bind_eq, exec_bind, ExceptT.run_mk, h.trouvePartitionMeta_exec h1 h2]
  rfl

theorem remetCompteur_ecrit :
    ∃ b k d', Run (Device.reliable Adresse (List UInt8)) (Appel.execute contexteNvme etatA .remetCompteur, d)
      (.write [((2, 36), b)] k, d') := by
  obtain ⟨b, hb⟩ : ∃ b, [((2, 36), b)] ∈
      ((ecritCompteur ⟨supportNvme, 34⟩ 0).run.batches d) := ⟨_, mem_cons_self⟩
  refine ⟨b, run_of_mem_batches _ ?_⟩
  rw [Appel.execute, batches_bind, remetCompteur]
  simp only [etatA]
  rw [run_bind_eq, batches_bind, h.trouveMeta_exec h1 h2]
  exact mem_append_left _ (mem_append_right _ hb)

theorem trouve_eq {s : SupportVolume} {m : Partition}
    (ht : Trouve contexteNvme (Device.reliable Adresse (List UInt8)) passageA d s m) :
    s = supportNvme ∧ m = Noyau.entreeMeta fin := by
  have he := exec_of_run id ht
  rw [h.trouvePartitionMeta_exec h1 h2, exec_pure] at he
  simpa using (congrArg Prod.fst he).symm

end TableValide

def systemeDeux : Systeme := ⟨etatA, disqueAmorce 35 4101115557 1525733158 0⟩

def systemeTrois (ancien : UInt8) : Systeme := ⟨etatA, disqueAmorce 36 2746938799 2000895317 ancien⟩

theorem passage_etatA {p : Passage} (h : etatA.passage = some p) : p = passageA := by
  simpa [etatA] using h.symm

/-- With META of exactly two blocks, a counter reset overwrites the first block of
slot A, the running system. -/
theorem compteur_deborde : ∃ ws k d, Run (Device.reliable Adresse (List UInt8))
    (Appel.execute contexteNvme systemeDeux.etat .remetCompteur, systemeDeux.disques) (.write ws k, d) ∧
    ∃ w ∈ ws, ¬(DansMeta contexteNvme (Device.reliable Adresse (List UInt8)) systemeDeux w.1 ∨
      DansSlot systemeDeux w.1) := by
  obtain ⟨b, k, d, hr⟩ := tableValide_deux.remetCompteur_ecrit (d := systemeDeux.disques) rfl rfl
  refine ⟨_, k, d, hr, _, mem_singleton_self _, ?_⟩
  rintro (⟨p, s, m, hp, ht, -, hm⟩ | ⟨inst, hi, -⟩)
  · obtain rfl := passage_etatA hp
    obtain ⟨-, rfl⟩ := tableValide_deux.trouve_eq rfl rfl ht
    exact absurd hm (by decide : ¬(entreeMeta 35).Contient 36)
  · cases hi

theorem ecritures_confinees_trois : ∃ ws k d, Run (Device.reliable Adresse (List UInt8))
    (Appel.execute contexteNvme (systemeTrois 0).etat .remetCompteur, (systemeTrois 0).disques)
      (.write ws k, d) ∧ ws ≠ [] ∧
    ∀ w ∈ ws, DansMeta contexteNvme (Device.reliable Adresse (List UInt8)) (systemeTrois 0) w.1 ∨
      DansSlot (systemeTrois 0) w.1 := by
  obtain ⟨b, k, d, hr⟩ := tableValide_trois.remetCompteur_ecrit (d := (systemeTrois 0).disques) rfl rfl
  refine ⟨_, k, d, hr, cons_ne_nil _ _, ?_⟩
  refine ecritures_confinees (x := systemeTrois 0) rfl .refl .remetCompteur ?_ hr
  intro p s m hp ht
  obtain rfl := passage_etatA hp
  obtain ⟨-, rfl⟩ := tableValide_trois.trouve_eq rfl rfl ht
  decide

end BouchaudOS.Update.Noyau
