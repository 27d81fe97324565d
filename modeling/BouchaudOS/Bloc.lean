import BouchaudOS.Foundations.DeviceProgram
import BouchaudOS.Foundations.Bytes

/-!
# The block layer

`src/drivers/api/bloc.rs`: a volume is a number, each volume has its own block
size and its own write cache. A request that transfers fewer blocks than asked
counts as failed for every caller, so a transfer succeeds whole or fails.
Blocks are read as `tailleBloc` bytes.
-/
open List UInt64

namespace BouchaudOS

open Prog hiding pure

abbrev Volume := UInt8

/-- A block of a volume. -/
abbrev Adresse := Volume × UInt64

/-- What a driver declares about its volume. -/
structure Descripteur where
  tailleBloc : UInt64
  blocs : UInt64
  /-- Does the driver really flush its cache? -/
  vidangeReelle : Bool
  deriving Repr

def Descripteur.absent : Descripteur := ⟨512, 0, false⟩

/-- The drivers registered at boot. -/
abbrev Materiel := Volume → Option Descripteur

def Materiel.descripteur (m : Materiel) (v : Volume) : Descripteur := (m v).getD .absent

def Materiel.present (m : Materiel) (v : Volume) : Bool := (m.descripteur v).blocs ≠ 0

/-- A program on the blocks of all volumes. -/
abbrev ProgBloc (α : Type) := Prog Adresse (List UInt8) α

abbrev DisqueBloc := Disk Adresse (List UInt8)

/-- A volume, with its geometry. -/
structure SupportVolume where
  volume : Volume
  tailleBloc : UInt64
  blocs : UInt64
  deriving DecidableEq, Repr

/-- The blocks `lba, lba + 1, …` of a volume. -/
def adresses (v : Volume) (lba : UInt64) (n : ℕ) : List Adresse :=
  (range n).map fun i => (v, lba + ofNat i)

/-- The bytes of some blocks, each of `t` bytes. -/
def octetsDe (t : ℕ) (blocs : List (List UInt8)) : List UInt8 :=
  (blocs.map fun b => b.takeD t 0).flatten

/-- Read `n` blocks (`bloc::lit`). -/
def litBlocs (v : Volume) (t : ℕ) (lba : UInt64) (n : ℕ) : ProgBloc (Option (List UInt8)) := do
  match ← lit (adresses v lba n) with
  | none => pure none
  | some blocs => pure (some (octetsDe t blocs))

/-- Cut `n` blocks of `t` bytes out of a buffer. -/
def decoupe (t : ℕ) : ℕ → List UInt8 → List (List UInt8)
  | 0, _ => []
  | n + 1, o => o.take t :: decoupe t n (o.drop t)

/-- Write whole blocks (`bloc::ecrit`). -/
def ecritBlocs (v : Volume) (t : ℕ) (lba : UInt64) (n : ℕ) (donnees : List UInt8) : ProgBloc Bool :=
  ecrit ((adresses v lba n).zip (decoupe t n donnees))

/-- Flush a volume (`bloc::vidange`): false where the driver cannot. -/
def vidangeVolume (m : Materiel) (v : Volume) : ProgBloc Bool := do
  let ok ← vidange fun a => a.1 = v
  pure (ok && (m.descripteur v).vidangeReelle)

theorem litBlocs_readOnly (v : Volume) (t : ℕ) (lba : UInt64) (n : ℕ) : (litBlocs v t lba n).ReadOnly := by
  refine ReadOnly.bind (fun _ => trivial) fun r => ?_
  cases r <;> exact trivial

@[simp] theorem exec_litBlocs (v : Volume) (t : ℕ) (lba : UInt64) (n : ℕ)
    (d : DisqueBloc) :
    (litBlocs v t lba n).exec d = (some (octetsDe t ((adresses v lba n).map d.read)), d) := rfl

variable {v : Volume} {t n : ℕ} {lba : UInt64}

theorem wp_litBlocs {D : Device Adresse (List UInt8)} {I : DisqueBloc → Prop} {W : Adresse → Prop}
    {Q : Option (List UInt8) → DisqueBloc → Prop} {d : DisqueBloc}
    (hI : I d) (hok : Q (some (octetsDe t ((adresses v lba n).map d.read))) d)
    (hko : D.faulty → Q none d) : wp D I W Q (litBlocs v t lba n) d :=
  wp_bind _ _ _ (wp_lit hI ⟨hI, hok⟩ fun hf => ⟨hI, hko hf⟩)

theorem mem_adresses {a : Adresse} (h : a ∈ adresses v lba n) : ∃ i < n, a = (v, lba + ofNat i) := by
  obtain ⟨i, hi, rfl⟩ := mem_map.mp h
  exact ⟨i, mem_range.mp hi, rfl⟩

theorem octetsDe_append (t : ℕ) (a b : List (List UInt8)) :
    octetsDe t (a ++ b) = octetsDe t a ++ octetsDe t b := by
  simp [octetsDe]

theorem adresses_add (v : Volume) (lba : UInt64) (m n : ℕ) :
    adresses v lba (m + n) = adresses v lba m ++ adresses v (lba + UInt64.ofNat m) n := by
  simp [adresses, range_add, Function.comp_def, UInt64.add_assoc]

@[simp] theorem length_adresses (v : Volume) (lba : UInt64) (n : ℕ) : (adresses v lba n).length = n := by
  simp [adresses]

theorem uint64_ofNat_inj {i j : ℕ} (hi : i < 2 ^ 64) (hj : j < 2 ^ 64) (h : ofNat i = ofNat j) : i = j := by
  have h' := congrArg toNat h
  rwa [toNat_ofNat_of_lt' hi, toNat_ofNat_of_lt' hj] at h'

theorem adresses_nodup (v : Volume) (lba : UInt64) (h : n ≤ 2 ^ 64) : (adresses v lba n).Nodup := by
  refine Nodup.map_on ?_ nodup_range
  intro i hi j hj hij
  rw [mem_range] at hi hj
  exact uint64_ofNat_inj (by omega) (by omega) (by simpa using hij)

@[simp] theorem length_decoupe (t n : ℕ) (o : List UInt8) : (decoupe t n o).length = n := by
  induction n generalizing o with
  | zero => rfl
  | succ n ih => simp [decoupe, ih]

theorem octetsDe_decoupe {o : List UInt8} (h : o.length = n * t) : octetsDe t (decoupe t n o) = o := by
  induction n generalizing o with
  | zero => simp [decoupe, octetsDe, length_eq_zero_iff.mp (by simpa using h)]
  | succ n ih =>
    have hlen : o.length = n * t + t := by rw [h, Nat.succ_mul]
    have htake : (o.take t).takeD t 0 = o.take t := by
      rw [takeD_eq_take _ (by simp; omega), take_take, min_self]
    have hcons : octetsDe t (decoupe t (n + 1) o) =
        (o.take t).takeD t 0 ++ octetsDe t (decoupe t n (o.drop t)) := by
      simp [decoupe, octetsDe]
    rw [hcons, htake, ih (by simp; omega), take_append_drop]

theorem octetsDe_write {o : List UInt8} (d : DisqueBloc) (hn : n ≤ 2 ^ 64) (h : o.length = n * t) :
    octetsDe t ((adresses v lba n).map (d.write ((adresses v lba n).zip (decoupe t n o))).read) = o := by
  rw [Disk.map_read_write_zip (adresses_nodup v lba hn) (by simp), octetsDe_decoupe h]

theorem octetsDe_singleton {b : List UInt8} (h : b.length = t) : octetsDe t [b] = b := by
  subst h
  simp [octetsDe, takeD_eq_take]

theorem length_octetsDe (t : ℕ) (blocs : List (List UInt8)) :
    (octetsDe t blocs).length = blocs.length * t := by
  induction blocs with
  | nil => simp [octetsDe]
  | cons b bs ih =>
    have hcons : octetsDe t (b :: bs) = b.takeD t 0 ++ octetsDe t bs := by simp [octetsDe]
    rw [hcons, length_append, ih, takeD_length, length_cons]
    ring

end BouchaudOS
