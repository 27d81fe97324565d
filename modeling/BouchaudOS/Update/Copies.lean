import BouchaudOS.Foundations.DeviceProgram
import BouchaudOS.Update.Codec

/-!
# Persisting the boot record

The META partition keeps the record in two blocks. The loader
(`tools/reference/uefi-preboot-probe/src/ab.rs`) and the kernel
(`src/kernel/update/mod.rs`) persist a record in the same way: overwrite the
older copy, flush, read it back. The specification of this program says which
pair of copies can be found on the disk at any point of it, after a power loss
there, and after a request that failed.
-/
namespace BouchaudOS.Update

open Bytes VersionedPair Enregistrement Function
open Prog hiding pure

variable {ι : Type}

def decodeBloc (b : List UInt8) : Option Enregistrement := decode (b.take octets)

/-- Read the two copies. -/
def litCopies (a : Fin 2 → ι) : Prog ι (List UInt8) (Option (List UInt8 × List UInt8)) := do
  match ← litBloc (a 0) with
  | none => pure none
  | some c0 =>
    match ← litBloc (a 1) with
    | none => pure none
    | some c1 => pure (some (c0, c1))

/-- Older copy := `e`, flush the medium, read back; succeeds only if the copy
read back decodes to `e`. -/
def persisteCopies (a : Fin 2 → ι) (medium : ι → Bool) (e : Enregistrement) :
    Prog ι (List UInt8) (Except String Unit) := do
  match ← litCopies a with
  | none => pure (.error "meta_illisible")
  | some (c0, c1) =>
    let i := copieAEcrire (c0.take octets) (c1.take octets)
    let bloc := splice (if i = 0 then c0 else c1) 0 e.encode
    if !(← ecrit [(a i, bloc)]) then pure (.error "ecriture")
    else if !(← vidange medium) then pure (.error "vidange")
    else
      match ← litCopies a with
      | none => pure (.error "relecture")
      | some (r0, r1) =>
        if decodeBloc (if i = 0 then r0 else r1) ≠ some e then
          pure (.error "relecture_differente")
        else pure (.ok ())

variable [DecidableEq ι] (a : Fin 2 → ι)

def lus (a : Fin 2 → ι) (d : Disk ι (List UInt8)) (i : Fin 2) : Option Enregistrement :=
  decodeBloc (d.read (a i))

def selection (a : Fin 2 → ι) (d : Disk ι (List UInt8)) : Option Enregistrement :=
  selectionne ((d.read (a 0)).take octets) ((d.read (a 1)).take octets)

def CopiesPosees (a : Fin 2 → ι) (d : Disk ι (List UInt8)) : Prop := ∀ i, d.Settled (a i)

/-- A device that detects torn copies: after a power loss or a failed request
each copy is one of its versions or fails to decode. The fate of a failed
request is settled when the failure is reported. -/
structure DetecteDechirure (D : Device ι (List UInt8)) (a : Fin 2 → ι) : Prop where
  distinctes : a 0 ≠ a 1
  cut : ∀ {d d'}, D.cut d d' → Detected (fun x => ∃ i, x = a i) decodeBloc d d'
  fault : ∀ {d d'}, D.fault d d' → CopiesPosees a d' ∧ Detected (fun x => ∃ i, x = a i) decodeBloc d d'

/-- The three pairs that overwriting copy `t` with `n` can leave: nothing
happened, the copy is lost, the copy is written. -/
def Issue (p : Fin 2 → Option Enregistrement) (t : Fin 2) (n : Enregistrement)
    (q : Fin 2 → Option Enregistrement) : Prop :=
  q = p ∨ q = update p t none ∨ q = update p t (some n)

/-- The disk shows one of the three pairs, now and after a power loss. -/
def Atomique (D : Device ι (List UInt8)) (a : Fin 2 → ι) (p : Fin 2 → Option Enregistrement)
    (t : Fin 2) (n : Enregistrement) (d : Disk ι (List UInt8)) : Prop :=
  Issue p t n (lus a d) ∧ ∀ d', D.cut d d' → Issue p t n (lus a d')

/-- How a persist of `n` over copy `t` ends: success means that the new record
is durable, and without a device failure it succeeds. -/
structure Acheve (D : Device ι (List UInt8)) (a : Fin 2 → ι)
    (p : Fin 2 → Option Enregistrement) (t : Fin 2) (n : Enregistrement)
    (r : Except String Unit) (d : Disk ι (List UInt8)) : Prop where
  posees : CopiesPosees a d
  durable : r = .ok () → lus a d = update p t (some n)
  reussit : ¬D.faulty → r = .ok ()

theorem copies_eq_lus (d : Disk ι (List UInt8)) :
    copies ((d.read (a 0)).take octets) ((d.read (a 1)).take octets) = lus a d := by
  funext i
  have hi : i = 0 ∨ i = 1 := by omega
  rcases hi with rfl | rfl <;> simp [copies, lus, decodeBloc]

theorem selection_eq_newest (d : Disk ι (List UInt8)) : selection a d = newest version (lus a d) := by
  rw [selection, selectionne_eq_newest, copies_eq_lus]

theorem actifBon_of_selection {a : Fin 2 → ι} {d : Disk ι (List UInt8)} {e : Enregistrement}
    (h : selection a d = some e) : e.ActifBon := by
  rw [selection_eq_newest] at h
  obtain ⟨i, hi⟩ := mem_of_newest h
  exact actifBon_of_decode hi

theorem copieAEcrire_lus (d : Disk ι (List UInt8)) :
    copieAEcrire ((d.read (a 0)).take octets) ((d.read (a 1)).take octets) = stale version (lus a d) := by
  rw [copieAEcrire_eq_stale, copies_eq_lus]

theorem decodeBloc_splice {n : Enregistrement} (hn : n.ActifBon) (b : List UInt8) :
    decodeBloc (splice b 0 n.encode) = some n := by
  have h : (splice b 0 n.encode).take octets = n.encode := by
    simp [splice, ← length_encode n]
  rw [decodeBloc, h, decode_encode hn]

variable {D : Device ι (List UInt8)} {a : Fin 2 → ι} {I : Disk ι (List UInt8) → Prop}
  {W : ι → Prop} {p : Fin 2 → Option Enregistrement} {t : Fin 2} {n : Enregistrement}
  {d d' : Disk ι (List UInt8)} {b : List UInt8}

theorem wp_litCopies {Q : Option (List UInt8 × List UInt8) → Disk ι (List UInt8) → Prop}
    (hI : I d) (hok : Q (some (d.read (a 0), d.read (a 1))) d) (hko : D.faulty → Q none d) :
    wp D I W Q (litCopies a) d := by
  refine wp_bind _ _ _ (wp_litBloc hI ?_ fun hf => ⟨hI, hko hf⟩)
  exact wp_bind _ _ _ (wp_litBloc hI ⟨hI, hok⟩ fun hf => ⟨hI, hko hf⟩)

theorem CopiesPosees.lus_eq (h : CopiesPosees a d) (h' : CopiesPosees a d')
    (hd : ∀ i, d'.durable (a i) = d.durable (a i)) : lus a d' = lus a d := by
  funext i
  rw [lus, lus, (h i).read_eq, (h' i).read_eq, hd]

theorem copiesPosees_of_cut (h : D.cut d d') : CopiesPosees a d' :=
  fun i => Disk.settled_of_cache_nil (D.cut_cache h) (a i)

/-- A disk with no pending write on the copies shows the same pair after a
power loss. -/
theorem CopiesPosees.atomique (h : CopiesPosees a d) (hi : Issue p t n (lus a d)) : Atomique D a p t n d := by
  refine ⟨hi, fun d' hc => ?_⟩
  rwa [h.lus_eq (copiesPosees_of_cut hc) fun i => D.cut_settled hc (h i)]

theorem DetecteDechirure.ne (hD : DetecteDechirure D a) (t : Fin 2) : a (1 - t) ≠ a t := by
  have ht : t = 0 ∨ t = 1 := by omega
  rcases ht with rfl | rfl
  · exact hD.distinctes.symm
  · exact hD.distinctes

/-- Once the block of copy `t` is written, every outcome that detects tears
shows one of the three pairs. -/
theorem issue_of_detected (hs : CopiesPosees a d) (hb : decodeBloc b = some n) (hs' : CopiesPosees a d')
    (hdet : Detected (fun x => ∃ i, x = a i) decodeBloc (d.write [(a t, b)]) d')
    (ho : d'.durable (a (1 - t)) = d.durable (a (1 - t))) :
    Issue (lus a d) t n (lus a d') := by
  have hother : lus a d' (1 - t) = lus a d (1 - t) := by
    rw [lus, lus, (hs _).read_eq, (hs' _).read_eq, ho]
  have hread : lus a d' t = decodeBloc (d'.durable (a t)) := by
    rw [lus, (hs' t).read_eq]
  rcases hdet (a t) ⟨t, rfl⟩ with hv | hnone
  · rw [Disk.versions_write_single (hs t), List.mem_pair] at hv
    rcases hv with hv | hv
    · have hp : lus a d' t = lus a d t := by rw [hread, hv, lus, (hs t).read_eq]
      left
      rw [eq_update_of_eq hp hother, update_eq_self]
    · right
      right
      exact eq_update_of_eq (by rw [hread, hv, hb]) hother
  · right
    left
    exact eq_update_of_eq (by rw [hread, hnone]) hother

theorem lus_write (hD : DetecteDechirure D a) (hb : decodeBloc b = some n) :
    lus a (d.write [(a t, b)]) = update (lus a d) t (some n) := by
  apply eq_update_of_eq
  · rw [lus, Disk.read_write_single, hb]
  · rw [lus, lus, Disk.read_write_of_notMem]
    simpa using (hD.ne t).symm

theorem atomique_write (hD : DetecteDechirure D a) (hs : CopiesPosees a d)
    (hb : decodeBloc b = some n) : Atomique D a (lus a d) t n (d.write [(a t, b)]) := by
  refine ⟨.inr (.inr (lus_write hD hb)), fun d' hc => ?_⟩
  refine issue_of_detected hs hb (copiesPosees_of_cut hc) (hD.cut hc) ?_
  exact D.cut_settled hc ((hs _).write (by simpa using (hD.ne t).symm))

theorem atomique_fault (hD : DetecteDechirure D a) (hs : CopiesPosees a d)
    (hb : decodeBloc b = some n) (hf : D.fault (d.write [(a t, b)]) d') :
    CopiesPosees a d' ∧ Atomique D a (lus a d) t n d' := by
  obtain ⟨hs', hdet⟩ := hD.fault hf
  have ho := (D.fault_settled hf ((hs (1 - t)).write (by simpa using (hD.ne t).symm))).2
  exact ⟨hs', hs'.atomique (issue_of_detected hs hb hs' hdet ho)⟩

theorem acheve_error {s : String} (hf : D.faulty) (hs : CopiesPosees a d) : Acheve D a p t n (.error s) d :=
  ⟨hs, nofun, fun h => (h hf).elim⟩

/-- What a persist guarantees: at every point the disk shows one of the three
pairs, now and after a power loss, and only the older copy is written. -/
theorem wp_persisteCopies {P : ι → Bool} (hD : DetecteDechirure D a)
    (hP : ∀ i, P (a i) = true) (hn : n.ActifBon) (hs : CopiesPosees a d) (ht : stale version (lus a d) = t) :
    wp D (Atomique D a (lus a d) t n) (fun x => x = a t) (Acheve D a (lus a d) t n)
      (persisteCopies a P n) d := by
  have hd : Atomique D a (lus a d) t n d := hs.atomique (.inl rfl)
  refine wp_bind _ _ _ (wp_litCopies hd ?_ fun hf => ⟨hd, acheve_error hf hs⟩)
  simp only [copieAEcrire_lus, ht]
  generalize (if t = 0 then d.read (a 0) else d.read (a 1)) = c
  have hb := decodeBloc_splice hn c
  generalize splice c 0 n.encode = b at hb ⊢
  have hw := atomique_write (t := t) hD hs hb
  -- the write was handed to the device, which may also report a failure
  refine wp_bind _ _ _ (wp_ecrit hd (by simp) ⟨hw, ?_⟩ fun hf d' hfd => ?_)
  swap
  · obtain ⟨hs', ha'⟩ := atomique_fault hD hs hb hfd
    exact ⟨ha', ha', acheve_error hf hs'⟩
  have hfs : CopiesPosees a ((d.write [(a t, b)]).flush P) := fun i => Disk.flush_settled _ (hP i)
  have hflus : lus a ((d.write [(a t, b)]).flush P) = update (lus a d) t (some n) := by
    rw [← lus_write hD hb]
    funext i
    simp [lus]
  have hfl : Atomique D a (lus a d) t n ((d.write [(a t, b)]).flush P) :=
    hfs.atomique (.inr (.inr hflus))
  refine wp_bind _ _ _ (wp_vidange hw ⟨hfl, ?_⟩ fun hf d' hfd => ?_)
  swap
  · obtain ⟨hs', ha'⟩ := atomique_fault hD hs hb hfd
    exact ⟨ha', ha', acheve_error hf hs'⟩
  refine wp_bind _ _ _ (wp_litCopies hfl ?_ fun hf => ⟨hfl, acheve_error hf hfs⟩)
  have hrelu : decodeBloc (if t = 0 then ((d.write [(a t, b)]).flush P).read (a 0)
      else ((d.write [(a t, b)]).flush P).read (a 1)) = some n := by
    have hi : t = 0 ∨ t = 1 := by omega
    rcases hi with rfl | rfl <;> simpa using hb
  simp only [hrelu, ne_eq, not_true_eq_false, if_false]
  exact ⟨hfl, hfs, fun _ => hflus, fun _ => rfl⟩

variable {q : Fin 2 → Option Enregistrement} {r : Enregistrement}

theorem Issue.coherentes (h : Issue p t n q) (hg : Guards version p t r)
    (hc : Consistent version p) (hv : version r ≠ version n) : Consistent version q := by
  rcases h with rfl | rfl | rfl
  · exact hc
  · exact Consistent.update_none p t
  · apply Consistent.update_some
    intro x hx
    rw [hg.other, Option.some.injEq] at hx
    exact hx ▸ hv

theorem Issue.mem (h : Issue p t n q) {i : Fin 2} {x : Enregistrement} (hx : q i = some x) :
    p i = some x ∨ x = n := by
  by_cases hi : i = t
  · rcases h with rfl | rfl | rfl
    · exact .inl hx
    · simp [hi] at hx
    · simp [hi] at hx
      exact .inr hx.symm
  · rcases h with rfl | rfl | rfl
    · exact .inl hx
    · exact .inl (by rwa [update_of_ne hi] at hx)
    · exact .inl (by rwa [update_of_ne hi] at hx)

/-- The current record is the old one, which no copy of `n` contradicts, or `n`. -/
theorem Issue.courant (h : Issue p t n q) (hg : Guards version p t r) (hv : version r < version n) :
    (newest version q = some r ∧ ∀ i, q i ≠ some n) ∨ (newest version q = some n ∧ ∃ i, q i = some n) := by
  have hp : ∀ i, p i ≠ some n := by
    intro i hi
    have := key_le_of_newest hg.current i hi
    omega
  rcases h with rfl | rfl | rfl
  · exact .inl ⟨hg.current, hp⟩
  · refine .inl ⟨hg.newest_update_none, fun i => ?_⟩
    by_cases hi : i = t
    · simp [hi]
    · rw [update_of_ne hi]
      exact hp i
  · refine .inr ⟨newest_update_newer ?_ t, t, by simp⟩
    intro x hx
    rw [hg.current, Option.some.injEq] at hx
    exact hx ▸ hv

/-- Whatever the order of the two versions, the current record is the old one
or the new one. -/
theorem Issue.courant_of_ne (h : Issue p t n q) (hg : Guards version p t r)
    (hv : version r ≠ version n) : newest version q = some r ∨ newest version q = some n := by
  rcases Nat.lt_or_gt_of_ne hv with hlt | hgt
  · rcases h.courant hg hlt with ⟨hcur, -⟩ | ⟨hcur, -⟩
    · exact .inl hcur
    · exact .inr hcur
  · left
    rcases h with rfl | rfl | rfl
    · exact hg.current
    · exact hg.newest_update_none
    · exact newest_update_of_lt hg.other hgt

end BouchaudOS.Update
