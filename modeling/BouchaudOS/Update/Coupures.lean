import BouchaudOS.Update.Copies
import BouchaudOS.Update.Historique

/-!
# The META area under power cuts

The META area is a disk of two blocks with a volatile write cache. Any party
(loader or kernel) starts an operation on the record it finds there; when the
operation changes the record, the new one is persisted request by request.
Power may be lost between any two requests. Along every run the record found on
the disk is the last one whose persist completed or the one being persisted.
-/
namespace BouchaudOS.Update

open VersionedPair Enregistrement
open Prog hiding pure

def tout (_ : Fin 2) : Bool := true

/-- The META area: power loss tears the pending blocks into any byte mixture,
and a tear that is neither the old nor the new block fails to decode. Requests
do not fail. -/
def aireMeta : Device (Fin 2) (List UInt8) where
  cut d d' := PowerLoss d d' ∧ Detected (fun _ => True) decodeBloc d d'
  faulty := False
  fault _ _ := False
  cut_cache h := h.1.1
  cut_settled h _ ha := h.1.durable_eq ha
  fault_settled h := h.elim

theorem aireMeta_detecte : DetecteDechirure aireMeta id where
  distinctes := by decide
  cut h x _ := h.2 x trivial
  fault h := h.elim

/-- The machine: the disk, the last record whose persist completed, and the
persist in flight with what remains of it. A persist that a power cut
interrupts counts as completed when its record is on the disk. -/
structure Machine where
  disque : Disk (Fin 2) (List UInt8)
  dernier : Enregistrement
  enVol : Option (Enregistrement × Prog (Fin 2) (List UInt8) (Except String Unit))

def SurDisque (d : Disk (Fin 2) (List UInt8)) (n : Enregistrement) : Prop :=
  ∃ i, lus id d i = some n

instance (d : Disk (Fin 2) (List UInt8)) (n : Enregistrement) : Decidable (SurDisque d n) :=
  inferInstanceAs (Decidable (∃ i : Fin 2, lus id d i = some n))

/-- The record whose persist completed last, once power was lost. -/
def Machine.apresCoupure (m : Machine) (d : Disk (Fin 2) (List UInt8)) : Enregistrement :=
  match m.enVol with
  | none => m.dernier
  | some (n, _) => if SurDisque d n then n else m.dernier

/-- One step of the machine. -/
inductive Machine.Pas : Machine → Machine → Prop
  /-- An operation changes the record found on the disk: its persist starts. -/
  | lance {m : Machine} {e : Enregistrement} (op : Operation) : m.enVol = none →
      selection id m.disque = some e → e.sequence.toNat < 2 ^ 64 - 1 → op.applique e ≠ e →
      Pas m { m with enVol := some (op.applique e, persisteCopies id tout (op.applique e)) }
  /-- The next request of the persist is served. -/
  | avance {m : Machine} {n : Enregistrement}
      {p p' : Prog (Fin 2) (List UInt8) (Except String Unit)}
      {d' : Disk (Fin 2) (List UInt8)} : m.enVol = some (n, p) →
      Step aireMeta (p, m.disque) (p', d') →
      Pas m { m with disque := d', enVol := some (n, p') }
  /-- The persist succeeded. -/
  | termine {m : Machine} {n : Enregistrement} : m.enVol = some (n, .pure (.ok ())) →
      Pas m { m with dernier := n, enVol := none }
  /-- The persist reported an error. -/
  | echoue {m : Machine} {n : Enregistrement} {s : String} :
      m.enVol = some (n, .pure (.error s)) → Pas m { m with enVol := none }
  /-- Power is lost. -/
  | coupure {m : Machine} {d' : Disk (Fin 2) (List UInt8)} : aireMeta.cut m.disque d' →
      Pas m ⟨d', m.apresCoupure d', none⟩

/-- Nothing is in flight: the copies are settled and show the last record. -/
structure Repos (d : Disk (Fin 2) (List UInt8)) (r : Enregistrement) : Prop where
  posees : CopiesPosees id d
  coherentes : Consistent version (lus id d)
  courant : newest version (lus id d) = some r

/-- A persist of `n` is in flight over copy `t` of the pair `p`. -/
structure EnVol (p : Fin 2 → Option Enregistrement) (t : Fin 2) (r n : Enregistrement)
    (prog : Prog (Fin 2) (List UInt8) (Except String Unit))
    (d : Disk (Fin 2) (List UInt8)) : Prop where
  garde : Guards version p t r
  coherentes : Consistent version p
  plusRecent : version r < version n
  sur : wp aireMeta (Atomique aireMeta id p t n) (fun x => x = t) (Acheve aireMeta id p t n) prog d

/-- The invariant of the machine. -/
def Machine.Inv (m : Machine) : Prop :=
  match m.enVol with
  | none => Repos m.disque m.dernier
  | some (n, prog) => ∃ p t, EnVol p t m.dernier n prog m.disque

namespace Machine

variable {m : Machine} {n : Enregistrement} {d : Disk (Fin 2) (List UInt8)}

variable {e r : Enregistrement} {p : Fin 2 → Option Enregistrement} {t : Fin 2} {m' : Machine}

theorem inv_lance (hr : Repos m.disque m.dernier)
    (he : selection id m.disque = some e) (hn : Suit e n) (hs : e.sequence.toNat < 2 ^ 64 - 1) :
    ∃ p t, EnVol p t m.dernier n (persisteCopies id tout n) m.disque := by
  have hed : m.dernier = e := by
    rw [selection_eq_newest, hr.courant, Option.some.injEq] at he
    exact he
  refine ⟨_, _, hr.coherentes.guards_stale hr.courant, hr.coherentes, ?_,
    wp_persisteCopies aireMeta_detecte (fun _ => rfl) hn.actifBon hr.posees rfl⟩
  rw [hed]
  exact hn.sequence_lt hs

/-- A power cut in flight leaves a settled disk that shows the old record or
the new one. -/
theorem repos_coupure {d' : Disk (Fin 2) (List UInt8)} (hm : m.Inv)
    (hc : aireMeta.cut m.disque d') : Repos d' (m.apresCoupure d') := by
  have hs' : CopiesPosees id d' := copiesPosees_of_cut hc
  unfold Inv at hm
  unfold apresCoupure
  match hv : m.enVol with
  | none =>
    rw [hv] at hm
    have hl : lus id d' = lus id m.disque :=
      hm.posees.lus_eq hs' fun i => aireMeta.cut_settled hc (hm.posees i)
    exact ⟨hs', hl ▸ hm.coherentes, hl ▸ hm.courant⟩
  | some (n, prog) =>
    rw [hv] at hm
    obtain ⟨p, t, h⟩ := hm
    have hi := h.sur.inv.2 d' hc
    refine ⟨hs', hi.coherentes h.garde h.coherentes h.plusRecent.ne, ?_⟩
    rcases hi.courant h.garde h.plusRecent with ⟨hcur, hno⟩ | ⟨hcur, hon⟩
    · have hn : ¬SurDisque d' n := by
        rintro ⟨i, hi⟩
        exact hno i hi
      simpa [hn] using hcur
    · have hn : SurDisque d' n := hon
      simpa [hn] using hcur

theorem repos_termine (h : EnVol p t r n (.pure (.ok ())) d) : Repos d n := by
  have hq : Acheve aireMeta id p t n (.ok ()) d := h.sur.2
  have hl := hq.durable rfl
  have hi : Issue p t n (lus id d) := .inr (.inr hl)
  refine ⟨hq.posees, hi.coherentes h.garde h.coherentes h.plusRecent.ne, ?_⟩
  rw [hl]
  apply newest_update_newer
  intro x hx
  rw [h.garde.current, Option.some.injEq] at hx
  exact hx ▸ h.plusRecent

theorem not_enVol_error {s : String} : ¬EnVol p t r n (.pure (.error s)) d := by
  intro h
  have hq : Acheve aireMeta id p t n (.error s) d := h.sur.2
  cases hq.reussit id

theorem inv_pas (hm : m.Inv) (h : Pas m m') : m'.Inv := by
  cases h with
  | @lance e op hv he hs hne =>
    rw [Inv, hv] at hm
    exact inv_lance hm he ((op.applique_suit (actifBon_of_selection he)).resolve_left hne) hs
  | avance hv hstep =>
    rw [Inv, hv] at hm
    obtain ⟨p, t, h⟩ := hm
    exact ⟨p, t, h.garde, h.coherentes, h.plusRecent, h.sur.step hstep⟩
  | termine hv =>
    rw [Inv, hv] at hm
    obtain ⟨p, t, h⟩ := hm
    exact repos_termine h
  | echoue hv =>
    rw [Inv, hv] at hm
    obtain ⟨p, t, h⟩ := hm
    exact (not_enVol_error h).elim
  | coupure hc => exact repos_coupure hm hc

theorem inv_run (hm : m.Inv) (h : Relation.ReflTransGen Pas m m') : m'.Inv := by
  induction h with
  | refl => exact hm
  | tail _ hstep ih => exact inv_pas ih hstep

theorem inv_depart (he : e.ActifBon) (hc : d.cache = []) (hd : ∀ j, (d.durable j).take octets = e.encode) :
    Inv ⟨d, e, none⟩ := by
  have hs : CopiesPosees id d := fun i => Disk.settled_of_cache_nil hc i
  have hl : lus id d = fun _ => some e := by
    funext i
    rw [lus, (hs i).read_eq, decodeBloc, id, hd, decode_encode he]
  refine ⟨hs, ?_, ?_⟩
  · rw [hl]
    intro x y hx hy _
    exact Option.some.inj (hx.symm.trans hy)
  · rw [hl]
    simp [newest]

/-- What the copies of a machine show, now and after a power cut. -/
theorem selection_of_inv (hm : m.Inv) (hd : d = m.disque ∨ aireMeta.cut m.disque d) :
    ∃ r, selection id d = some r ∧ (r = m.dernier ∨ ∃ prog, m.enVol = some (r, prog)) := by
  simp only [selection_eq_newest]
  unfold Inv at hm
  cases hv : m.enVol with
  | none =>
    rw [hv] at hm
    refine ⟨m.dernier, ?_, .inl rfl⟩
    rcases hd with rfl | hc
    · exact hm.courant
    · rw [hm.posees.lus_eq (copiesPosees_of_cut hc) fun i =>
        aireMeta.cut_settled hc (hm.posees i)]
      exact hm.courant
  | some x =>
    obtain ⟨n, prog⟩ := x
    rw [hv] at hm
    obtain ⟨p, t, h⟩ := hm
    have hi : Issue p t n (lus id d) := by
      rcases hd with rfl | hc
      · exact h.sur.inv.1
      · exact h.sur.inv.2 d hc
    rcases hi.courant h.garde h.plusRecent with ⟨hcur, -⟩ | ⟨hcur, -⟩
    · exact ⟨m.dernier, hcur, .inl rfl⟩
    · exact ⟨n, hcur, .inr ⟨prog, rfl⟩⟩

/-- From two valid copies of the initial record, through every run of
operations and power cuts: the record found on the disk, now or after a cut at
this point, is the last one whose persist completed or the one in flight; and
a persist that power does not interrupt succeeds. -/
theorem coupures_sans_perte (a : Slot) (i : Image) {d₀ : Disk (Fin 2) (List UInt8)}
    (hc : d₀.cache = []) (h₀ : ∀ j, (d₀.durable j).take octets = (initial a i).encode)
    {m : Machine} (hm : Relation.ReflTransGen Pas ⟨d₀, initial a i, none⟩ m) :
    (∃ r, selection id m.disque = some r ∧ (r = m.dernier ∨ ∃ prog, m.enVol = some (r, prog))) ∧
    (∀ d', aireMeta.cut m.disque d' → ∃ r, selection id d' = some r ∧
      (r = m.dernier ∨ ∃ prog, m.enVol = some (r, prog))) ∧
    ∀ n s, m.enVol ≠ some (n, .pure (.error s)) := by
  have hinv := inv_run (inv_depart (actifBon_initial a i) hc h₀) hm
  refine ⟨selection_of_inv hinv (.inl rfl), fun d' hd => selection_of_inv hinv (.inr hd), ?_⟩
  intro n s hv
  rw [Inv, hv] at hinv
  obtain ⟨p, t, h⟩ := hinv
  exact not_enVol_error h

/-- An installation starts on two freshly initialised copies; whatever a power
cut leaves, one of the two records is found. -/
theorem coupures_sans_perte_installation :
    let e := initial .A (Vector.replicate 32 0)
    let d : Disk (Fin 2) (List UInt8) := ⟨fun _ => e.encode, []⟩
    let n := (Operation.commenceInstallation .B .A).applique e
    Relation.ReflTransGen Pas ⟨d, e, none⟩ ⟨d, e, some (n, persisteCopies id tout n)⟩ ∧
      ∀ d', aireMeta.cut d d' → ∃ r, selection id d' = some r ∧
        (r = e ∨ ∃ prog, some (n, persisteCopies id tout n) = some (r, prog)) := by
  intro e d n
  have h₀ : ∀ j, (d.durable j).take octets = e.encode := by
    intro j
    rw [← length_encode e]
    exact List.take_length
  have he : selection id d = some e := by
    have hb := decode_encode (actifBon_initial .A (Vector.replicate 32 0))
    have hr : ∀ j, (d.read j).take octets = e.encode := h₀
    simp only [selection, selectionne, id, hr, e, hb]
    simp
  have hrun : Relation.ReflTransGen Pas ⟨d, e, none⟩ ⟨d, e, some (n, persisteCopies id tout n)⟩ :=
    .single (.lance (.commenceInstallation .B .A) rfl he (by decide) (by decide))
  exact ⟨hrun, (coupures_sans_perte .A (Vector.replicate 32 0) rfl h₀ hrun).2.1⟩

end Machine

end BouchaudOS.Update
