import BouchaudOS.Update.Effets

/-!
# Repeating a manual rollback

`rollback_manuel` (`src/kernel/update/mod.rs`) makes two durable writes, the record and the
failure counter, and `revient` exchanges the two slots. A call that fails between the two
writes has already exchanged them: the call that repeats it starts from the record it finds
and exchanges them back.
-/
namespace BouchaudOS.Update.Noyau

open Bytes VersionedPair Enregistrement
open Prog hiding pure

/-- `rollback_manuel` once the META partition is found. -/
def rollbackSur (m : Meta) : ExceptT String ProgBloc Slot := do
  let e ← lit m
  match e.revient with
  | .error _ => throw "version_precedente_pas_bonne"
  | .ok n =>
    persiste m n
    ecritCompteur m 0
    return n.actif

variable {D : Device Adresse (List UInt8)} {m : Meta} {d : DisqueBloc}

theorem wp_lit_selection : wp D (fun _ => True) (fun _ => True)
    (fun r d' => d' = d ∧ ∀ e, r = .ok e → selection m.copie d = some e) (lit m).run d := by
  refine wp_run_lift (wp_litCopies trivial ?_ fun _ => ⟨trivial, rfl, by simp⟩)
  simp only
  split
  · exact ⟨trivial, rfl, by simp⟩
  · rename_i e he
    refine ⟨trivial, rfl, ?_⟩
    rintro _ ⟨rfl⟩
    exact he

/-- A persist that succeeds has replaced the older copy. -/
theorem wp_persiste_ok {n : Enregistrement} (hn : n.ActifBon) : wp D (fun _ => True) (fun _ => True)
    (fun r d' => r = .ok () → lus m.copie d' =
      Function.update (lus m.copie d) (stale version (lus m.copie d)) (some n))
    (persiste m n).run d := by
  refine wp_bind _ _ _ (wp_litCopies trivial ?_ fun _ => ⟨trivial, by simp⟩)
  simp only [copieAEcrire_lus]
  generalize stale version (lus m.copie d) = t
  generalize (if t = 0 then d.read (m.copie 0) else d.read (m.copie 1)) = c
  refine wp_bind _ _ _ (wp_ecrit trivial (fun _ _ => trivial) ⟨trivial, ?_⟩
    fun _ _ _ => ⟨trivial, trivial, by simp⟩)
  refine wp_bind _ _ _ (wp_vidange trivial ⟨trivial, ?_⟩ fun _ _ _ => ⟨trivial, trivial, by simp⟩)
  refine wp_bind _ _ _ (wp_litCopies trivial ?_ fun _ => ⟨trivial, by simp⟩)
  simp only
  generalize decodeBloc _ = relu
  split_ifs
  · exact ⟨trivial, by simp⟩
  · refine ⟨trivial, fun _ => ?_⟩
    rw [← lus_write (copie_detecte m) (decodeBloc_splice hn c)]
    funext i
    simp [lus]

theorem wp_ecritCompteur_ok {k : UInt32} : wp D (fun _ => True) (fun _ => True)
    (fun r d' => r = .ok () → lus m.copie d' = lus m.copie d) (ecritCompteur m k).run d := by
  refine wp_run_lift (wp_ecrit trivial (fun _ _ => trivial) ⟨trivial, ?_⟩
    fun _ _ _ => ⟨trivial, trivial, nofun⟩)
  refine wp_run_lift (wp_vidange trivial ⟨trivial, trivial, fun _ => ?_⟩
    fun _ _ _ => ⟨trivial, trivial, nofun⟩)
  funext i
  rw [lus, lus, Disk.read_flush, Disk.read_write_of_notMem]
  intro w hw he
  rw [List.mem_singleton.mp hw] at he
  have hi : UInt64.ofNat Echecs.bloc = UInt64.ofNat i :=
    (UInt64.add_right_inj _).mp (Prod.ext_iff.mp he).2
  fin_cases i <;> exact absurd hi (by decide)

/-- What a call that succeeds has read and written. -/
theorem wp_rollbackSur : wp D (fun _ => True) (fun _ => True)
    (fun r d' => ∀ a, r = .ok a → ∃ e n, selection m.copie d = some e ∧ e.revient = .ok n ∧
      a = n.actif ∧ lus m.copie d' = Function.update (lus m.copie d) (stale version (lus m.copie d)) (some n))
    (rollbackSur m).run d := by
  refine wp_run_bind (wp_lit_selection.imp ?_)
  rintro (_ | e) d' ⟨rfl, he⟩
  · exact ⟨trivial, by simp⟩
  simp only
  split
  · exact ⟨trivial, by simp⟩
  · rename_i n hn
    refine wp_run_bind ((wp_persiste_ok (suit_revient hn).1).imp ?_)
    rintro (_ | _) d1 h1
    · exact ⟨trivial, by simp⟩
    refine wp_run_bind (wp_ecritCompteur_ok.imp ?_)
    rintro (_ | _) d2 h2
    · exact ⟨trivial, by simp⟩
    refine ⟨trivial, ?_⟩
    rintro _ ⟨rfl⟩
    exact ⟨e, n, he e rfl, hn, rfl, (h2 rfl).trans (h1 rfl)⟩

theorem exists_kept {p : Fin 2 → Option Enregistrement} {e : Enregistrement}
    (h : newest version p = some e) : ∃ z, p (1 - stale version p) = some z ∧ version z = version e := by
  cases hz : p (1 - stale version p) with
  | some z => exact ⟨z, rfl, key_kept h hz⟩
  | none =>
    cases h0 : p 0 <;> cases h1 : p 1 <;> simp [stale, newest, h0, h1] at hz h
    split_ifs at hz <;> simp_all

/-- What the second call needs: the record it finds still names the slot that was active
before the first. A record with the last sequence number is never replaced, since that of
its successor wraps: the copy that is kept must name the other slot. -/
def Reprise (m : Meta) (e : Enregistrement) (d : Disk Adresse (List UInt8)) : Prop :=
  ∃ e₁ z, selection m.copie d = some e₁ ∧
    lus m.copie d (1 - stale version (lus m.copie d)) = some z ∧
    if e₁.sequence + 1 = 0 then z.actif = e.actif.autre else e₁.actif = e.actif

/-- After a call that succeeded, META holds the record it wrote, or the one it kept where
the sequence number wrapped. -/
theorem selection_rollback {D : Device Adresse (List UInt8)} {m : Meta} {d d' : DisqueBloc} {a : Slot}
    (h : Run D ((rollbackSur m).run, d) (.pure (.ok a), d')) :
    ∃ e n z, selection m.copie d = some e ∧ e.revient = .ok n ∧ a = n.actif ∧
      lus m.copie d (1 - stale version (lus m.copie d)) = some z ∧
      selection m.copie d' = some (if e.sequence + 1 = 0 then z else n) := by
  obtain ⟨e, n, he, hn, ha, hl⟩ := wp_rollbackSur.post h a rfl
  have hcur := selection_eq_newest m.copie d ▸ he
  obtain ⟨z, hz, hv⟩ := exists_kept hcur
  have hseq : n.sequence = e.sequence + 1 := by
    rw [(revient_ok hn).2]
    rfl
  refine ⟨e, n, z, he, hn, ha, hz, ?_⟩
  rw [selection_eq_newest, hl]
  split_ifs with hmax
  · refine newest_update_of_lt hz ?_
    have hpos : e.sequence ≠ 0 := by
      rintro h0
      rw [h0] at hmax
      exact absurd hmax (by decide)
    rw [hv, version, version, hseq, hmax]
    exact UInt64.lt_iff_toNat_lt.mp (UInt64.pos_iff_ne_zero.mpr hpos)
  · refine newest_update_newer (fun r hr => ?_) _
    obtain rfl : e = r := Option.some.inj (hcur.symm.trans hr)
    rw [version, version, hseq]
    have hne : (e.sequence + 1).toNat ≠ 0 := fun h => hmax (UInt64.toNat_inj.mp h)
    rw [UInt64.toNat_add] at hne ⊢
    have := e.sequence.toNat_lt
    simp only [UInt64.reduceToNat] at hne ⊢
    omega

/-- A device on which any request may fail, and a failed one leaves whatever it likes of
the blocks with pending writes. -/
def capricieux : Device Adresse (List UInt8) where
  cut _ _ := False
  faulty := True
  fault d d' := ∀ a, d.Settled a → d'.Settled a ∧ d'.durable a = d.durable a
  cut_cache h := h.elim
  cut_settled h := h.elim
  fault_settled h _ ha := h _ ha

variable {e n : Enregistrement}

/-- The call up to the counter. -/
theorem run_rollbackSur (D : Device Adresse (List UInt8)) (hd : ∀ b, d.Settled b)
    (he : selection m.copie d = some e) (hn : e.revient = .ok n) :
    ∃ d', Run D ((rollbackSur m).run, d)
        ((ecritCompteur m 0 >>= fun _ => pure n.actif : ExceptT String ProgBloc Slot).run, d') ∧
      (∀ b, d'.Settled b) ∧ lus m.copie d' =
        Function.update (lus m.copie d) (stale version (lus m.copie d)) (some n) := by
  obtain ⟨d', hp, hs, hl, -⟩ := persiste_exec (m := m) (suit_revient hn).1 hd
  refine ⟨d', ?_, hs, hl⟩
  refine (run_run_bind D (lit_exec he)).trans ?_
  simp only [hn]
  exact run_run_bind D hp

theorem rollback_compteur_refuse (hd : ∀ b, d.Settled b) (he : selection m.copie d = some e)
    (hn : e.revient = .ok n) :
    ∃ d', Run capricieux ((rollbackSur m).run, d) (.pure (.error "compteur_ecriture"), d') ∧
      (∀ b, d'.Settled b) ∧ lus m.copie d' =
        Function.update (lus m.copie d) (stale version (lus m.copie d)) (some n) := by
  obtain ⟨d', hr, hs, hl⟩ := run_rollbackSur capricieux hd he hn
  exact ⟨d', hr.tail (.writeFails _ _ _ d' trivial fun a _ => ⟨hs a, rfl⟩), hs, hl⟩

theorem rollback_reussit (D : Device Adresse (List UInt8)) (hd : ∀ b, d.Settled b)
    (he : selection m.copie d = some e) (hn : e.revient = .ok n) :
    ∃ d', Run D ((rollbackSur m).run, d) (.pure (.ok n.actif), d') := by
  obtain ⟨d', hr, -, -⟩ := run_rollbackSur D hd he hn
  exact ⟨_, (hr.tail (.write _ _ _)).tail (.flush _ _ _)⟩

/-- A META partition that holds a record with two good slots, `A` active. -/
def metaExemple : Meta := ⟨⟨2, 512, 1000⟩, 34⟩

def deuxBons : Enregistrement := ⟨1, .A, ⟨.bon, toVector 32 []⟩, ⟨.bon, toVector 32 []⟩⟩

def disqueExemple : Disk Adresse (List UInt8) :=
  ⟨fun a => if a = metaExemple.copie 0 then deuxBons.encode else [], []⟩

theorem lus_disqueExemple :
    lus metaExemple.copie disqueExemple = fun i => if i = 0 then some deuxBons else none := by
  have hcode : decodeBloc deuxBons.encode = some deuxBons := by
    rw [decodeBloc, List.take_of_length_le (length_encode deuxBons).le, decode_encode (show deuxBons.ActifBon from rfl)]
  funext i
  fin_cases i
  · exact hcode
  · rfl

theorem selection_disqueExemple : selection metaExemple.copie disqueExemple = some deuxBons := by
  rw [selection_eq_newest, lus_disqueExemple]
  rfl

theorem runs_exemple : ∃ d1 d2,
    Run capricieux ((rollbackSur metaExemple).run, disqueExemple) (.pure (.error "compteur_ecriture"), d1) ∧
    selection metaExemple.copie d1 = some (deuxBons.suivant.avecActif .B) ∧
    Run capricieux ((rollbackSur metaExemple).run, d1) (.pure (.ok .A), d2) := by
  obtain ⟨d1, hr1, hs1, hl1⟩ := rollback_compteur_refuse
    (fun b => Disk.settled_of_cache_nil rfl b) selection_disqueExemple
    (n := deuxBons.suivant.avecActif .B) rfl
  have he1 : selection metaExemple.copie d1 = some (deuxBons.suivant.avecActif .B) := by
    rw [selection_eq_newest, hl1, lus_disqueExemple]
    rfl
  obtain ⟨d2, hr2⟩ := rollback_reussit capricieux hs1 he1 rfl
  exact ⟨d1, d2, hr1, he1, hr2⟩

end BouchaudOS.Update.Noyau
