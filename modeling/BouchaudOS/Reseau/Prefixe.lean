import BouchaudOS.Reseau.Reassemblage

/-!
# What is received is a prefix of the stream

Every segment that carries bytes of the stream at their number leaves the two reassemblers
with a prefix of it, so what they have appended is what comes before the number they
acknowledge. A download that a FIN ends is complete exactly when that FIN is not ahead of
what has been delivered: the loop only asks that nothing be pending.
-/

namespace BouchaudOS.Reseau

open Reassembly List UInt32 Recep

variable {flux : Octets} {ack0 ack ack' ack'' seq : UInt32} {ajout ajout' data : Octets}
  {ooo : List PendingSeg} {c : TcpConn} {s s' : Recep} {sport : UInt16}

theorem toInt_toInt32 (x : UInt32) :
    x.toInt32.toInt = if x.toNat < 2 ^ 31 then (x.toNat : ℤ) else x.toNat - 2 ^ 32 := by
  rw [← Int32.toInt_toBitVec, toBitVec_toInt32, BitVec.toInt_eq_toNat_cond, toNat_toBitVec]
  split <;> split <;> omega

theorem seqLess_iff {a b : UInt32} : seqLess a b = true ↔ 2 ^ 31 ≤ (a - b).toNat := by
  have hx := (a - b).toNat_lt
  rw [seqLess, decide_eq_true_iff, ← toInt32_sub, Int32.lt_iff_toInt_lt, toInt_toInt32, Int32.toInt_zero]
  split <;> omega

theorem seqLess_offset {d f : ℕ} (hd : d < 2 ^ 31) (hf : f < 2 ^ 31) :
    seqLess (ack0 + UInt32.ofNat d) (ack0 + UInt32.ofNat f) = true ↔ d < f := by
  rw [seqLess_iff]
  rcases Nat.lt_or_ge d f with h | h
  · rw [toNat_sub_offset_ahead h (by omega)]
    omega
  · rw [toNat_sub_offset h (by omega)]
    omega

/-- Whatever has been delivered up to `ack`, it is delivered up to `ack'` once `ajout` is
appended. -/
def Avance (flux : Octets) (ack0 ack ack' : UInt32) (ajout : Octets) : Prop :=
  ∀ livre, Delivered flux ack0 ack livre → Delivered flux ack0 ack' (livre ++ ajout)

theorem Avance.refl : Avance flux ack0 ack ack [] := by
  intro livre h
  rwa [append_nil]

theorem Avance.trans (h : Avance flux ack0 ack ack' ajout) (h' : Avance flux ack0 ack' ack'' ajout') :
    Avance flux ack0 ack ack'' (ajout ++ ajout') := by
  intro livre hl
  rw [← append_assoc]
  exact h' _ (h _ hl)

def Porteurs (flux : Octets) (ack0 : UInt32) (ooo : List PendingSeg) : Prop :=
  ∀ p ∈ ooo, Carries flux ack0 p.seq p.data

theorem Porteurs.concat (h : Porteurs flux ack0 ooo) (hc : Carries flux ack0 seq data) :
    Porteurs flux ack0 (ooo ++ [⟨seq, data⟩]) := by
  intro p hp
  rcases mem_append.mp hp with hp | hp
  · exact h p hp
  · obtain rfl := mem_singleton.mp hp
    exact hc

/-- A buffer `out` and its number `ack` go on to `out'` and `ack'` with bytes of the stream, and
what waits carries bytes of it. -/
def Grandit (flux : Octets) (ack0 : UInt32) (out : Octets) (ack : UInt32) (out' : Octets) (ack' : UInt32)
    (ooo : List PendingSeg) : Prop :=
  ∃ ajout, out' = out ++ ajout ∧ Avance flux ack0 ack ack' ajout ∧ Porteurs flux ack0 ooo

theorem Grandit.refl {out : Octets} (h : Porteurs flux ack0 ooo) : Grandit flux ack0 out ack out ack ooo :=
  ⟨[], (append_nil _).symm, Avance.refl, h⟩

theorem Grandit.avance {out out' : Octets} (h : Avance flux ack0 ack ack' ajout)
    (h' : Grandit flux ack0 (out ++ ajout) ack' out' ack'' ooo) : Grandit flux ack0 out ack out' ack'' ooo := by
  obtain ⟨suite, hout, hav, hp⟩ := h'
  exact ⟨ajout ++ suite, by rw [hout, append_assoc], h.trans hav, hp⟩

section

variable (hlen : flux.length < 2 ^ 31)
include hlen

theorem recolle_avance (n : ℕ) (ack : UInt32) (out : Octets) (h : Porteurs flux ack0 ooo) :
    ∃ ajout, (recolle n ooo ack out).2.2 = out ++ ajout ∧
      Avance flux ack0 ack (recolle n ooo ack out).2.1 ajout ∧ (recolle n ooo ack out).1 ⊆ ooo := by
  induction n generalizing ooo ack out with
  | zero => exact ⟨[], (append_nil out).symm, Avance.refl, List.Subset.refl _⟩
  | succ n ih =>
    cases hp : ooo.find? fun p => p.seq = ack with
    | none =>
      rw [recolle_of_none hp]
      exact ⟨[], (append_nil out).symm, Avance.refl, List.Subset.refl _⟩
    | some p =>
      rw [recolle_of_some hp]
      have hmem := mem_of_find?_eq_some hp
      have hseq : p.seq = ack := by simpa using find?_some hp
      have hsub := (eraseP_sublist (p := fun p : PendingSeg => p.seq = ack) (l := ooo)).subset
      obtain ⟨ajout, hout, hav, hreste⟩ := ih _ (out ++ p.data) fun q hq => h q (hsub hq)
      refine ⟨p.data ++ ajout, by rw [hout, append_assoc], Avance.trans ?_ hav, fun q hq => hsub (hreste hq)⟩
      intro livre hl
      exact hl.append hlen (hseq ▸ h p hmem)

theorem avance_attendu (hc : Carries flux ack0 ack data) :
    Avance flux ack0 ack (ack + UInt32.ofNat data.length) data :=
  fun _ hl => hl.append hlen hc

theorem avance_chevauchant (hc : Carries flux ack0 seq data) (hskip : (ack - seq).toNat < data.length) :
    Avance flux ack0 ack (ack + UInt32.ofNat (data.length - (ack - seq).toNat)) (data.drop (ack - seq).toNat) := by
  intro livre hl
  have h := hl.append hlen (hl.carries_drop hlen hc hskip)
  rwa [length_drop] at h

namespace TcpConn

theorem flushOoo_avance (h : Porteurs flux ack0 c.ooo) :
    Grandit flux ack0 c.rx c.ack c.flushOoo.rx c.flushOoo.ack c.flushOoo.ooo := by
  obtain ⟨ajout, hrx, hav, hsub⟩ := recolle_avance hlen c.ooo.length c.ack c.rx h
  exact ⟨ajout, hrx, hav, fun p hp => h p (hsub hp)⟩

theorem acceptSegment_avance (h : Porteurs flux ack0 c.ooo) (hc : Carries flux ack0 seq data) :
    Grandit flux ack0 c.rx c.ack (c.acceptSegment seq data).rx (c.acceptSegment seq data).ack
      (c.acceptSegment seq data).ooo := by
  unfold acceptSegment
  dsimp only
  split_ifs with hvide heq hless hskip hplein
  · exact .refl h
  · subst heq
    exact .avance (avance_attendu hlen hc) (flushOoo_avance hlen h)
  · exact .refl h
  · exact .avance (avance_chevauchant hlen hc (by omega)) (flushOoo_avance hlen h)
  · exact .refl h
  · exact .refl h
  · exact .refl (h.concat hc)

end TcpConn

namespace Recep

theorem drainOoo_avance (h : Porteurs flux ack0 s.ooo) :
    Grandit flux ack0 s.out s.myAck s.drainOoo.out s.drainOoo.myAck s.drainOoo.ooo := by
  obtain ⟨ajout, hout, hav, hsub⟩ := recolle_avance hlen s.ooo.length s.myAck s.out h
  exact ⟨ajout, hout, hav, fun p hp => h p (hsub (mem_of_mem_filter hp))⟩

theorem range_avance (h : Porteurs flux ack0 s.ooo) (hc : Carries flux ack0 seq data) :
    Grandit flux ack0 s.out s.myAck (s.range seq data).out (s.range seq data).myAck (s.range seq data).ooo := by
  unfold range
  split_ifs with heq hrel hplace
  · subst heq
    exact .avance (avance_attendu hlen hc) (drainOoo_avance hlen h)
  · exact .refl (h.concat hc)
  · exact .refl h
  · exact .refl h

end Recep

end

/-- What is done with a connection: a segment of the peer comes, or bytes are read. -/
inductive Acces
  | segment (seq : UInt32) (data : Octets)
  | prend (n : ℕ)
  deriving DecidableEq, Repr

/-- A connection and what `take` has removed from it. -/
structure Suivi where
  conn : TcpConn
  pris : Octets := []
  deriving DecidableEq, Repr

def Suivi.joue (u : Suivi) : Acces → Suivi
  | .segment seq data => { u with conn := u.conn.acceptSegment seq data }
  | .prend n => ⟨(u.conn.take n).2, u.pris ++ (u.conn.take n).1⟩

/-- A connection that has just been opened, after these accesses. -/
def Suivi.depuis (sport : UInt16) (ack0 : UInt32) (accs : List Acces) : Suivi :=
  accs.foldl Suivi.joue { conn := { sport := sport, ack := ack0 } }

/-- The packet of the connection carries bytes of the stream at its number. -/
def Fidele (flux : Octets) (ack0 : UInt32) (sport : UInt16) (paquet : Octets) : Prop :=
  ∀ h, Recep.pourNous sport paquet = some h → Carries flux ack0 h.seq (paquet.drop h.dataOff)

/-- What a connection has received, with what waits to be read. -/
structure Suivi.Tient (flux : Octets) (ack0 : UInt32) (u : Suivi) : Prop where
  livre : Delivered flux ack0 u.conn.ack (u.pris ++ u.conn.rx)
  porteurs : Porteurs flux ack0 u.conn.ooo

structure Recep.Tient (flux : Octets) (ack0 : UInt32) (out0 : Octets) (s : Recep) : Prop where
  livre : ∃ livre, s.out = out0 ++ livre ∧ Delivered flux ack0 s.myAck livre
  porteurs : Porteurs flux ack0 s.ooo

section

variable {u : Suivi} {out0 : Octets}

theorem tient_debut : Recep.Tient flux ack0 out0 ⟨ack0, out0, []⟩ :=
  ⟨⟨[], (append_nil _).symm, delivered_start⟩, nofun⟩

variable (hlen : flux.length < 2 ^ 31)
include hlen

theorem Suivi.Tient.joue (h : u.Tient flux ack0) {a : Acces}
    (ha : ∀ seq data, a = .segment seq data → Carries flux ack0 seq data) : (u.joue a).Tient flux ack0 := by
  cases a with
  | segment seq data =>
    obtain ⟨ajout, hrx, hav, hp⟩ := TcpConn.acceptSegment_avance hlen h.porteurs (ha seq data rfl)
    refine ⟨?_, hp⟩
    have hl := hav _ h.livre
    rwa [append_assoc, ← hrx] at hl
  | prend n =>
    refine ⟨?_, h.porteurs⟩
    have hl := h.livre
    rwa [← take_append_drop n u.conn.rx, ← append_assoc] at hl

theorem Suivi.Tient.joueTout (h : u.Tient flux ack0) (accs : List Acces)
    (ha : ∀ seq data, .segment seq data ∈ accs → Carries flux ack0 seq data) :
    (accs.foldl Suivi.joue u).Tient flux ack0 := by
  induction accs generalizing u with
  | nil => exact h
  | cons a accs ih =>
    refine ih (h.joue hlen fun seq data he => ha seq data (he ▸ mem_cons_self)) ?_
    exact fun seq data hm => ha seq data (mem_cons_of_mem _ hm)

theorem Recep.Tient.range (h : s.Tient flux ack0 out0) (hc : Carries flux ack0 seq data) :
    (s.range seq data).Tient flux ack0 out0 := by
  obtain ⟨livre, hout, hl⟩ := h.livre
  obtain ⟨ajout, hout', hav, hp⟩ := range_avance hlen h.porteurs hc
  exact ⟨⟨livre ++ ajout, by rw [hout', hout, append_assoc], hav _ hl⟩, hp⟩

theorem Recep.Tient.eq_take (h : s.Tient flux ack0 out0) :
    s.out = out0 ++ flux.take (s.myAck - ack0).toNat := by
  obtain ⟨livre, hout, hl⟩ := h.livre
  rw [hout, hl.eq_take hlen]

/-- The state in which a packet leaves the buffers, before its flags are looked at. -/
def Recep.apres (sport : UInt16) (s : Recep) (paquet : Octets) : Recep :=
  match Recep.pourNous sport paquet with
  | none => s
  | some h => if (paquet.drop h.dataOff).isEmpty then s else s.range h.seq (paquet.drop h.dataOff)

variable {paquet : Octets} {paquets : List Octets} {cause : Cause} {f : ℕ}

theorem Recep.Tient.apres (h : s.Tient flux ack0 out0) (hp : Fidele flux ack0 sport paquet) :
    (s.apres sport paquet).Tient flux ack0 out0 := by
  unfold Recep.apres
  split
  · exact h
  · rename_i hd hpour
    split
    · exact h
    · exact h.range hlen (hp hd hpour)

omit hlen in
theorem recoit_cases (sport : UInt16) (s : Recep) (paquet : Octets) :
    s.recoit sport paquet = .enCours (s.apres sport paquet) ∨
      s.recoit sport paquet = .retour .rst (s.apres sport paquet) ∨
      (s.apres sport paquet).ooo = [] ∧ s.recoit sport paquet =
        .retour .fin { s.apres sport paquet with myAck := (s.apres sport paquet).myAck + 1 } := by
  unfold Recep.recoit Recep.apres
  cases Recep.pourNous sport paquet with
  | none => exact .inl rfl
  | some h =>
    dsimp only
    split_ifs with hvide hfin hrst
    all_goals simp_all

omit hlen in
theorem lit_append (avant suite : List Octets) (s : Recep) :
    Recep.lit sport (avant ++ suite) s =
      match Recep.lit sport avant s with
      | .enCours t => Recep.lit sport suite t
      | r => r := by
  induction avant generalizing s with
  | nil => rfl
  | cons p ps ih =>
    rw [cons_append, Recep.lit, Recep.lit]
    cases s.recoit sport p with
    | enCours t => exact ih t
    | retour c t => rfl

theorem Recep.Tient.lit (h : s.Tient flux ack0 out0)
    (hp : ∀ p ∈ paquets, Fidele flux ack0 sport p) (hl : Recep.lit sport paquets s = .enCours s') :
    s'.Tient flux ack0 out0 := by
  induction paquets generalizing s with
  | nil =>
    cases hl
    exact h
  | cons p ps ih =>
    rw [Recep.lit] at hl
    have hap := h.apres hlen (hp p mem_cons_self)
    rcases recoit_cases sport s p with hr | hr | ⟨-, hr⟩ <;> rw [hr] at hl
    · exact ih hap (fun q hq => hp q (mem_cons_of_mem _ hq)) hl
    · cases hl
    · cases hl

omit hlen in
/-- A reading that returns does so at one packet. -/
theorem exists_of_lit_retour (hl : Recep.lit sport paquets s = .retour cause s') :
    ∃ avant p suite t, paquets = avant ++ p :: suite ∧ Recep.lit sport avant s = .enCours t ∧
      t.recoit sport p = .retour cause s' := by
  induction paquets generalizing s with
  | nil => cases hl
  | cons p ps ih =>
    rw [Recep.lit] at hl
    cases hr : s.recoit sport p with
    | enCours t =>
      rw [hr] at hl
      obtain ⟨avant, q, suite, u, rfl, hu, hq⟩ := ih hl
      exact ⟨p :: avant, q, suite, u, rfl, by rw [Recep.lit, hr]; exact hu, hq⟩
    | retour c t =>
      rw [hr] at hl
      exact ⟨[], p, ps, s, rfl, rfl, hr.trans hl⟩

omit hlen in
/-- The reception returns at a packet, or between two turns. -/
theorem exists_of_reception_retour {tours : List Tour} (h : reception sport tours s = .retour cause s') :
    (∃ avant p suite t, tours.flatMap Tour.paquets = avant ++ p :: suite ∧
        Recep.lit sport avant s = .enCours t ∧ t.recoit sport p = .retour cause s') ∨
      cause ≠ .fin ∧ ∃ avant suite, tours.flatMap Tour.paquets = avant ++ suite ∧
        Recep.lit sport avant s = .enCours s' := by
  induction tours generalizing s with
  | nil => cases h
  | cons t ts ih =>
    rw [reception] at h
    rw [flatMap_cons]
    cases hl : s.lit sport t.paquets with
    | retour c u =>
      rw [hl] at h
      obtain ⟨avant, p, suite, v, hsplit, hv, hp⟩ := exists_of_lit_retour (hl.trans h)
      exact .inl ⟨avant, p, suite ++ ts.flatMap Tour.paquets, v, by simp [hsplit], hv, hp⟩
    | enCours u =>
      rw [hl] at h
      dsimp only at h
      split_ifs at h
      · cases h
        exact .inr ⟨nofun, _, _, rfl, hl⟩
      · cases h
        exact .inr ⟨nofun, _, _, rfl, hl⟩
      · rcases ih h with ⟨avant, p, suite, v, hsplit, hv, hp⟩ | ⟨hc, avant, suite, hsplit, hv⟩
        · refine .inl ⟨t.paquets ++ avant, p, suite, v, by rw [hsplit, append_assoc], ?_, hp⟩
          rw [lit_append, hl]
          exact hv
        · refine .inr ⟨hc, t.paquets ++ avant, suite, by rw [hsplit, append_assoc], ?_⟩
          rw [lit_append, hl]
          exact hv

omit hlen in
theorem append_take_prefix_iff {d : ℕ} (hd : d ≤ flux.length) (hf : f ≤ flux.length) :
    out0 ++ flux.take f <+: out0 ++ flux.take d ↔ f ≤ d := by
  rw [prefix_append_right_inj]
  constructor
  · intro h
    have := h.length_le
    rwa [length_take_of_le hd, length_take_of_le hf] at this
  · exact fun h => take_prefix_take_left h

omit hlen in
theorem range_eq_self (hne : seq ≠ s.myAck) (h : (s.range seq data).ooo = []) : s.range seq data = s := by
  unfold Recep.range at h ⊢
  rw [if_neg hne] at h ⊢
  split_ifs at h ⊢
  · simp at h
  · rfl
  · rfl

theorem range_attendu (hp : Porteurs flux ack0 s.ooo) : s.out ++ data <+: (s.range s.myAck data).out := by
  unfold Recep.range
  rw [if_pos rfl]
  obtain ⟨ajout, hout, -, -⟩ := drainOoo_avance hlen
    (s := { s with out := s.out ++ data, myAck := s.myAck + UInt32.ofNat data.length }) hp
  rw [hout]
  exact prefix_append _ _

theorem Recep.Tient.fin_complet_iff (h : s.Tient flux ack0 out0) {hd : Seg}
    (hfid : Fidele flux ack0 sport paquet) (hpour : Recep.pourNous sport paquet = some hd)
    (hr : s.recoit sport paquet = .retour .fin s') (hf : f ≤ flux.length)
    (hfin : hd.seq + UInt32.ofNat (paquet.drop hd.dataOff).length = ack0 + UInt32.ofNat f) :
    out0 ++ flux.take f <+: s'.out ↔
      hd.seq = s.myAck ∨ seqLess s.myAck (hd.seq + UInt32.ofNat (paquet.drop hd.dataOff).length) = false := by
  obtain ⟨hvide, rfl⟩ : (s.apres sport paquet).ooo = [] ∧
      s' = { s.apres sport paquet with myAck := (s.apres sport paquet).myAck + 1 } := by
    rcases recoit_cases sport s paquet with h | h | ⟨hv, h⟩ <;> rw [h] at hr
    · cases hr
    · cases hr
    · cases hr
      exact ⟨hv, rfl⟩
  obtain ⟨livre, hout, d, hd', hack, rfl⟩ := h.livre
  have hcarries := hfid hd hpour
  have hordre : seqLess s.myAck (ack0 + UInt32.ofNat f) = false ↔ f ≤ d := by
    rw [hack, ← Bool.not_eq_true, seqLess_offset (by omega) (by omega), Nat.not_lt]
  -- as long as the buffers are unchanged, only the offset of the FIN counts
  have hinchange : (hd.seq = s.myAck → f ≤ d) → s.apres sport paquet = s →
      (out0 ++ flux.take f <+: (s.apres sport paquet).out ↔
        hd.seq = s.myAck ∨ seqLess s.myAck (ack0 + UInt32.ofNat f) = false) := by
    intro hle heq
    rw [heq, hout, append_take_prefix_iff hd' hf, hordre]
    exact ⟨.inr, fun h => h.elim hle id⟩
  rw [hfin]
  by_cases hdata : (paquet.drop hd.dataOff).isEmpty
  · refine hinchange (fun hseq => ?_) (by simp [Recep.apres, hpour, hdata])
    rw [isEmpty_iff.mp hdata, hseq, hack] at hfin
    have hoff : ack0 + UInt32.ofNat d = ack0 + UInt32.ofNat f := by simpa using hfin
    exact (ofNat_offset_inj (by omega) (by omega) hoff).ge
  · have hrange : s.apres sport paquet = s.range hd.seq (paquet.drop hd.dataOff) := by
      simp [Recep.apres, hpour, hdata]
    by_cases hseq : hd.seq = s.myAck
    · -- the segment brings the bytes up to its FIN
      refine iff_of_true ?_ (.inl hseq)
      rw [hseq] at hcarries hfin hrange
      obtain ⟨o, ho, hpre, hend⟩ := hcarries.exists_offset (by simpa using hdata)
      rw [hack] at ho
      obtain rfl := ofNat_offset_inj (by omega) (by omega) ho
      rw [hack, add_assoc, ← ofNat_add] at hfin
      obtain rfl := ofNat_offset_inj (by omega) (by omega) hfin
      rw [hrange, ← prefix_take_append hpre, ← append_assoc, ← hout]
      exact range_attendu hlen h.porteurs
    · refine hinchange (fun h => absurd h hseq) (hrange.trans (range_eq_self hseq ?_))
      rwa [← hrange]

/-- When a FIN ends the download, everything before it has been delivered exactly when the
segment of the FIN is the one expected, or its end is not ahead of what is acknowledged. -/
theorem telechargement_complet_iff {tours : List Tour}
    (htours : ∀ t ∈ tours, ∀ p ∈ t.paquets, Fidele flux ack0 sport p)
    (hret : reception sport tours ⟨ack0, out0, []⟩ = .retour .fin s') :
    ∃ avant paquet suite s hd, tours.flatMap Tour.paquets = avant ++ paquet :: suite ∧
      Recep.lit sport avant ⟨ack0, out0, []⟩ = .enCours s ∧ s.recoit sport paquet = .retour .fin s' ∧
      Recep.pourNous sport paquet = some hd ∧
      ∀ f ≤ flux.length, hd.seq + UInt32.ofNat (paquet.drop hd.dataOff).length = ack0 + UInt32.ofNat f →
        (out0 ++ flux.take f <+: s'.out ↔
          hd.seq = s.myAck ∨
            seqLess s.myAck (hd.seq + UInt32.ofNat (paquet.drop hd.dataOff).length) = false) := by
  rcases exists_of_reception_retour hret with ⟨avant, p, suite, s, hsplit, hs, hp⟩ | ⟨hc, -⟩
  · have hfid := forall_mem_flatMap.mpr htours
    rw [hsplit] at hfid
    have htient := tient_debut.lit hlen (fun q hq => hfid q (mem_append_left _ hq)) hs
    obtain ⟨hd, hpour⟩ : ∃ hd, Recep.pourNous sport p = some hd := by
      cases hpour : Recep.pourNous sport p with
      | none => simp [Recep.recoit, hpour] at hp
      | some hd => exact ⟨hd, rfl⟩
    refine ⟨avant, p, suite, s, hd, hsplit, hs, hp, hpour, ?_⟩
    intro f hf hfin
    exact htient.fin_complet_iff hlen (hfid p (mem_append_right _ mem_cons_self)) hpour hp hf hfin
  · exact absurd rfl hc

end

def paquetDe (seq : UInt32) (flags : UInt8) (charge : Octets) : Octets :=
  entete ⟨⟨10, 0, 2, 2⟩, ⟨10, 0, 2, 15⟩, 80, 1024⟩ seq 1 flags 0 ++ charge

theorem pourNous_paquetDe (seq : UInt32) (flags : UInt8) (charge : Octets) :
    Recep.pourNous 1024 (paquetDe seq flags charge) = some ⟨80, 1024, seq, 1, flags, 20⟩ := by
  rw [Recep.pourNous, paquetDe, parse_entete]
  rfl

theorem fidele_paquetDe {flags : UInt8} {charge : Octets} (h : Carries flux ack0 seq charge) :
    Fidele flux ack0 1024 (paquetDe seq flags charge) := by
  intro hd hpour
  rw [pourNous_paquetDe] at hpour
  cases hpour
  rwa [show (paquetDe seq flags charge).drop 20 = charge from drop_left' (length_entete ..)]

def fluxExemple : Octets := [10, 20, 30, 40]

def debutExemple : UInt32 := 0xFFFFFFFE

def accesExemple : List Acces :=
  [.segment 0 [30, 40], .prend 1, .segment debutExemple [10, 20, 30], .prend 3]

def paquetsExemple : List Octets := [paquetDe 0 ACK [30, 40], paquetDe debutExemple ACK [10, 20]]

def toursExemple : List Tour := [⟨[paquetDe debutExemple (RST ||| ACK) [10]], by decide, false⟩]

theorem carries_exemple {data : Octets} (h : data <+: fluxExemple) :
    Carries fluxExemple debutExemple debutExemple data := ⟨0, by decide, h⟩

theorem carries_exemple_suite : Carries fluxExemple debutExemple 0 [30, 40] := ⟨2, by decide, by decide⟩

/-- The FIN of a stream of two bytes comes before its second byte. -/
def finEnAvance : List Tour :=
  [⟨[paquetDe 7 ACK [65], paquetDe 9 (FIN ||| ACK) []], by decide, false⟩]

theorem fidele_finEnAvance : ∀ t ∈ finEnAvance, ∀ p ∈ t.paquets, Fidele [65, 66] 7 1024 p := by
  intro t ht p hp
  rw [mem_singleton.mp ht] at hp
  rcases mem_pair.mp hp with rfl | rfl
  · exact fidele_paquetDe ⟨0, by decide, by decide⟩
  · exact fidele_paquetDe carries_nil

/-- Nothing is pending, so the download ends; the second byte is missing. -/
theorem telechargement_tronque : (∀ t ∈ finEnAvance, ∀ p ∈ t.paquets, Fidele [65, 66] 7 1024 p) ∧
      reception 1024 finEnAvance ⟨7, [], []⟩ = .retour .fin ⟨9, [65], []⟩ ∧
      Recep.pourNous 1024 (paquetDe 9 (FIN ||| ACK) []) = some ⟨80, 1024, 9, 1, FIN ||| ACK, 20⟩ ∧
      (9 : UInt32) = 7 + UInt32.ofNat 2 ∧ ¬ ([65, 66] : Octets).take 2 <+: [65] :=
  ⟨fidele_finEnAvance, by decide, pourNous_paquetDe .., by decide, by decide⟩

/-- The same FIN once the second byte has come. -/
theorem telechargement_complet_exemple :
    ∃ avant paquet suite s hd,
      [Tour.mk [paquetDe 8 ACK [66], paquetDe 7 ACK [65], paquetDe 9 (FIN ||| ACK) []] (by decide) false].flatMap
          Tour.paquets = avant ++ paquet :: suite ∧
      Recep.lit 1024 avant ⟨7, [], []⟩ = .enCours s ∧ s.recoit 1024 paquet = .retour .fin ⟨10, [65, 66], []⟩ ∧
      Recep.pourNous 1024 paquet = some hd ∧
      ∀ f ≤ ([65, 66] : Octets).length,
        hd.seq + UInt32.ofNat (paquet.drop hd.dataOff).length = 7 + UInt32.ofNat f →
        ([] ++ ([65, 66] : Octets).take f <+: [65, 66] ↔
          hd.seq = s.myAck ∨
            seqLess s.myAck (hd.seq + UInt32.ofNat (paquet.drop hd.dataOff).length) = false) := by
  refine telechargement_complet_iff (by decide) ?_ (by decide)
  intro t ht p hp
  rw [mem_singleton.mp ht] at hp
  simp only [mem_cons, not_mem_nil, or_false] at hp
  rcases hp with rfl | rfl | rfl
  · exact fidele_paquetDe ⟨1, by decide, by decide⟩
  · exact fidele_paquetDe ⟨0, by decide, by decide⟩
  · exact fidele_paquetDe carries_nil

end BouchaudOS.Reseau
