import BouchaudOS.Reseau.Lecture
import BouchaudOS.Reseau.Tls.Record

/-!
# The record channel

`read_raw_record` cuts the stream of a connection into records, and `recv_some` decrypts them
one after the other. A record that is refused is skipped without a trace, so whatever is
inserted, dropped, repeated or reordered on the way, what is delivered is the beginning of what
was sent.
-/

namespace BouchaudOS.Reseau.Tls

open Checked List Outcome

def longueurCorps (hdr : Octets) : ℕ := mot (hdr.getD 3 0) (hdr.getD 4 0)

def readRawRecord (l : Lien) : Option (Octets × Octets) × Lien :=
  let r := l.fill 5
  if !r.1 then (none, r.2)
  else
    let hdr := r.2.conn.rx.take 5
    let len := longueurCorps hdr
    let r := r.2.fill (5 + len)
    if !r.1 then (none, r.2)
    else
      let t := ((r.2.take 5).2).take len
      if t.1.length < len then (none, t.2) else (some (hdr, t.1), t.2)

/-- The complete records at the front of a stream. -/
def decoupe : ℕ → Octets → List (Octets × Octets)
  | 0, _ => []
  | n + 1, b =>
    if b.length < 5 then []
    else if b.length < 5 + longueurCorps (b.take 5) then []
    else (b.take 5, (b.drop 5).take (longueurCorps (b.take 5))) :: decoupe n (b.drop (5 + longueurCorps (b.take 5)))

def enregistrements (b : Octets) : List (Octets × Octets) := decoupe b.length b

theorem decoupe_stable {n m : ℕ} {b : Octets} (hn : b.length ≤ n) (hm : b.length ≤ m) :
    decoupe n b = decoupe m b := by
  induction n generalizing m b with
  | zero =>
    obtain rfl := length_eq_zero_iff.mp (Nat.le_zero.mp hn)
    cases m <;> rfl
  | succ n ih =>
    cases m with
    | zero =>
      obtain rfl := length_eq_zero_iff.mp (Nat.le_zero.mp hm)
      rfl
    | succ m =>
      rw [decoupe, decoupe]
      split_ifs
      · rfl
      · rfl
      · rw [ih (m := m) (by simp; omega) (by simp; omega)]

theorem enregistrements_append {hdr body : Octets} (h5 : hdr.length = 5) (hb : body.length = longueurCorps hdr)
    (rest : Octets) : enregistrements (hdr ++ body ++ rest) = (hdr, body) :: enregistrements rest := by
  have hhdr : (hdr ++ body ++ rest).take 5 = hdr := by
    rw [append_assoc, take_left' h5]
  have hbody : (hdr ++ body ++ rest).drop 5 = body ++ rest := by
    rw [append_assoc, drop_left' h5]
  have hrest : (hdr ++ body ++ rest).drop (5 + longueurCorps hdr) = rest := by
    rw [← drop_drop, hbody, drop_left' hb]
  have hlen : (hdr ++ body ++ rest).length = rest.length + longueurCorps hdr + 4 + 1 := by
    simp only [length_append]
    omega
  rw [enregistrements, hlen, decoupe, hhdr, if_neg (by omega), if_neg (by omega), hbody, take_left' hb, hrest]
  rw [enregistrements, decoupe_stable (by omega) le_rfl]

theorem enregistrements_flatten {rs : List Octets}
    (h : ∀ r ∈ rs, 5 ≤ r.length ∧ longueurCorps (r.take 5) = r.length - 5) :
    enregistrements rs.flatten = rs.map fun r => (r.take 5, r.drop 5) := by
  induction rs with
  | nil => rfl
  | cons r rs ih =>
    obtain ⟨h5, hlen⟩ := h r mem_cons_self
    have hr : (r :: rs).flatten = r.take 5 ++ r.drop 5 ++ rs.flatten := by
      rw [take_append_drop, flatten_cons]
    rw [hr, enregistrements_append (by rw [length_take]; omega) (by rw [hlen, length_drop]), map_cons,
      ih fun r hr => h r (mem_cons_of_mem _ hr)]

theorem longueurCorps_enregistrement (k : DirKeys) {inner : Octets} (h : inner.length + 16 < 2 ^ 16) :
    longueurCorps ((k.enregistrement inner).take 5) = (k.enregistrement inner).length - 5 := by
  rw [DirKeys.take_enregistrement, DirKeys.length_enregistrement]
  simp only [longueurCorps, DirKeys.entete, mot, getD_cons_succ, getD_cons_zero, UInt8.toNat_ofNat']
  omega

/-- What a read does to the stream: nothing, or a record is taken at its front. -/
theorem readRawRecord_flux (l : Lien) : (∃ l', readRawRecord l = (none, l') ∧ l'.flux = l.flux) ∨
      ∃ hdr body l', readRawRecord l = (some (hdr, body), l') ∧ hdr.length = 5 ∧ body.length = longueurCorps hdr ∧
        l.flux = hdr ++ body ++ l'.flux := by
  unfold readRawRecord
  dsimp only
  split
  · exact .inl ⟨_, rfl, by simp⟩
  · rename_i h5
    have hlen5 := Lien.fill_eq_true (by simpa using h5)
    set l1 := (l.fill 5).2
    set len := longueurCorps (l1.conn.rx.take 5)
    split
    · exact .inl ⟨_, rfl, by simp [l1]⟩
    · rename_i hn
      have hlen := Lien.fill_eq_true (by simpa using hn)
      set l2 := (l1.fill (5 + len)).2 with hl2
      have hflux : l2.flux = l.flux := by simp [hl2, l1]
      have hhdr : (l2.take 5).1 = l1.conn.rx.take 5 := by
        -- Waiting for the body only appends to the buffer that holds the header.
        have h1 := l1.flux_take 5
        have h2 := l2.flux_take 5
        rw [hflux, ← show l1.flux = l.flux by simp [l1], h1] at h2
        exact (append_inj h2 (by rw [l1.length_take hlen5, l2.length_take (by omega)])).1.symm
      have hbody := (l2.take 5).2.length_take (n := len) (by rw [l2.length_rx_take]; omega)
      rw [if_neg (by omega)]
      right
      refine ⟨_, _, _, rfl, by simpa using hlen5, hbody, ?_⟩
      have h1 := l2.flux_take 5
      have h2 := (l2.take 5).2.flux_take len
      rw [h2, hflux, hhdr] at h1
      rw [h1, append_assoc]

/-- The receiving side of a session. -/
structure Session where
  lien : Lien
  sAp : DirKeys
  rxPlain : Octets := []

namespace Session

/-- The loop of `recv_some`; `vides` reads have given nothing. -/
def recvBoucle : ℕ → ℕ → Session → Guarded (Option Octets × Session)
  | 0, _, s => .ok (none, s)
  | n + 1, vides, s =>
    match readRawRecord s.lien with
    | (none, l) =>
      if l.conn.peerFin || l.conn.closed then .ok (none, { s with lien := l })
      else if 2 ≤ vides + 1 then .ok (none, { s with lien := l })
      else recvBoucle n (vides + 1) { s with lien := l }
    | (some (hdr, body), l) =>
      if hdr.getD 0 0 = CT_CHANGE_CIPHER_SPEC then recvBoucle n vides { s with lien := l }
      else if hdr.getD 0 0 = CT_APPLICATION_DATA then do
        let (r, k) ← s.sAp.decrypt hdr body
        match r with
        | some (t, pt) =>
          if t = CT_APPLICATION_DATA then
            if pt.isEmpty then recvBoucle n vides { s with lien := l, sAp := k }
            else .ok (some pt, { s with lien := l, sAp := k })
          else if t = CT_ALERT then .ok (none, { s with lien := l, sAp := k })
          else recvBoucle n vides { s with lien := l, sAp := k }
        | none => recvBoucle n vides { s with lien := l, sAp := k }
      else .ok (none, { s with lien := l })

/-- Each turn takes a record or counts an empty read, so these turns are enough. -/
def recvSome (s : Session) : Guarded (Option Octets × Session) :=
  if !s.rxPlain.isEmpty then .ok (some s.rxPlain, { s with rxPlain := [] })
  else recvBoucle (s.lien.flux.length + 3) 0 s

theorem recvBoucle_stable {n m vides : ℕ} {s : Session} (hn : s.lien.flux.length + 2 < n + vides)
    (hm : s.lien.flux.length + 2 < m + vides) (hv : vides ≤ 1) : recvBoucle n vides s = recvBoucle m vides s := by
  induction n generalizing m vides s with
  | zero => omega
  | succ n ih =>
    obtain ⟨m, rfl⟩ := Nat.exists_eq_succ_of_ne_zero (show m ≠ 0 by omega)
    rw [recvBoucle, recvBoucle]
    rcases readRawRecord_flux s.lien with ⟨l, hlu, hflux⟩ | ⟨hdr, body, l, hlu, h5, -, hflux⟩
    · rw [hlu]
      dsimp only
      split_ifs
      · rfl
      · rfl
      · exact ih (by rw [hflux]; omega) (by rw [hflux]; omega) (by omega)
    · rw [hlu]
      -- A record takes at least its header from the stream.
      have hlen : l.flux.length + 5 ≤ s.lien.flux.length := by
        rw [hflux]
        simp only [length_append]
        omega
      have hrec (k : DirKeys) : recvBoucle n vides { s with lien := l, sAp := k } =
          recvBoucle m vides { s with lien := l, sAp := k } := ih (by dsimp only; omega) (by dsimp only; omega) hv
      simp only [hrec]

end Session

/-- What the owner of a session does: it reads, or it sends, which lets the connection advance. -/
inductive Action
  | recv
  | pompe
  deriving DecidableEq, Repr

/-- The records read by a list of actions. A read that gives up is tried again by the next one. -/
def lectures : List Action → Lien → List (Octets × Octets)
  | [], _ => []
  | .recv :: as, l => (readRawRecord l).1.toList ++ lectures as (readRawRecord l).2
  | .pompe :: as, l => lectures as l.pompe

/-- Records are cut where the stream cuts them, however its bytes arrive and wherever a read
gives up. -/
theorem lectures_prefixe (actions : List Action) (l : Lien) :
    lectures actions l <+: enregistrements l.flux := by
  induction actions generalizing l with
  | nil => exact nil_prefix
  | cons a as ih =>
    cases a with
    | recv =>
      rw [lectures]
      rcases readRawRecord_flux l with ⟨l', hlu, hflux⟩ | ⟨hdr, body, l', hlu, h5, hb, hflux⟩
      · rw [hlu, ← hflux]
        exact ih l'
      · rw [hlu, hflux, enregistrements_append h5 hb]
        exact (prefix_cons_inj _).mpr (ih l')
    | pompe =>
      rw [← Lien.flux_pompe]
      exact ih l.pompe

/-- The data delivered by a list of actions. -/
def Session.deroule : List Action → Session → Guarded (Octets × Session)
  | [], s => .ok ([], s)
  | .recv :: as, s => do
    let (r, s) ← s.recvSome
    let (o, s) ← s.deroule as
    return (r.getD [] ++ o, s)
  | .pompe :: as, s => { s with lien := s.lien.pompe }.deroule as

/-- A message, with the zero bytes added after it. -/
structure Message where
  type : UInt8
  data : Octets
  bourrage : ℕ := 0
  nonNul : type ≠ 0

namespace Message

def inner (m : Message) : Octets := m.data ++ m.type :: List.replicate m.bourrage 0

/-- Without padding this is `encrypt`. -/
def chiffre (k : DirKeys) (m : Message) : Guarded (Octets × DirKeys) := k.scelle m.inner

end Message

def appData (ms : List Message) : Octets :=
  (ms.filter fun m => m.type = CT_APPLICATION_DATA).flatMap Message.data

namespace DirKeys

def chiffreTout : List Message → DirKeys → Guarded (List Octets × DirKeys)
  | [], k => .ok ([], k)
  | m :: ms, k => do
    let (r, k) ← m.chiffre k
    let (rs, k) ← chiffreTout ms k
    return (r :: rs, k)

/-- Each record is its header and its body. -/
def dechiffreTout : List Octets → DirKeys → Guarded (List (Option (UInt8 × Octets)) × DirKeys)
  | [], k => .ok ([], k)
  | r :: rs, k => do
    let (x, k) ← k.decrypt (r.take 5) (r.drop 5)
    let (xs, k) ← dechiffreTout rs k
    return (x :: xs, k)

variable {k : DirKeys} {ms : List Message} {n : ℕ} {hdr body rest : Octets}

theorem scelle_eq (inner : Octets) (h : k.seq + 1 < 2 ^ 64) :
    k.scelle inner = .ok (k.enregistrement inner, k.au (k.seq + 1)) := by
  rw [scelle, fit_of_lt h]
  rfl

theorem decrypt_enregistrement (m : Message) (h : k.seq + 1 < 2 ^ 64) :
    k.decrypt ((k.enregistrement m.inner).take 5) ((k.enregistrement m.inner).drop 5) =
      .ok (some (m.type, m.data), k.au (k.seq + 1)) := by
  rw [decrypt, ouvre_enregistrement]
  dsimp only
  rw [fit_of_lt h, Message.inner, depouille_eq m.nonNul]
  rfl

theorem chiffreTout_eq (ms : List Message) (k : DirKeys) (h : k.seq + ms.length < 2 ^ 64) :
    chiffreTout ms k = .ok (ms.mapIdx fun i m => (k.au (k.seq + i)).enregistrement m.inner,
      k.au (k.seq + ms.length)) := by
  induction ms generalizing k with
  | nil => rfl
  | cons m ms ih =>
    rw [length_cons] at h
    rw [chiffreTout, Message.chiffre, scelle_eq m.inner (by omega), ok_bind]
    dsimp only
    rw [ih (k.au (k.seq + 1)) (by rw [au_seq]; omega)]
    simp only [ok_bind, au_seq, au_au, mapIdx_cons, Nat.add_zero, au_self, length_cons]
    simp only [show ∀ i, k.seq + 1 + i = k.seq + (i + 1) by omega]
    rfl

theorem dechiffreTout_eq (ms : List Message) (k : DirKeys) (h : k.seq + ms.length < 2 ^ 64) :
    dechiffreTout (ms.mapIdx fun i m => (k.au (k.seq + i)).enregistrement m.inner) k =
      .ok (ms.map fun m => some (m.type, m.data), k.au (k.seq + ms.length)) := by
  induction ms generalizing k with
  | nil => rfl
  | cons m ms ih =>
    rw [length_cons] at h
    have hrec := ih (k.au (k.seq + 1)) (by rw [au_seq]; omega)
    simp only [au_seq, au_au, show ∀ i, k.seq + 1 + i = k.seq + (i + 1) by omega] at hrec
    rw [mapIdx_cons, Nat.add_zero, au_self, dechiffreTout, decrypt_enregistrement m (by omega), ok_bind]
    dsimp only
    rw [hrec, ok_bind]
    rfl

/-- Among the records of a stream, the AEAD accepts only outputs of the sender under the same
nonce and header. -/
def Authentique (k : DirKeys) (ms : List Message) (flux : Octets) : Prop :=
  ∀ r ∈ enregistrements flux, ∀ n ≤ ms.length, ((k.au n).ouvre r.1 r.2).isSome →
    ∃ i, ∃ h : i < ms.length, (k.au i).nonce = (k.au n).nonce ∧
      r.1 ++ r.2 = (k.au i).enregistrement (ms[i]).inner

theorem Authentique.reste (h : Authentique k ms (hdr ++ body ++ rest))
    (h5 : hdr.length = 5) (hb : body.length = longueurCorps hdr) : Authentique k ms rest := by
  intro r hr
  exact h r (by rw [enregistrements_append h5 hb]; exact mem_cons_of_mem _ hr)

/-- The receiver at record `n` refuses a record, or it is the one of that number. -/
theorem Authentique.decrypt (h : Authentique k ms (hdr ++ body ++ rest))
    (h5 : hdr.length = 5) (hb : body.length = longueurCorps hdr) (hms : ms.length < 2 ^ 64) (hn : n ≤ ms.length) :
    (k.au n).decrypt hdr body = .ok (none, k.au n) ∨
      ∃ hlt : n < ms.length, (k.au n).decrypt hdr body = .ok (some (ms[n].type, ms[n].data), k.au (n + 1)) := by
  cases ho : (k.au n).ouvre hdr body with
  | none =>
    left
    rw [DirKeys.decrypt, ho]
  | some clair =>
    right
    obtain ⟨i, hi, hnonce, hrec⟩ := h (hdr, body) (by rw [enregistrements_append h5 hb]; exact mem_cons_self)
      n hn (by rw [ho]; rfl)
    obtain rfl := nonce_inj k (by omega) (by omega) hnonce
    have hhdr : hdr = ((k.au i).enregistrement ms[i].inner).take 5 := by rw [← hrec, take_left' h5]
    have hbody : body = ((k.au i).enregistrement ms[i].inner).drop 5 := by rw [← hrec, drop_left' h5]
    refine ⟨hi, ?_⟩
    rw [hhdr, hbody]
    exact decrypt_enregistrement ms[i] (by rw [au_seq]; omega)

end DirKeys

open DirKeys

variable {k : DirKeys} {ms : List Message}

theorem appData_take_succ {n : ℕ} (h : n < ms.length) :
    appData (ms.take (n + 1)) =
      appData (ms.take n) ++ if ms[n].type = CT_APPLICATION_DATA then ms[n].data else [] := by
  rw [take_add_one, getElem?_eq_getElem h]
  simp only [appData, filter_append, flatMap_append, Option.toList_some]
  split <;> simp_all

theorem appData_take_prefix (ms : List Message) (n : ℕ) : appData (ms.take n) <+: appData ms := by
  refine ⟨appData (ms.drop n), ?_⟩
  simp only [appData, ← flatMap_append, ← filter_append, take_append_drop]

namespace Session

/-- The receiver is at record `n` of what was sent. -/
structure Suit (k : DirKeys) (ms : List Message) (n : ℕ) (s : Session) : Prop where
  cle : s.sAp = k.au n
  borne : n ≤ ms.length
  vide : s.rxPlain = []
  flux : Authentique k ms s.lien.flux

/-- A read returns, and what it delivers comes after the data before record `n`. -/
def Livre (k : DirKeys) (ms : List Message) (n : ℕ) (g : Guarded (Option Octets × Session)) : Prop :=
  ∃ r s m, g = .ok (r, s) ∧ Suit k ms m s ∧ appData (ms.take m) = appData (ms.take n) ++ r.getD []

theorem Suit.recvBoucle (hms : ms.length < 2 ^ 64) (tours vides n : ℕ) {s : Session} (hs : Suit k ms n s) :
    Livre k ms n (recvBoucle tours vides s) := by
  induction tours generalizing vides n s with
  | zero => exact ⟨none, s, n, rfl, hs, by simp⟩
  | succ tours ih =>
    rw [Session.recvBoucle]
    rcases readRawRecord_flux s.lien with ⟨l, hlu, hflux⟩ | ⟨hdr, body, l, hlu, h5, hb, hflux⟩
    · rw [hlu]
      have hs' : Suit k ms n { s with lien := l } := ⟨hs.cle, hs.borne, hs.vide, by rw [hflux]; exact hs.flux⟩
      dsimp only
      split_ifs
      · exact ⟨none, _, n, rfl, hs', by simp⟩
      · exact ⟨none, _, n, rfl, hs', by simp⟩
      · exact ih (vides + 1) n hs'
    · rw [hlu]
      have hauth : Authentique k ms (hdr ++ body ++ l.flux) := by
        rw [← hflux]
        exact hs.flux
      have hs' : Suit k ms n { s with lien := l } := ⟨hs.cle, hs.borne, hs.vide, hauth.reste h5 hb⟩
      dsimp only
      split_ifs
      · exact ih vides n hs'
      · rw [hs.cle]
        rcases hauth.decrypt h5 hb hms hs.borne with hrefus | ⟨hlt, haccepte⟩
        · rw [hrefus, ok_bind]
          exact ih vides n ⟨rfl, hs.borne, hs.vide, hauth.reste h5 hb⟩
        · -- The record is the one of number `n`; whatever its type, the receiver goes to the next.
          rw [haccepte, ok_bind]
          have hsuite : Suit k ms (n + 1) { s with lien := l, sAp := k.au (n + 1) } :=
            ⟨rfl, hlt, hs.vide, hauth.reste h5 hb⟩
          have hsucc := appData_take_succ hlt
          have hreprend (hdata : appData (ms.take (n + 1)) = appData (ms.take n)) :
              Livre k ms n (Session.recvBoucle tours vides { s with lien := l, sAp := k.au (n + 1) }) := by
            obtain ⟨r, s', m, hg, hm, hr⟩ := ih vides (n + 1) hsuite
            exact ⟨r, s', m, hg, hm, by rw [hr, hdata]⟩
          dsimp only
          split_ifs with ht hvide halerte
          · exact hreprend (by rw [hsucc, if_pos ht, isEmpty_iff.mp hvide, append_nil])
          · exact ⟨_, _, n + 1, rfl, hsuite, by rw [hsucc, if_pos ht]; rfl⟩
          · exact ⟨none, _, n + 1, rfl, hsuite, by rw [hsucc, if_neg ht]; rfl⟩
          · exact hreprend (by rw [hsucc, if_neg ht, append_nil])
      · exact ⟨none, _, n, rfl, hs', by simp⟩

theorem Suit.deroule (hms : ms.length < 2 ^ 64) (actions : List Action) (n : ℕ) {s : Session}
    (hs : Suit k ms n s) : ∃ o s' m, s.deroule actions = .ok (o, s') ∧ Suit k ms m s' ∧
      appData (ms.take m) = appData (ms.take n) ++ o := by
  induction actions generalizing n s with
  | nil => exact ⟨[], s, n, rfl, hs, by simp⟩
  | cons a actions ih =>
    cases a with
    | recv =>
      obtain ⟨r, s', m, hr, hm, hdata⟩ := Suit.recvBoucle hms (s.lien.flux.length + 3) 0 n hs
      obtain ⟨o, s'', m', hg, hm', ho⟩ := ih m hm
      have hrecv : s.recvSome = .ok (r, s') := by
        rw [recvSome, hs.vide]
        exact hr
      refine ⟨r.getD [] ++ o, s'', m', ?_, hm', by rw [ho, hdata, append_assoc]⟩
      rw [Session.deroule, hrecv, ok_bind]
      dsimp only
      rw [hg, ok_bind]
      rfl
    | pompe => exact ih n ⟨hs.cle, hs.borne, hs.vide, by rw [Lien.flux_pompe]; exact hs.flux⟩

end Session

/-- The channel: records come back as the messages they were, nonces do not repeat, and what a
session delivers is a prefix of what was sent. -/
theorem canal_fidele (suite : CipherSuite) (secret : Octets) (ms : List Message) (hms : ms.length < 2 ^ 64) :
    (∃ recs, chiffreTout ms (.new suite secret) = .ok (recs, (DirKeys.new suite secret).au ms.length) ∧
      (recs = ms.mapIdx fun i m => ((DirKeys.new suite secret).au i).enregistrement m.inner) ∧
      dechiffreTout recs (.new suite secret) =
        .ok (ms.map fun m => some (m.type, m.data), (DirKeys.new suite secret).au ms.length)) ∧
      (∀ i < 2 ^ 64, ∀ j < 2 ^ 64, i ≠ j →
        ((DirKeys.new suite secret).au i).nonce ≠ ((DirKeys.new suite secret).au j).nonce) ∧
      ∀ lien : Lien, Authentique (.new suite secret) ms lien.flux → ∀ actions : List Action,
        ∃ o s, (⟨lien, .new suite secret, []⟩ : Session).deroule actions = .ok (o, s) ∧ o <+: appData ms := by
  have hzero : (DirKeys.new suite secret).seq = 0 := rfl
  refine ⟨⟨_, ?_, rfl, ?_⟩, ?_, ?_⟩
  · simpa [hzero] using chiffreTout_eq ms (.new suite secret) (by omega)
  · simpa [hzero] using dechiffreTout_eq ms (.new suite secret) (by omega)
  · intro i hi j hj hne hnonce
    exact hne (nonce_inj _ hi hj hnonce)
  · intro lien hauth actions
    have hs : Session.Suit (.new suite secret) ms 0 ⟨lien, .new suite secret, []⟩ :=
      ⟨rfl, Nat.zero_le _, rfl, hauth⟩
    obtain ⟨o, s, m, hg, _, ho⟩ := hs.deroule hms actions 0
    refine ⟨o, s, hg, ?_⟩
    have hpre := appData_take_prefix ms m
    rw [ho] at hpre
    simpa [appData] using hpre

/-- Keys of an empty secret, a message of three bytes, its record, and that record twice. -/
def clesVides : DirKeys := .new .tlsChacha20Poly1305Sha256 []

def troisOctets : Message := { type := CT_APPLICATION_DATA, data := [1, 2, 3], nonNul := by decide }

def enr : Octets := (clesVides.au 0).enregistrement troisOctets.inner

def repete : Octets := enr ++ enr

/-- A record of three bytes, repeated on the way: the copy is refused. -/
theorem canal_fidele_repetition :
    ∃ o s, (⟨⟨{ sport := 0, ack := 0, rx := repete }, []⟩, clesVides, []⟩ : Session).deroule [.recv, .recv] =
      .ok (o, s) ∧ o <+: [1, 2, 3] := by
  have hauth : Authentique clesVides [troisOctets] repete := by
    have hlus : enregistrements repete = [enr, enr].map fun r => (r.take 5, r.drop 5) := by
      refine Eq.trans (congrArg enregistrements (by simp [repete])) (enregistrements_flatten fun r hr => ?_)
      obtain rfl : r = enr := by simpa using hr
      exact ⟨by rw [enr, DirKeys.length_enregistrement]; omega, longueurCorps_enregistrement _ (by decide)⟩
    have hrefus : (clesVides.au 1).ouvre (enr.take 5) (enr.drop 5) = none := by decide +kernel
    intro r hr n hn hsome
    have hr' : r = (enr.take 5, enr.drop 5) := by simpa [hlus] using hr
    rw [hr'] at hsome ⊢
    rcases Nat.le_one_iff_eq_zero_or_eq_one.mp hn with rfl | rfl
    · exact ⟨0, Nat.one_pos, rfl, take_append_drop 5 enr⟩
    · rw [hrefus] at hsome
      exact absurd hsome (by simp)
  exact (canal_fidele .tlsChacha20Poly1305Sha256 [] [troisOctets] (by norm_num)).2.2
    ⟨{ sport := 0, ack := 0, rx := repete }, []⟩ hauth [.recv, .recv]

end BouchaudOS.Reseau.Tls
