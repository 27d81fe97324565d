import BouchaudOS.Reseau.Requete
import BouchaudOS.Reseau.Tls.Canal

/-!
# The HTTP/2 request

What `http2::fetch` sends: the preface with three frames in one call of `send_app`, then one
frame for each SETTINGS and PING of the server. A frame keeps three bytes of its length and a
record two; neither is ever cut in pieces.
-/

namespace BouchaudOS.Reseau.Http2

open Tls Checked List Outcome

def PREFACE : Octets := octets "PRI * HTTP/2.0\r\n\r\nSM\r\n\r\n".toList

def FT_HEADERS : UInt8 := 0x1
def FT_SETTINGS : UInt8 := 0x4
def FT_PING : UInt8 := 0x6
def FT_WINDOW_UPDATE : UInt8 := 0x8
def FLAG_ACK : UInt8 := 0x1
def FLAG_END_STREAM : UInt8 := 0x1
def FLAG_END_HEADERS : UInt8 := 0x4
def SETTINGS_ENABLE_PUSH : UInt16 := 0x2
def SETTINGS_INITIAL_WINDOW_SIZE : UInt16 := 0x4

structure Trame where
  ftype : UInt8
  flags : UInt8
  stream : UInt32
  payload : Octets

def buildFrame (t : Trame) : Octets :=
  let len := t.payload.length
  [UInt8.ofNat (len / 2 ^ 16), UInt8.ofNat (len / 2 ^ 8), UInt8.ofNat len, t.ftype, t.flags] ++
    octetsDe32 (t.stream &&& 0x7fffffff) ++ t.payload

def suiteInt (v : ℕ) : Octets :=
  if v < 128 then [UInt8.ofNat v] else (UInt8.ofNat (v % 128) ||| 0x80) :: suiteInt (v / 128)

def encodeInt (value pre : ℕ) (flags : UInt8) : Octets :=
  let mask := 2 ^ pre - 1
  if value < mask then [flags ||| UInt8.ofNat value] else (flags ||| UInt8.ofNat mask) :: suiteInt (value - mask)

def encodeString (s : Texte) : Octets := encodeInt (octets s).length 7 0x00 ++ octets s

def encodeRequest (headers : List (Texte × Texte)) : Octets :=
  headers.flatMap fun h => 0x00 :: (encodeString h.1 ++ encodeString h.2)

def hdrs (pot : Pot) (host path : Texte) : List (Texte × Texte) :=
  [(":method".toList, "GET".toList), (":path".toList, path), (":scheme".toList, "https".toList),
    (":authority".toList, host), ("user-agent".toList, USER_AGENT),
    ("accept".toList, "text/html,application/xhtml+xml,application/xml;q=0.9,*/*;q=0.8".toList),
    ("accept-language".toList, "fr-FR,fr;q=0.9,en;q=0.8".toList),
    ("accept-encoding".toList, "gzip, deflate, br".toList)] ++
    (pot.headerFor host).toList.map fun c => ("cookie".toList, c)

def pushSetting (id : UInt16) (val : UInt32) : Octets := octetsDe16 id ++ octetsDe32 val

/-- The three frames behind the preface. -/
def initial (req : Octets) : List Trame :=
  [⟨FT_SETTINGS, 0, 0, pushSetting SETTINGS_ENABLE_PUSH 0 ++ pushSetting SETTINGS_INITIAL_WINDOW_SIZE 0x7fffffff⟩,
    ⟨FT_WINDOW_UPDATE, 0, 0, octetsDe32 0x7fff0000⟩,
    ⟨FT_HEADERS, FLAG_END_HEADERS ||| FLAG_END_STREAM, 1, req⟩]

/-- The answer to a frame of the server. -/
def repond (t : Trame) : Option Trame :=
  if leve t.flags FLAG_ACK then none
  else if t.ftype = FT_SETTINGS then some ⟨FT_SETTINGS, FLAG_ACK, 0, []⟩
  else if t.ftype = FT_PING then some ⟨FT_PING, FLAG_ACK, 0, t.payload⟩
  else none

/-- One call of `send_app`: the frames, behind the preface or nothing. -/
structure Appel where
  preface : Octets := []
  trames : List Trame

def Appel.octets (a : Appel) : Octets := a.preface ++ a.trames.flatMap buildFrame

/-- The calls of `fetch` when the server sends these frames; it reads 100000 of them at most. -/
def fetch (pot : Pot) (host path : Texte) (recues : List Trame) : List Appel :=
  ⟨PREFACE, initial (encodeRequest (hdrs pot host path))⟩ ::
    ((recues.take 100000).filterMap repond).map fun t => ⟨[], [t]⟩

theorem donnees_nonNul : CT_APPLICATION_DATA ≠ 0 := by decide

/-- `send_app` on each of the data. -/
def sendApp (data : List Octets) (k : DirKeys) : Guarded (List Octets × DirKeys) :=
  k.chiffreTout (data.map fun d => ⟨CT_APPLICATION_DATA, d, 0, donnees_nonNul⟩)

/-- The default of `SETTINGS_MAX_FRAME_SIZE`, which is also the content a record may have. -/
def LIMITE : ℕ := 2 ^ 14

/-- A frame within the limit, with its length in the field. -/
def Trame.Conforme (t : Trame) : Prop :=
  t.payload.length ≤ LIMITE ∧
    let f := buildFrame t
    2 ^ 16 * (f.getD 0 0).toNat + mot (f.getD 1 0) (f.getD 2 0) = f.length - 9

/-- The records of some data are within the limit, with their length in the field, and a
receiver that cuts the stream and decrypts gets the data. -/
structure Conforme (k : DirKeys) (data rs : List Octets) : Prop where
  record : List.Forall₂ (fun d r => d.length ≤ LIMITE ∧ longueurCorps (r.take 5) = r.length - 5) data rs
  recu : ∃ k', k.dechiffreTout ((enregistrements rs.flatten).map fun r => r.1 ++ r.2) =
    .ok (data.map fun d => some (CT_APPLICATION_DATA, d), k')

theorem Trame.conforme_iff (t : Trame) : t.Conforme ↔ t.payload.length ≤ LIMITE := by
  refine ⟨And.left, fun h => ⟨h, ?_⟩⟩
  simp only [buildFrame, cons_append, getD_cons_zero, getD_cons_succ, mot, UInt8.toNat_ofNat',
    length_cons, length_append, LIMITE, octetsDe32, length_nil] at *
  omega

theorem length_buildFrame (t : Trame) : (buildFrame t).length = t.payload.length + 9 := by
  simp [buildFrame, octetsDe32]

theorem seq_of_chiffreTout (ms : List Message) {k : DirKeys} {m : Message} {r : List Octets × DirKeys}
    (h : k.chiffreTout (m :: ms) = .ok r) : k.seq + (ms.length + 1) < 2 ^ 64 := by
  induction ms generalizing k m r with
  | nil =>
    obtain ⟨_, hs, -⟩ := bind_eq_ok.mp h
    obtain ⟨_, hfit, -⟩ := bind_eq_ok.mp hs
    exact (fit_eq_ok.mp hfit).1
  | cons m' ms ih =>
    obtain ⟨p, hs, h⟩ := bind_eq_ok.mp h
    obtain ⟨seq, hfit, hp⟩ := bind_eq_ok.mp hs
    obtain ⟨-, rfl⟩ := fit_eq_ok.mp hfit
    cases hp
    obtain ⟨q, hq, -⟩ := bind_eq_ok.mp h
    have hlt := ih hq
    rw [DirKeys.au_seq] at hlt
    rw [length_cons]
    omega

/-- The records of `send_app` are in order exactly when the counter and the limit allow them. -/
theorem sendApp_iff (k : DirKeys) (d : Octets) (l : List Octets) :
    (∃ rs k', sendApp (d :: l) k = .ok (rs, k') ∧ Conforme k (d :: l) rs) ↔
      k.seq + (l.length + 1) < 2 ^ 64 ∧ ∀ x ∈ d :: l, x.length ≤ LIMITE := by
  constructor
  · rintro ⟨rs, k', hsend, hconf⟩
    refine ⟨by simpa using seq_of_chiffreTout _ hsend, fun x hx => ?_⟩
    obtain ⟨i, hi, rfl⟩ := mem_iff_getElem.mp hx
    obtain ⟨hlen, hrec⟩ := List.forall₂_iff_get.mp hconf.record
    exact (hrec i hi (hlen ▸ hi)).1
  · rintro ⟨hseq, hlim⟩
    set ms : List Message := (d :: l).map fun d => ⟨CT_APPLICATION_DATA, d, 0, by decide⟩ with hms
    have hlen : ms.length = l.length + 1 := by simp [hms]
    have hok := DirKeys.chiffreTout_eq ms k (by rwa [hlen])
    have hrecus := DirKeys.dechiffreTout_eq ms k (by rwa [hlen])
    set rs := ms.mapIdx fun i m => (k.au (k.seq + i)).enregistrement m.inner with hrs
    have hrec : List.Forall₂ (fun x r => x.length ≤ LIMITE ∧ longueurCorps (r.take 5) = r.length - 5) (d :: l) rs := by
      refine List.forall₂_iff_get.mpr ⟨by simp [hrs, hlen], fun i hi hj => ?_⟩
      have hx := hlim _ (get_mem (d :: l) ⟨i, hi⟩)
      simp only [get_eq_getElem, hrs, hms, getElem_mapIdx, getElem_map] at hx ⊢
      refine ⟨hx, longueurCorps_enregistrement _ ?_⟩
      simp only [Message.inner, length_append, length_cons, replicate_zero, length_nil, LIMITE] at *
      omega
    have hcoupe : ∀ r ∈ rs, 5 ≤ r.length ∧ longueurCorps (r.take 5) = r.length - 5 := by
      intro r hr
      obtain ⟨j, hj, rfl⟩ := mem_iff_getElem.mp hr
      obtain ⟨hlen', hall⟩ := List.forall₂_iff_get.mp hrec
      refine ⟨?_, (hall j (hlen' ▸ hj) hj).2⟩
      simp only [hrs, getElem_mapIdx, DirKeys.length_enregistrement]
      omega
    refine ⟨rs, _, hok, hrec, k.au (k.seq + ms.length), ?_⟩
    rw [enregistrements_flatten hcoupe, map_map]
    simp only [Function.comp_def, take_append_drop, map_id', hrecus]
    simp [hms, Function.comp_def]

theorem mem_reponses {recues : List Trame} {n : ℕ} : (∀ t ∈ recues.filterMap repond, t.payload.length ≤ n) ↔
      ∀ t ∈ recues, leve t.flags FLAG_ACK = false → t.ftype = FT_PING → t.payload.length ≤ n := by
  simp only [mem_filterMap, repond]
  constructor
  · intro h t ht hack hping
    exact h ⟨FT_PING, FLAG_ACK, 0, t.payload⟩ ⟨t, ht, by simp [hack, hping, FT_PING, FT_SETTINGS]⟩
  · rintro h t ⟨r, hr, hrep⟩
    split_ifs at hrep with hack hset hping
    · cases hrep
      exact Nat.zero_le n
    · cases hrep
      exact h r hr (by simpa using hack) hping

theorem length_initial (req : Octets) : (Appel.octets ⟨PREFACE, initial req⟩).length = req.length + 67 := by
  have hpreface : PREFACE.length = 24 := by decide
  simp only [Appel.octets, initial, flatMap_cons, flatMap_nil, length_append, length_buildFrame,
    hpreface, pushSetting, octetsDe16, octetsDe32, length_cons, length_nil]
  omega

theorem forall_initial (req : Octets) : (∀ t ∈ initial req, t.payload.length ≤ LIMITE) ↔ req.length ≤ LIMITE := by
  simp [initial, pushSetting, octetsDe16, octetsDe32, LIMITE]

theorem length_reponse (t : Trame) : (Appel.octets ⟨[], [t]⟩).length = t.payload.length + 9 := by
  simp [Appel.octets, length_buildFrame]

theorem fetch_iff (suite : CipherSuite) (secret : Octets) (pot : Pot) (host path : Texte) (recues : List Trame) :
    ((∃ rs k', sendApp ((fetch pot host path recues).map Appel.octets) (.new suite secret) = .ok (rs, k') ∧
        Conforme (.new suite secret) ((fetch pot host path recues).map Appel.octets) rs) ∧
      ∀ a ∈ fetch pot host path recues, ∀ t ∈ a.trames, t.Conforme) ↔
      (encodeRequest (hdrs pot host path)).length ≤ 16317 ∧
        ∀ t ∈ recues.take 100000, leve t.flags FLAG_ACK = false → t.ftype = FT_PING → t.payload.length ≤ 16375 := by
  rw [← mem_reponses, fetch, map_cons, sendApp_iff]
  set req := encodeRequest (hdrs pot host path)
  set reponses := (recues.take 100000).filterMap repond
  have hnombre : reponses.length ≤ 100000 := (length_filterMap_le _ _).trans (length_take_le _ _)
  simp only [mem_cons, map_map, forall_eq_or_imp, length_initial, forall_mem_map, Function.comp_def,
    length_map, length_reponse, Trame.conforme_iff, not_mem_nil, false_imp_iff,
    implies_true, and_true, LIMITE]
  constructor
  · rintro ⟨⟨-, hreq, hpings⟩, -⟩
    exact ⟨by omega, fun t ht => by have := hpings t ht; omega⟩
  · rintro ⟨hreq, hpings⟩
    refine ⟨⟨?_, by omega, fun t ht => by have := hpings t ht; omega⟩, (forall_initial req).mpr ?_, ?_⟩
    · show 0 + _ < _
      omega
    · exact hreq.trans (by decide)
    · intro t ht
      have := hpings t ht
      omega

theorem length_path_le (pot : Pot) (host path : Texte) :
    (octets path).length ≤ (encodeRequest (hdrs pot host path)).length := by
  simp only [encodeRequest, hdrs, cons_append, flatMap_cons, length_append, length_cons, encodeString]
  omega

end BouchaudOS.Reseau.Http2
