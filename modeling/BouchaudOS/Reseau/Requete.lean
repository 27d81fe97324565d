import BouchaudOS.Reseau.Cookies
import BouchaudOS.Reseau.Reassemblage

/-!
# The plain request

The request `build_get` writes, and how `fetch` sends it: in one segment of a fixed buffer,
kept in the queue of the segments that are not acknowledged. When a segment is sent again
depends on the clock, so any segment of the queue may be, at any moment.
-/

namespace BouchaudOS.Reseau

open List

def USER_AGENT : Texte :=
  "Mozilla/5.0 (X11; Linux x86_64) AppleWebKit/537.36 (KHTML, like Gecko) Chrome/124.0.0.0 Safari/537.36".toList

/-- What follows the path in a request. -/
def enTetes (pot : Pot) (host : Texte) : Texte :=
  let cookieLine :=
    match pot.headerFor host with
    | some c => "Cookie: ".toList ++ c ++ "\r\n".toList
    | none => []
  " HTTP/1.1\r\nHost: ".toList ++ host ++ "\r\nUser-Agent: ".toList ++ USER_AGENT ++
    ("\r\nAccept: text/html,application/xhtml+xml,application/xml;q=0.9,image/avif,image/webp,*/*;q=0.8\r\n" ++
      "Accept-Language: fr-FR,fr;q=0.9,en;q=0.8\r\nAccept-Encoding: gzip, deflate, br\r\n").toList ++
    cookieLine ++ "Connection: close\r\n\r\n".toList

def buildGet (pot : Pot) (host path : Texte) : Texte := "GET ".toList ++ (path ++ enTetes pot host)

theorem path_sublist_buildGet (pot : Pot) (host path : Texte) : path.Sublist (buildGet pot host path) :=
  (sublist_append_left path (enTetes pot host)).trans (sublist_append_right "GET ".toList _)

def CHARGE_MAX : ℕ := 1460

def SEGMENTS_MAX : ℕ := 64

/-- The size of the buffer `fetch` builds its segments in. -/
def TAMPON : ℕ := 1600

/-- A slot of the queue; its array holds `CHARGE_MAX` bytes. -/
structure SegmentEnVol where
  seq : UInt32
  charge : Octets
  controle : Bool
  occupe : Bool
  tient : charge.length ≤ CHARGE_MAX

namespace SegmentEnVol

def vide : SegmentEnVol := ⟨0, [], false, false, Nat.zero_le _⟩

def consomme (s : SegmentEnVol) : ℕ := if s.controle then s.charge.length + 1 else s.charge.length

def fin (s : SegmentEnVol) : UInt32 := s.seq + UInt32.ofNat s.consomme

end SegmentEnVol

structure Emission where
  file : List SegmentEnVol
  sndUna : UInt32
  dernierAck : UInt32

open Emission

namespace Emission

def neuve (isn : UInt32) : Emission := ⟨List.replicate SEGMENTS_MAX .vide, isn, isn⟩

def segment (e : Emission) (index : ℕ) : Option SegmentEnVol := e.file[index]?.filter (·.occupe)

def enregistre (e : Emission) (seq : UInt32) (charge : Octets) (controle : Bool) : Option ℕ × Emission :=
  if h : charge.length ≤ CHARGE_MAX then
    match e.file.findIdx? (!·.occupe) with
    | none => (none, e)
    | some index => (some index, { e with file := e.file.set index ⟨seq, charge, controle, true, h⟩ })
  else (none, e)

def seqAvant (a b : UInt32) : Bool := Recep.relatif a b < 0

def acquitte (e : Emission) (ack : UInt32) : Emission :=
  if seqAvant ack e.sndUna then e
  else if ack = e.dernierAck ∧ ack = e.sndUna then e
  else if !seqAvant e.sndUna ack then { e with dernierAck := ack }
  else
    { file := e.file.map fun s => if s.occupe && !seqAvant ack s.fin then { s with occupe := false } else s
      sndUna := ack
      dernierAck := ack }

variable {e : Emission} {s : SegmentEnVol}

theorem mem_acquitte {ack : UInt32} (h : s ∈ (e.acquitte ack).file) (hs : s.occupe) : s ∈ e.file := by
  unfold acquitte at h
  split_ifs at h
  · exact h
  · exact h
  · exact h
  · obtain ⟨t, ht, rfl⟩ := mem_map.mp h
    split at hs
    · exact absurd hs Bool.false_ne_true
    · rename_i hlibre
      rwa [if_neg hlibre]

theorem libre_acquitte (ack : UInt32) (h : ∃ s ∈ e.file, s.occupe = false) :
    ∃ s ∈ (e.acquitte ack).file, s.occupe = false := by
  obtain ⟨s, hs, hlibre⟩ := h
  unfold acquitte
  split_ifs
  · exact ⟨s, hs, hlibre⟩
  · exact ⟨s, hs, hlibre⟩
  · exact ⟨s, hs, hlibre⟩
  · exact ⟨_, mem_map.mpr ⟨s, hs, rfl⟩, by simp [hlibre]⟩

theorem mem_enregistre {seq : UInt32} {charge : Octets} {controle : Bool}
    (h : s ∈ (e.enregistre seq charge controle).2.file) :
    s ∈ e.file ∨ (s.seq = seq ∧ s.charge = charge ∧ s.controle = controle) := by
  unfold enregistre at h
  split at h
  · split at h
    · exact .inl h
    · rcases mem_or_eq_of_mem_set h with h | rfl
      · exact .inl h
      · exact .inr ⟨rfl, rfl, rfl⟩
  · exact .inl h

theorem segment_enregistre (seq : UInt32) {charge : Octets} (controle : Bool)
    (hlen : charge.length ≤ CHARGE_MAX) (h : ∃ s ∈ e.file, s.occupe = false) :
    ∃ index, (e.enregistre seq charge controle).2.segment index = some ⟨seq, charge, controle, true, hlen⟩ := by
  have hsome : (e.file.findIdx? (!·.occupe)).isSome := by
    obtain ⟨s, hs, hlibre⟩ := h
    rw [findIdx?_isSome]
    exact any_eq_true.mpr ⟨s, hs, by simp [hlibre]⟩
  obtain ⟨index, hi⟩ := Option.isSome_iff_exists.mp hsome
  obtain ⟨hlt, -⟩ := findIdx?_eq_some_iff_getElem.mp hi
  refine ⟨index, ?_⟩
  simp only [enregistre, dif_pos hlen, hi, segment]
  rw [getElem?_set_self hlt]
  rfl

theorem segment_eq_some {index : ℕ} (h : e.segment index = some s) : s ∈ e.file ∧ s.occupe := by
  obtain ⟨h, hs⟩ := Option.filter_eq_some_iff.mp h
  exact ⟨mem_of_getElem? h, hs⟩

end Emission

/-- The sending side of a connection: its queue and the segments that left. -/
structure Envoi where
  emission : Emission
  partis : List Octets

/-- What makes `fetch` act on its sending side while it waits for the answer. -/
inductive Signal
  /-- A segment of the peer acknowledges something. -/
  | accuse (ack : UInt32)
  /-- A segment of the queue is sent again, after its delay or three duplicates. -/
  | renvoie (index : ℕ) (myAck : UInt32)
  /-- A segment without payload answers the peer. -/
  | repond (flags : UInt8) (myAck : UInt32)

namespace Envoi

def part (v : Envoi) (b : Bouts) (seq ack : UInt32) (flags : UInt8) (charge : Octets) : Option Envoi :=
  (build TAMPON b seq ack flags charge).map fun s => { v with partis := v.partis ++ [s] }

/-- `fetch` up to its reception loop; nothing when a segment does not fit the buffer. -/
def demarre (b : Bouts) (isn theirSeq ack : UInt32) (request : Octets) : Option Envoi := do
  let emission := (((neuve isn).enregistre isn [] true).2).acquitte ack
  let mySeq := isn + 1
  let myAck := theirSeq + 1
  let v ← part ⟨emission, []⟩ b mySeq myAck ACK []
  let v ← v.part b mySeq myAck (PSH ||| ACK) request
  if request.length ≤ CHARGE_MAX then
    return { v with emission := (v.emission.enregistre mySeq request false).2 }
  else return v

/-- A SYN is built again by `build_syn` and has no payload. -/
def signale (b : Bouts) (mySeq : UInt32) (v : Envoi) : Signal → Option Envoi
  | .accuse ack => some { v with emission := v.emission.acquitte ack }
  | .renvoie index myAck =>
    match v.emission.segment index with
    | none => some v
    | some s => if s.controle then some v else v.part b s.seq myAck (PSH ||| ACK) s.charge
  | .repond flags myAck => v.part b mySeq myAck flags []

def deroule (b : Bouts) (mySeq : UInt32) (v : Envoi) (l : List Signal) : Option Envoi :=
  l.foldlM (signale b mySeq) v

def Inscrit (v : Envoi) (seq : UInt32) (request : Octets) : Prop :=
  ∃ index s, v.emission.segment index = some s ∧ s.seq = seq ∧ s.charge = request ∧ s.controle = false

/-- A segment within the limit that carries nothing, or the request at its place. -/
def Porte (seq : UInt32) (request s : Octets) : Prop :=
  ∃ h, parse s = some h ∧ (s.drop h.dataOff).length ≤ CHARGE_MAX ∧
    (s.drop h.dataOff = [] ∨ h.seq = seq ∧ s.drop h.dataOff = request)

/-- The payloads that left are the request, within the limit. -/
structure Conforme (v : Envoi) (seq : UInt32) (request : Octets) : Prop where
  porte : ∀ s ∈ v.partis, Porte seq request s
  partie : ∃ s ∈ v.partis, ∃ h, parse s = some h ∧ h.seq = seq ∧ s.drop h.dataOff = request

/-- `Conforme`, with a queue that holds nothing but the SYN and the request. -/
structure Suivi (v : Envoi) (seq : UInt32) (request : Octets) : Prop where
  conforme : v.Conforme seq request
  file : ∀ s ∈ v.emission.file, s.occupe → s.controle = false → s.seq = seq ∧ s.charge = request

theorem part_eq (v : Envoi) (b : Bouts) (seq ack : UInt32) (flags : UInt8) {charge : Octets}
    (h : charge.length ≤ CHARGE_MAX) :
    ∃ s, v.part b seq ack flags charge = some { v with partis := v.partis ++ [s] } ∧
      ∃ e, parse s = some e ∧ e.seq = seq ∧ s.drop e.dataOff = charge := by
  have hfit : 20 + charge.length ≤ TAMPON := by
    simp only [CHARGE_MAX, TAMPON] at *
    omega
  have hsome : (build TAMPON b seq ack flags charge).isSome := build_isSome.mpr hfit
  obtain ⟨s, hs⟩ := Option.isSome_iff_exists.mp hsome
  obtain ⟨hparse, hdrop⟩ := parse_build hs
  exact ⟨s, by rw [part, hs]; rfl, _, hparse, rfl, hdrop⟩

variable {v : Envoi} {seq : UInt32} {request : Octets}

theorem Suivi.part (hv : v.Suivi seq request) (b : Bouts)
    {n : UInt32} (ack : UInt32) (flags : UInt8) {charge : Octets} (hlen : charge.length ≤ CHARGE_MAX)
    (h : charge = [] ∨ n = seq ∧ charge = request) :
    ∃ v', v.part b n ack flags charge = some v' ∧ v'.Suivi seq request := by
  obtain ⟨s, hpart, e, hparse, hseq, hcharge⟩ := part_eq v b n ack flags hlen
  refine ⟨_, hpart, ⟨fun t ht => ?_, ?_⟩, hv.file⟩
  · rcases mem_append.mp ht with ht | ht
    · exact hv.conforme.porte t ht
    · obtain rfl := mem_singleton.mp ht
      exact ⟨e, hparse, by rwa [hcharge], by rwa [hcharge, hseq]⟩
  · obtain ⟨t, ht, hparti⟩ := hv.conforme.partie
    exact ⟨t, mem_append_left _ ht, hparti⟩

theorem Suivi.signale (hv : v.Suivi seq request) (b : Bouts)
    (signal : Signal) : ∃ v', v.signale b seq signal = some v' ∧ v'.Suivi seq request := by
  cases signal with
  | accuse ack =>
    refine ⟨_, rfl, ⟨hv.conforme.porte, hv.conforme.partie⟩, fun s hs hocc => ?_⟩
    exact hv.file s (mem_acquitte hs hocc) hocc
  | renvoie index myAck =>
    unfold Envoi.signale
    dsimp only
    split
    · exact ⟨v, rfl, hv⟩
    · rename_i s hs
      obtain ⟨hmem, hocc⟩ := segment_eq_some hs
      split
      · exact ⟨v, rfl, hv⟩
      · rename_i hdonnees
        exact hv.part b myAck _ s.tient (.inr (hv.file s hmem hocc (Bool.not_eq_true _ ▸ hdonnees)))
  | repond flags myAck => exact hv.part b myAck flags (Nat.zero_le _) (.inl rfl)

theorem Suivi.deroule (b : Bouts) (l : List Signal)
    (hv : v.Suivi seq request) : ∃ v', v.deroule b seq l = some v' ∧ v'.Suivi seq request := by
  induction l generalizing v with
  | nil => exact ⟨v, rfl, hv⟩
  | cons signal l ih =>
    obtain ⟨v1, h1, hv1⟩ := hv.signale b signal
    obtain ⟨v2, h2, hv2⟩ := ih hv1
    refine ⟨v2, ?_, hv2⟩
    rw [Envoi.deroule, foldlM_cons, h1]
    exact h2

/-- A request within the limit leaves in one segment and is in the queue. -/
theorem demarre_eq (b : Bouts) (isn theirSeq ack : UInt32) (h : request.length ≤ CHARGE_MAX) :
    ∃ v, demarre b isn theirSeq ack request = some v ∧ v.Inscrit (isn + 1) request ∧
      v.Suivi (isn + 1) request := by
  have hlibre : ∃ s ∈ ((neuve isn).enregistre isn [] true).2.file, s.occupe = false := by
    have hvide : SegmentEnVol.vide ∈ List.replicate 63 SegmentEnVol.vide := mem_replicate.mpr ⟨by decide, rfl⟩
    exact ⟨.vide, mem_cons_of_mem _ hvide, rfl⟩
  have hsyn : ∀ s ∈ ((neuve isn).enregistre isn [] true).2.file, s.occupe → s.controle := by
    intro s hs hocc
    rcases mem_enregistre hs with hs | ⟨-, -, hctrl⟩
    · rw [eq_of_mem_replicate hs] at hocc
      exact absurd hocc Bool.false_ne_true
    · exact hctrl
  have hnil : ([] : Octets).length ≤ CHARGE_MAX := Nat.zero_le _
  set e := ((neuve isn).enregistre isn [] true).2
  obtain ⟨s1, h1, e1, hp1, -, hc1⟩ :=
    part_eq ⟨e.acquitte ack, []⟩ b (isn + 1) (theirSeq + 1) ACK hnil
  obtain ⟨s2, h2, e2, hp2, hq2, hc2⟩ :=
    part_eq ⟨e.acquitte ack, [s1]⟩ b (isn + 1) (theirSeq + 1) (PSH ||| ACK) h
  obtain ⟨index, hindex⟩ := segment_enregistre (isn + 1) false h (libre_acquitte ack hlibre)
  refine ⟨⟨((e.acquitte ack).enregistre (isn + 1) request false).2, [s1, s2]⟩, ?_,
    ⟨index, _, hindex, rfl, rfl, rfl⟩, ⟨?_, s2, by simp, e2, hp2, hq2, hc2⟩, ?_⟩
  · simp only [demarre]
    rw [h1]
    show Option.bind (part ⟨e.acquitte ack, [s1]⟩ b _ _ _ _) _ = _
    rw [h2, Option.bind_some, if_pos h]
    rfl
  · intro s hs
    rcases mem_pair.mp hs with rfl | rfl
    · exact ⟨e1, hp1, by rw [hc1]; exact Nat.zero_le _, .inl hc1⟩
    · exact ⟨e2, hp2, by rwa [hc2], .inr ⟨hq2, hc2⟩⟩
  · intro s hs hocc hctrl
    rcases mem_enregistre hs with hs | ⟨hseq, hcharge, -⟩
    · exact absurd (hsyn s (mem_acquitte hs hocc) hocc) (by simp [hctrl])
    · exact ⟨hseq, hcharge⟩

/-- Whatever the servers stored in the jar: the request leaves inside the buffer, in segments
of at most 1460 bytes that carry it exactly and that the queue holds, and nothing else is sent
afterwards, if and only if the request has at most 1460 bytes. -/
theorem fetch_conforme_iff (b : Bouts) (isn theirSeq ack : UInt32) (recus : List (Texte × Texte))
    (host path : Texte) :
    (∃ v, demarre b isn theirSeq ack (octets (buildGet (Pot.apres recus) host path)) = some v ∧
      v.Inscrit (isn + 1) (octets (buildGet (Pot.apres recus) host path)) ∧
      ∀ l, ∃ v', v.deroule b (isn + 1) l = some v' ∧
        v'.Conforme (isn + 1) (octets (buildGet (Pot.apres recus) host path))) ↔
      (octets (buildGet (Pot.apres recus) host path)).length ≤ CHARGE_MAX := by
  constructor
  · rintro ⟨v, -, ⟨index, s, -, -, hcharge, -⟩, -⟩
    exact hcharge ▸ s.tient
  · intro h
    obtain ⟨v, hv, hinscrit, hsuivi⟩ := demarre_eq b isn theirSeq ack h
    refine ⟨v, hv, hinscrit, fun l => ?_⟩
    obtain ⟨v', hl, hv'⟩ := hsuivi.deroule b l
    exact ⟨v', hl, hv'.conforme⟩

theorem demarre_eq_none (b : Bouts) (isn theirSeq ack : UInt32)
    (h : TAMPON < 20 + request.length) : demarre b isn theirSeq ack request = none := by
  have hbuild : build TAMPON b (isn + 1) (theirSeq + 1) (PSH ||| ACK) request = none := if_neg (Nat.not_le.mpr h)
  simp only [demarre]
  cases part ⟨_, []⟩ b (isn + 1) (theirSeq + 1) ACK [] with
  | none => rfl
  | some v =>
    show Option.bind (v.part b _ _ _ _) _ = _
    rw [part, hbuild]
    rfl

/-- With an empty jar, a path of 1600 characters goes past the end of the buffer. -/
theorem chemin_long_deborde :
    demarre ⟨⟨10, 0, 2, 15⟩, ⟨10, 0, 2, 2⟩, 49152, 80⟩ 0 0 1
      (octets (buildGet (Pot.apres []) "a".toList (List.replicate 1600 'a'))) = none := by
  apply demarre_eq_none
  have hlen := length_octets_le (path_sublist_buildGet (Pot.apres []) "a".toList (List.replicate 1600 'a'))
  have hle := length_le_octets (List.replicate 1600 'a')
  rw [length_replicate] at hle
  have htampon : TAMPON = 1600 := rfl
  omega

end Envoi

end BouchaudOS.Reseau
