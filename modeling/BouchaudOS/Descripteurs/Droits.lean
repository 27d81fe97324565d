import BouchaudOS.Descripteurs.Canal
import BouchaudOS.Foundations.Runs

/-!
# Descriptors that travel with bytes

`sendmsg` on one end of a socket pair and `recvmsg` on the other, one after the other. Bytes
and descriptors wait in two queues: a `recvmsg` takes the bytes that fit its buffer, but
every descriptor in flight, those of later messages included.

The sends and the receptions that succeeded are recorded; no call reads the records.
-/

namespace BouchaudOS.Descripteurs

open List

variable {δ : Type*}

/-- A `sendmsg`: the bytes that were queued, where they begin in the stream, how many bytes
waited before them, and how many receptions there had been. -/
structure Envoi (δ : Type*) where
  avant : ℕ
  debut : ℕ
  attente : ℕ
  octets : List UInt8
  droits : List δ
  deriving DecidableEq

/-- A `recvmsg`: the length of its buffer, the bytes it returned, where they begin in the
stream, and the descriptors it delivered. -/
structure Reception (δ : Type*) where
  len : ℕ
  debut : ℕ
  octets : List UInt8
  droits : List δ
  deriving DecidableEq

/-- The reception returns the first byte of what was sent. -/
def Reception.Contient (r : Reception δ) (e : Envoi δ) : Prop :=
  r.debut ≤ e.debut ∧ e.debut < r.debut + r.octets.length

structure Paire (δ : Type*) where
  canal : Canal δ
  envois : List (Envoi δ)
  receptions : List (Reception δ)

inductive Message (δ : Type*)
  | sendmsg (payload : List UInt8) (droits : List δ)
  | recvmsg (len capacite : ℕ)

namespace Paire

def neuf (δ : Type*) : Paire δ := ⟨.neuf, [], []⟩

variable (s : Paire δ)

def envoyes : List UInt8 := s.envois.flatMap Envoi.octets

def rendus : List UInt8 := s.receptions.flatMap Reception.octets

def sysSendmsg (payload : List UInt8) (droits : List δ) : Paire δ :=
  if payload = [] then s
  else
    match s.canal.envoie payload droits with
    | (.place (n + 1), c) => { s with
        canal := c
        envois := s.envois ++ [⟨s.receptions.length, s.envoyes.length,
          s.canal.octets.buffer.length, payload.take (n + 1), droits⟩] }
    | _ => s

def sysRecvmsg (len capacite : ℕ) : Paire δ :=
  if len = 0 then s
  else
    match s.canal.recoit len capacite with
    | none => s
    | some (octets, droits, c) => { s with
        canal := c
        receptions := s.receptions ++ [⟨len, s.rendus.length, octets, droits⟩] }

def execute : Message δ → Option (Paire δ)
  | .sendmsg payload droits => some (s.sysSendmsg payload droits)
  | .recvmsg len capacite => some (s.sysRecvmsg len capacite)

/-- The control buffer can hold every descriptor in flight. -/
def Suffit : Message δ → Prop
  | .sendmsg _ _ => True
  | .recvmsg _ capacite => s.canal.descripteurs.length ≤ capacite

/-- The descriptors sent after `k` receptions and before the next one. -/
def droitsAvant (k : ℕ) : List δ :=
  (s.envois.filter fun e => e.avant = k).flatMap Envoi.droits

/-- Bytes come out in the order they were sent; each reception delivers the descriptors sent
since the one before it; and it returns the first byte of their payload exactly when fewer
bytes waited before it than fit its buffer. -/
structure Livre (s : Paire δ) : Prop where
  octets : s.rendus ++ s.canal.octets.buffer = s.envoyes
  droits : ∀ k r, s.receptions[k]? = some r → r.droits = s.droitsAvant k
  enVol : s.canal.descripteurs = s.droitsAvant s.receptions.length
  premier : ∀ e ∈ s.envois, ∀ r, s.receptions[e.avant]? = some r → (r.Contient e ↔ e.attente < r.len)

/-- What a run keeps, with the messages that wait. -/
structure Tenu (s : Paire δ) : Prop extends s.Livre where
  avant : ∀ e ∈ s.envois, e.avant ≤ s.receptions.length
  attend : ∀ e ∈ s.envois, e.avant = s.receptions.length →
    e.debut = s.rendus.length + e.attente ∧ e.attente < s.canal.octets.buffer.length

variable {s : Paire δ}

theorem tenu_neuf : (neuf δ).Tenu where
  octets := rfl
  droits := nofun
  enVol := rfl
  premier := nofun
  avant := nofun
  attend := nofun

theorem Tenu.envoi (h : s.Tenu) {c : Canal δ} {octets : List UInt8} {droits : List δ}
    (hoctets : octets ≠ []) (hbuffer : c.octets.buffer = s.canal.octets.buffer ++ octets)
    (hdroits : c.descripteurs = s.canal.descripteurs ++ droits) :
    Tenu { s with
      canal := c
      envois := s.envois ++ [⟨s.receptions.length, s.envoyes.length,
        s.canal.octets.buffer.length, octets, droits⟩] } := by
  have hlt := length_pos_iff.mpr hoctets
  refine ⟨⟨?_, fun k r hr => ?_, ?_, fun e he r hr => ?_⟩, fun e he => ?_, fun e he ha => ?_⟩
  · have hordre := congrArg (· ++ octets) h.octets
    simpa [rendus, envoyes, hbuffer] using hordre
  · -- the new message is after this reception
    have hk := (List.getElem?_eq_some_iff.mp hr).1
    rw [h.droits k r hr]
    simp [droitsAvant, filter_append, Nat.ne_of_gt hk]
  · simp [droitsAvant, filter_append, hdroits, h.enVol]
  · rcases mem_append.mp he with he | he
    · exact h.premier e he r hr
    · obtain rfl := mem_singleton.mp he
      simp at hr
  · rcases mem_append.mp he with he | he
    · exact h.avant e he
    · obtain rfl := mem_singleton.mp he
      exact le_rfl
  · rw [show Paire.canal { s with canal := c, envois := _ } = c from rfl, hbuffer, length_append]
    rcases mem_append.mp he with he | he
    · obtain ⟨hdebut, hattente⟩ := h.attend e he ha
      exact ⟨hdebut, by omega⟩
    · obtain rfl := mem_singleton.mp he
      refine ⟨?_, by dsimp only; omega⟩
      rw [← h.octets, length_append]
      rfl

theorem Tenu.reception (h : s.Tenu) {c : Canal δ} {len : ℕ} {droits : List δ}
    (hbuffer : c.octets.buffer = s.canal.octets.buffer.drop len)
    (hdroits : droits = s.canal.descripteurs) (hc : c.descripteurs = []) :
    Tenu { s with
      canal := c
      receptions := s.receptions ++ [⟨len, s.rendus.length, s.canal.octets.buffer.take len, droits⟩] } := by
  refine ⟨⟨?_, fun k r hr => ?_, ?_, fun e he r hr => ?_⟩, fun e he => ?_, fun e he ha => ?_⟩
  · simpa [rendus, envoyes, hbuffer] using h.octets
  · rw [getElem?_append] at hr
    split_ifs at hr with hk
    · exact h.droits k r hr
    · rw [getElem?_singleton] at hr
      split_ifs at hr with hk'
      cases hr
      obtain rfl : k = s.receptions.length := by omega
      exact hdroits.trans h.enVol
  · -- every message so far is before the next reception
    have hvide : s.envois.filter (fun e => e.avant = s.receptions.length + 1) = [] := by
      rw [filter_eq_nil_iff]
      intro e he
      have := h.avant e he
      simp
      omega
    simp [droitsAvant, hc, hvide]
  · rw [getElem?_append] at hr
    split_ifs at hr with hk
    · exact h.premier e he r hr
    · rw [getElem?_singleton] at hr
      split_ifs at hr with hk'
      cases hr
      have ha : e.avant = s.receptions.length := by omega
      obtain ⟨hdebut, hattente⟩ := h.attend e he ha
      simp only [Reception.Contient, length_take]
      omega
  · have := h.avant e he
    simp
    omega
  · have := h.avant e he
    simp at ha
    omega

theorem Tenu.sysSendmsg (h : s.Tenu) (payload : List UInt8) (droits : List δ) :
    (s.sysSendmsg payload droits).Tenu := by
  unfold Paire.sysSendmsg
  split
  · exact h
  rename_i hpayload
  split
  · rename_i n c hc
    obtain ⟨-, -, -, hbuffer, hdroits⟩ := Canal.envoie_place (congrArg Prod.fst hc)
    rw [hc] at hbuffer hdroits
    refine h.envoi ?_ hbuffer hdroits
    simpa [take_eq_nil_iff] using hpayload
  · exact h

theorem Tenu.sysRecvmsg (h : s.Tenu) {len capacite : ℕ}
    (hcapacite : s.canal.descripteurs.length ≤ capacite) : (s.sysRecvmsg len capacite).Tenu := by
  unfold Paire.sysRecvmsg
  split
  · exact h
  rcases s.canal.recoit_cases len capacite with ⟨hc, -⟩ | ⟨c, hc, hbuffer, hdroits⟩
  · rw [hc]
    exact h
  · rw [hc]
    refine h.reception hbuffer (take_of_length_le hcapacite) ?_
    rw [hdroits, drop_eq_nil_of_le hcapacite]

/-- Every descriptor that is sent is delivered once, by the next reception, if control buffers
can hold what is in flight. That reception returns the first byte of the payload exactly when
fewer bytes waited before it than fit the buffer of `recvmsg`. -/
theorem droits_livres_une_fois {es : List (Message δ)}
    (hS : ∀ t e, Runs.Taken execute (neuf δ) es t e → t.Suffit e) {t : Paire δ}
    (ht : Runs.Moment execute (neuf δ) es t) : t.Livre := by
  have htenu : t.Tenu := by
    refine Runs.forall_moment_of_taken tenu_neuf ?_ hS ht
    intro s e s' h hs hexec
    cases e with
    | sendmsg payload droits =>
      cases hexec
      exact h.sysSendmsg payload droits
    | recvmsg len capacite =>
      cases hexec
      exact h.sysRecvmsg hs
  exact htenu.toLivre

/-- A message with a descriptor behind one without, and a reception of one byte. -/
def deuxMessages : List (Message ℕ) := [.sendmsg [1] [], .sendmsg [2] [9], .recvmsg 1 1]

theorem droits_livres_une_fois_deuxMessages :
    ∃ t, Runs.run execute (neuf ℕ) deuxMessages = some t ∧ t.Livre := by
  have hS : ∀ t e, Runs.Taken execute (neuf ℕ) deuxMessages t e → t.Suffit e := by
    refine Runs.forall_taken_cons trivial rfl ?_
    refine Runs.forall_taken_cons trivial rfl ?_
    refine Runs.forall_taken_cons (Nat.le_refl 1) rfl ?_
    exact fun t e h => absurd h Runs.not_taken_nil
  obtain ⟨t, ht⟩ := Option.isSome_iff_exists.mp
    (by decide : (Runs.run execute (neuf ℕ) deuxMessages).isSome = true)
  exact ⟨t, ht, droits_livres_une_fois hS (.of_run ht)⟩

/-- The descriptor of the second message comes with the byte of the first. -/
theorem droit_livre_avant_ses_octets :
    (Runs.run execute (neuf ℕ) deuxMessages).map (fun t => (t.envois.map fun e =>
        (e.debut, e.octets, e.droits), t.receptions)) =
      some ([(0, [1], []), (1, [2], [9])], [⟨1, 0, [1], [9]⟩]) := by
  decide

end Paire

end BouchaudOS.Descripteurs
