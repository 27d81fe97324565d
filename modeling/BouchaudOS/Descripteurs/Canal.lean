import BouchaudOS.Descripteurs.Table

/-!
# Pipes and socket pairs

`PipeState`, `OctetsCanal` and `Canal` of `src/kernel/object/fd.rs`: a bounded buffer, the
counts of the descriptors that read and write it, and for a direction of a socket pair the
descriptors in flight. Each function here is one section under the lock of the object:
those of `read` and `write` in `src/compat/linux/file.rs`, and those of `sendmsg` and
`recvmsg` in `src/compat/linux/net.rs`.
-/

namespace BouchaudOS.Descripteurs

def capaciteCanal : ℕ := 64 * 1024

def pipeBuf : ℕ := 4096

/-- All or nothing up to `pipeBuf` bytes; beyond it, what fits. -/
def octetsAdmis (place longueur : ℕ) : ℕ :=
  if longueur ≤ pipeBuf then if longueur ≤ place then longueur else 0 else min place longueur

/-- What an object answers to bytes that are proposed to it. -/
inductive Capacite
  | place (n : ℕ)
  | rompu
  deriving DecidableEq

structure PipeState where
  buffer : List UInt8
  readers : ℕ
  writers : ℕ
  deriving DecidableEq

namespace PipeState

def new : PipeState := ⟨[], 1, 1⟩

variable (p : PipeState)

def place : ℕ := capaciteCanal - p.buffer.length

/-- The section of `write`. -/
def propose (data : List UInt8) : Capacite × PipeState :=
  if p.readers = 0 then (.rompu, p)
  else
    let n := octetsAdmis p.place data.length
    (.place n, { p with buffer := p.buffer ++ data.take n })

/-- The last section of `read`. -/
def draine (count : ℕ) : List UInt8 × PipeState :=
  (p.buffer.take count, { p with buffer := p.buffer.drop count })

end PipeState

/-- Bytes in transit, and whether their last writer has closed. -/
structure OctetsCanal where
  buffer : List UInt8
  eof : Bool
  deriving DecidableEq

def OctetsCanal.isEmpty (o : OctetsCanal) : Bool := o.buffer.isEmpty && !o.eof

/-- One direction of a socket pair. -/
structure Canal (δ : Type*) where
  octets : OctetsCanal
  descripteurs : List δ
  lecteurs : ℕ
  ecrivains : ℕ
  deriving DecidableEq

namespace Canal

variable {δ : Type*}

def neuf : Canal δ := ⟨⟨[], false⟩, [], 1, 1⟩

variable (c : Canal δ)

def place : ℕ := capaciteCanal - c.octets.buffer.length

/-- The section of `write`. -/
def propose (data : List UInt8) : Capacite × Canal δ :=
  if c.lecteurs = 0 then (.rompu, c)
  else
    let n := octetsAdmis c.place data.length
    (.place n, { c with octets.buffer := c.octets.buffer ++ data.take n })

/-- The section of `sendmsg`: what fits of the payload, without the rule of `octetsAdmis`,
and the descriptors. Without room, nothing is done. -/
def envoie (payload : List UInt8) (droits : List δ) : Capacite × Canal δ :=
  if c.lecteurs = 0 then (.rompu, c)
  else if c.place = 0 then (.place 0, c)
  else
    let ecrits := min c.place payload.length
    (.place ecrits, { c with
      octets.buffer := c.octets.buffer ++ payload.take ecrits
      descripteurs := c.descripteurs ++ droits })

/-- The section of `read`, if it does not wait. -/
def draine (count : ℕ) : Option (List UInt8 × Canal δ) :=
  if c.octets.isEmpty then none
  else some (c.octets.buffer.take count, { c with octets.buffer := c.octets.buffer.drop count })

/-- The section of `recvmsg`, if it does not wait: bytes, and as many descriptors as the
control buffer can hold. -/
def recoit (len capacite : ℕ) : Option (List UInt8 × List δ × Canal δ) :=
  if c.octets.isEmpty then none
  else some (c.octets.buffer.take len, c.descripteurs.take capacite, { c with
    octets.buffer := c.octets.buffer.drop len
    descripteurs := c.descripteurs.drop capacite })

end Canal

theorem octetsAdmis_le (place longueur : ℕ) : octetsAdmis place longueur ≤ place := by
  unfold octetsAdmis
  split_ifs <;> omega

theorem octetsAdmis_eq_of_pos {place longueur : ℕ} (hl : longueur ≤ pipeBuf)
    (hn : octetsAdmis place longueur ≠ 0) : octetsAdmis place longueur = longueur := by
  unfold octetsAdmis at hn ⊢
  split_ifs at hn ⊢ with h
  · rfl
  · exact absurd rfl hn

theorem PipeState.propose_place {p : PipeState} {data : List UInt8} {n : ℕ}
    (h : (p.propose data).1 = .place n) : n = octetsAdmis p.place data.length ∧
      (p.propose data).2.buffer = p.buffer ++ data.take n := by
  unfold propose at h ⊢
  split at h
  · cases h
  · rename_i hreaders
    obtain rfl := Capacite.place.inj h
    rw [if_neg hreaders]
    exact ⟨rfl, rfl⟩

variable {δ : Type*}

theorem Canal.propose_place {c : Canal δ} {data : List UInt8} {n : ℕ}
    (h : (c.propose data).1 = .place n) : n = octetsAdmis c.place data.length ∧
      (c.propose data).2.octets.buffer = c.octets.buffer ++ data.take n := by
  unfold propose at h ⊢
  split at h
  · cases h
  · rename_i hlecteurs
    obtain rfl := Capacite.place.inj h
    rw [if_neg hlecteurs]
    exact ⟨rfl, rfl⟩

theorem Canal.envoie_place {c : Canal δ} {payload : List UInt8} {droits : List δ}
    {n : ℕ} (h : (c.envoie payload droits).1 = .place (n + 1)) :
    c.lecteurs ≠ 0 ∧ c.place ≠ 0 ∧ n + 1 = min c.place payload.length ∧
      (c.envoie payload droits).2.octets.buffer = c.octets.buffer ++ payload.take (n + 1) ∧
      (c.envoie payload droits).2.descripteurs = c.descripteurs ++ droits := by
  unfold envoie at h ⊢
  split at h
  · cases h
  rename_i hlecteurs
  split at h
  · cases h
  · rename_i hplace
    have hn := Capacite.place.inj h
    rw [if_neg hlecteurs, if_neg hplace, ← hn]
    exact ⟨hlecteurs, hplace, rfl, rfl, rfl⟩

theorem OctetsCanal.buffer_of_isEmpty {o : OctetsCanal} (h : o.isEmpty = true) :
    o.buffer = [] ∧ o.eof = false := by
  simpa [isEmpty] using h

theorem Canal.draine_cases (c : Canal δ) (count : ℕ) :
    c.draine count = none ∧ c.octets.buffer = [] ∨
      ∃ c', c.draine count = some (c.octets.buffer.take count, c') ∧
        c'.octets.buffer = c.octets.buffer.drop count := by
  unfold draine
  split
  · rename_i h
    exact .inl ⟨rfl, (OctetsCanal.buffer_of_isEmpty h).1⟩
  · exact .inr ⟨_, rfl, rfl⟩

theorem Canal.recoit_cases (c : Canal δ) (len capacite : ℕ) :
    c.recoit len capacite = none ∧ c.octets.buffer = [] ∨
      ∃ c', c.recoit len capacite =
          some (c.octets.buffer.take len, c.descripteurs.take capacite, c') ∧
        c'.octets.buffer = c.octets.buffer.drop len ∧
        c'.descripteurs = c.descripteurs.drop capacite := by
  unfold recoit
  split
  · rename_i h
    exact .inl ⟨rfl, (OctetsCanal.buffer_of_isEmpty h).1⟩
  · exact .inr ⟨_, rfl, rfl, rfl⟩

end BouchaudOS.Descripteurs
