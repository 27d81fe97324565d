import BouchaudOS.Natif.Possession

/-!
# What a wait set answers

`WaitSet::poll` collects the watches that carry a signal, in insertion order, and compares
their number with the capacity right after each push. `waitset_wait` refuses a capacity of 0.
`waitset_poll` accepts it, the comparison then never succeeds, and every ready watch is
written to a buffer that has room for none.
-/

namespace BouchaudOS.Natif

open Bytes List Option Noyau

/-- The loop of `WaitSet::poll`; `ready` is what it has collected. -/
def pollDepuis (signals : ℕ → UInt32) (cap : ℕ) (ready : List (ℕ × UInt32)) : List (ℕ × ℕ) → List (ℕ × UInt32)
  | [] => ready
  | (key, o) :: watches =>
    if signals o ≠ 0 then
      let ready := ready ++ [(key, signals o)]
      if ready.length = cap then ready else pollDepuis signals cap ready watches
    else pollDepuis signals cap ready watches

def poll (signals : ℕ → UInt32) (cap : ℕ) (watches : List (ℕ × ℕ)) : List (ℕ × UInt32) :=
  pollDepuis signals cap [] watches

/-- The watches that carry a signal, in insertion order. -/
def prets (signals : ℕ → UInt32) (watches : List (ℕ × ℕ)) : List (ℕ × UInt32) :=
  (watches.map fun w => (w.1, signals w.2)).filter fun e => e.2 ≠ 0

/-- `WaitEvent::bytes_le`. -/
def evenementLe (e : ℕ × UInt32) : List UInt8 := leBytes 8 e.1 ++ leBytes 4 e.2.toNat ++ leBytes 4 0

def waitsetWrite (u : Usercopy) (instant out : ℕ) (ready : List (ℕ × UInt32)) : Except Error ℕ := do
  let bytes := ready.flatMap evenementLe
  u.write instant out bytes
  return bytes.length / 16

/-- What `waitset_poll` asks of the capacity. -/
def capPoll (cap : ℕ) : Except Error Unit := if 4096 < cap then .error .tooLarge else .ok ()

/-- What `waitset_wait` asks of the capacity. -/
def capWait (cap : ℕ) : Except Error Unit :=
  if cap = 0 then .error .invalidArgument else if 4096 < cap then .error .tooLarge else .ok ()

/-- What a turn of `waitset_wait` sees. -/
structure TourVeille where
  watches : List (ℕ × ℕ)
  signals : ℕ → UInt32
  now : ℕ
  /-- After the sleep: a POSIX signal is due, or the thread is a zombie. -/
  interrompu : Bool

/-- The loop of `waitset_wait`, as long as the turns last. -/
def attendVeille (u : Usercopy) (out cap timeout deadline : ℕ) : List TourVeille → Option (Except Error ℕ)
  | [] => none
  | t :: tours =>
    let ready := poll t.signals cap t.watches
    if ready ≠ [] then some (waitsetWrite u 1 out ready)
    else if timeout = 0 then some (.ok 0)
    else if deadline ≤ t.now then some (.error .timedOut)
    else if t.interrompu then some (.ok 0)
    else attendVeille u out cap timeout deadline tours

namespace Noyau

variable (n : Noyau) (pid : ℕ) (u : Usercopy) (args : Args)

/-- `WAITSET_POLL`. -/
def waitsetPoll (signals : ℕ → UInt32) : Except Error ℕ := do
  capPoll (args 2)
  let entry ← n.sys.lookupKind pid (.fromRaw (args 0)) .read .waitSet
  waitsetWrite u 0 (args 1) (poll signals (args 2) (n.watches entry.object))

/-- `WAITSET_WAIT`, begun at `debut`. -/
def waitsetWait (debut : ℕ) (tours : List TourVeille) : Except Error (Option (Except Error ℕ)) := do
  capWait (args 2)
  u.validateWrite 0 (args 1) (args 2 * 16)
  let _ ← n.sys.lookupKind pid (.fromRaw (args 0)) .read .waitSet
  return attendVeille u (args 1) (args 2) (args 3) (min (debut + args 3) (2 ^ 64 - 1)) tours

end Noyau

variable {signals : ℕ → UInt32} {cap : ℕ} {ready : List (ℕ × UInt32)}

theorem prets_cons (w : ℕ × ℕ) (watches : List (ℕ × ℕ)) : prets signals (w :: watches) =
    if signals w.2 ≠ 0 then (w.1, signals w.2) :: prets signals watches else prets signals watches := by
  simp only [prets, map_cons, filter_cons, decide_eq_true_eq]

/-- Below the capacity the loop goes on up to it. -/
theorem pollDepuis_of_lt (h : ready.length < cap) (watches : List (ℕ × ℕ)) :
    pollDepuis signals cap ready watches = (ready ++ prets signals watches).take cap := by
  induction watches generalizing ready with
  | nil => simp [pollDepuis, prets, take_of_length_le h.le]
  | cons w watches ih =>
    simp only [pollDepuis, prets_cons, length_append, length_singleton]
    split_ifs with hs hcap
    · rw [append_cons ready _ (prets signals watches)]
      exact (take_left' (by simpa using hcap)).symm
    · rw [append_cons ready _ (prets signals watches)]
      apply ih
      simp only [length_append, length_singleton]
      omega
    · exact ih h

/-- At the capacity or above it the loop never stops early. -/
theorem pollDepuis_of_le (h : cap ≤ ready.length) (watches : List (ℕ × ℕ)) :
    pollDepuis signals cap ready watches = ready ++ prets signals watches := by
  induction watches generalizing ready with
  | nil => simp [pollDepuis, prets]
  | cons w watches ih =>
    simp only [pollDepuis, prets_cons, length_append, length_singleton]
    split_ifs with hs hcap
    · omega
    · rw [append_cons ready _ (prets signals watches)]
      apply ih
      simp only [length_append, length_singleton]
      omega
    · exact ih h

theorem length_flatMap_evenementLe (l : List (ℕ × UInt32)) : (l.flatMap evenementLe).length = l.length * 16 := by
  simp [length_flatMap, evenementLe]

variable (signals cap) in
/-- A poll answers the first ready watches up to the capacity, unless the capacity is 0
and some watch is ready. -/
theorem poll_respecte_capacite (watches : List (ℕ × ℕ)) (h : capPoll cap = .ok () ∨ capWait cap = .ok ()) :
    (poll signals cap watches = (prets signals watches).take (min cap (prets signals watches).length) ∧
      ((poll signals cap watches).flatMap evenementLe).length ≤ cap * 16) ↔
    (cap = 0 → prets signals watches = []) := by
  rw [length_flatMap_evenementLe, ← take_eq_take_min, poll]
  rcases Nat.eq_zero_or_pos cap with rfl | hpos
  · rw [pollDepuis_of_le (Nat.zero_le _)]
    simp
  · have hp := @pollDepuis_of_lt signals cap [] hpos watches
    rw [nil_append] at hp
    rw [hp]
    have hlen := length_take_le cap (prets signals watches)
    exact iff_of_true ⟨rfl, Nat.mul_le_mul_right 16 hlen⟩ fun h0 => absurd h0 hpos.ne'

/-- Two ready watches and room for one. -/
theorem poll_respecte_capacite_un : capPoll 1 = .ok () ∧ poll (fun _ => 1) 1 [(7, 0), (8, 1)] = [(7, 1)] :=
  ⟨rfl, ((poll_respecte_capacite (fun _ => 1) 1 [(7, 0), (8, 1)] (.inl rfl)).mpr nofun).1⟩

theorem waitsetWrite_borne {u : Usercopy} {out k : ℕ} {watches : List (ℕ × ℕ)} (hcap : 0 < cap)
    (h : waitsetWrite u 1 out (poll signals cap watches) = .ok k) : k ≤ cap := by
  obtain ⟨_, -, h⟩ := ok_of_bind h
  have hk := Except.ok.inj h
  rw [length_flatMap_evenementLe, poll, pollDepuis_of_lt hcap, nil_append, length_take] at hk
  omega

theorem attendVeille_borne {u : Usercopy} {out timeout deadline k : ℕ} {tours : List TourVeille} (hcap : 0 < cap)
    (h : attendVeille u out cap timeout deadline tours = some (.ok k)) : k ≤ cap := by
  induction tours with
  | nil => cases h
  | cons t tours ih =>
    simp only [attendVeille] at h
    split_ifs at h
    · exact waitsetWrite_borne hcap (some.inj h)
    · cases h
      exact Nat.zero_le _
    · cases h
    · cases h
      exact Nat.zero_le _
    · exact ih h

/-- A `waitset_wait` that returns has written at most as many events as there is room for. -/
theorem Noyau.waitsetWait_borne {n : Noyau} {pid debut k : ℕ} {u : Usercopy} {args : Args} {tours : List TourVeille}
    (h : n.waitsetWait pid u args debut tours = .ok (some (.ok k))) : k ≤ args 2 := by
  obtain ⟨_, hcap, h⟩ := ok_of_bind h
  obtain ⟨_, -, h⟩ := ok_of_bind h
  obtain ⟨_, -, h⟩ := ok_of_bind h
  have hpos : 0 < args 2 := by
    by_contra h0
    simp [capWait, Nat.eq_zero_of_not_pos h0] at hcap
  exact attendVeille_borne hpos (Except.ok.inj h)

/-- Process 1 has a wait set, handle 1, that watches an event, handle 2, under the key 7. -/
def veilleSimple : Noyau :=
  .joue [.appel (.waitsetCreate 1), .appel (.eventCreate 1), .waitsetAdd 1 (poignee 1) (poignee 2) 7]

theorem waitsetWait_borne_simple : veilleSimple.waitsetWait 1 (nomme 0) ![poignee 1, 0x1000, 4, 0, 0, 0] 0
      [⟨veilleSimple.watches 0, fun _ => 1, 0, false⟩] = .ok (some (.ok 1)) ∧ 1 ≤ 4 := by
  have h : veilleSimple.waitsetWait 1 (nomme 0) ![poignee 1, 0x1000, 4, 0, 0, 0] 0
      [⟨veilleSimple.watches 0, fun _ => 1, 0, false⟩] = .ok (some (.ok 1)) := rfl
  exact ⟨h, waitsetWait_borne h⟩

/-- `waitset_poll` with a capacity of 0 writes the event of a ready watch and returns 1. -/
theorem poll_sans_place : capPoll 0 = .ok () ∧ poll (fun _ => 1) 0 (veilleSimple.watches 0) = [(7, 1)] ∧
    (veilleSimple.waitsetPoll 1 (nomme 0) ![poignee 1, 0x1000, 0, 0, 0, 0] fun _ => 1).toOption = some 1 := by
  decide

end BouchaudOS.Natif
