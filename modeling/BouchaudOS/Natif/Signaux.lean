import BouchaudOS.Foundations.Runs
import BouchaudOS.Natif.Appels

/-!
# The signals of native objects

What `signals()` answers for a channel end, an event and a process, and the operations that
change it. Every operation that raises a signal should publish on `activite` after the
change, which wakes the threads of `waitset_wait`. `recv` does not, although it may make
its peer writable again.
-/

namespace BouchaudOS.Natif

open Function

inductive Signal
  | readable | writable | signaled | peerClosed | terminated
  deriving DecidableEq

namespace ChannelInner

/-- The queue that `side` receives from takes no further message. -/
def plein (c : ChannelInner) (side : Bool) : Bool :=
  maxQueuedMessages ≤ (c.queues side).length ∨ maxQueuedBytes ≤ c.queuedBytes side

def signals (c : ChannelInner) (side : Bool) : Signal → Bool
  | .readable => c.queues side ≠ []
  | .writable => !c.closed (!side) && !c.plein !side
  | .peerClosed => c.closed !side
  | _ => false

def drop (c : ChannelInner) (side : Bool) : ChannelInner := { c with closed := update c.closed side true }

end ChannelInner

/-- An object that a wait set may watch. -/
inductive Surveille
  | channel (c : ℕ) (side : Bool)
  | event (e : ℕ)
  | process (p : ℕ)

/-- The native objects, the generation of `ACTIVITE` and the publications that are still to
come from operations that have made their change. -/
structure Objets where
  canaux : ℕ → ChannelInner := fun _ => .new
  evenements : ℕ → Bool := fun _ => false
  /-- The watched processes: the pid and whether it has terminated. -/
  processus : List (ℕ × Bool) := []
  generation : ℕ := 1
  dues : ℕ := 0

/-- What a poll reads; an end that was dropped is no object any more. -/
def Objets.signals (s : Objets) : Surveille → Signal → Bool
  | .channel c side, b => !(s.canaux c).closed side && (s.canaux c).signals side b
  | .event e, b => b = .signaled && s.evenements e
  | .process p, b => b = .terminated && s.processus[p]?.any (·.2)

inductive Acte
  | send (c : ℕ) (side : Bool) (m : Message)
  | recv (c : ℕ) (side : Bool)
  | requeueFront (c : ℕ) (side : Bool) (m : Message)
  | drop (c : ℕ) (side : Bool)
  | signal (e : ℕ)
  | reset (e : ℕ)
  | noteExit (pid : ℕ)

/-- What an operation changes, and whether it then calls `publie`. -/
def Acte.opere (s : Objets) : Acte → Objets × Bool
  | send c side m =>
    match (s.canaux c).send side m with
    | .ok (_, k) => ({ s with canaux := update s.canaux c k }, true)
    | .error _ => (s, false)
  | recv c side =>
    match (s.canaux c).recv side with
    | .ok (_, k) => ({ s with canaux := update s.canaux c k }, false)
    | .error _ => (s, false)
  | requeueFront c side m => ({ s with canaux := update s.canaux c ((s.canaux c).requeueFront side m) }, true)
  | drop c side => ({ s with canaux := update s.canaux c ((s.canaux c).drop side) }, true)
  | signal e => ({ s with evenements := update s.evenements e true }, true)
  | reset e => ({ s with evenements := update s.evenements e false }, false)
  | noteExit pid =>
    ({ s with processus := s.processus.map fun p => (p.1, p.2 || p.1 = pid) }, s.processus.any (·.1 = pid))

/-- Some object gains a signal. -/
def Acte.Monte (op : Acte) (s : Objets) : Prop :=
  ∃ o b, s.signals o b = false ∧ (op.opere s).1.signals o b = true

/-- The operation does not take a message out of a full queue that then has room, between
two ends that are still open. -/
def Acte.Sobre (s : Objets) : Acte → Prop
  | recv c side => ∀ m k, (s.canaux c).recv side = .ok (m, k) →
      (s.canaux c).plein side → k.plein side ∨ ∃ x, (s.canaux c).closed x
  | _ => True

/-- A step of the system: the change of an operation, or a publication that is due. -/
def etape (s : Objets) : Option Acte → Option Objets
  | some op => some { (op.opere s).1 with dues := s.dues + (op.opere s).2.toNat }
  | none => if s.dues = 0 then none else some { s with dues := s.dues - 1, generation := s.generation + 1 }

variable {s s' : Objets} {op : Acte}

variable {c : ℕ} {k : ChannelInner}

theorem monte_canal_iff :
    (∃ o b, s.signals o b = false ∧ ({ s with canaux := update s.canaux c k } : Objets).signals o b = true) ↔
      ∃ x b, (!(s.canaux c).closed x && (s.canaux c).signals x b) = false ∧
        (!k.closed x && k.signals x b) = true := by
  constructor
  · rintro ⟨o, b, h0, h1⟩
    obtain ⟨c', x⟩ | e | p := o
    · by_cases hc : c' = c
      · subst hc
        exact ⟨x, b, h0, by simpa [Objets.signals] using h1⟩
      · simp_all [Objets.signals]
    · simp_all [Objets.signals]
    · simp_all [Objets.signals]
  · rintro ⟨x, b, h0, h1⟩
    exact ⟨.channel c x, b, h0, by simpa [Objets.signals] using h1⟩

/-- A `recv` can only make its peer writable. -/
theorem monte_recv_iff {side : Bool} {m : Message} (h : (s.canaux c).recv side = .ok (m, k)) :
    (Acte.recv c side).Monte s ↔
      (s.canaux c).plein side ∧ ¬ k.plein side ∧ ∀ x, (s.canaux c).closed x = false := by
  simp only [Acte.Monte, Acte.opere, h]
  refine monte_canal_iff.trans ?_
  unfold ChannelInner.recv at h
  split at h
  · rename_i reste hq
    cases h
    constructor
    · rintro ⟨x, b, h0, h1⟩
      cases side <;> cases x <;> cases b <;>
        simp [ChannelInner.signals, ChannelInner.plein, hq] at h0 h1 ⊢ <;> grind
    · rintro ⟨hp, hk, hc⟩
      exact ⟨!side, .writable, by simp [ChannelInner.signals, hp], by simpa [ChannelInner.signals, hc] using hk⟩
  · split at h <;> cases h

/-- Whatever rises is published, except by a `recv` that gives room to its peer. -/
theorem monte_publie_iff (s : Objets) (op : Acte) : (op.Monte s → (op.opere s).2 = true) ↔ op.Sobre s := by
  cases op with
  | send c side m =>
    refine iff_of_true ?_ trivial
    cases h : (s.canaux c).send side m <;> simp [Acte.Monte, Acte.opere, h]
  | recv c side =>
    cases h : (s.canaux c).recv side with
    | error e => simp [Acte.Monte, Acte.opere, Acte.Sobre, h]
    | ok r =>
      rw [monte_recv_iff h]
      grind [Acte.opere, Acte.Sobre]
  | requeueFront | drop | signal => exact iff_of_true (fun _ => rfl) trivial
  | reset e =>
    refine iff_of_true ?_ trivial
    rintro ⟨o, b, h0, h1⟩
    cases o <;> simp_all [Objets.signals, Acte.opere, update_apply]
  | noteExit pid =>
    refine iff_of_true ?_ trivial
    rintro ⟨o, b, h0, h1⟩
    obtain _ | _ | p := o
    · simp_all [Objets.signals, Acte.opere]
    · simp_all [Objets.signals, Acte.opere]
    · cases hp : s.processus[p]? with
      | none => simp_all [Objets.signals, Acte.opere]
      | some q =>
        simp [Objets.signals, Acte.opere, hp] at h0 h1 ⊢
        have hq := List.mem_of_getElem? hp
        grind

theorem opere_generation : (op.opere s).1.generation = s.generation := by
  cases op <;> grind [Acte.opere]

/-- Every rise is published, exactly when no `recv` gives room to its peer. In a run of such
operations an object that a poll found without signal after the ticket was taken has none,
or the ticket is out of date, or a publication is due. -/
theorem montees_publiees_iff (s : Objets) (op : Acte) : ((op.Monte s → (op.opere s).2 = true) ↔ op.Sobre s) ∧
    ∀ (t t' : Objets) (es es' : List (Option Acte)) (o : Surveille), Runs.run etape s es = some t →
      (∀ b, t.signals o b = false) → Runs.run etape t es' = some t' →
      (∀ u op, Runs.Taken etape t es' u (some op) → op.Sobre u) → t'.generation = s.generation →
        ∀ b, t'.signals o b = true → 0 < t'.dues := by
  refine ⟨monte_publie_iff s op, fun t t' es es' o hrun hpoll hrun' hsobre hgen => ?_⟩
  have hle : s.generation ≤ t.generation := by
    refine Runs.run_invariant (I := fun u => s.generation ≤ u.generation) ?_ le_rfl hrun
    rintro u (_ | op) u' hu hstep
    · grind [etape]
    · cases hstep
      exact hu.trans_eq opere_generation.symm
  refine (Runs.forall_moment_of_taken (C := fun u e => ∀ op, e = some op → op.Sobre u)
    (P := fun u => s.generation ≤ u.generation ∧
      (u.generation = s.generation → ∀ b, u.signals o b = true → 0 < u.dues))
    ⟨hle, fun _ b hb => by simp [hpoll b] at hb⟩ ?_
    (fun u e hu op he => hsobre u op (he ▸ hu)) (.of_run hrun')).2 hgen
  rintro u (_ | op) u' ⟨hu, hdue⟩ hop hstep
  · grind [etape]
  · cases hstep
    refine ⟨hu.trans_eq opere_generation.symm, fun hg b hb => ?_⟩
    cases hb₀ : u.signals o b with
    | true => exact Nat.add_pos_left (hdue (opere_generation.symm.trans hg) b hb₀) _
    | false => simp [(monte_publie_iff u op).mpr (hop op rfl) ⟨o, b, hb₀, hb⟩]

set_option maxRecDepth 20000 in
/-- A thread waits to write into a queue of 64 messages, and the `recv` that makes room does
not wake it. -/
theorem recv_sans_publication : ∃ s s',
    Runs.run etape {} (List.replicate 64 (some (.send 0 true ⟨[], []⟩)) ++ List.replicate 64 none) = some s ∧
    (∀ b, s.signals (.channel 0 true) b = false) ∧ etape s (some (.recv 0 false)) = some s' ∧
    s'.signals (.channel 0 true) .writable = true ∧ s'.generation = s.generation ∧ s'.dues = 0 := by
  refine ⟨_, _, rfl, ?_, rfl, rfl, rfl, rfl⟩
  intro b
  cases b <;> rfl

end BouchaudOS.Natif
