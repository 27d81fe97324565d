import BouchaudOS.Foundations.VolatileDisk

/-!
# Programs that talk to a block device

A program is a tree of device requests; each request continues with the
device's answer. A run is a sequence of steps of a program and a disk, so that
every intermediate disk (where power may be lost) is a state of the run. `wp`
is the weakest precondition of a program for an invariant that holds at every
point of the run, a set of blocks it may write, and a postcondition; its rules
are the ones the proofs about device code use.
-/
namespace BouchaudOS

/-- A tree of requests on blocks `β` addressed by `ι`. A read answers `none` and
a write or a flush answers `false` when the device reports a failure. -/
inductive Prog (ι β α : Type) : Type
  | pure (a : α)
  | read (as : List ι) (next : Option (List β) → Prog ι β α)
  | write (ws : List (ι × β)) (next : Bool → Prog ι β α)
  | flush (medium : ι → Bool) (next : Bool → Prog ι β α)

/-- How a device treats its cache: what a power loss leaves, whether requests
may fail, and what a failed write or flush leaves. Blocks with no pending write
are never touched. -/
structure Device (ι β : Type) [DecidableEq ι] where
  cut : Disk ι β → Disk ι β → Prop
  faulty : Prop
  fault : Disk ι β → Disk ι β → Prop
  cut_cache : ∀ {d d'}, cut d d' → d'.cache = []
  cut_settled : ∀ {d d'}, cut d d' → ∀ {a}, d.Settled a → d'.durable a = d.durable a
  fault_settled : ∀ {d d'}, fault d d' → ∀ {a}, d.Settled a → d'.Settled a ∧ d'.durable a = d.durable a

/-- A device that serves every request and never loses power. -/
def Device.reliable (ι β : Type) [DecidableEq ι] : Device ι β where
  cut _ _ := False
  faulty := False
  fault _ _ := False
  cut_cache h := h.elim
  cut_settled h := h.elim
  fault_settled h := h.elim

namespace Prog

variable {ι β α γ : Type}

protected def bind : Prog ι β α → (α → Prog ι β γ) → Prog ι β γ
  | .pure a, f => f a
  | .read as k, f => .read as fun r => (k r).bind f
  | .write ws k, f => .write ws fun r => (k r).bind f
  | .flush P k, f => .flush P fun r => (k r).bind f

instance : Monad (Prog ι β) where
  pure := .pure
  bind := .bind

/-- Read the blocks `as`. -/
def lit (as : List ι) : Prog ι β (Option (List β)) := .read as .pure

def litBloc (a : ι) : Prog ι β (Option β) := .read [a] fun r => .pure (r.bind List.head?)

def ecrit (ws : List (ι × β)) : Prog ι β Bool := .write ws .pure

/-- Ask a medium to make every earlier write to it durable. -/
def vidange (medium : ι → Bool) : Prog ι β Bool := .flush medium .pure

@[simp] theorem pure_eq (a : α) : (Pure.pure a : Prog ι β α) = .pure a := rfl

variable [DecidableEq ι]

/-- One request is served, or fails where the device may fail. -/
inductive Step (D : Device ι β) : Prog ι β α × Disk ι β → Prog ι β α × Disk ι β → Prop
  | read (as k d) : Step D (.read as k, d) (k (some (as.map d.read)), d)
  | readFails (as k d) : D.faulty → Step D (.read as k, d) (k none, d)
  | write (ws k d) : Step D (.write ws k, d) (k true, d.write ws)
  | writeFails (ws k d d') : D.faulty → D.fault (d.write ws) d' → Step D (.write ws k, d) (k false, d')
  | flush (P k d) : Step D (.flush P k, d) (k true, d.flush P)
  | flushFails (P k d d') : D.faulty → D.fault d d' → Step D (.flush P k, d) (k false, d')

def Run (D : Device ι β) : Prog ι β α × Disk ι β → Prog ι β α × Disk ι β → Prop :=
  Relation.ReflTransGen (Step D)

/-- The run on a device on which no request fails and no power is lost. -/
def exec : Prog ι β α → Disk ι β → α × Disk ι β
  | .pure a, d => (a, d)
  | .read as k, d => (k (some (as.map d.read))).exec d
  | .write ws k, d => (k true).exec (d.write ws)
  | .flush P k, d => (k true).exec (d.flush P)

theorem run_exec (D : Device ι β) (p : Prog ι β α) (d : Disk ι β) :
    Run D (p, d) (.pure (p.exec d).1, (p.exec d).2) := by
  induction p generalizing d with
  | pure a => exact .refl
  | read as k ih => exact .head (.read as k d) (ih _ d)
  | write ws k ih => exact .head (.write ws k d) (ih _ _)
  | flush P k ih => exact .head (.flush P k d) (ih _ _)

/-- The batches that run writes. -/
def batches : Prog ι β α → Disk ι β → List (List (ι × β))
  | .pure _, _ => []
  | .read as k, d => (k (some (as.map d.read))).batches d
  | .write ws k, d => ws :: (k true).batches (d.write ws)
  | .flush P k, d => (k true).batches (d.flush P)

/-- The blocks that run asks for, one list for each request. -/
def requests : Prog ι β α → Disk ι β → List (List ι)
  | .pure _, _ => []
  | .read as k, d => as :: (k (some (as.map d.read))).requests d
  | .write ws k, d => (k true).requests (d.write ws)
  | .flush P k, d => (k true).requests (d.flush P)

variable {p : Prog ι β α} {d d' : Disk ι β} {ws : List (ι × β)} {c c' : Prog ι β α × Disk ι β}
  {Q : α → Disk ι β → Prop}

theorem run_of_mem_batches (D : Device ι β) (h : ws ∈ p.batches d) : ∃ k d', Run D (p, d) (.write ws k, d') := by
  induction p generalizing d with
  | pure a => simp [batches] at h
  | read as k ih =>
    obtain ⟨k', d', hr⟩ := ih _ h
    exact ⟨k', d', .head (.read as k d) hr⟩
  | write ws' k ih =>
    rcases List.mem_cons.mp h with rfl | h
    · exact ⟨k, d, .refl⟩
    · obtain ⟨k', d', hr⟩ := ih _ h
      exact ⟨k', d', .head (.write ws' k d) hr⟩
  | flush P k ih =>
    obtain ⟨k', d', hr⟩ := ih _ h
    exact ⟨k', d', .head (.flush P k d) hr⟩

theorem exec_of_run {D : Device ι β} (hD : ¬D.faulty) (h : Run D c c') : c.1.exec c.2 = c'.1.exec c'.2 := by
  induction h with
  | refl => rfl
  | tail _ hs ih =>
    rw [ih]
    cases hs with
    | read as k d => rfl
    | readFails as k d hf => exact absurd hf hD
    | write ws k d => rfl
    | writeFails ws k d d' hf _ => exact absurd hf hD
    | flush P k d => rfl
    | flushFails P k d d' hf _ => exact absurd hf hD

theorem exec_bind (p : Prog ι β α) (f : α → Prog ι β γ) (d : Disk ι β) :
    (p >>= f).exec d = (f (p.exec d).1).exec (p.exec d).2 := by
  induction p generalizing d with
  | pure a => rfl
  | read as k ih => exact ih _ d
  | write ws k ih => exact ih _ _
  | flush P k ih => exact ih _ _

theorem run_bind (D : Device ι β) (p : Prog ι β α) (f : α → Prog ι β γ) (d : Disk ι β) :
    Run D (p >>= f, d) (f (p.exec d).1, (p.exec d).2) := by
  induction p generalizing d with
  | pure a => exact .refl
  | read as k ih => exact .head (.read as _ d) (ih _ d)
  | write ws k ih => exact .head (.write ws _ d) (ih _ _)
  | flush P k ih => exact .head (.flush P _ d) (ih _ _)

@[simp] theorem exec_pure (a : α) (d : Disk ι β) : (Prog.pure a).exec d = (a, d) := rfl
@[simp] theorem exec_vidange (P : ι → Bool) (d : Disk ι β) : (vidange P).exec d = (true, d.flush P) := rfl

theorem batches_bind (p : Prog ι β α) (f : α → Prog ι β γ) (d : Disk ι β) :
    (p >>= f).batches d = p.batches d ++ (f (p.exec d).1).batches (p.exec d).2 := by
  induction p generalizing d with
  | pure a => rfl
  | read as k ih => exact ih _ d
  | write ws k ih => exact congrArg (ws :: ·) (ih _ _)
  | flush P k ih => exact ih _ _

theorem requests_bind (p : Prog ι β α) (f : α → Prog ι β γ) (d : Disk ι β) :
    (p >>= f).requests d = p.requests d ++ (f (p.exec d).1).requests (p.exec d).2 := by
  induction p generalizing d with
  | pure a => rfl
  | read as k ih => exact congrArg (as :: ·) (ih _ d)
  | write ws k ih => exact ih _ _
  | flush P k ih => exact ih _ _

/-- Weakest precondition: `I` holds at every point of every run, only blocks of
`W` are written, and every run that ends does so with `Q`. -/
def wp (D : Device ι β) (I : Disk ι β → Prop) (W : ι → Prop) (Q : α → Disk ι β → Prop) :
    Prog ι β α → Disk ι β → Prop
  | .pure a, d => I d ∧ Q a d
  | .read as k, d =>
      I d ∧ wp D I W Q (k (some (as.map d.read))) d ∧ (D.faulty → wp D I W Q (k none) d)
  | .write ws k, d =>
      I d ∧ (∀ w ∈ ws, W w.1) ∧ wp D I W Q (k true) (d.write ws) ∧
        (D.faulty → ∀ d', D.fault (d.write ws) d' → wp D I W Q (k false) d')
  | .flush P k, d =>
      I d ∧ wp D I W Q (k true) (d.flush P) ∧ (D.faulty → ∀ d', D.fault d d' → wp D I W Q (k false) d')

variable {D : Device ι β} {I : Disk ι β → Prop} {W : ι → Prop}

theorem wp.inv (h : wp D I W Q p d) : I d := by
  cases p <;> exact h.1

theorem wp_bind {Q : γ → Disk ι β → Prop} (p : Prog ι β α) (f : α → Prog ι β γ)
    (d : Disk ι β) (h : wp D I W (fun a d' => wp D I W Q (f a) d') p d) :
    wp D I W Q (p >>= f) d := by
  induction p generalizing d with
  | pure a => exact h.2
  | read as k ih => exact ⟨h.1, ih _ d h.2.1, fun hf => ih _ d (h.2.2 hf)⟩
  | write ws k ih =>
    exact ⟨h.1, h.2.1, ih _ _ h.2.2.1, fun hf d' hd => ih _ _ (h.2.2.2 hf d' hd)⟩
  | flush P k ih => exact ⟨h.1, ih _ _ h.2.1, fun hf d' hd => ih _ _ (h.2.2 hf d' hd)⟩

variable {Q' : α → Disk ι β → Prop} {S : ι → Prop} {a : ι}

theorem wp.mono {I' : Disk ι β → Prop} {W' : ι → Prop} (h : wp D I W Q p d) (hI : ∀ d, I d → I' d)
    (hW : ∀ a, W a → W' a) (hQ : ∀ a d, Q a d → Q' a d) : wp D I' W' Q' p d := by
  induction p generalizing d with
  | pure a => exact ⟨hI _ h.1, hQ _ _ h.2⟩
  | read as k ih => exact ⟨hI _ h.1, ih _ h.2.1, fun hf => ih _ (h.2.2 hf)⟩
  | write ws k ih =>
    exact ⟨hI _ h.1, fun w hw => hW _ (h.2.1 w hw), ih _ h.2.2.1,
      fun hf d' hd => ih _ (h.2.2.2 hf d' hd)⟩
  | flush P k ih => exact ⟨hI _ h.1, ih _ h.2.1, fun hf d' hd => ih _ (h.2.2 hf d' hd)⟩

theorem wp.imp (h : wp D I W Q p d) (hQ : ∀ a d, Q a d → Q' a d) : wp D I W Q' p d :=
  h.mono (fun _ hd => hd) (fun _ ha => ha) hQ

theorem wp.and_inv (h : wp D I W Q p d) : wp D I W (fun a d => I d ∧ Q a d) p d := by
  induction p generalizing d with
  | pure a => exact ⟨h.1, h⟩
  | read as k ih => exact ⟨h.1, ih _ h.2.1, fun hf => ih _ (h.2.2 hf)⟩
  | write ws k ih => exact ⟨h.1, h.2.1, ih _ h.2.2.1, fun hf d' hd => ih _ (h.2.2.2 hf d' hd)⟩
  | flush P k ih => exact ⟨h.1, ih _ h.2.1, fun hf d' hd => ih _ (h.2.2 hf d' hd)⟩

theorem wp.step (h : wp D I W Q c.1 c.2) (hs : Step D c c') : wp D I W Q c'.1 c'.2 := by
  cases hs with
  | read as k d => exact h.2.1
  | readFails as k d hf => exact h.2.2 hf
  | write ws k d => exact h.2.2.1
  | writeFails ws k d d' hf hd => exact h.2.2.2 hf d' hd
  | flush P k d => exact h.2.1
  | flushFails P k d d' hf hd => exact h.2.2 hf d' hd

theorem wp.run (h : wp D I W Q c.1 c.2) (hr : Run D c c') : wp D I W Q c'.1 c'.2 := by
  induction hr with
  | refl => exact h
  | tail _ hs ih => exact ih.step hs

theorem wp.post {a : α} (h : wp D I W Q p d) (hr : Run D (p, d) (.pure a, d')) : Q a d' :=
  (h.run hr).2

theorem wp.inv_run {p' : Prog ι β α} (h : wp D I W Q p d) (hr : Run D (p, d) (p', d')) : I d' :=
  (h.run hr).inv

theorem wp.writes {k : Bool → Prog ι β α} (h : wp D I W Q p d)
    (hr : Run D (p, d) (.write ws k, d')) : ∀ w ∈ ws, W w.1 :=
  (h.run hr).2.1

/-- The blocks of `S` are settled, with the content they have on `d₀`. -/
def Kept (S : ι → Prop) (d₀ d : Disk ι β) : Prop :=
  ∀ a, S a → d.Settled a ∧ d.durable a = d₀.durable a

/-- The frame rule: settled blocks that may not be written keep their content
all along, whatever the device does to the others. -/
theorem wp.frame_inv {d0 : Disk ι β} (h : wp D I W Q p d) (hW : ∀ a, S a → ¬W a) (hd : Kept S d0 d) :
    wp D (fun d' => I d' ∧ Kept S d0 d') W (fun r d' => Q r d' ∧ Kept S d0 d') p d := by
  have hfault : ∀ {d d'}, D.fault d d' → Kept S d0 d → Kept S d0 d' := by
    intro d d' hf hk a ha
    obtain ⟨hs, hv⟩ := D.fault_settled hf (hk a ha).1
    exact ⟨hs, hv.trans (hk a ha).2⟩
  induction p generalizing d with
  | pure a => exact ⟨⟨h.1, hd⟩, h.2, hd⟩
  | read as k ih => exact ⟨⟨h.1, hd⟩, ih _ h.2.1 hd, fun hf => ih _ (h.2.2 hf) hd⟩
  | write ws k ih =>
    have hw : Kept S d0 (d.write ws) := by
      intro a ha
      refine ⟨(hd a ha).1.write fun w hw hwa => ?_, (hd a ha).2⟩
      exact hW a ha (hwa ▸ h.2.1 w hw)
    exact ⟨⟨h.1, hd⟩, h.2.1, ih _ h.2.2.1 hw,
      fun hf d' hfd => ih _ (h.2.2.2 hf d' hfd) (hfault hfd hw)⟩
  | flush P k ih =>
    refine ⟨⟨h.1, hd⟩, ih _ h.2.1 fun a ha => ?_,
      fun hf d' hfd => ih _ (h.2.2 hf d' hfd) (hfault hfd hd)⟩
    exact ⟨(hd a ha).1.flush P, ((hd a ha).1.flush_durable P).trans (hd a ha).2⟩

theorem wp.frame (h : wp D I W Q p d) (hW : ∀ a, S a → ¬W a) (hd : ∀ a, S a → d.Settled a) :
    wp D I W (fun r d' => Q r d' ∧ Kept S d d') p d :=
  (h.frame_inv hW fun a ha => ⟨hd a ha, rfl⟩).mono (fun _ hI => hI.1) (fun _ ha => ha)
    fun _ _ hQ => hQ

theorem wp.read_exec (h : wp D I W Q p d) (ha : ¬W a) : (p.exec d).2.read a = d.read a := by
  induction p generalizing d with
  | pure x => rfl
  | read as k ih => exact ih _ h.2.1
  | write ws k ih =>
    refine (ih _ h.2.2.1).trans (Disk.read_write_of_notMem fun w hw hwa => ha ?_)
    exact hwa ▸ h.2.1 w hw
  | flush P k ih => exact (ih _ h.2.1).trans (Disk.read_flush _ _ _)

theorem wp_lit {Q : Option (List β) → Disk ι β → Prop} {as : List ι}
    (hI : I d) (hok : Q (some (as.map d.read)) d) (hko : D.faulty → Q none d) :
    wp D I W Q (lit as) d :=
  ⟨hI, ⟨hI, hok⟩, fun hf => ⟨hI, hko hf⟩⟩

theorem wp_litBloc {Q : Option β → Disk ι β → Prop}
    (hI : I d) (hok : Q (some (d.read a)) d) (hko : D.faulty → Q none d) :
    wp D I W Q (litBloc a) d :=
  ⟨hI, ⟨hI, hok⟩, fun hf => ⟨hI, hko hf⟩⟩

theorem wp_ecrit {Q : Bool → Disk ι β → Prop}
    (hI : I d) (hW : ∀ w ∈ ws, W w.1) (hok : I (d.write ws) ∧ Q true (d.write ws))
    (hko : D.faulty → ∀ d', D.fault (d.write ws) d' → I d' ∧ Q false d') :
    wp D I W Q (ecrit ws) d :=
  ⟨hI, hW, hok, hko⟩

theorem wp_vidange {Q : Bool → Disk ι β → Prop} {P : ι → Bool} (hI : I d) (hok : I (d.flush P) ∧ Q true (d.flush P))
    (hko : D.faulty → ∀ d', D.fault d d' → I d' ∧ Q false d') : wp D I W Q (vidange P) d :=
  ⟨hI, hok, hko⟩

section

variable {ε ε' : Type}

omit [DecidableEq ι] in
theorem run_bind_eq (x : ExceptT ε (Prog ι β) α) (f : α → ExceptT ε (Prog ι β) γ) :
    (x >>= f).run = x.run >>= fun r => match r with
      | .ok a => (f a).run
      | .error e => .pure (.error e) := by
  refine congrArg (x.run >>= ·) ?_
  funext r
  cases r <;> rfl

variable {f : α → ExceptT ε (Prog ι β) γ} {d : Disk ι β}

variable {x : ExceptT ε (Prog ι β) α} {a : α} {Q : Except ε γ → Disk ι β → Prop} {d' : Disk ι β}
  {p : Prog ι β (Except ε α)}

theorem wp_run_bind (h : wp D I W (fun r d' => match r with
      | .ok a => wp D I W Q (f a).run d'
      | .error e => I d' ∧ Q (.error e) d') x.run d) : wp D I W Q (x >>= f).run d := by
  apply wp_bind
  apply h.imp
  rintro (e | a) d' hd
  · exact hd
  · exact hd

theorem wp_run_lift {x : Prog ι β α}
    (h : wp D I W (fun a d' => wp D I W Q (f a).run d') x d) :
    wp D I W Q (ExceptT.lift x >>= f).run d := by
  apply wp_run_bind
  exact wp_bind x _ d (h.and_inv.imp fun a d' hd => hd)

def traduit (f : ε → ε') (p : Prog ι β (Except ε α)) : ExceptT ε' (Prog ι β) α :=
  (p >>= fun r => .pure (r.mapError f) : Prog ι β (Except ε' α))

theorem wp_traduit {Q : Except ε' α → Disk ι β → Prop} {f : ε → ε'}
    (h : wp D I W (fun r d' => Q (r.mapError f) d') p d) : wp D I W Q (traduit f p).run d :=
  wp_bind _ _ _ (h.and_inv.imp fun _ _ hd => hd)

theorem exec_run_bind (h : x.run.exec d = (.ok a, d')) :
    (x >>= f).run.exec d = (f a).run.exec d' := by
  rw [run_bind_eq, exec_bind, h]

theorem run_run_bind (D : Device ι β) (h : x.run.exec d = (.ok a, d')) :
    Run D ((x >>= f).run, d) ((f a).run, d') := by
  have hr := run_bind D x.run (fun r => match r with
    | .ok a => (f a).run
    | .error e => .pure (.error e)) d
  rwa [← run_bind_eq, h] at hr

theorem exec_traduit {f : ε → ε'}
    (h : p.exec d = (.ok a, d')) : (traduit f p).run.exec d = (.ok a, d') := by
  rw [traduit, ExceptT.run, exec_bind, h]
  rfl

end

/-- A program that issues no write and no flush. -/
def ReadOnly : Prog ι β α → Prop
  | .pure _ => True
  | .read _ k => ∀ r, (k r).ReadOnly
  | .write _ _ => False
  | .flush _ _ => False

omit [DecidableEq ι] in
theorem ReadOnly.bind {f : α → Prog ι β γ} (hp : p.ReadOnly) (hf : ∀ a, (f a).ReadOnly) : (p >>= f).ReadOnly := by
  induction p with
  | pure a => exact hf a
  | read as k ih => exact fun r => ih r (hp r)
  | write ws k _ => exact hp.elim
  | flush P k _ => exact hp.elim

/-- A read-only program ends on the disk it started from, with a result one of
its runs can produce there. -/
theorem ReadOnly.wp (hp : p.ReadOnly) (hI : I d) :
    wp D I W (fun a d' => d' = d ∧ Run D (p, d) (.pure a, d)) p d := by
  induction p with
  | pure a => exact ⟨hI, rfl, .refl⟩
  | read as k ih =>
    refine ⟨hI, (ih _ (hp _)).imp ?_, fun hf => (ih _ (hp _)).imp ?_⟩
    · rintro a d' ⟨rfl, hr⟩
      exact ⟨rfl, .head (.read as k _) hr⟩
    · rintro a d' ⟨rfl, hr⟩
      exact ⟨rfl, .head (.readFails as k _ hf) hr⟩
  | write ws k _ => exact hp.elim
  | flush P k _ => exact hp.elim

end Prog

end BouchaudOS
