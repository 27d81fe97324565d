import BouchaudOS.Foundations.DeviceProgram

/-!
# Device programs with a state

A driver keeps a state of its own beside the device and may stop with an error, which
leaves the state and the device as they are at that point. `Keeps` is the triple for such a
program on a device that serves every request: it keeps an invariant of state and disk,
asks only for blocks of a given set and stops only with errors that are allowed.
-/

namespace BouchaudOS

section

variable {ι β α γ : Type} [DecidableEq ι]

/-- The run on a device that serves every request reads and writes only blocks of `S`. -/
structure Prog.Within (S : ι → Prop) (p : Prog ι β α) (d : Disk ι β) : Prop where
  reads : ∀ as ∈ p.requests d, ∀ a ∈ as, S a
  writes : ∀ ws ∈ p.batches d, ∀ w ∈ ws, S w.1

variable {S : ι → Prop} {p : Prog ι β α} {f : α → Prog ι β γ} {d : Disk ι β}

theorem Prog.Within.bind (hp : p.Within S d) (hf : (f (p.exec d).1).Within S (p.exec d).2) :
    (p >>= f).Within S d := by
  constructor
  · rw [requests_bind]
    exact List.forall_mem_append.mpr ⟨hp.reads, hf.reads⟩
  · rw [batches_bind]
    exact List.forall_mem_append.mpr ⟨hp.writes, hf.writes⟩

theorem Prog.within_pure (x : α) : (Prog.pure x : Prog ι β α).Within S d :=
  ⟨fun _ h => absurd h List.not_mem_nil, fun _ h => absurd h List.not_mem_nil⟩

end

/-- A program with a state `σ` that errors of type `ε` do not roll back. -/
abbrev StProg (ι β ε σ α : Type) := ExceptT ε (StateT σ (Prog ι β)) α

namespace StProg

variable {ι β ε σ α γ : Type}

/-- The program as a device program that also returns its final state. -/
def start (c : StProg ι β ε σ α) (s : σ) : Prog ι β (Except ε α × σ) := StateT.run (ExceptT.run c) s

def device (p : Prog ι β α) : StProg ι β ε σ α := liftM p

/-- What follows the result of a first part. -/
def resume (f : α → StProg ι β ε σ γ) (r : Except ε α × σ) : Prog ι β (Except ε γ × σ) :=
  match r.1 with
  | .ok x => (f x).start r.2
  | .error e => .pure (.error e, r.2)

theorem start_bind (c : StProg ι β ε σ α) (f : α → StProg ι β ε σ γ) (s : σ) :
    (c >>= f).start s = c.start s >>= resume f := by
  refine congrArg (c.start s >>= ·) ?_
  funext r
  obtain ⟨r, s'⟩ := r
  cases r <;> rfl

theorem start_device (p : Prog ι β α) (s : σ) :
    (device p : StProg ι β ε σ α).start s = p >>= fun x => .pure (.ok x, s) := by
  induction p with
  | pure x => rfl
  | read as k ih => exact congrArg (Prog.read as) (funext ih)
  | write ws k ih => exact congrArg (Prog.write ws) (funext ih)
  | flush P k ih => exact congrArg (Prog.flush P) (funext ih)

variable [DecidableEq ι]

/-- A value that satisfies `Q` or an error that satisfies `E`. -/
def Good (E : ε → Prop) (Q : α → Prop) : Except ε α → Prop
  | .ok x => Q x
  | .error e => E e

/-- The run from state `s` and disk `d`. -/
structure Meets (I : σ → Disk ι β → Prop) (S : ι → Prop) (E : ε → Prop) (c : StProg ι β ε σ α)
    (Q : α → Prop) (s : σ) (d : Disk ι β) : Prop where
  within : (c.start s).Within S d
  inv : I ((c.start s).exec d).1.2 ((c.start s).exec d).2
  result : Good E Q ((c.start s).exec d).1.1

/-- From every state and disk with the invariant `I`, the program keeps it, touches only
blocks of `S`, and ends with a value in `Q` or an error in `E`. -/
def Keeps (I : σ → Disk ι β → Prop) (S : ι → Prop) (E : ε → Prop) (c : StProg ι β ε σ α)
    (Q : α → Prop) : Prop :=
  ∀ s d, I s d → Meets I S E c Q s d

variable {I : σ → Disk ι β → Prop} {S : ι → Prop} {E : ε → Prop} {c : StProg ι β ε σ α}
  {f : α → StProg ι β ε σ γ} {P Q : α → Prop} {R : γ → Prop}

theorem Keeps.pure {x : α} (h : Q x) : Keeps I S E (Pure.pure x) Q :=
  fun _ _ hI => ⟨Prog.within_pure _, hI, h⟩

theorem Keeps.throw {e : ε} (h : E e) : Keeps I S E (throw e) Q :=
  fun _ _ hI => ⟨Prog.within_pure _, hI, h⟩

theorem Keeps.modify {f : σ → σ} (h : ∀ s d, I s d → I (f s) d) : Keeps I S E (modify f) fun _ => True :=
  fun s d hI => ⟨Prog.within_pure _, h s d hI, trivial⟩

theorem Keeps.bind (hc : Keeps I S E c P) (hf : ∀ x, P x → Keeps I S E (f x) R) :
    Keeps I S E (c >>= f) R := by
  intro s d hI
  obtain ⟨hin, hinv, hres⟩ := hc s d hI
  have hsuite : ∀ r s' d', Good E P r → I s' d' → (resume f (r, s')).Within S d' ∧
      I ((resume f (r, s')).exec d').1.2 ((resume f (r, s')).exec d').2 ∧
      Good E R ((resume f (r, s')).exec d').1.1 := by
    rintro (e | x) s' d' hr hI'
    · exact ⟨Prog.within_pure _, hI', hr⟩
    · obtain ⟨h1, h2, h3⟩ := hf x hr s' d' hI'
      exact ⟨h1, h2, h3⟩
  obtain ⟨h1, h2, h3⟩ := hsuite _ _ _ hres hinv
  constructor
  · rw [start_bind]
    exact hin.bind h1
  · rw [start_bind, Prog.exec_bind]
    exact h2
  · rw [start_bind, Prog.exec_bind]
    exact h3

theorem Keeps.get_bind {f : σ → StProg ι β ε σ γ} (h : ∀ s d, I s d → Keeps I S E (f s) R) :
    Keeps I S E (get >>= f) R := by
  intro s d hI
  obtain ⟨h1, h2, h3⟩ := h s d hI s d hI
  exact ⟨h1, h2, h3⟩

theorem Keeps.device {p : Prog ι β α} (h : ∀ s d, I s d → p.Within S d ∧ I s (p.exec d).2 ∧ Q (p.exec d).1) :
    Keeps I S E (device p) Q := by
  intro s d hI
  obtain ⟨hin, hinv, hq⟩ := h s d hI
  constructor
  · rw [start_device]
    exact hin.bind (Prog.within_pure _)
  · rw [start_device, Prog.exec_bind]
    exact hinv
  · rw [start_device, Prog.exec_bind]
    exact hq

theorem Keeps.forM {κ : Type} {f : κ → StProg ι β ε σ PUnit} {l : List κ}
    (h : ∀ x ∈ l, Keeps I S E (f x) fun _ => True) : Keeps I S E (l.forM f) fun _ => True := by
  induction l with
  | nil => exact .pure trivial
  | cons x l ih =>
    exact (h x List.mem_cons_self).bind fun _ _ => ih fun y hy => h y (List.mem_cons_of_mem _ hy)

end StProg

end BouchaudOS
