import BouchaudOS.Foundations.Bags

/-!
# Descriptor tables

`src/kernel/object/fd.rs`: a table of numbered slots, each free or holding a descriptor,
with `dup`, `dup2` and `dup3` of `src/compat/linux/file.rs` over it. What a table does is
said through `slot`, the content of each number: every operation changes one number, or
the numbers marked `FD_CLOEXEC`.

Tables are generic in the descriptor, so that a development may give descriptors an
identity the code does not have.
-/

namespace BouchaudOS.Descripteurs

open List

inductive Errno
  | ebadf | eagain | efault | eisdir | einval | efbig | espipe | erofs | epipe | edeadlk
  deriving DecidableEq, Repr

/-- What a descriptor designates. Devices, event and timer descriptors and network sockets
are `autre`. -/
inductive FdKind
  | console
  | file (node : ℕ)
  | dir (node : ℕ)
  | instantane (contenu : List UInt8)
  | pipe (tube : ℕ) (lecture : Bool)
  | socketPair (entrant sortant : ℕ)
  | autre
  deriving DecidableEq, Repr

abbrev Flags := BitVec 32

def oTrunc : Flags := 0o1000
def oAppend : Flags := 0o2000
def oNonblock : Flags := 0o4000
def oCloexec : Flags := 0o2000000

structure FileDesc where
  kind : FdKind
  offset : ℕ
  flags : Flags
  cloexec : Bool
  deriving DecidableEq, Repr

structure FdTable (α : Type*) where
  entries : List (Option α)
  deriving DecidableEq

namespace FdTable

variable {α : Type*}

def vide : FdTable α := ⟨[]⟩

variable (t : FdTable α)

def slot (i : ℕ) : Option α := t.entries[i]?.join

/-- The entries, with free slots up to the length asked for. -/
def etend (n : ℕ) : List (Option α) :=
  t.entries ++ List.replicate (n - t.entries.length) none

/-- The first free number from `min` on. -/
def insertAtLeast (desc : α) (min : ℕ) : ℕ × FdTable α :=
  let l := t.etend min
  match (l.drop min).findIdx? Option.isNone with
  | some i => (min + i, ⟨l.set (min + i) (some desc)⟩)
  | none => (l.length, ⟨l ++ [some desc]⟩)

def insert (desc : α) : ℕ × FdTable α := t.insertAtLeast desc 0

def set (fd : ℕ) (desc : α) : Option α × FdTable α :=
  let l := t.etend (fd + 1)
  (l[fd]?.join, ⟨l.set fd (some desc)⟩)

def get (fd : ℤ) : Option α := if fd < 0 then none else t.slot fd.toNat

/-- `get_mut` and what its caller writes. -/
def modify (fd : ℤ) (f : α → α) : FdTable α :=
  if fd < 0 then t else ⟨t.entries.modify fd.toNat (Option.map f)⟩

def close (fd : ℤ) : Bool × FdTable α :=
  if fd < 0 then (false, t)
  else
    match t.entries[fd.toNat]? with
    | some (some _) => (true, ⟨t.entries.set fd.toNat none⟩)
    | _ => (false, t)

def prendTout : List (Option α) × FdTable α := (t.entries, ⟨[]⟩)

def closeOnExec (cloexec : α → Bool) (t : FdTable α) : List α × FdTable α :=
  (t.entries.filterMap (Option.filter cloexec), ⟨t.entries.map (Option.filter fun d => !cloexec d)⟩)

@[simp] theorem slot_vide (i : ℕ) : (vide : FdTable α).slot i = none := by simp [slot, vide]

theorem join_getElem?_etend (t : FdTable α) (n i : ℕ) : (t.etend n)[i]?.join = t.slot i := by
  unfold etend slot
  rcases Nat.lt_or_ge i t.entries.length with hi | hi
  · rw [getElem?_append_left hi]
  · rw [getElem?_append_right hi, getElem?_eq_none hi, getElem?_replicate]
    split_ifs <;> rfl

theorem length_etend (t : FdTable α) (n : ℕ) : (t.etend n).length = max t.entries.length n := by
  rw [etend, length_append, length_replicate]
  omega

variable {i : ℕ} {t t' : FdTable α} {d : α} {fd : ℤ} {copie : α → α}

variable {l : List (Option α)} {old new : ℤ} {ancien : Option α}

theorem slot_set_entries (hi : i < l.length) (x : Option α) (j : ℕ) :
    (FdTable.mk (l.set i x)).slot j = if j = i then x else l[j]?.join := by
  unfold slot
  by_cases hj : j = i
  · subst hj
    simp [hi]
  · rw [if_neg hj, getElem?_set_ne (Ne.symm hj)]

section

variable (t : FdTable α)

/-- A descriptor goes to a free number not below `min`. -/
theorem insertAtLeast_spec (desc : α) (min : ℕ) :
    ∃ i t', t.insertAtLeast desc min = (i, t') ∧ min ≤ i ∧ t.slot i = none ∧
      ∀ j, t'.slot j = if j = i then some desc else t.slot j := by
  have hlen := length_etend t min
  unfold insertAtLeast
  dsimp only
  cases hi : ((t.etend min).drop min).findIdx? Option.isNone with
  | some i =>
    obtain ⟨hlt, hnone, -⟩ := findIdx?_eq_some_iff_getElem.mp hi
    rw [length_drop] at hlt
    have hget : (t.etend min)[min + i]? = some none := by
      rw [getElem_drop] at hnone
      rw [getElem?_eq_getElem (by omega), Option.isNone_iff_eq_none.mp hnone]
    refine ⟨_, _, rfl, Nat.le_add_right _ _, ?_, fun j => ?_⟩
    · rw [← join_getElem?_etend t min, hget]
      rfl
    · rw [slot_set_entries (by omega), join_getElem?_etend]
  | none =>
    refine ⟨_, _, rfl, by omega, ?_, fun j => ?_⟩
    · rw [← join_getElem?_etend t min, getElem?_eq_none le_rfl]
      rfl
    · rw [← join_getElem?_etend t min j]
      unfold slot
      rw [getElem?_append]
      split_ifs with h1 h2 h2
      · omega
      · rfl
      · simp [h2]
      · rw [getElem?_eq_none (by simp; omega), getElem?_eq_none (by omega)]

theorem set_spec (fd : ℕ) (desc : α) : (t.set fd desc).1 = t.slot fd ∧
    ∀ j, (t.set fd desc).2.slot j = if j = fd then some desc else t.slot j := by
  have hlen := length_etend t (fd + 1)
  refine ⟨join_getElem?_etend t _ fd, fun j => ?_⟩
  unfold set
  rw [slot_set_entries (by omega), join_getElem?_etend]

theorem slot_modify (fd : ℤ) (f : α → α) (j : ℕ) :
    (t.modify fd f).slot j = if fd = j then (t.slot j).map f else t.slot j := by
  unfold modify slot
  split_ifs with hneg hj hj
  · omega
  · rfl
  · obtain rfl : fd.toNat = j := by omega
    rw [getElem?_modify]
    cases t.entries[fd.toNat]? <;> simp
  · have hne : fd.toNat ≠ j := by omega
    simp [hne]

theorem close_spec (fd : ℤ) : (t.close fd).1 = (t.get fd).isSome ∧
    ∀ j : ℕ, (t.close fd).2.slot j = if fd = j then none else t.slot j := by
  unfold close get
  split_ifs with hneg
  · refine ⟨rfl, fun j => ?_⟩
    rw [if_neg (by omega)]
  · split
    · rename_i d hd
      have hlt := (List.getElem?_eq_some_iff.mp hd).1
      refine ⟨by simp [slot, hd], fun j => ?_⟩
      rw [slot_set_entries hlt]
      by_cases hj : fd = j
      · rw [if_pos hj, if_pos (by omega)]
      · rw [if_neg hj, if_neg (by omega)]
        rfl
    · rename_i hd
      have hnone : t.slot fd.toNat = none := by
        unfold slot
        rcases h : t.entries[fd.toNat]? with _ | _ | d
        · rfl
        · rfl
        · exact absurd h (hd d)
      refine ⟨by simp [hnone], fun j => ?_⟩
      split_ifs with hj
      · obtain rfl : fd.toNat = j := by omega
        exact hnone
      · rfl

end

theorem mem_entries_iff : some d ∈ t.entries ↔ ∃ i, t.slot i = some d := by
  rw [mem_iff_getElem?]
  unfold slot
  simp only [Option.join_eq_some_iff]

/-- `dup`; `copie` is the clone, with the flag `FD_CLOEXEC` that the call gives it. -/
def sysDup (copie : α → α) (t : FdTable α) (fd : ℤ) : Except Errno (ℕ × FdTable α) :=
  match t.get fd with
  | none => .error .ebadf
  | some d => .ok (t.insert (copie d))

/-- `dup2`, with the descriptor it replaces. -/
def sysDup2 (copie : α → α) (t : FdTable α) (old new : ℤ) : Except Errno (Option α × FdTable α) :=
  if new < 0 then .error .ebadf
  else if old = new then if (t.get old).isSome then .ok (none, t) else .error .ebadf
  else
    match t.get old with
    | none => .error .ebadf
    | some d => .ok (t.set new.toNat (copie d))

/-- `dup3`, with the descriptor it replaces. -/
def sysDup3 (copie : α → α) (t : FdTable α) (old new : ℤ) (flags : Flags) :
    Except Errno (Option α × FdTable α) :=
  if new < 0 then .error .ebadf
  else if old = new then .error .einval
  else if flags &&& ~~~oCloexec ≠ 0 then .error .einval
  else
    match t.get old with
    | none => .error .ebadf
    | some d => .ok (t.set new.toNat (copie d))

theorem get_eq_some_iff : t.get fd = some d ↔ 0 ≤ fd ∧ t.slot fd.toNat = some d := by
  unfold get
  split_ifs with h
  · simp [h]
  · simp [not_lt.mp h]

@[simp] theorem get_natCast (t : FdTable α) (i : ℕ) : t.get i = t.slot i := by simp [get]

def Copies (copie : α → α) (t t' : FdTable α) : Prop :=
  ∀ j d, t'.slot j = some d → ∃ j' d', t.slot j' = some d' ∧ (d = d' ∨ d = copie d')

theorem copies_set (h : t.get fd = some d) (new : ℕ) : Copies copie t (t.set new (copie d)).2 := by
  intro j e he
  rw [(t.set_spec new (copie d)).2 j] at he
  split_ifs at he
  · cases he
    exact ⟨_, d, (get_eq_some_iff.mp h).2, .inr rfl⟩
  · exact ⟨j, e, he, .inl rfl⟩

theorem copies_sysDup (h : t.sysDup copie fd = .ok (i, t')) : Copies copie t t' := by
  unfold sysDup at h
  split at h
  · cases h
  · rename_i d hd
    obtain ⟨i', t'', hins, -, -, hslot⟩ := t.insertAtLeast_spec (copie d) 0
    cases h.symm.trans (congrArg Except.ok hins)
    intro j e he
    rw [hslot j] at he
    split_ifs at he
    · cases he
      exact ⟨_, d, (get_eq_some_iff.mp hd).2, .inr rfl⟩
    · exact ⟨j, e, he, .inl rfl⟩

theorem copies_sysDup2 (h : t.sysDup2 copie old new = .ok (ancien, t')) : Copies copie t t' := by
  unfold sysDup2 at h
  split_ifs at h
  · cases h
    exact fun j d hd => ⟨j, d, hd, .inl rfl⟩
  · split at h
    · cases h
    · rename_i d hd
      cases h
      exact copies_set hd new.toNat

theorem copies_sysDup3 {flags : Flags} (h : t.sysDup3 copie old new flags = .ok (ancien, t')) :
    Copies copie t t' := by
  unfold sysDup3 at h
  split_ifs at h
  split at h
  · cases h
  · rename_i d hd
    cases h
    exact copies_set hd new.toNat

def somme (f : α → ℕ) (t : FdTable α) : ℕ := (t.entries.map fun x => x.elim 0 f).sum

variable (f : α → ℕ)

theorem somme_etend (t : FdTable α) (n : ℕ) : somme f ⟨t.etend n⟩ = t.somme f := by
  simp [somme, etend]

theorem somme_set_entries {x : Option α} (h : l[i]? = some x)
    (y : Option α) : somme f ⟨l.set i y⟩ + x.elim 0 f = somme f ⟨l⟩ + y.elim 0 f :=
  Bags.sum_map_set (fun x => Option.elim x 0 f) h y

theorem somme_insert (t : FdTable α) (d : α) : (t.insert d).2.somme f = t.somme f + f d := by
  unfold insert insertAtLeast
  dsimp only
  rw [← somme_etend f t 0]
  cases hi : ((t.etend 0).drop 0).findIdx? Option.isNone with
  | some i =>
    obtain ⟨hlt, hnone, -⟩ := findIdx?_eq_some_iff_getElem.mp hi
    rw [getElem_drop] at hnone
    rw [length_drop] at hlt
    have hget : (t.etend 0)[0 + i]? = some none := by
      rw [getElem?_eq_getElem (by omega), Option.isNone_iff_eq_none.mp hnone]
    exact somme_set_entries f hget (some d)
  | none => simp [somme]

theorem somme_set (t : FdTable α) (fd : ℕ) (d : α) :
    (t.set fd d).2.somme f + (t.set fd d).1.elim 0 f = t.somme f + f d := by
  have hlt : fd < (t.etend (fd + 1)).length := by
    rw [length_etend]
    omega
  have hget := getElem?_eq_getElem hlt
  unfold set
  dsimp only
  rw [hget, ← somme_etend f t (fd + 1)]
  exact somme_set_entries f hget (some d)

theorem somme_close (h : t.get fd = some d) : (t.close fd).2.somme f + f d = t.somme f := by
  obtain ⟨hfd, hslot⟩ := get_eq_some_iff.mp h
  have hget : t.entries[fd.toNat]? = some (some d) := Option.join_eq_some_iff.mp hslot
  unfold close
  rw [if_neg (not_lt.mpr hfd), hget]
  exact somme_set_entries f hget none

theorem somme_closeOnExec (cloexec : α → Bool) (t : FdTable α) :
    (t.closeOnExec cloexec).2.somme f + ((t.closeOnExec cloexec).1.map f).sum = t.somme f := by
  unfold closeOnExec somme
  induction t.entries with
  | nil => rfl
  | cons x l ih =>
    rcases x with _ | d
    · simpa using ih
    · cases hd : cloexec d
      · simp [Option.filter, hd] at ih ⊢
        omega
      · simp [Option.filter, hd] at ih ⊢
        omega

theorem le_somme (h : t.slot i = some d) : f d ≤ t.somme f := by
  have hmem : some d ∈ t.entries := mem_entries_iff.mpr ⟨i, h⟩
  exact single_le_sum (by simp) _ (mem_map.mpr ⟨some d, hmem, rfl⟩)

end FdTable

end BouchaudOS.Descripteurs
