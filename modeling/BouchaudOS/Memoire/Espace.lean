import BouchaudOS.Foundations.Outcome

/-!
# Address spaces

`src/kernel/memory/virtual.rs`: the user slot, the leaf entries of an address space
and the operations that map a range and change its rights. An address space is seen
through its leaves, page by page; the physical memory that `alloc_frame` and the
intermediate tables draw from answers as it likes.

Addresses are 64-bit numbers. An addition that does not fit is a fault, as is an index
past the end of a slice or a buffer larger than it may be.
-/

namespace BouchaudOS.Espace

open List Function

inductive Faute
  | debordement
  | indice
  | tampon
  deriving DecidableEq

variable {ε : Type}

def ajoute (a b : ℕ) : Outcome ε Faute ℕ :=
  if a + b < 2 ^ 64 then .ok (a + b) else .fault .debordement

def retranche (a b : ℕ) : Outcome ε Faute ℕ :=
  if b ≤ a then .ok (a - b) else .fault .debordement

def PAGE_SIZE : ℕ := 4096

/-- `a & !(PAGE_SIZE - 1)` -/
def pageDe (a : ℕ) : ℕ := a / 4096 * 4096

/-- `(a + PAGE_SIZE - 1) & !(PAGE_SIZE - 1)`, from left to right. -/
def arrondi (a : ℕ) : Outcome ε Faute ℕ := do
  let b ← ajoute a PAGE_SIZE
  pure (pageDe (b - 1))

variable {a b c : ℕ}

theorem ajoute_of_lt (h : a + b < 2 ^ 64) : (ajoute a b : Outcome ε Faute ℕ) = .ok (a + b) := if_pos h

@[simp] theorem ajoute_eq_ok : (ajoute a b : Outcome ε Faute ℕ) = .ok c ↔ c = a + b ∧ a + b < 2 ^ 64 := by
  unfold ajoute
  split <;> simp_all [eq_comm]

@[simp] theorem safe_ajoute : (ajoute a b : Outcome ε Faute ℕ).Safe ↔ a + b < 2 ^ 64 := by
  unfold ajoute
  split <;> simp_all

theorem retranche_of_le (h : b ≤ a) : (retranche a b : Outcome ε Faute ℕ) = .ok (a - b) := if_pos h

@[simp] theorem safe_retranche : (retranche a b : Outcome ε Faute ℕ).Safe ↔ b ≤ a := by
  unfold retranche
  split <;> simp_all

theorem arrondi_of_lt (h : a + 4096 < 2 ^ 64) :
    (arrondi a : Outcome ε Faute ℕ) = .ok (pageDe (a + 4095)) := by
  unfold arrondi PAGE_SIZE
  rw [ajoute_of_lt h]
  rfl

theorem arrondi_of_ge (h : 2 ^ 64 ≤ a + 4096) : (arrondi a : Outcome ε Faute ℕ) = .fault .debordement := by
  unfold arrondi PAGE_SIZE ajoute
  rw [if_neg (not_lt.mpr h)]
  rfl

/-- The sixty-four entries of the top table that the kernel has found free. -/
structure Creneau where
  slot : ℕ
  borne : slot + 64 ≤ 256

def USER_SPACE_SIZE : ℕ := 64 * 512 * 1024 * 1024 * 1024

namespace Creneau

variable (c : Creneau)

/-- `user_slot_base` -/
def base : ℕ := c.slot * 2 ^ 39

def isUserAddr (virt : ℕ) : Prop := c.base ≤ virt ∧ virt < c.base + USER_SPACE_SIZE

instance : DecidablePred c.isUserAddr := fun _ => inferInstanceAs (Decidable (_ ∧ _))

theorem lt_of_isUserAddr {c : Creneau} {virt : ℕ} (h : c.isUserAddr virt) : virt < 2 ^ 47 := by
  obtain ⟨-, h⟩ := h
  have := c.borne
  unfold base USER_SPACE_SIZE at h
  omega

theorem isUserAddr_page {c : Creneau} {d f p : ℕ} (hd : c.isUserAddr d) (hf : c.isUserAddr f)
    (h : d / 4096 ≤ p) (h' : p < (f + 4095) / 4096) {virt : ℕ} (hv : virt / 4096 = p) : c.isUserAddr virt := by
  unfold isUserAddr base USER_SPACE_SIZE at *
  omega

end Creneau

def PTE_PRESENT : ℕ := 1 <<< 0
def PTE_WRITE : ℕ := 1 <<< 1
def PTE_USER : ℕ := 1 <<< 2
def PTE_NO_EXEC : ℕ := 1 <<< 63
def PTE_RSS_KIND_MASK : ℕ := 0b111 <<< 9
def ADDR_MASK : ℕ := 0x000FFFFFFFFFF000

def present (entree : ℕ) : Bool := entree &&& PTE_PRESENT != 0

/-- `wx::inscriptible_et_executable` -/
def inscriptibleEtExecutable (drapeaux : ℕ) : Bool :=
  drapeaux &&& PTE_WRITE != 0 && drapeaux &&& PTE_NO_EXEC == 0

/-- What `prepare_protect` makes of an entry. -/
def protegee (flags entree : ℕ) : ℕ :=
  (entree &&& (ADDR_MASK ||| PTE_RSS_KIND_MASK)) ||| flags ||| PTE_PRESENT

theorem and_two_pow_bne (a k : ℕ) : (a &&& 1 <<< k != 0) = a.testBit k := by
  rw [Nat.one_shiftLeft, Nat.and_two_pow]
  cases a.testBit k <;> simp

theorem present_eq (entree : ℕ) : present entree = entree.testBit 0 := and_two_pow_bne entree 0

theorem inscriptibleEtExecutable_eq (d : ℕ) :
    inscriptibleEtExecutable d = (d.testBit 1 && !d.testBit 63) := by
  have h : (d &&& 1 <<< 63 == 0) = !(d &&& 1 <<< 63 != 0) := by simp [bne]
  unfold inscriptibleEtExecutable PTE_WRITE PTE_NO_EXEC
  rw [h, and_two_pow_bne, and_two_pow_bne]

@[simp] theorem present_protegee (flags entree : ℕ) : present (protegee flags entree) = true := by
  rw [present_eq, protegee, Nat.testBit_or]
  simp [PTE_PRESENT]

theorem inscriptibleEtExecutable_protegee (flags entree : ℕ) :
    inscriptibleEtExecutable (protegee flags entree) = inscriptibleEtExecutable flags := by
  have hm1 : (ADDR_MASK ||| PTE_RSS_KIND_MASK).testBit 1 = false := by decide
  have hm63 : (ADDR_MASK ||| PTE_RSS_KIND_MASK).testBit 63 = false := by decide
  have hp1 : PTE_PRESENT.testBit 1 = false := by decide
  have hp63 : PTE_PRESENT.testBit 63 = false := by decide
  simp only [inscriptibleEtExecutable_eq, protegee, Nat.testBit_or, Nat.testBit_and, hm1, hm63, hp1,
    hp63, Bool.and_false, Bool.false_or, Bool.or_false]

/-- The leaf entry of every page. -/
abbrev Feuilles := ℕ → ℕ

/-- The pages from `start` up to `fin`, both rounded. -/
def pages (start fin : ℕ) : List ℕ := List.range' (start / 4096) ((fin - start) / 4096)

/-- The bounds of a range, as the walks round them. -/
def bornes (virt len : ℕ) : Outcome ε Faute (ℕ × ℕ) := do
  let fin ← ajoute virt len
  let fin ← arrondi fin
  pure (pageDe virt, fin)

theorem mem_pages {virt fin p : ℕ} :
    p ∈ pages (pageDe virt) (pageDe (fin + 4095)) ↔ virt / 4096 ≤ p ∧ p < (fin + 4095) / 4096 := by
  unfold pages pageDe
  rw [mem_range'_1]
  omega

theorem bornes_of_lt {virt len : ℕ} (h : virt + len + 4096 < 2 ^ 64) :
    (bornes virt len : Outcome ε Faute (ℕ × ℕ)) = .ok (pageDe virt, pageDe (virt + len + 4095)) := by
  unfold bornes
  rw [ajoute_of_lt (by omega), Outcome.ok_bind, arrondi_of_lt h]
  rfl

/-- What a failed or a served request for a frame, with the tables that lead to it,
gives a page: the entry's address. -/
abbrev Memoire := Feuilles → ℕ → Option ℕ

/-- The loop of `map_alloc_accounted`: a page that is there is kept. -/
def mapPages (memoire : Memoire) (flags : ℕ) : List ℕ → Feuilles → Bool × Feuilles
  | [], e => (true, e)
  | p :: ps, e =>
    if present (e p) then mapPages memoire flags ps e
    else
      match memoire e p with
      | none => (false, e)
      | some phys =>
        mapPages memoire flags ps (update e p ((phys &&& ADDR_MASK) ||| flags ||| PTE_PRESENT))

def mapAllocAccounted (memoire : Memoire) (e : Feuilles) (virt len flags kind : ℕ) :
    Outcome ε Faute (Bool × Feuilles) := do
  let (start, fin) ← bornes virt len
  pure (mapPages memoire ((flags &&& (2 ^ 64 - 1 - PTE_RSS_KIND_MASK)) ||| kind) (pages start fin) e)

def protegePage (flags : ℕ) (e : Feuilles) (p : ℕ) : Feuilles :=
  if present (e p) then update e p (protegee flags (e p)) else e

def prepareProtect (e : Feuilles) (virt len flags : ℕ) : Outcome ε Faute Feuilles := do
  let (start, fin) ← bornes virt len
  pure ((pages start fin).foldl (protegePage flags) e)

/-- Does `write` find every page of the range? -/
def write (e : Feuilles) (virt len : ℕ) : Outcome ε Faute Bool := do
  Outcome.require (virt + len ≤ 2 ^ 64) .debordement
  pure ((List.range' (virt / 4096) ((virt + len + 4095) / 4096 - virt / 4096)).all fun p =>
    len == 0 || present (e p))

variable {memoire : Memoire} {flags : ℕ} {ps : List ℕ} {e e' : Feuilles} {p : ℕ} {ok : Bool}

theorem mapPages_eq (h : mapPages memoire flags ps e = (ok, e')) (hp : p ∉ ps ∨ present (e p) = true) :
    e' p = e p := by
  induction ps generalizing e with
  | nil =>
    cases h
    rfl
  | cons q ps ih =>
    rw [mapPages] at h
    split at h
    · exact ih h (hp.imp_left fun hp hq => hp (mem_cons_of_mem _ hq))
    · rename_i hq
      split at h
      · cases h
        rfl
      · have hne : p ≠ q := by
          rintro rfl
          rcases hp with hp | hp
          · exact hp mem_cons_self
          · exact hq hp
        have he : ∀ x, update e q x p = e p := fun x => update_of_ne hne x e
        rw [ih h, he]
        rw [he]
        exact hp.imp_left fun hp hq => hp (mem_cons_of_mem _ hq)

theorem present_mapPages (h : mapPages memoire flags ps e = (true, e')) (hp : p ∈ ps) :
    present (e' p) = true := by
  induction ps generalizing e with
  | nil => cases hp
  | cons q ps ih =>
    rw [mapPages] at h
    split at h
    · rename_i hq
      rcases mem_cons.mp hp with rfl | hp
      · rw [mapPages_eq h (.inr hq)]
        exact hq
      · exact ih h hp
    · split at h
      · cases h
      · rcases mem_cons.mp hp with rfl | hp
        · have hpr : ∀ x, present (x ||| PTE_PRESENT) = true := by
            intro x
            rw [present_eq, Nat.testBit_or]
            simp [PTE_PRESENT]
          rw [mapPages_eq h (.inr (by rw [update_self]; exact hpr _)), update_self]
          exact hpr _
        · exact ih h hp

theorem mapPages_of_present (h : ∀ p ∈ ps, present (e p) = true) :
    mapPages memoire flags ps e = (true, e) := by
  induction ps with
  | nil => rfl
  | cons q ps ih =>
    rw [mapPages, if_pos (h q mem_cons_self)]
    exact ih fun p hp => h p (mem_cons_of_mem _ hp)

theorem foldl_protegePage (hnd : ps.Nodup) :
    ps.foldl (protegePage flags) e p =
      if p ∈ ps ∧ present (e p) = true then protegee flags (e p) else e p := by
  induction ps generalizing e with
  | nil => simp
  | cons q ps ih =>
    obtain ⟨hq, hnd⟩ := nodup_cons.mp hnd
    rw [foldl_cons, ih hnd]
    by_cases hpq : p = q
    · subst hpq
      by_cases hp : present (e p) = true <;> simp [hq, hp, protegePage]
    · have he : protegePage flags e q p = e p := by
        unfold protegePage
        split
        · exact update_of_ne hpq _ e
        · rfl
      rw [he]
      simp [hpq]

theorem nodup_pages (start fin : ℕ) : (pages start fin).Nodup := nodup_range'

end BouchaudOS.Espace
