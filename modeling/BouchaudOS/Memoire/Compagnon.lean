import BouchaudOS.Foundations.Dyadic
import BouchaudOS.Foundations.Extents
import BouchaudOS.Foundations.LinkedChain

/-!
# The buddy allocator

`src/kernel/memory/{compagnon,pages_tas}.rs`: free blocks of each order are in a
list whose links are stored in the blocks themselves, and one bit for each block
and order says whether it is in the list. Taking a block splits a larger one;
giving it back joins it with its twin as long as the twin is free.

The free lists hold exactly the maximal full blocks of the set of free pages, so
that they depend on this set only. Users may write anything in the pages they
hold. Block numbers are 64-bit numbers; a bitmap of 17 bits for each page has to be
in memory, so that there are too few of them for a sum to overflow. The bit planes
are functions of the order and the block. The plane of the pages already served once
and the counters of events decide nothing and are left out.
-/

namespace BouchaudOS.PagesTas

open DyadicBlock Function

/-- `ORDRES`. -/
def ordres : ℕ := 16

/-- `AUCUN`: the end of a list. -/
def aucun : ℕ := 2 ^ 64 - 1

def jumeau (bloc ordre : ℕ) : ℕ := bloc ^^^ 2 ^ ordre

/-- `pere`: clear bit `ordre` of a 64-bit number. -/
def pere (bloc ordre : ℕ) : ℕ := bloc &&& (2 ^ 64 - 1 - 2 ^ ordre)

def aligne (bloc ordre : ℕ) : Bool := bloc &&& (2 ^ ordre - 1) = 0

/-- The allocator, with the links in its terrain. -/
structure Compagnon where
  blocs : ℕ
  libre : ℕ → ℕ → Bool
  tetes : ℕ → ℕ
  disponibles : ℕ
  lien : ℕ → ℕ

open Compagnon

namespace Compagnon

/-- `neuf`, on a terrain that holds anything, with a bitmap that is long enough. -/
def neuf (blocs : ℕ) (lien : ℕ → ℕ) : Option Compagnon :=
  if blocs = 0 then none else some ⟨blocs, fun _ _ => false, fun _ => aucun, 0, lien⟩

variable (s : Compagnon)

def estLibre (bloc ordre : ℕ) : Bool :=
  if s.blocs ≤ bloc ∨ ordres ≤ ordre then false else s.libre ordre bloc

def marque (bloc ordre : ℕ) (libre : Bool) : Compagnon :=
  { s with libre := Function.update s.libre ordre (Function.update (s.libre ordre) bloc libre) }

def empile (bloc ordre : ℕ) : Compagnon :=
  { s with
    lien := Function.update s.lien bloc (s.tetes ordre)
    tetes := Function.update s.tetes ordre bloc }.marque bloc ordre true

/-- The walk of `retire`: the block before `bloc`, within `n` steps. -/
def precedent (lien : ℕ → ℕ) (bloc : ℕ) : ℕ → ℕ → ℕ → Option ℕ
  | 0, precedent, courant =>
    if courant = aucun then none else if courant = bloc then some precedent else none
  | n + 1, precedent, courant =>
    if courant = aucun then none
    else if courant = bloc then some precedent
    else Compagnon.precedent lien bloc n courant (lien courant)

def retire (bloc ordre : ℕ) : Bool × Compagnon :=
  match precedent s.lien bloc s.blocs aucun (s.tetes ordre) with
  | none => (false, s)
  | some p =>
    let suivant := s.lien bloc
    let s :=
      if p = aucun then { s with tetes := Function.update s.tetes ordre suivant }
      else { s with lien := Function.update s.lien p suivant }
    (true, s.marque bloc ordre false)

/-- The loop of `rend`, for at most `n` joins. -/
def fusionne : ℕ → Compagnon → ℕ → ℕ → Compagnon × ℕ × ℕ
  | 0, s, bloc, ordre => (s, bloc, ordre)
  | n + 1, s, bloc, ordre =>
    let compagnon := jumeau bloc ordre
    if s.blocs ≤ compagnon ∨ s.blocs < compagnon + 2 ^ ordre then (s, bloc, ordre)
    else if !s.estLibre compagnon ordre then (s, bloc, ordre)
    else
      match s.retire compagnon ordre with
      | (false, _) => (s, bloc, ordre)
      | (true, s) => fusionne n s (pere bloc ordre) (ordre + 1)

def rend (bloc ordre : ℕ) : Bool × Compagnon :=
  if ordres ≤ ordre ∨ s.blocs ≤ bloc ∨ !aligne bloc ordre then (false, s)
  else if s.blocs < bloc + 2 ^ ordre then (false, s)
  else if s.estLibre bloc ordre then (false, s)
  else
    let (s, bloc', ordre') := fusionne (ordres - 1 - ordre) s bloc ordre
    let s := s.empile bloc' ordre'
    (true, { s with disponibles := s.disponibles + 2 ^ ordre })

/-- Give back the upper halves, from order `ordre + n` down to `ordre`. -/
def divise (bloc ordre : ℕ) : ℕ → Compagnon → Compagnon
  | 0, s => s
  | n + 1, s => divise bloc ordre n (s.empile (bloc + 2 ^ (ordre + n)) (ordre + n))

/-- First order from `ordre` on whose list is not empty. -/
def source (ordre : ℕ) : Option ℕ :=
  (List.range' ordre (ordres - ordre)).find? fun k => s.tetes k ≠ aucun

def prend (ordre : ℕ) : Option ℕ × Compagnon :=
  if ordres ≤ ordre then (none, s)
  else
    match s.source ordre with
    | none => (none, s)
    | some source =>
      let bloc := s.tetes source
      let s := { s with tetes := Function.update s.tetes source (s.lien bloc) }.marque bloc source false
      let s := divise bloc ordre (source - ordre) s
      (some bloc, { s with disponibles := s.disponibles - 2 ^ ordre })

/-- The largest block that starts at a position. -/
def plusGrandOrdre (blocs position : ℕ) : ℕ → ℕ
  | 0 => 0
  | ordre + 1 =>
    if aligne position (ordre + 1) ∧ position + 2 ^ (ordre + 1) ≤ blocs then ordre + 1
    else plusGrandOrdre blocs position ordre

/-- The loop that feeds the allocator in `configure`, with fuel. -/
def alimente : ℕ → Compagnon → ℕ → Option Compagnon
  | 0, s, position => if position < s.blocs then none else some s
  | n + 1, s, position =>
    if position < s.blocs then
      let ordre := plusGrandOrdre s.blocs position (ordres - 1)
      match s.rend position ordre with
      | (false, _) => none
      | (true, s) => alimente n s (position + 2 ^ ordre)
    else some s

/-- The allocator that `configure` puts in service; every turn feeds a page. -/
def configure (blocs : ℕ) (lien : ℕ → ℕ) : Option Compagnon :=
  match neuf blocs lien with
  | none => none
  | some s => alimente blocs s 0

def parcourt (lien : ℕ → ℕ) : ℕ → ℕ → List ℕ
  | 0, _ => []
  | n + 1, courant => if courant = aucun then [] else courant :: parcourt lien n (lien courant)

def liste (ordre : ℕ) : List ℕ := parcourt s.lien s.blocs (s.tetes ordre)

end Compagnon

theorem aligne_iff {bloc ordre : ℕ} : aligne bloc ordre = true ↔ 2 ^ ordre ∣ bloc := by
  rw [aligne, decide_eq_true_eq, Nat.and_two_pow_sub_one_eq_mod, Nat.dvd_iff_mod_eq_zero]

theorem pere_eq_head {bloc ordre : ℕ} (hb : 2 ^ ordre ∣ bloc) (hlt : bloc < 2 ^ 64) (ho : ordre < 64) :
    pere bloc ordre = head (ordre + 1) bloc := by
  have hpow : 2 ^ ordre < 2 ^ 64 := Nat.pow_lt_pow_right (by decide) ho
  have hmask : 2 ^ 64 - 1 - 2 ^ ordre = 2 ^ 64 - (2 ^ ordre + 1) := by omega
  refine Nat.eq_of_testBit_eq fun i => ?_
  rw [pere, hmask, Nat.testBit_and, Nat.testBit_two_pow_sub_succ hpow, head, ← Nat.shiftRight_eq_div_pow,
    ← Nat.shiftLeft_eq, Nat.testBit_shiftLeft, Nat.testBit_shiftRight, Nat.testBit_two_pow]
  rcases lt_trichotomy i ordre with hi | rfl | hi
  · obtain ⟨q, rfl⟩ := hb
    have hbit : (2 ^ ordre * q).testBit i = false := by
      rw [Nat.mul_comm, ← Nat.shiftLeft_eq, Nat.testBit_shiftLeft]
      simp [hi]
    simp [hbit, show ¬ordre + 1 ≤ i by omega]
  · simp
  · rw [show ordre + 1 + (i - (ordre + 1)) = i by omega]
    by_cases h64 : i < 64
    · simp [h64, show ordre ≠ i by omega, show ordre + 1 ≤ i by omega]
    · have hbit : bloc.testBit i = false :=
        Nat.testBit_lt_two_pow (hlt.trans_le (Nat.pow_le_pow_right (by decide) (not_lt.mp h64)))
      simp [hbit]

/-- The lists of the orders, as the links and the bits give them. -/
structure Listes (s : Compagnon) (L : ℕ → List ℕ) : Prop where
  borne : s.blocs < 2 ^ 64
  chaine : ∀ k < ordres, Chain aucun s.lien (s.tetes k) (L k)
  nodup : ∀ k < ordres, (L k).Nodup
  bits : ∀ k < ordres, ∀ b, s.libre k b = true ↔ b ∈ L k
  separees : ∀ j < ordres, ∀ k < ordres, ∀ b, b ∈ L j → b ∈ L k → j = k
  valides : ∀ k < ordres, ∀ b ∈ L k, b < s.blocs

namespace Listes

variable {s : Compagnon} {L : ℕ → List ℕ} {b j k : ℕ}

section

variable (h : Listes s L)

include h

theorem ne_aucun (hb : b < s.blocs) : b ≠ aucun := by
  have := h.borne
  unfold aucun
  omega

theorem length_le (hk : k < ordres) : (L k).length ≤ s.blocs := by
  have hsub : L k ⊆ List.range s.blocs := fun b hb => List.mem_range.mpr (h.valides k hk b hb)
  have hle := ((h.nodup k hk).subperm hsub).length_le
  rwa [List.length_range] at hle

theorem liste_eq (hk : k < ordres) : s.liste k = L k := by
  have hlire : ∀ (n t : ℕ) (l : List ℕ), Chain aucun s.lien t l → l.length ≤ n → parcourt s.lien n t = l := by
    intro n
    induction n with
    | zero =>
      intro t l _ hn
      exact (List.eq_nil_of_length_eq_zero (Nat.le_zero.mp hn)).symm
    | succ n ih =>
      intro t l hc hn
      cases l with
      | nil => exact if_pos hc
      | cons b l =>
        obtain ⟨rfl, hb, hl⟩ := hc
        rw [parcourt, if_neg hb, ih _ l hl (by simpa using hn)]
  exact hlire _ _ _ (h.chaine k hk) (h.length_le hk)

theorem tete_eq_aucun (hk : k < ordres) : s.tetes k = aucun ↔ L k = [] :=
  (h.chaine k hk).eq_nil_iff

/-- One list is replaced: the rest follows once the links and the bits do. -/
theorem remplace {s' : Compagnon} {l : List ℕ} (hblocs : s'.blocs = s.blocs)
    (hl : l.Nodup ∧ ∀ b ∈ l, b < s.blocs ∧ ∀ j < ordres, b ∈ L j → j = k)
    (hchaine : Chain aucun s'.lien (s'.tetes k) l)
    (htetes : ∀ j, j ≠ k → s'.tetes j = s.tetes j)
    (hliens : ∀ j < ordres, j ≠ k → ∀ b ∈ L j, s'.lien b = s.lien b)
    (hbits : ∀ b, s'.libre k b = true ↔ b ∈ l) (hautres : ∀ j, j ≠ k → s'.libre j = s.libre j) :
    Listes s' (Function.update L k l) := by
  obtain ⟨hnodup, hl⟩ := hl
  have hmem : ∀ i c, c ∈ Function.update L k l i → i = k ∧ c ∈ l ∨ c ∈ L i := by
    intro i c hc
    by_cases hik : i = k
    · exact .inl ⟨hik, by simpa [hik] using hc⟩
    · exact .inr (by simpa [hik] using hc)
  refine ⟨hblocs ▸ h.borne, fun j hj => ?_, fun j hj => ?_, fun j hj c => ?_, fun i hi j hj c hci hcj => ?_,
    fun j hj c hc => ?_⟩
  · by_cases hjk : j = k
    · simpa [hjk] using hchaine
    · rw [update_of_ne hjk, htetes j hjk]
      exact (h.chaine j hj).congr (hliens j hj hjk)
  · by_cases hjk : j = k
    · simpa [hjk] using hnodup
    · simpa [hjk] using h.nodup j hj
  · by_cases hjk : j = k
    · simpa [hjk] using hbits c
    · simpa [hjk, hautres j hjk] using h.bits j hj c
  · rcases hmem i c hci with ⟨rfl, hc⟩ | hci
    · rcases hmem j c hcj with ⟨rfl, -⟩ | hcj
      · rfl
      · exact ((hl c hc).2 j hj hcj).symm
    · rcases hmem j c hcj with ⟨rfl, hc⟩ | hcj
      · exact (hl c hc).2 i hi ‹_›
      · exact h.separees i hi j hj c hci hcj
  · rw [hblocs]
    rcases hmem j c hc with ⟨-, hc⟩ | hc
    · exact (hl c hc).1
    · exact h.valides j hj c hc

theorem of_sublist {l : List ℕ} (hk : k < ordres) (hsub : l.Sublist (L k)) :
    l.Nodup ∧ ∀ b ∈ l, b < s.blocs ∧ ∀ j < ordres, b ∈ L j → j = k := by
  refine ⟨(h.nodup k hk).sublist hsub, fun b hb => ?_⟩
  have hm := hsub.subset hb
  exact ⟨h.valides k hk b hm, fun j hj hb => h.separees j hj k hk b hb hm⟩

theorem empile (hk : k < ordres) (hb : b < s.blocs) (hlibre : ∀ j < ordres, b ∉ L j) :
    Listes (s.empile b k) (Function.update L k (b :: L k)) := by
  have hcons := (h.chaine k hk).cons (h.ne_aucun hb) (hlibre k hk)
  obtain ⟨hnodup, hl⟩ := h.of_sublist hk (List.Sublist.refl (L k))
  refine h.remplace rfl ⟨List.nodup_cons.mpr ⟨hlibre k hk, hnodup⟩,
      List.forall_mem_cons.mpr ⟨⟨hb, fun j hj hm => (hlibre j hj hm).elim⟩, hl⟩⟩
    (by simpa [Compagnon.empile, marque] using hcons) (fun j hj => ?_) (fun j hj _ c hc => ?_) (fun c => ?_)
    fun j hj => ?_
  · simp [Compagnon.empile, marque, hj]
  · exact update_of_ne (ne_of_mem_of_not_mem hc (hlibre j hj)) _ _
  · by_cases hc : c = b
    · simp [Compagnon.empile, marque, hc]
    · simpa [Compagnon.empile, marque, hc] using h.bits k hk c
  · simp [Compagnon.empile, marque, hj]

theorem bits_erase (hk : k < ordres) (b c : ℕ) : (s.marque b k false).libre k c = true ↔ c ∈ (L k).erase b := by
  rw [(h.nodup k hk).mem_erase_iff, ← h.bits k hk c]
  by_cases hc : c = b
  · simp [marque, hc]
  · simp [marque, hc]

theorem depile {l : List ℕ} (hk : k < ordres) (hl : L k = b :: l) : s.tetes k = b ∧
      Listes ({ s with tetes := Function.update s.tetes k (s.lien b) }.marque b k false)
        (Function.update L k l) := by
  have hchaine := h.chaine k hk
  rw [hl] at hchaine
  obtain ⟨hb, -, hsuite⟩ := hchaine
  have herase : (L k).erase b = l := by rw [hl, List.erase_cons_head]
  refine ⟨hb, h.remplace rfl (h.of_sublist hk (hl ▸ List.sublist_cons_self b l)) ?_ (fun j hj => ?_) (fun _ _ _ _ _ => rfl)
    (fun c => herase ▸ h.bits_erase hk b c) fun j hj => ?_⟩
  · simpa [marque] using hsuite
  · simp [marque, hj]
  · simp [marque, hj]

end

theorem precedent_eq {lien : ℕ → ℕ} {n p t : ℕ} {a l : List ℕ} (hc : Chain aucun lien t (a ++ b :: l))
    (hb : b ∉ a) (hn : a.length ≤ n) :
    precedent lien b n p t = some (a.getLast?.getD p) := by
  induction a generalizing n p t with
  | nil =>
    obtain ⟨rfl, ht, -⟩ := hc
    cases n <;> simp [precedent, ht]
  | cons c a ih =>
    obtain ⟨rfl, ht, hsuite⟩ := hc
    obtain ⟨n, rfl⟩ : ∃ m, n = m + 1 := ⟨n - 1, by simp at hn; omega⟩
    have htb : t ≠ b := fun he => hb (he ▸ List.mem_cons_self)
    rw [precedent, if_neg ht, if_neg htb,
      ih hsuite (fun hm => hb (List.mem_cons_of_mem _ hm)) (by simpa using hn), List.getLast?_cons]
    rfl

theorem retire (h : Listes s L) (hk : k < ordres) (hb : b ∈ L k) :
    ∃ s', s.retire b k = (true, s') ∧ s'.blocs = s.blocs ∧ s'.disponibles = s.disponibles ∧
      Listes s' (Function.update L k ((L k).erase b)) := by
  obtain ⟨a, l, hl⟩ := List.append_of_mem hb
  have hchaine := h.chaine k hk
  have hnodup := h.nodup k hk
  rw [hl] at hchaine hnodup
  have hba : b ∉ a := fun hm => (List.nodup_append.mp hnodup).2.2 b hm b List.mem_cons_self rfl
  have herase : (L k).erase b = a ++ l := by
    rw [hl, List.erase_append_right _ hba, List.erase_cons_head]
  have hlen : a.length ≤ s.blocs := by
    have hle := h.length_le hk
    rw [hl, List.length_append] at hle
    omega
  have hsub := h.of_sublist hk (hl ▸ (List.sublist_cons_self b l).append_left a)
  rw [herase, Compagnon.retire, precedent_eq hchaine hba hlen]
  refine ⟨_, rfl, ?_⟩
  rcases List.eq_nil_or_concat' a with rfl | ⟨a, p, rfl⟩
  · obtain ⟨-, -, hsuite⟩ := hchaine
    refine ⟨rfl, rfl, h.remplace rfl hsub ?_ (fun j hj => ?_) (fun _ _ _ _ _ => rfl)
      (fun c => herase ▸ h.bits_erase hk b c) fun j hj => ?_⟩
    · simpa [marque] using hsuite
    · simp [marque, hj]
    · simp [marque, hj]
  · have hp : p ∈ L k := by
      rw [hl]
      simp
    rw [List.getLast?_concat, Option.getD_some, if_neg (h.ne_aucun (h.valides k hk p hp))]
    refine ⟨rfl, rfl, h.remplace rfl hsub ?_ (fun _ _ => rfl) (fun j hj hjk c hc => ?_)
      (fun c => herase ▸ h.bits_erase hk b c) fun j hj => ?_⟩
    · rw [List.append_assoc] at hchaine hnodup ⊢
      exact hchaine.unlink hnodup
    · refine update_of_ne ?_ _ _
      rintro rfl
      exact hjk (h.separees j hj k hk c hc hp)
    · simp [marque, hj]

end Listes

/-- The lists hold the maximal full blocks of the set `F` of free pages. -/
structure Tient (s : Compagnon) (F : Set ℕ) (L : ℕ → List ℕ) : Prop extends Listes s L where
  zone : ∀ x ∈ F, x < s.blocs
  maximaux : ∀ k < ordres, ∀ b, b ∈ L k ↔ Maximal (ordres - 1) F k b

/-- A block of the zone with no free page. -/
structure Occupe (s : Compagnon) (F : Set ℕ) (k b : ℕ) : Prop where
  ordre : k < ordres
  dvd : 2 ^ k ∣ b
  zone : ∀ x ∈ block k b, x < s.blocs
  hors : ∀ x ∈ block k b, x ∉ F

namespace Tient

variable {s : Compagnon} {F : Set ℕ} {L : ℕ → List ℕ} {b k n : ℕ}

variable (h : Tient s F L)

include h

theorem compte (n : ℕ) : Tient { s with disponibles := n } F L :=
  ⟨⟨h.borne, h.chaine, h.nodup, h.bits, h.separees, h.valides⟩, h.zone, h.maximaux⟩

theorem estLibre_iff (hk : k < ordres) : s.estLibre b k = true ↔ Maximal (ordres - 1) F k b := by
  rw [← h.maximaux k hk, ← h.bits k hk, estLibre]
  by_cases hb : s.blocs ≤ b
  · have hnot : b ∉ L k := fun hm => absurd (h.valides k hk b hm) (not_lt.mpr hb)
    rw [if_pos (.inl hb), h.bits k hk]
    exact iff_of_false Bool.false_ne_true hnot
  · rw [if_neg (by omega)]

theorem retire (hk : k < ordres) (hb : Maximal (ordres - 1) F k b) :
    ∃ s' L', s.retire b k = (true, s') ∧ s'.blocs = s.blocs ∧ s'.disponibles = s.disponibles ∧
      Tient s' (F \ block k b) L' := by
  obtain ⟨s', hret, hblocs, hdisp, hL⟩ := h.toListes.retire hk ((h.maximaux k hk b).mpr hb)
  refine ⟨s', _, hret, hblocs, hdisp, hL, fun x hx => hblocs ▸ h.zone x hx.1, fun j hj c => ?_⟩
  rw [maximal_diff hb, ← h.maximaux j hj c]
  by_cases hjk : j = k
  · subst hjk
    rw [update_self, (h.nodup j hj).mem_erase_iff]
    simp [and_comm]
  · simp [hjk]

theorem depile {l : List ℕ} (hk : k < ordres) (hl : L k = b :: l) : s.tetes k = b ∧ Maximal (ordres - 1) F k b ∧
      Tient ({ s with tetes := Function.update s.tetes k (s.lien b) }.marque b k false)
        (F \ block k b) (Function.update L k l) := by
  obtain ⟨htete, hL⟩ := h.toListes.depile hk hl
  have hb : Maximal (ordres - 1) F k b := (h.maximaux k hk b).mp (hl ▸ List.mem_cons_self)
  refine ⟨htete, hb, hL, fun x hx => h.zone x hx.1, fun j hj c => ?_⟩
  rw [maximal_diff hb, ← h.maximaux j hj c]
  by_cases hjk : j = k
  · subst hjk
    have hnot : b ∉ l := (List.nodup_cons.mp (hl ▸ h.nodup j hj)).1
    rw [update_self, hl, List.mem_cons]
    constructor
    · intro hc
      exact ⟨.inr hc, fun he => hnot (he.2 ▸ hc)⟩
    · rintro ⟨hc, hne⟩
      exact hc.resolve_left fun he => hne ⟨rfl, he⟩
  · simp [hjk]

theorem empile (hb : Occupe s F k b) (hjumeau : k < ordres - 1 → ¬Maximal (ordres - 1) F k (twin k b)) :
    Tient (s.empile b k) (F ∪ block k b) (Function.update L k (b :: L k)) := by
  have hself := mem_block_self hb.dvd
  have hL := h.toListes.empile hb.ordre (hb.zone b hself) fun j hj hm =>
    hb.hors b hself ((h.maximaux j hj b).mp hm).mem
  refine ⟨hL, ?_, fun j hj c => ?_⟩
  · rintro x (hx | hx)
    · exact h.zone x hx
    · exact hb.zone x hx
  · rw [maximal_union hb.dvd (Nat.le_sub_one_of_lt hb.ordre) hb.hors hjumeau, ← h.maximaux j hj c]
    by_cases hjk : j = k
    · subst hjk
      simp [or_comm]
    · simp [hjk]

/-- The block above a block and its free twin, once the twin has left its list. -/
theorem occupe_pere (hb : Occupe s F k b) (hk : k + 1 < ordres) (hmax : Maximal (ordres - 1) F k (twin k b)) :
    Occupe s (F \ block k (twin k b)) (k + 1) (head (k + 1) b) where
  ordre := hk
  dvd := dvd_head _ _
  zone := by
    rw [block_succ hb.dvd]
    rintro x (hx | hx)
    · exact hb.zone x hx
    · exact h.zone x (hmax.full hx)
  hors := by
    rw [block_succ hb.dvd]
    rintro x (hx | hx) hxF
    · exact hb.hors x hx hxF.1
    · exact hxF.2 hx

/-- A turn of the loop stops unless the twin is in its list. -/
theorem fusionne_succ (hb : Occupe s F k b) (n : ℕ) :
    (¬Maximal (ordres - 1) F k (twin k b) ∧ fusionne (n + 1) s b k = (s, b, k)) ∨
      Maximal (ordres - 1) F k (twin k b) ∧ ∃ s' L', s'.blocs = s.blocs ∧
        s'.disponibles = s.disponibles ∧ Tient s' (F \ block k (twin k b)) L' ∧
        fusionne (n + 1) s b k = fusionne n s' (head (k + 1) b) (k + 1) := by
  rw [fusionne, show jumeau b k = twin k b from rfl]
  by_cases hmax : Maximal (ordres - 1) F k (twin k b)
  · right
    have hfits := (forall_mem_block_lt (dvd_twin hb.dvd)).mp fun x hx => h.zone x (hmax.full hx)
    have hpos : 0 < 2 ^ k := Nat.two_pow_pos k
    have hlt : b < 2 ^ 64 := (hb.zone b (mem_block_self hb.dvd)).trans h.borne
    obtain ⟨s', L', hret, hblocs, hdisp, h'⟩ := h.retire hb.ordre hmax
    refine ⟨hmax, s', L', hblocs, hdisp, h', ?_⟩
    rw [if_neg (by omega), (h.estLibre_iff hb.ordre).mpr hmax, hret,
      pere_eq_head hb.dvd hlt (hb.ordre.trans (by decide))]
    rfl
  · have hlibre : s.estLibre (twin k b) k = false :=
      Bool.eq_false_iff.mpr fun hl => hmax ((h.estLibre_iff hb.ordre).mp hl)
    refine .inl ⟨hmax, ?_⟩
    rw [hlibre]
    exact ite_self _

/-- The joins end with a block that may be put in its list: its twin is not there. -/
theorem fusionne (hn : k + n = ordres - 1) (hb : Occupe s F k b) :
    ∃ s' b' k' F' L', fusionne n s b k = (s', b', k') ∧ s'.blocs = s.blocs ∧
      s'.disponibles = s.disponibles ∧ Tient s' F' L' ∧ Occupe s' F' k' b' ∧
      (k' < ordres - 1 → ¬Maximal (ordres - 1) F' k' (twin k' b')) ∧
      F' ∪ block k' b' = F ∪ block k b := by
  induction n generalizing s F L b k with
  | zero =>
    exact ⟨s, b, k, F, L, rfl, rfl, rfl, h, hb, fun hlt => absurd hlt (by omega), rfl⟩
  | succ n ih =>
    rcases h.fusionne_succ hb n with ⟨hmax, he⟩ | ⟨hmax, s1, L1, hblocs, hdisp, h1, he⟩
    · exact ⟨s, b, k, F, L, he, rfl, rfl, h, hb, fun _ => hmax, rfl⟩
    · have hpere := h.occupe_pere hb (by omega) hmax
      obtain ⟨s', b', k', F', L', he', hblocs', hdisp', h', hb', hj', hF'⟩ :=
        ih h1 (by omega) ⟨hpere.ordre, hpere.dvd, hblocs ▸ hpere.zone, hpere.hors⟩
      refine ⟨s', b', k', F', L', he.trans he', hblocs'.trans hblocs, hdisp'.trans hdisp, h', hb', hj', ?_⟩
      rw [hF', block_succ hb.dvd]
      ext x
      by_cases hx : x ∈ block k (twin k b)
      · simp [hx, hmax.full hx]
      · simp [hx]

theorem rend (hb : Occupe s F k b) : ∃ s' L', s.rend b k = (true, s') ∧ s'.blocs = s.blocs ∧
      s'.disponibles = s.disponibles + 2 ^ k ∧ Tient s' (F ∪ block k b) L' := by
  have hk := hb.ordre
  have hself := mem_block_self hb.dvd
  have hfits := (forall_mem_block_lt hb.dvd).mp hb.zone
  have hzone := hb.zone b hself
  have hlibre : s.estLibre b k = false :=
    Bool.eq_false_iff.mpr fun hl => hb.hors b hself ((h.estLibre_iff hk).mp hl).mem
  obtain ⟨s', b', k', F', L', he, hblocs, hdisp, h', hb', hj', hF⟩ :=
    h.fusionne (n := ordres - 1 - k) (by omega) hb
  have hfin := h'.empile hb' hj'
  rw [hF] at hfin
  have hgarde : ¬(ordres ≤ k ∨ s.blocs ≤ b ∨ (!aligne b k) = true) := by
    rw [aligne_iff.mpr hb.dvd]
    simp
    omega
  refine ⟨{ s'.empile b' k' with disponibles := s'.disponibles + 2 ^ k }, _, ?_, hblocs,
    congrArg (· + 2 ^ k) hdisp, hfin.compte _⟩
  rw [Compagnon.rend, if_neg hgarde, if_neg (by omega), hlibre, he]
  rfl

/-- The upper halves given back on the way down. -/
theorem divise (hb : Occupe s F (k + n) b) : (divise b k n s).blocs = s.blocs ∧
      (divise b k n s).disponibles = s.disponibles ∧
      ∃ L', Tient (divise b k n s) (F ∪ block (k + n) b \ block k b) L' := by
  induction n generalizing s F L with
  | zero =>
    refine ⟨rfl, rfl, L, ?_⟩
    rw [Nat.add_zero, Set.sdiff_self, Set.union_empty]
    exact h
  | succ n ih =>
    obtain ⟨hn, hdvd, hin, hors⟩ := hb
    have hb' : 2 ^ (k + n) ∣ b := (Nat.pow_dvd_pow 2 (Nat.le_succ _)).trans hdvd
    have htwin : twin (k + n) b = b + 2 ^ (k + n) := twin_of_dvd hdvd
    have hup : block (k + (n + 1)) b = block (k + n) b ∪ block (k + n) (twin (k + n) b) := by
      rw [← block_succ hb', head_of_dvd (show 2 ^ (k + n + 1) ∣ b from hdvd), Nat.add_assoc]
    rw [hup] at hin hors
    -- the lower half is taken, so that the upper one stays as it is
    have hpose := h.empile
      ⟨by omega, dvd_twin hb', fun x hx => hin x (.inr hx), fun x hx => hors x (.inr hx)⟩
      fun _ hmax => by
        rw [twin_twin] at hmax
        exact hors b (.inl (mem_block_self hb')) hmax.mem
    have hbas : Occupe (s.empile (twin (k + n) b) (k + n)) (F ∪ block (k + n) (twin (k + n) b))
        (k + n) b := by
      refine ⟨by omega, hb', fun x hx => hin x (.inl hx), ?_⟩
      rintro x hx (hxF | hxT)
      · exact hors x (.inl hx) hxF
      · exact notMem_block_twin hx hxT
    rw [divise, ← htwin]
    obtain ⟨hblocs, hdisp, L', hfin⟩ := ih hpose hbas
    refine ⟨hblocs, hdisp, L', ?_⟩
    have hset : F ∪ block (k + n) (twin (k + n) b) ∪ block (k + n) b \ block k b =
        F ∪ block (k + (n + 1)) b \ block k b := by
      rw [hup]
      ext x
      have hsub : x ∈ block k b → x ∉ block (k + n) (twin (k + n) b) := fun hx =>
        notMem_block_twin (block_subset_of_le hb' (Nat.le_add_right k n) hx)
      simp only [Set.mem_union, Set.mem_sdiff]
      tauto
    rwa [hset] at hfin

theorem source_none (hs : s.source k = none) (hb : 2 ^ k ∣ b) (hk : k < ordres) : ¬Full F k b := by
  intro hfull
  obtain ⟨j, hj, hmax⟩ := exists_maximal hb (Nat.le_sub_one_of_lt hk) hfull
  have hjo : j < ordres := by
    have := hmax.le
    omega
  have hvide : s.tetes j = aucun := by
    have hnone := List.find?_eq_none.mp hs j (List.mem_range'_1.mpr (by omega))
    simpa using hnone
  have hmem := (h.maximaux j hjo _).mpr hmax
  rw [(h.tete_eq_aucun hjo).mp hvide] at hmem
  exact absurd hmem List.not_mem_nil

theorem source_some {j : ℕ} (hs : s.source k = some j) : k ≤ j ∧ j < ordres ∧ ∃ b l, L j = b :: l := by
  have hmem := List.mem_range'_1.mp (List.mem_of_find?_eq_some hs)
  have hj : j < ordres := by omega
  have htete : s.tetes j ≠ aucun := by simpa using List.find?_some hs
  exact ⟨hmem.1, hj, List.exists_cons_of_ne_nil fun hnil => htete ((h.tete_eq_aucun hj).mpr hnil)⟩

/-- Taking a block: a full one, or none is left. -/
theorem prend (hk : k < ordres) : (s.prend k = (none, s) ∧ ∀ b, 2 ^ k ∣ b → ¬Full F k b) ∨
      ∃ b s' L', s.prend k = (some b, s') ∧ 2 ^ k ∣ b ∧ Full F k b ∧ s'.blocs = s.blocs ∧
        s'.disponibles = s.disponibles - 2 ^ k ∧ Tient s' (F \ block k b) L' := by
  rw [Compagnon.prend, if_neg (not_le.mpr hk)]
  cases hs : s.source k with
  | none => exact .inl ⟨rfl, fun b hb => h.source_none hs hb hk⟩
  | some j =>
    obtain ⟨hkj, hj, b, l, hl⟩ := h.source_some hs
    obtain ⟨n, rfl⟩ := Nat.exists_eq_add_of_le hkj
    obtain ⟨htete, hmax, hpop⟩ := h.depile hj hl
    have hocc : Occupe ({ s with tetes := Function.update s.tetes (k + n) (s.lien b) }.marque b (k + n)
        false) (F \ block (k + n) b) (k + n) b :=
      ⟨hj, hmax.dvd, fun x hx => h.zone x (hmax.full hx), fun x hx hxF => hxF.2 hx⟩
    obtain ⟨hblocs, hdisp, L', hfin⟩ := hpop.divise hocc
    have hsub : block k b ⊆ block (k + n) b := block_subset_of_le hmax.dvd hkj
    have hset : F \ block (k + n) b ∪ block (k + n) b \ block k b = F \ block k b := by
      ext x
      have h2 := @hmax.full x
      simp only [Set.mem_union, Set.mem_sdiff]
      tauto
    rw [hset] at hfin
    right
    dsimp only
    rw [htete, Nat.add_sub_cancel_left]
    exact ⟨b, _, L', rfl, (Nat.pow_dvd_pow 2 hkj).trans hmax.dvd, hsub.trans hmax.full, hblocs,
      congrArg (· - 2 ^ k) hdisp, hfin.compte _⟩

theorem ecrit {lien : ℕ → ℕ} (he : ∀ x ∈ F, lien x = s.lien x) : Tient { s with lien } F L where
  borne := h.borne
  chaine k hk := (h.chaine k hk).congr fun b hb => he b ((h.maximaux k hk b).mp hb).mem
  nodup := h.nodup
  bits := h.bits
  separees := h.separees
  valides := h.valides
  zone := h.zone
  maximaux := h.maximaux

end Tient

theorem plusGrandOrdre_spec {blocs position : ℕ} (h : position < blocs) (n : ℕ) :
    plusGrandOrdre blocs position n ≤ n ∧
      2 ^ plusGrandOrdre blocs position n ∣ position ∧
      position + 2 ^ plusGrandOrdre blocs position n ≤ blocs := by
  induction n with
  | zero => exact ⟨le_rfl, Nat.one_dvd _, h⟩
  | succ n ih =>
    rw [plusGrandOrdre]
    split
    · rename_i hpris
      exact ⟨le_rfl, aligne_iff.mp hpris.1, hpris.2⟩
    · exact ⟨ih.1.trans (Nat.le_succ n), ih.2⟩

variable {blocs : ℕ}

theorem Tient.neuf (h : blocs < 2 ^ 64) (lien : ℕ → ℕ) :
    Tient ⟨blocs, fun _ _ => false, fun _ => aucun, 0, lien⟩ ∅ fun _ => [] where
  borne := h
  chaine _ _ := rfl
  nodup _ _ := List.nodup_nil
  bits _ _ _ := by simp
  separees _ _ _ _ _ hb := absurd hb List.not_mem_nil
  valides _ _ _ hb := absurd hb List.not_mem_nil
  zone _ hx := hx.elim
  maximaux _ _ _ := iff_of_false List.not_mem_nil fun hmax => hmax.mem

variable {L : ℕ → List ℕ} {s : Compagnon} {F : Set ℕ}

theorem Tient.alimente {n position : ℕ}
    (h : Tient s {x | x < position} L) (hle : position ≤ s.blocs) (hn : s.blocs - position ≤ n)
    (hdisp : s.disponibles = position) :
    ∃ s' L', alimente n s position = some s' ∧ s'.blocs = s.blocs ∧
      s'.disponibles = s.blocs ∧ Tient s' {x | x < s.blocs} L' := by
  induction n generalizing s L position with
  | zero =>
    obtain rfl : position = s.blocs := by omega
    exact ⟨s, L, if_neg (lt_irrefl _), rfl, hdisp, h⟩
  | succ n ih =>
    rw [alimente]
    by_cases hlt : position < s.blocs
    · rw [if_pos hlt]
      dsimp only
      generalize hord : plusGrandOrdre s.blocs position (ordres - 1) = k
      obtain ⟨hk, hdvd, hfits⟩ := hord ▸ plusGrandOrdre_spec hlt (ordres - 1)
      have hocc : Occupe s {x | x < position} k position := by
        refine ⟨by unfold ordres at hk ⊢; omega, hdvd, (forall_mem_block_lt hdvd).mpr hfits, ?_⟩
        intro x hx
        exact not_lt.mpr ((mem_block_iff hdvd).mp hx).1
      obtain ⟨s', L', hrend, hblocs, hdisp', h'⟩ := h.rend hocc
      have hset : {x | x < position} ∪ block k position = {x | x < position + 2 ^ k} := by
        ext x
        rw [Set.mem_union, mem_block_iff hdvd]
        simp only [Set.mem_ofPred_eq]
        omega
      rw [hset] at h'
      rw [hrend]
      obtain ⟨s2, L2, he, hblocs2, hdisp2, h2⟩ := ih h' (by omega) (by omega) (by omega)
      rw [hblocs] at hblocs2 hdisp2 h2
      exact ⟨s2, L2, he, hblocs2, hdisp2, h2⟩
    · obtain rfl : position = s.blocs := by omega
      rw [if_neg hlt]
      exact ⟨s, L, rfl, rfl, hdisp, h⟩

theorem configure_spec (hpos : 1 ≤ blocs) (h64 : blocs < 2 ^ 64) (lien : ℕ → ℕ) :
    ∃ s L, configure blocs lien = some s ∧ s.blocs = blocs ∧ s.disponibles = blocs ∧
      Tient s {x | x < blocs} L := by
  have hvide : {x : ℕ | x < 0} = ∅ := by simp
  have hneuf := Tient.neuf h64 lien
  rw [← hvide] at hneuf
  rw [configure, neuf, if_neg (by omega)]
  exact hneuf.alimente (Nat.zero_le _) (Nat.sub_le _ _) rfl

/-- An extent in use. -/
structure Vivante where
  bloc : ℕ
  ordre : ℕ
  deriving DecidableEq

def Vivante.etendue (v : Vivante) : Extent := ⟨v.bloc, 2 ^ v.ordre⟩

/-- The allocator and what is in use. -/
structure Systeme where
  etat : Compagnon
  vivantes : List Vivante

namespace Systeme

variable (s : Systeme)

def prend (ordre : ℕ) : Systeme :=
  match s.etat.prend ordre with
  | (some bloc, c) => ⟨c, ⟨bloc, ordre⟩ :: s.vivantes⟩
  | (none, c) => ⟨c, s.vivantes⟩

def rend (v : Vivante) : Systeme :=
  ⟨(s.etat.rend v.bloc v.ordre).2, s.vivantes.erase v⟩

def utilisees : ℕ := (s.vivantes.map fun v => 2 ^ v.ordre).sum

def libres : Set ℕ := {x | x < s.etat.blocs ∧ ∀ v ∈ s.vivantes, ¬v.etendue.Holds x}

end Systeme

/-- Blocks taken, blocks in use given back once, and anything written by users in the
pages that are not free. -/
inductive Course (s₀ : Systeme) : Systeme → Prop
  | debut : Course s₀ s₀
  | prend {s : Systeme} (k : ℕ) : Course s₀ s → k < ordres → Course s₀ (s.prend k)
  | rend {s : Systeme} (v : Vivante) : Course s₀ s → v ∈ s.vivantes → Course s₀ (s.rend v)
  | ecrit {s : Systeme} (lien : ℕ → ℕ) : Course s₀ s → (∀ x ∈ s.libres, lien x = s.etat.lien x) →
    Course s₀ ⟨{ s.etat with lien }, s.vivantes⟩

namespace Systeme

structure Inv (blocs : ℕ) (s : Systeme) : Prop where
  taille : s.etat.blocs = blocs
  tient : ∃ L, Tient s.etat s.libres L
  alignees : ∀ v ∈ s.vivantes, v.ordre < ordres ∧ 2 ^ v.ordre ∣ v.bloc
  logees : Packed 1 0 blocs (s.vivantes.map Vivante.etendue)
  compte : s.etat.disponibles + s.utilisees = blocs

variable {s : Systeme}

theorem holds_iff {v : Vivante} {x : ℕ} (h : 2 ^ v.ordre ∣ v.bloc) :
    v.etendue.Holds x ↔ x ∈ block v.ordre v.bloc := (mem_block_iff h).symm

theorem sum_etendues (l : List Vivante) :
    ((l.map Vivante.etendue).map Extent.size).sum = (l.map fun v => 2 ^ v.ordre).sum := by
  rw [List.map_map]
  rfl

theorem Inv.prend (h : s.Inv blocs) {k : ℕ} (hk : k < ordres) : (s.prend k).Inv blocs := by
  obtain ⟨L, hL⟩ := h.tient
  rcases hL.prend hk with ⟨he, -⟩ | ⟨b, c, L', he, hb, hfull, hblocs, hdisp, hL'⟩
  · have hs : s.prend k = s := by rw [Systeme.prend, he]
    rwa [hs]
  · have hs : s.prend k = ⟨c, ⟨b, k⟩ :: s.vivantes⟩ := by rw [Systeme.prend, he]
    have hpos : 0 < 2 ^ k := Nat.two_pow_pos k
    have hlibres : (s.prend k).libres = s.libres \ block k b := by
      ext x
      rw [hs]
      simp only [libres, Set.mem_ofPred_eq, Set.mem_sdiff, List.forall_mem_cons, hblocs]
      rw [holds_iff (show 2 ^ (⟨b, k⟩ : Vivante).ordre ∣ (⟨b, k⟩ : Vivante).bloc from hb)]
      tauto
    have hfits := (forall_mem_block_lt hb).mp fun x hx => hL.zone x (hfull hx)
    rw [h.taille] at hfits
    have hloge : Packed 1 0 blocs ((⟨b, k⟩ :: s.vivantes).map Vivante.etendue) := by
      refine Packed.cons_iff.mpr ⟨⟨Nat.zero_le _, hfits⟩, hpos, ⟨Nat.one_dvd _, Nat.one_dvd _⟩, ?_, h.logees⟩
      intro e he
      obtain ⟨v, hv, rfl⟩ := List.mem_map.mp he
      refine Extent.apart_of_not_holds hpos (Nat.two_pow_pos _) fun x hx => ?_
      exact (hfull ((mem_block_iff hb).mpr hx)).2 v hv
    have hsum := hloge.sum_size_le
    rw [sum_etendues] at hsum
    have hcompte := h.compte
    rw [hs] at hlibres ⊢
    refine ⟨hblocs.trans h.taille, ⟨L', hlibres ▸ hL'⟩, ?_, hloge, ?_⟩
    · exact List.forall_mem_cons.mpr ⟨⟨hk, hb⟩, h.alignees⟩
    · simp only [utilisees, List.map_cons, List.sum_cons] at hsum hcompte ⊢
      omega

theorem Inv.rend (h : s.Inv blocs) {v : Vivante} (hv : v ∈ s.vivantes) : (s.rend v).Inv blocs := by
  obtain ⟨L, hL⟩ := h.tient
  obtain ⟨hk, hb⟩ := h.alignees v hv
  have hperm := List.perm_cons_erase hv
  have hlogees := h.logees.perm (hperm.map Vivante.etendue)
  obtain ⟨⟨-, hfits⟩, -, -, hapart, hreste⟩ := Packed.cons_iff.mp hlogees
  have hocc : Occupe s.etat s.libres v.ordre v.bloc := by
    refine ⟨hk, hb, (forall_mem_block_lt hb).mpr (h.taille ▸ hfits), fun x hx hxF => ?_⟩
    exact hxF.2 v hv ((holds_iff hb).mpr hx)
  obtain ⟨c, L', he, hblocs, hdisp, hL'⟩ := hL.rend hocc
  have hs : s.rend v = ⟨c, s.vivantes.erase v⟩ := by rw [Systeme.rend, he]
  have hlibres : (s.rend v).libres = s.libres ∪ block v.ordre v.bloc := by
    ext x
    rw [hs, Set.mem_union, ← holds_iff hb]
    simp only [libres, Set.mem_ofPred_eq, hblocs]
    constructor
    · rintro ⟨hx, hautres⟩
      by_cases hxv : v.etendue.Holds x
      · exact .inr hxv
      · refine .inl ⟨hx, fun w hw => ?_⟩
        rcases List.mem_cons.mp (hperm.mem_iff.mp hw) with rfl | hw
        · exact hxv
        · exact hautres w hw
    · rintro (⟨hx, hall⟩ | hxv)
      · exact ⟨hx, fun w hw => hall w (List.mem_of_mem_erase hw)⟩
      · refine ⟨hocc.zone x ((holds_iff hb).mp hxv), fun w hw => ?_⟩
        exact (hapart _ (List.mem_map_of_mem hw)).not_holds hxv
  have hsum : s.utilisees = 2 ^ v.ordre + ((s.vivantes.erase v).map fun v => 2 ^ v.ordre).sum :=
    (hperm.map fun w : Vivante => 2 ^ w.ordre).sum_eq
  have hcompte := h.compte
  rw [hs] at hlibres ⊢
  refine ⟨hblocs.trans h.taille, ⟨L', hlibres ▸ hL'⟩, fun w hw => ?_, hreste, ?_⟩
  · exact h.alignees w (List.mem_of_mem_erase hw)
  · simp only [utilisees] at hsum hcompte ⊢
    omega

theorem Inv.ecrit (h : s.Inv blocs) {lien : ℕ → ℕ} (he : ∀ x ∈ s.libres, lien x = s.etat.lien x) :
    (⟨{ s.etat with lien }, s.vivantes⟩ : Systeme).Inv blocs := by
  obtain ⟨L, hL⟩ := h.tient
  exact ⟨h.taille, ⟨L, hL.ecrit he⟩, h.alignees, h.logees, h.compte⟩

theorem libres_nil (c : Compagnon) : (⟨c, []⟩ : Systeme).libres = {x | x < c.blocs} := by
  simp [libres]

end Systeme

open Systeme

theorem Course.inv {s0 s : Systeme} (h0 : s0.Inv blocs) (h : Course s0 s) : s.Inv blocs := by
  induction h with
  | debut => exact h0
  | prend k _ hk ih => exact ih.prend hk
  | rend v _ hv ih => exact ih.rend hv
  | ecrit lien _ he ih => exact ih.ecrit he

theorem inv_configure (hpos : 1 ≤ blocs) (h64 : blocs < 2 ^ 64) (lien : ℕ → ℕ) :
    ∃ s, configure blocs lien = some s ∧ (⟨s, []⟩ : Systeme).Inv blocs := by
  obtain ⟨s, L, he, hblocs, hdisp, hL⟩ := configure_spec hpos h64 lien
  refine ⟨s, he, hblocs, ⟨L, ?_⟩, by simp, Packed.nil _ _ _, hdisp⟩
  rw [libres_nil, hblocs]
  exact hL

theorem Tient.perm {s s' : Compagnon} {L L' : ℕ → List ℕ} (h : Tient s F L)
    (h' : Tient s' F L') {k : ℕ} (hk : k < ordres) : (s.liste k).Perm (s'.liste k) := by
  rw [h.liste_eq hk, h'.liste_eq hk]
  refine (List.perm_ext_iff_of_nodup (h.nodup k hk) (h'.nodup k hk)).mpr fun b => ?_
  rw [h.maximaux k hk, h'.maximaux k hk]

theorem Tient.prend_eq_none (h : Tient s F L) {k : ℕ}
    (hk : k < ordres) : (s.prend k).1 = none ↔ ¬∃ b, 2 ^ k ∣ b ∧ ∀ x, b ≤ x → x < b + 2 ^ k → x ∈ F := by
  have hfull : ∀ b, 2 ^ k ∣ b → (Full F k b ↔ ∀ x, b ≤ x → x < b + 2 ^ k → x ∈ F) := by
    intro b hb
    refine forall_congr' fun x => ?_
    rw [mem_block_iff hb]
    exact and_imp
  rcases h.prend hk with ⟨he, hnone⟩ | ⟨b, s', L', he, hb, hpris, -⟩
  · rw [he]
    refine iff_of_true rfl ?_
    rintro ⟨b, hb, hx⟩
    exact hnone b hb ((hfull b hb).mpr hx)
  · rw [he]
    refine iff_of_false (Option.some_ne_none b) fun hnone => ?_
    exact hnone ⟨b, hb, (hfull b hb).mp hpris⟩

/-- Once fed, the allocator hands out aligned extents of the zone that are apart, counts
its free pages, has lists without duplicates that agree with the bits, refuses only
when no aligned extent is free, and its lists depend on the free pages only. -/
theorem compagnon_sur (blocs : ℕ) (hpos : 1 ≤ blocs) (h64 : blocs < 2 ^ 64) (lien : ℕ → ℕ) :
    ∃ s₀, Compagnon.configure blocs lien = some s₀ ∧ ∀ s, Course ⟨s₀, []⟩ s →
      (∀ v ∈ s.vivantes, 2 ^ v.ordre ∣ v.bloc ∧ v.bloc + 2 ^ v.ordre ≤ blocs) ∧
      s.vivantes.Pairwise (fun v w => v.etendue.Apart w.etendue) ∧
      (s.utilisees ≤ blocs ∧ s.etat.disponibles = blocs - s.utilisees) ∧
      (∀ k < ordres, Chain aucun s.etat.lien (s.etat.tetes k) (s.etat.liste k) ∧
        (s.etat.liste k).Nodup ∧ ∀ b, b ∈ s.etat.liste k ↔ s.etat.libre k b = true) ∧
      (∀ k < ordres, (s.etat.prend k).1 = none ↔
        ¬∃ b, 2 ^ k ∣ b ∧ ∀ x, b ≤ x → x < b + 2 ^ k → x ∈ s.libres) ∧
      (∀ lien' s₀' s', Compagnon.configure blocs lien' = some s₀' → Course ⟨s₀', []⟩ s' →
        s'.libres = s.libres → ∀ k < ordres, (s'.etat.liste k).Perm (s.etat.liste k)) ∧
      (s.vivantes = [] → ∀ k < ordres, (s.etat.liste k).Perm (s₀.liste k)) := by
  obtain ⟨s₀, he, h₀⟩ := inv_configure hpos h64 lien
  refine ⟨s₀, he, fun s hs => ?_⟩
  have h := hs.inv h₀
  obtain ⟨L, hL⟩ := h.tient
  have hcompte := h.compte
  refine ⟨fun v hv => ⟨(h.alignees v hv).2, (h.logees.inside _ (List.mem_map_of_mem hv)).2⟩,
    List.pairwise_map.mp h.logees.apart, by omega, fun k hk => ?_, fun k hk => hL.prend_eq_none hk,
    fun lien' s₀' s' he' hs' hlibres k hk => ?_, fun hvide k hk => ?_⟩
  · rw [hL.liste_eq hk]
    exact ⟨hL.chaine k hk, hL.nodup k hk, fun b => (hL.bits k hk b).symm⟩
  · obtain ⟨t₀, het, ht₀⟩ := inv_configure hpos h64 lien'
    obtain rfl : t₀ = s₀' := Option.some.inj (het.symm.trans he')
    obtain ⟨L', hL'⟩ := (hs'.inv ht₀).tient
    rw [hlibres] at hL'
    exact hL'.perm hL hk
  · obtain ⟨L₀, hL₀⟩ := h₀.tient
    have hsame : s.libres = (⟨s₀, []⟩ : Systeme).libres := by
      have hs : s = ⟨s.etat, []⟩ := by rw [← hvide]
      rw [hs, libres_nil, libres_nil, h.taille, show s₀.blocs = blocs from h₀.taille]
    rw [hsame] at hL
    exact hL.perm hL₀ hk

/-- On five pages, two of them taken: three are left, in a list of order 1 and one of
order 0, and no four pages are together. -/
theorem compagnon_sur_cinq : ∃ s₀, Compagnon.configure 5 (fun _ => 0) = some s₀ ∧
    ((⟨s₀, []⟩ : Systeme).prend 1).vivantes = [⟨0, 1⟩] ∧
    ((⟨s₀, []⟩ : Systeme).prend 1).etat.disponibles = 3 ∧
    ¬∃ b, 2 ^ 2 ∣ b ∧ ∀ x, b ≤ x → x < b + 2 ^ 2 → x ∈ ((⟨s₀, []⟩ : Systeme).prend 1).libres := by
  obtain ⟨s₀, he, h⟩ := compagnon_sur 5 (by decide) (by decide) fun _ => 0
  obtain ⟨-, -, ⟨-, hdisp⟩, -, hnone, -⟩ := h _ (.prend 1 .debut (by decide))
  have hcalcul : ∀ c ∈ configure 5 fun _ => 0,
      ((⟨c, []⟩ : Systeme).prend 1).vivantes = [⟨0, 1⟩] ∧
        (((⟨c, []⟩ : Systeme).prend 1).etat.prend 2).1 = none := by decide
  obtain ⟨hviv, hrefus⟩ := hcalcul s₀ he
  refine ⟨s₀, he, hviv, ?_, (hnone 2 (by decide)).mp hrefus⟩
  rw [hdisp, utilisees, hviv]
  rfl

theorem Tient.rend_eq_false (h : Tient s F L) (b k : ℕ) :
    s.rend b k = (false, s) ↔ ordres ≤ k ∨ ¬2 ^ k ∣ b ∨ s.blocs < b + 2 ^ k ∨ Maximal (ordres - 1) F k b := by
  have hpos : 0 < 2 ^ k := Nat.two_pow_pos k
  rw [Compagnon.rend, ← aligne_iff]
  by_cases hk : ordres ≤ k
  · simp [hk]
  · rw [← h.estLibre_iff (not_le.mp hk)]
    by_cases hb : s.blocs ≤ b
    · simp [hb, show s.blocs < b + 2 ^ k by omega]
    · cases aligne b k <;> cases s.estLibre b k <;> simp [hk, hb]

/-- What frees a block twice is refused exactly when the block is misplaced or is, as it
stands, a block of the free lists: `rend` reads the mark of its own order only. -/
theorem double_liberation_iff (blocs : ℕ) (hpos : 1 ≤ blocs) (h64 : blocs < 2 ^ 64) (lien : ℕ → ℕ)
    (s₀ : Compagnon) (h₀ : Compagnon.configure blocs lien = some s₀) (s : Systeme)
    (hs : Course ⟨s₀, []⟩ s) (b k : ℕ) :
    ((∃ x ∈ s.libres, b ≤ x ∧ x < b + 2 ^ k) → s.etat.rend b k = (false, s.etat)) ↔
      (∀ x ∈ s.libres, ¬(b ≤ x ∧ x < b + 2 ^ k)) ∨ ordres ≤ k ∨ ¬2 ^ k ∣ b ∨ blocs < b + 2 ^ k ∨
        Maximal (ordres - 1) s.libres k b := by
  obtain ⟨t₀, he, ht₀⟩ := inv_configure hpos h64 lien
  obtain rfl : t₀ = s₀ := Option.some.inj (he.symm.trans h₀)
  have h := hs.inv ht₀
  obtain ⟨L, hL⟩ := h.tient
  rw [hL.rend_eq_false, h.taille, imp_iff_not_or]
  push Not
  rfl

/-- Two free pages are one block of order 1, whose second return is refused. -/
theorem double_liberation_iff_paire : ∃ s₀, Compagnon.configure 2 (fun _ => 0) = some s₀ ∧
    0 ∈ (⟨s₀, []⟩ : Systeme).libres ∧ s₀.rend 0 1 = (false, s₀) := by
  have hcalcul : ∀ c ∈ configure 2 fun _ => 0, c.estLibre 0 1 = true := by decide
  obtain ⟨s₀, he, hinv⟩ := @inv_configure 2 (by decide) (by decide) fun _ => 0
  obtain ⟨L, hL⟩ := hinv.tient
  have hbloc := (hL.estLibre_iff (by decide)).mp (hcalcul s₀ he)
  have hrefus := double_liberation_iff 2 (by decide) (by decide) _ s₀ he _ .debut 0 1
  exact ⟨s₀, he, hbloc.mem, hrefus.mpr (by simp [hbloc]) ⟨0, hbloc.mem, by decide⟩⟩

/-- Of the same two free pages, page 0 alone is taken back and counted once more. -/
theorem double_liberation_acceptee : ∃ s₀, Compagnon.configure 2 (fun _ => 0) = some s₀ ∧
    0 ∈ (⟨s₀, []⟩ : Systeme).libres ∧ (s₀.rend 0 0).1 = true ∧ (s₀.rend 0 0).2.disponibles = 3 := by
  have hcalcul : ∀ c ∈ configure 2 fun _ => 0,
      c.blocs = 2 ∧ (c.rend 0 0).1 = true ∧ (c.rend 0 0).2.disponibles = 3 := by decide
  obtain ⟨s₀, he, -⟩ := @inv_configure 2 (by decide) (by decide) fun _ => 0
  obtain ⟨hblocs, hrendu⟩ := hcalcul s₀ he
  refine ⟨s₀, he, ?_, hrendu⟩
  rw [libres_nil, hblocs]
  exact Nat.zero_lt_two

end BouchaudOS.PagesTas
