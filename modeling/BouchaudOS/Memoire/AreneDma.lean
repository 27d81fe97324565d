import BouchaudOS.Foundations.Extents

/-!
# The DMA arena

`src/kernel/memory/arene_dma.rs`: what the drivers obtain and give back. A
frontier separates what was never handed out; what was given back is in a
bounded list of regions. An allocation takes the smallest region that is large
enough, or else moves the frontier. A region that is given back is joined with
its neighbours, and folded into the frontier when it touches it.

Addresses and sizes are 64-bit numbers that do not wrap here. Counters that
nothing reads are left out.
-/

namespace BouchaudOS.Dma

open Extent List

/-- `PAGE`. -/
def page : ℕ := 4096

/-- `REGIONS_MAX`. -/
def regionsMax : ℕ := 64

def arrondi (taille : ℕ) : ℕ := (taille + page - 1) / page * page

structure Arene where
  debut : ℕ
  /-- First address never handed out. -/
  frontiere : ℕ
  fin : ℕ
  regions : List Extent
  /-- Regions that the list could not hold. -/
  debordements : ℕ

open Arene

namespace Arene

/-- `configure`: the start is rounded up on 64 bits, the end down. -/
def configure (debut fin : ℕ) : Arene :=
  let debut := (debut + page - 1) % 2 ^ 64 / page * page
  let fin := fin / page * page
  ⟨debut, debut, if debut < fin then fin else debut, [], 0⟩

def configuree (a : Arene) : Bool := a.debut < a.fin

/-- The loop of the best fit: the index chosen, and its size. -/
def meilleure (besoin : ℕ) : List Extent → ℕ → Option ℕ × ℕ → Option ℕ × ℕ
  | [], _, m => m
  | r :: rs, index, m =>
    meilleure besoin rs (index + 1) (if besoin ≤ r.size ∧ r.size < m.2 then (some index, r.size) else m)

/-- Take `besoin` bytes from the front of a region. -/
def sers (a : Arene) (index besoin : ℕ) : Option ℕ × Arene :=
  match a.regions[index]? with
  | none => (none, a)
  | some r =>
    if r.size - besoin = 0 then (some r.base, { a with regions := swapRemove a.regions index })
    else
      (some r.base, { a with regions := a.regions.set index ⟨r.base + besoin, r.size - besoin⟩ })

def alloueVerrouille (a : Arene) (besoin : ℕ) : Option ℕ × Arene :=
  match (meilleure besoin a.regions 0 (none, 2 ^ 64 - 1)).1 with
  | some index => a.sers index besoin
  | none =>
    let fin := a.frontiere + besoin
    if 2 ^ 64 ≤ fin then (none, a)
    else if a.fin < fin then (none, a)
    else (some a.frontiere, { a with frontiere := fin })

def alloue (a : Arene) (taille : ℕ) : Option ℕ × Arene :=
  if taille = 0 then (none, a) else a.alloueVerrouille (arrondi taille)

/-- Join with the first neighbour, again and again; every turn takes one region
from the list. -/
def recolle : ℕ → Extent → List Extent → Extent × List Extent
  | 0, r, regions => (r, regions)
  | n + 1, r, regions =>
    match regions.findIdx? fun v => Touches v r with
    | none => (r, regions)
    | some index =>
      match regions[index]? with
      | none => (r, regions)
      | some v => recolle n (join r v) (swapRemove regions index)

def plusPetite : List Extent → ℕ → ℕ × ℕ → ℕ × ℕ
  | [], _, m => m
  | r :: rs, index, m => plusPetite rs (index + 1) (if r.size < m.2 then (index, r.size) else m)

/-- Put a region in the list. When it is full, one region is lost. -/
def range (a : Arene) (r : Extent) : Arene :=
  if regionsMax ≤ a.regions.length then
    let m := plusPetite a.regions 0 (0, 2 ^ 64 - 1)
    if r.size < m.2 then { a with debordements := a.debordements + 1 }
    else { a with regions := a.regions.set m.1 r, debordements := a.debordements + 1 }
  else { a with regions := a.regions ++ [r] }

def libereVerrouille (a : Arene) (r : Extent) : Arene :=
  if r.base < a.debut ∨ a.fin < r.stop then { a with debordements := a.debordements + 1 }
  else
    let (r, regions) := recolle a.regions.length r a.regions
    let a := { a with regions }
    if r.stop = a.frontiere then { a with frontiere := r.base } else a.range r

def libere (a : Arene) (base taille : ℕ) : Arene :=
  if taille = 0 ∨ !a.configuree then a
  else a.libereVerrouille ⟨base / page * page, arrondi taille⟩

end Arene

/-- A live allocation: what `alloue` was asked for and what it returned. -/
structure Vivante where
  base : ℕ
  taille : ℕ
  deriving DecidableEq

def Vivante.etendue (v : Vivante) : Extent := ⟨v.base, arrondi v.taille⟩

structure Systeme where
  arene : Arene
  vivantes : List Vivante

namespace Systeme

def alloue (s : Systeme) (taille : ℕ) : Systeme :=
  match s.arene.alloue taille with
  | (some base, a) => ⟨a, ⟨base, taille⟩ :: s.vivantes⟩
  | (none, a) => ⟨a, s.vivantes⟩

def libere (s : Systeme) (v : Vivante) : Systeme :=
  ⟨s.arene.libere v.base v.taille, s.vivantes.erase v⟩

def blocs (s : Systeme) : List Extent := s.vivantes.map Vivante.etendue ++ s.arene.regions

end Systeme

/-- Allocations of sizes that can be rounded, and live allocations given back with
their own size. -/
inductive Course (s₀ : Systeme) : Systeme → Prop
  | debut : Course s₀ s₀
  | alloue {s : Systeme} (taille : ℕ) : Course s₀ s → taille + page - 1 < 2 ^ 64 → Course s₀ (s.alloue taille)
  | libere {s : Systeme} (v : Vivante) : Course s₀ s → v ∈ s.vivantes → Course s₀ (s.libere v)

namespace Systeme

structure Inv (s : Systeme) : Prop where
  debut_le : s.arene.debut ≤ s.arene.frontiere
  le_fin : s.arene.frontiere ≤ s.arene.fin
  fin_lt : s.arene.fin < 2 ^ 64
  pages : page ∣ s.arene.debut ∧ page ∣ s.arene.frontiere ∧ page ∣ s.arene.fin
  loges : Packed page s.arene.debut s.arene.frontiere s.blocs
  isolees : s.arene.regions.Pairwise fun a b => ¬Touches a b
  bord : ∀ r ∈ s.arene.regions, r.stop ≠ s.arene.frontiere
  couvre : s.arene.debordements = 0 → Covers s.arene.debut s.arene.frontiere s.blocs

end Systeme

variable {a : Arene} {besoin index : ℕ} {l : List Extent} {m m' : Option ℕ × ℕ} {r : Extent}

/-- The loop keeps its choice or takes a better one. -/
theorem meilleure_spec (h : meilleure besoin l index m = m') :
    m'.2 ≤ m.2 ∧ (∀ r ∈ l, besoin ≤ r.size → m'.2 ≤ r.size) ∧
      (m' = m ∨ ∃ j r, m'.1 = some (index + j) ∧ l[j]? = some r ∧ besoin ≤ r.size ∧ m'.2 = r.size) := by
  induction l generalizing index m with
  | nil =>
    subst h
    exact ⟨le_rfl, by simp, .inl rfl⟩
  | cons r l ih =>
    obtain ⟨hle, hall, hcase⟩ := ih h
    have hsuite : (m' = if besoin ≤ r.size ∧ r.size < m.2 then (some index, r.size) else m) ∨
        ∃ j v, m'.1 = some (index + j) ∧ (r :: l)[j]? = some v ∧ besoin ≤ v.size ∧ m'.2 = v.size := by
      rcases hcase with he | ⟨j, v, h1, h2, h3⟩
      · exact .inl he
      · exact .inr ⟨j + 1, v, by rw [h1]; congr 1; omega, h2, h3⟩
    split at hle
    · rename_i hmieux
      refine ⟨hle.trans hmieux.2.le, forall_mem_cons.mpr ⟨fun _ => hle, hall⟩, ?_⟩
      rw [if_pos hmieux] at hsuite
      rcases hsuite with he | hj
      · exact .inr ⟨0, r, by rw [he]; rfl, rfl, hmieux.1, by rw [he]⟩
      · exact .inr hj
    · rename_i hmieux
      rw [if_neg hmieux] at hsuite
      refine ⟨hle, forall_mem_cons.mpr ⟨fun hb => ?_, hall⟩, hsuite⟩
      exact hle.trans (not_lt.mp fun hlt => hmieux ⟨hb, hlt⟩)

def reste (r : Extent) (besoin : ℕ) : List Extent :=
  if r.size - besoin = 0 then [] else [⟨r.base + besoin, r.size - besoin⟩]

theorem sers_eq (h : a.regions[index]? = some r) : ∃ regions autres, a.regions.Perm (r :: autres) ∧
    regions.Perm (reste r besoin ++ autres) ∧ a.sers index besoin = (some r.base, { a with regions }) := by
  unfold sers reste
  rw [h]
  dsimp only
  split
  · exact ⟨_, _, perm_swapRemove h, .refl _, rfl⟩
  · obtain ⟨hi, rfl⟩ := List.getElem?_eq_some_iff.mp h
    exact ⟨_, a.regions.eraseIdx index, (getElem_cons_eraseIdx_perm hi).symm,
      set_perm_cons_eraseIdx hi _, rfl⟩

/-- A region of minimal sufficient size serves the allocation, if there is one;
otherwise the frontier does. -/
theorem alloueVerrouille_cases (hpetit : ∀ r ∈ a.regions, r.size < 2 ^ 64 - 1) :
    (∃ r ∈ a.regions, besoin ≤ r.size ∧ (∀ v ∈ a.regions, besoin ≤ v.size → r.size ≤ v.size) ∧
      ∃ regions autres, a.regions.Perm (r :: autres) ∧ regions.Perm (reste r besoin ++ autres) ∧
        a.alloueVerrouille besoin = (some r.base, { a with regions })) ∨
    (∀ r ∈ a.regions, r.size < besoin) ∧
      a.alloueVerrouille besoin =
        if 2 ^ 64 ≤ a.frontiere + besoin then (none, a)
        else if a.fin < a.frontiere + besoin then (none, a)
        else (some a.frontiere, { a with frontiere := a.frontiere + besoin }) := by
  unfold alloueVerrouille
  generalize hm : meilleure besoin a.regions 0 (none, 2 ^ 64 - 1) = m
  obtain ⟨-, hall, rfl | ⟨j, r, hj, hr, hb, hs⟩⟩ := meilleure_spec hm
  · right
    refine ⟨fun r hr => not_le.mp fun hb => ?_, rfl⟩
    exact absurd (hpetit r hr) (not_lt.mpr (hall r hr hb))
  · left
    rw [Nat.zero_add] at hj
    rw [hj]
    refine ⟨r, mem_of_getElem? hr, hb, fun v hv hbv => ?_, sers_eq hr⟩
    rw [← hs]
    exact hall v hv hbv

theorem arrondi_spec {taille : ℕ} (h : taille ≠ 0) : 0 < arrondi taille ∧ page ∣ arrondi taille := by
  unfold arrondi
  refine ⟨?_, Nat.dvd_mul_left _ _⟩
  unfold page
  omega

namespace Systeme

variable {s : Systeme}

theorem Inv.petit (h : s.Inv) : ∀ r ∈ s.arene.regions, r.size < 2 ^ 64 - 1 := by
  intro r hr
  have hin := (h.loges.inside r (mem_append_right _ hr)).2
  have hdiv := (h.loges.aligned r (mem_append_right _ hr)).2
  have hle := h.le_fin
  have hlt := h.fin_lt
  unfold Extent.stop at hin
  unfold page at hdiv
  omega

theorem blocs_perm {V l autres : List Extent} (h : l.Perm (r :: autres)) :
    (V ++ l).Perm (r :: (V ++ autres)) :=
  (h.append_left V).trans perm_middle

/-- What is left of a region touches no other one. -/
theorem reste_isolees {g lo hi besoin : ℕ} {autres : List Extent} (h : Packed g lo hi (r :: autres))
    (hb : 0 < besoin) (hle : besoin ≤ r.size) (hiso : (r :: autres).Pairwise fun a b => ¬Touches a b) :
    (reste r besoin ++ autres).Pairwise fun a b => ¬Touches a b := by
  obtain ⟨hr, hautres⟩ := pairwise_cons.mp hiso
  unfold reste
  split
  · exact hautres
  · refine pairwise_cons.mpr ⟨fun v hv => ?_, hautres⟩
    obtain ⟨-, -, -, hapart, hl⟩ := Packed.cons_iff.mp h
    have h1 := hr v hv
    have h2 := hapart v hv
    unfold Touches Apart Extent.stop at *
    simp only at *
    omega

theorem isolees_perm {l l' : List Extent} (h : l.Perm l') (hl : l.Pairwise fun a b => ¬Touches a b) :
    l'.Pairwise fun a b => ¬Touches a b :=
  (h.pairwise_iff fun hab hba => hab hba.symm).mp hl

/-- A region splits into an allocation and what is left of it. -/
theorem reste_blocs {g lo hi besoin : ℕ} {l : List Extent} (h : Packed g lo hi (r :: l)) (hb : 0 < besoin)
    (hle : besoin ≤ r.size) (hg : g ∣ besoin) : Packed g lo hi (⟨r.base, besoin⟩ :: (reste r besoin ++ l)) ∧
      (Covers lo hi (r :: l) → Covers lo hi (⟨r.base, besoin⟩ :: (reste r besoin ++ l))) := by
  unfold reste
  split
  · rename_i h0
    have hsize : r = ⟨r.base, besoin⟩ := by
      cases r
      congr
      simp only at hle h0
      omega
    rw [← hsize]
    exact ⟨h, id⟩
  · exact ⟨h.split hb (by omega) hg, fun hc => hc.split _⟩

theorem Inv.alloue (h : s.Inv) (taille : ℕ) : (s.alloue taille).Inv := by
  unfold Systeme.alloue Arene.alloue
  by_cases ht : taille = 0
  · rw [if_pos ht]
    exact h
  rw [if_neg ht]
  obtain ⟨hpos, hdiv⟩ := arrondi_spec ht
  rcases alloueVerrouille_cases h.petit with ⟨r, hr, hb, -, regions, autres, hperm, hperm', he⟩ | ⟨-, he⟩
  · rw [he]
    have hblocs := blocs_perm (V := s.vivantes.map Vivante.etendue) hperm
    have hloges := h.loges.perm hblocs
    have hsub : (r :: autres).Sublist (r :: (s.vivantes.map Vivante.etendue ++ autres)) :=
      (sublist_append_right _ _).cons_cons r
    obtain ⟨hsplit, hcouvre⟩ := reste_blocs hloges hpos hb hdiv
    have hblocs' : (reste r (arrondi taille) ++ (s.vivantes.map Vivante.etendue ++ autres)).Perm
        (s.vivantes.map Vivante.etendue ++ regions) := by
      refine List.Perm.trans ?_ (hperm'.symm.append_left _)
      rw [← append_assoc, ← append_assoc]
      exact perm_append_comm.append_right _
    refine ⟨h.debut_le, h.le_fin, h.fin_lt, h.pages, hsplit.perm (hblocs'.cons _), ?_, ?_,
      fun h0 => (hcouvre ((h.couvre h0).perm hblocs)).perm (hblocs'.cons _)⟩
    · apply isolees_perm hperm'.symm
      exact reste_isolees (hloges.sublist hsub) hpos hb (isolees_perm hperm h.isolees)
    · intro v hv
      rcases mem_append.mp (hperm'.mem_iff.mp hv) with hv | hv
      · have hrb := h.bord r hr
        unfold reste at hv
        split at hv
        · cases hv
        · rw [mem_singleton.mp hv]
          unfold Extent.stop at hrb ⊢
          simp only
          omega
      · exact h.bord v (hperm.mem_iff.mpr (mem_cons_of_mem _ hv))
  · rw [he]
    split_ifs with h1 h2
    · exact h
    · exact h
    · have hfront : s.arene.frontiere < s.arene.frontiere + arrondi taille := by omega
      refine ⟨h.debut_le.trans hfront.le, not_lt.mp h2, h.fin_lt,
        ⟨h.pages.1, (Nat.dvd_add h.pages.2.1 hdiv), h.pages.2.2⟩,
        h.loges.push h.debut_le h.pages.2.1 hpos hdiv, h.isolees, fun r hr => ?_,
        fun h0 => (h.couvre h0).push⟩
      have hin := (h.loges.inside r (mem_append_right _ hr)).2
      simp only
      omega

/-- What a region has become when no neighbour is left in the list. -/
structure Recollee (g lo hi : ℕ) (V : List Extent) (r : Extent) (regions : List Extent)
    (res : Extent × List Extent) : Prop where
  loges : Packed g lo hi (res.1 :: (V ++ res.2))
  couvre : Covers lo hi (r :: (V ++ regions)) → Covers lo hi (res.1 :: (V ++ res.2))
  isolees : res.2.Pairwise fun a b => ¬Touches a b
  seule : ∀ v ∈ res.2, ¬Touches v res.1
  reprises : res.2 ⊆ regions

theorem recolle_spec {g lo hi n : ℕ} {V regions : List Extent} (hn : regions.length ≤ n)
    (hp : Packed g lo hi (r :: (V ++ regions))) (hiso : regions.Pairwise fun a b => ¬Touches a b) :
    Recollee g lo hi V r regions (recolle n r regions) := by
  induction n generalizing r regions with
  | zero =>
    obtain rfl : regions = [] := eq_nil_of_length_eq_zero (Nat.le_zero.mp hn)
    exact ⟨hp, id, .nil, by simp [recolle], List.Subset.refl _⟩
  | succ n ih =>
    rw [recolle]
    cases hidx : regions.findIdx? fun v => decide (Touches v r) with
    | none =>
      refine ⟨hp, id, hiso, fun v hv => ?_, List.Subset.refl _⟩
      have := findIdx?_eq_none_iff.mp hidx v hv
      simpa using this
    | some index =>
      obtain ⟨hlt, htouche, -⟩ := findIdx?_eq_some_iff_getElem.mp hidx
      have hget : regions[index]? = some regions[index] := getElem?_eq_getElem hlt
      have ht : Touches r regions[index] := Touches.symm (by simpa using htouche)
      dsimp only
      rw [hget]
      have hperm := perm_swapRemove hget
      generalize regions[index] = v at hperm ht
      have hblocs : (r :: (V ++ regions)).Perm (r :: v :: (V ++ swapRemove regions index)) :=
        (blocs_perm hperm).cons r
      have hiso' := isolees_perm hperm hiso
      have hlen : (swapRemove regions index).length ≤ n := by
        have := hperm.length_eq
        rw [length_cons] at this
        omega
      have hres := ih hlen ((hp.perm hblocs).joined ht) (pairwise_cons.mp hiso').2
      refine ⟨hres.loges, fun hc => hres.couvre ((hc.perm hblocs).joined ht), hres.isolees,
        hres.seule, fun w hw => ?_⟩
      exact hperm.mem_iff.mpr (mem_cons_of_mem _ (hres.reprises hw))

/-- A region goes into the list, or one is lost. -/
theorem range_cases (a : Arene) (r : Extent) : ∃ regions debordements,
    a.range r = { a with regions, debordements } ∧
      (debordements = a.debordements ∧ regions.Perm (r :: a.regions) ∨
        debordements = a.debordements + 1 ∧ ∃ l, l.Sublist (r :: a.regions) ∧ regions.Perm l) := by
  unfold Arene.range
  split
  · dsimp only
    split
    · exact ⟨_, _, rfl, .inr ⟨rfl, _, sublist_cons_self _ _, .refl _⟩⟩
    · generalize (plusPetite a.regions 0 (0, 2 ^ 64 - 1)).1 = i
      refine ⟨_, _, rfl, .inr ⟨rfl, ?_⟩⟩
      by_cases hi : i < a.regions.length
      · exact ⟨_, (eraseIdx_sublist _ _).cons_cons r, set_perm_cons_eraseIdx hi _⟩
      · rw [set_eq_of_length_le (not_lt.mp hi)]
        exact ⟨_, sublist_cons_self _ _, .refl _⟩
  · exact ⟨_, _, rfl, .inl ⟨rfl, perm_append_singleton _ _⟩⟩

/-- A live allocation is not outside of the arena. -/
theorem Inv.libere_eq (h : s.Inv) {v : Vivante} (hv : v ∈ s.vivantes) :
    s.arene.libere v.base v.taille =
      let r := recolle s.arene.regions.length v.etendue s.arene.regions
      let a := { s.arene with regions := r.2 }
      if r.1.stop = a.frontiere then { a with frontiere := r.1.base } else a.range r.1 := by
  have hmem : v.etendue ∈ s.blocs := mem_append_left _ (mem_map_of_mem hv)
  have hin := h.loges.inside _ hmem
  have hpos := h.loges.pos _ hmem
  have hal := (h.loges.aligned _ hmem).1
  have hfin := h.le_fin
  have hbase : v.base / page * page = v.base := Nat.div_mul_cancel hal
  have htaille : ¬(v.taille = 0 ∨ (!s.arene.configuree) = true) := by
    rintro (h0 | hc)
    · have hzero : v.etendue.size = 0 := by
        rw [Vivante.etendue, h0]
        rfl
      omega
    · unfold Extent.stop at hin
      simp only [configuree, Bool.not_eq_true', decide_eq_false_iff_not] at hc
      omega
  have hdedans : ¬((⟨v.base, arrondi v.taille⟩ : Extent).base < s.arene.debut ∨
      s.arene.fin < (⟨v.base, arrondi v.taille⟩ : Extent).stop) := by
    have hin' : s.arene.debut ≤ (⟨v.base, arrondi v.taille⟩ : Extent).base ∧
      (⟨v.base, arrondi v.taille⟩ : Extent).stop ≤ s.arene.frontiere := hin
    omega
  unfold Arene.libere Arene.libereVerrouille
  rw [if_neg htaille, hbase, if_neg hdedans]
  rfl

theorem Inv.libere (h : s.Inv) {v : Vivante} (hv : v ∈ s.vivantes) : (s.libere v).Inv := by
  have hvives : (s.vivantes.map Vivante.etendue).Perm
      (v.etendue :: (s.vivantes.erase v).map Vivante.etendue) := (perm_cons_erase hv).map _
  have hblocs : s.blocs.Perm (v.etendue :: ((s.vivantes.erase v).map Vivante.etendue ++ s.arene.regions)) :=
    hvives.append_right _
  have hres := recolle_spec le_rfl (h.loges.perm hblocs) h.isolees
  have hcouvre : s.arene.debordements = 0 → Covers s.arene.debut s.arene.frontiere _ :=
    fun h0 => hres.couvre ((h.couvre h0).perm hblocs)
  unfold Systeme.libere
  rw [h.libere_eq hv]
  generalize recolle s.arene.regions.length v.etendue s.arene.regions = res at hres hcouvre ⊢
  obtain ⟨r, regions⟩ := res
  obtain ⟨hloges, -, hiso, hseule, hrep⟩ := hres
  dsimp only at hloges hcouvre hiso hseule hrep ⊢
  obtain ⟨hin, hpos, hal, -, -⟩ := Packed.cons_iff.mp hloges
  split
  · rename_i hstop
    have hbase : r.base ≤ s.arene.frontiere := by
      unfold Extent.stop at hstop
      omega
    refine ⟨hin.1, hbase.trans h.le_fin, h.fin_lt, ⟨h.pages.1, hal.1, h.pages.2.2⟩,
      hloges.pop hstop, hiso, fun w hw he => ?_, fun h0 => (hcouvre h0).pop hbase⟩
    exact hseule w hw (.inl he)
  · rename_i hstop
    obtain ⟨regions', debordements, he, hcase⟩ := range_cases { s.arene with regions } r
    rw [he]
    have hbord : ∀ w ∈ r :: regions, w.stop ≠ s.arene.frontiere :=
      forall_mem_cons.mpr ⟨hstop, fun w hw => h.bord w (hrep hw)⟩
    have hiso' : (r :: regions).Pairwise fun a b => ¬Touches a b :=
      pairwise_cons.mpr ⟨fun w hw ht => hseule w hw (Touches.symm ht), hiso⟩
    have hmilieu : (r :: ((s.vivantes.erase v).map Vivante.etendue ++ regions)).Perm
        ((s.vivantes.erase v).map Vivante.etendue ++ r :: regions) := perm_middle.symm
    -- whatever the list kept of them, the regions stay as they are
    have hgarde : ∀ l, l.Sublist (r :: regions) → regions'.Perm l →
        Packed page s.arene.debut s.arene.frontiere ((s.vivantes.erase v).map Vivante.etendue ++ regions') ∧
        (regions'.Pairwise fun a b => ¬Touches a b) ∧ ∀ w ∈ regions', w.stop ≠ s.arene.frontiere := by
      intro l hsub hperm
      refine ⟨((hloges.perm hmilieu).sublist (hsub.append_left _)).perm (hperm.symm.append_left _), ?_,
        fun w hw => hbord w (hsub.subset (hperm.mem_iff.mp hw))⟩
      exact isolees_perm hperm.symm (hiso'.sublist hsub)
    rcases hcase with ⟨rfl, hperm⟩ | ⟨rfl, l, hsub, hperm⟩
    · obtain ⟨h1, h2, h3⟩ := hgarde _ (List.Sublist.refl _) hperm
      refine ⟨h.debut_le, h.le_fin, h.fin_lt, h.pages, h1, h2, h3, fun h0 => ?_⟩
      exact (hcouvre h0).perm (hmilieu.trans (hperm.symm.append_left _))
    · obtain ⟨h1, h2, h3⟩ := hgarde l hsub hperm
      exact ⟨h.debut_le, h.le_fin, h.fin_lt, h.pages, h1, h2, h3, fun h0 => nomatch h0⟩

end Systeme

theorem inv_configure (debut fin : ℕ) (hfin : fin < 2 ^ 64) : (⟨.configure debut fin, []⟩ : Systeme).Inv := by
  have hle : fin / page * page ≤ fin := Nat.div_mul_le_self _ _
  have hdeb : (debut + page - 1) % 2 ^ 64 / page * page ≤ (debut + page - 1) % 2 ^ 64 :=
    Nat.div_mul_le_self _ _
  have hd : page ∣ (debut + page - 1) % 2 ^ 64 / page * page := Nat.dvd_mul_left _ _
  have hf : page ∣ fin / page * page := Nat.dvd_mul_left _ _
  unfold configure
  refine ⟨le_rfl, ?_, ?_, ⟨hd, hd, ?_⟩, Packed.nil _ _ _, .nil, by simp, fun _ x h1 h2 => ?_⟩
  · dsimp only
    split <;> omega
  · dsimp only
    split <;> omega
  · dsimp only
    split
    · exact hf
    · exact hd
  · exact absurd h1 (not_le.mpr h2)

theorem Course.inv {s0 s : Systeme} (h0 : s0.Inv) (h : Course s0 s) : s.Inv := by
  induction h with
  | debut => exact h0
  | alloue taille _ _ ih => exact ih.alloue taille
  | libere v _ hv ih => exact ih.libere hv

theorem Arene.alloue_bornes (a : Arene) (taille : ℕ) :
    (a.alloue taille).2.debut = a.debut ∧ (a.alloue taille).2.fin = a.fin := by
  unfold alloue alloueVerrouille sers
  dsimp only
  repeat' split
  all_goals exact ⟨rfl, rfl⟩

theorem Arene.libere_bornes (a : Arene) (base taille : ℕ) :
    (a.libere base taille).debut = a.debut ∧ (a.libere base taille).fin = a.fin := by
  unfold libere libereVerrouille range
  dsimp only
  repeat' split
  all_goals exact ⟨rfl, rfl⟩

theorem Course.bornes {s0 s : Systeme} (h : Course s0 s) :
    s.arene.debut = s0.arene.debut ∧ s.arene.fin = s0.arene.fin := by
  induction h with
  | debut => exact ⟨rfl, rfl⟩
  | @alloue s taille _ _ ih =>
    have hs : (s.alloue taille).arene = (s.arene.alloue taille).2 := by
      unfold Systeme.alloue
      split <;> rename_i he <;> rw [he]
    obtain ⟨hd, hf⟩ := s.arene.alloue_bornes taille
    rw [hs, hd, hf]
    exact ih
  | @libere s v _ _ ih =>
    obtain ⟨hd, hf⟩ := s.arene.libere_bornes v.base v.taille
    exact ⟨hd.trans ih.1, hf.trans ih.2⟩

/-- In every state of every run: what is handed out, what is listed and what was
never handed out are apart, aligned and inside; no two listed regions touch and
none touches the frontier; an allocation takes a smallest region that fits, or
else the frontier; and if nothing was ever lost, giving everything back restores
the initial state. -/
theorem arene_sure {debut fin : ℕ} (hfin : fin < 2 ^ 64) {s : Systeme}
    (h : Course ⟨.configure debut fin, []⟩ s) :
    (s.blocs.Pairwise Apart ∧
      (∀ e ∈ s.blocs, s.arene.debut ≤ e.base ∧ 0 < e.size ∧ e.stop ≤ s.arene.frontiere ∧
        page ∣ e.base ∧ page ∣ e.stop) ∧
      s.arene.debut ≤ s.arene.frontiere ∧ s.arene.frontiere ≤ s.arene.fin ∧
      page ∣ s.arene.debut ∧ page ∣ s.arene.frontiere ∧ page ∣ s.arene.fin) ∧
    ((s.arene.regions.Pairwise fun a b => ¬Touches a b) ∧ ∀ r ∈ s.arene.regions, r.stop ≠ s.arene.frontiere) ∧
    (∀ taille, taille ≠ 0 → taille + page - 1 < 2 ^ 64 →
      ((∃ r ∈ s.arene.regions, arrondi taille ≤ r.size) →
        ∃ r ∈ s.arene.regions, arrondi taille ≤ r.size ∧
          (∀ v ∈ s.arene.regions, arrondi taille ≤ v.size → r.size ≤ v.size) ∧
          (s.arene.alloue taille).1 = some r.base) ∧
      ((∀ r ∈ s.arene.regions, r.size < arrondi taille) →
        (s.arene.alloue taille).1 =
          if s.arene.frontiere + arrondi taille ≤ s.arene.fin then some s.arene.frontiere
          else none)) ∧
    (s.vivantes = [] → s.arene.debordements = 0 → s.arene = .configure debut fin) := by
  have hinv := h.inv (inv_configure debut fin hfin)
  refine ⟨⟨hinv.loges.apart, fun e he => ?_, hinv.debut_le, hinv.le_fin, hinv.pages⟩,
    ⟨hinv.isolees, hinv.bord⟩, fun taille ht _ => ?_, fun hvide hzero => ?_⟩
  · have hin := hinv.loges.inside e he
    have hal := hinv.loges.aligned e he
    exact ⟨hin.1, hinv.loges.pos e he, hin.2, hal.1, Nat.dvd_add hal.1 hal.2⟩
  · have halloue : s.arene.alloue taille = s.arene.alloueVerrouille (arrondi taille) := if_neg ht
    rw [halloue]
    rcases alloueVerrouille_cases hinv.petit with ⟨r, hr, hb, hmin, regions, autres, -, -, he⟩ | ⟨hall, he⟩
    · rw [he]
      exact ⟨fun _ => ⟨r, hr, hb, hmin, rfl⟩, fun hno => absurd hb (not_le.mpr (hno r hr))⟩
    · rw [he]
      refine ⟨fun ⟨r, hr, hb⟩ => absurd hb (not_le.mpr (hall r hr)), fun _ => ?_⟩
      have hlt := hinv.fin_lt
      split_ifs <;> first | rfl | omega
  · have hblocs : s.blocs = s.arene.regions := by
      rw [Systeme.blocs, hvide]
      rfl
    have hloges := hinv.loges
    have hcouvre := hinv.couvre hzero
    rw [hblocs] at hloges hcouvre
    obtain ⟨hfront, hreg⟩ := hloges.eq_nil_of_covers hcouvre hinv.debut_le hinv.bord
    obtain ⟨hd, hf⟩ := h.bornes
    cases ha : s.arene with
    | mk debut' frontiere fin' regions debordements =>
      rw [ha] at hfront hreg hd hf hzero
      simp only at hfront hreg hd hf hzero
      rw [hfront, hreg, hd, hf, hzero]
      rfl

/-- Two allocations, given back in the order they were made. -/
theorem arene_sure_deux : ∃ s, Course ⟨.configure 0x1000 0x10000, []⟩ s ∧
    s.vivantes = [] ∧ s.arene = .configure 0x1000 0x10000 := by
  have h0 : Course ⟨.configure 0x1000 0x10000, []⟩ ⟨.configure 0x1000 0x10000, []⟩ := .debut
  have h1 := h0.alloue 5000 (by decide)
  have h2 := h1.alloue 4096 (by decide)
  have h3 := h2.libere ⟨0x1000, 5000⟩ (by decide)
  have h4 := h3.libere ⟨0x3000, 4096⟩ (by decide)
  exact ⟨_, h4, by decide, (arene_sure (by decide) h4).2.2.2 (by decide) (by decide)⟩

end BouchaudOS.Dma
