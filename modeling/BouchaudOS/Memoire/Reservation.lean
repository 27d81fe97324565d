import BouchaudOS.Memoire.Mm

/-!
# Asking for fresh memory

A mapping without a fixed address is put into a hole of the map, so that it changes
nothing that was there. The heap has no such care: growing it replaces whatever lies
above the break. And a mapping whose pages cannot be populated is reported as failed
but stays in the map.
-/

namespace BouchaudOS.Mm

open Espace Memoire Outcome Finset

variable {regions regions' : List Vma} {debut fin longueur limite depart base candidat : ℕ} {r : Vma}

def Garde (avant apres : List Vma) : Prop := ∀ a, (lit avant a).isSome → lit apres a = lit avant a

def Neuves (avant apres : List Vma) (debut fin : ℕ) : Prop :=
  ∀ a, lit avant a = none ∧ (lit apres a).isSome ↔ Dans debut fin a

def Libre (regions : List Vma) (debut fin : ℕ) : Prop := ∀ a, Dans debut fin a → lit regions a = none

/-- Putting an area into the map is harmless exactly where the range is free. -/
theorem remplace_paisible (regions : List Vma) (r : Vma) :
    Garde regions (remplace regions r) ∧ Neuves regions (remplace regions r) r.debut r.fin ↔
      Libre regions r.debut r.fin := by
  constructor
  · rintro ⟨-, hneuves⟩ a ha
    exact ((hneuves a).mpr ha).1
  · intro hlibre
    constructor
    · intro a ha
      rw [lit_remplace, if_neg]
      intro hc
      rw [hlibre a (Vma.contient_iff.mp hc)] at ha
      cases ha
    · intro a
      rw [lit_remplace]
      constructor
      · rintro ⟨hnone, hsome⟩
        by_contra hnot
        rw [if_neg fun hc => hnot (Vma.contient_iff.mp hc), hnone] at hsome
        cases hsome
      · intro ha
        rw [if_pos (Vma.contient_iff.mpr ha)]
        exact ⟨hlibre a ha, rfl⟩

theorem ne_remplace (hlt : r.debut < r.fin) (hlibre : Libre regions r.debut r.fin) :
    remplace regions r ≠ regions := by
  intro he
  have hd : Dans r.debut r.fin r.debut := ⟨le_rfl, hlt⟩
  have hlit := lit_remplace regions r r.debut
  rw [if_pos (Vma.contient_iff.mpr hd), he, hlibre _ hd] at hlit
  cases hlit

theorem garde_refl (regions : List Vma) : Garde regions regions := fun _ _ => rfl

theorem not_contient_of_chevauche (h : chevauche regions debut fin = false) (hr : r ∈ regions) {a : ℕ}
    (ha : Dans debut fin a) : ¬r.contient a = true := by
  rw [chevauche, List.any_eq_false] at h
  exact fun hc => h r hr (Vma.chevauche_of_contient hc ha)

theorem libre_of_chevauche (h : chevauche regions debut fin = false) : Libre regions debut fin := by
  intro a ha
  apply Option.map_eq_none_iff.mpr
  apply lastMatch_eq_none.mpr
  exact fun v hv => not_contient_of_chevauche h hv ha

theorem chevauche_of_collisionFin (h : collisionFin regions debut fin = none) :
    chevauche regions debut fin = false := by
  rw [collisionFin, List.max?_eq_none_iff, List.map_eq_nil_iff, List.filter_eq_nil_iff] at h
  rw [chevauche, List.any_eq_false]
  exact h

theorem chercheTrou_spec (h : chercheTrou regions longueur limite candidat = some base) :
    (chevauche regions base (base + longueur) = false ∧ base + longueur ≤ limite) ∧ candidat ≤ base ∧
      (PAGE_SIZE ∣ candidat → PAGE_SIZE ∣ base) := by
  fun_induction chercheTrou regions longueur limite candidat with
  | case1 => cases h
  | case2 => cases h
  | case3 candidat hfit hle hcol =>
    cases h
    exact ⟨⟨chevauche_of_collisionFin hcol, not_lt.mp hle⟩, le_rfl, id⟩
  | case4 candidat hfit hle fin hcol hfin ih =>
    obtain ⟨htrou, hbase, hpage⟩ := ih h
    have hlt := lt_of_collisionFin hcol
    have hsuite : candidat ≤ pageDe (fin + PAGE_SIZE + 4095) := by
      unfold pageDe PAGE_SIZE
      omega
    exact ⟨htrou, hsuite.trans hbase, fun _ => hpage (Nat.dvd_mul_left _ _)⟩
  | case5 => cases h

theorem trouveTrou_spec (h : trouveTrou regions depart longueur limite = some base) :
    (chevauche regions base (base + longueur) = false ∧ base + longueur ≤ limite) ∧ depart ≤ base ∧
      PAGE_SIZE ∣ base := by
  obtain ⟨candidat, ha, h⟩ := Option.bind_eq_some_iff.mp h
  obtain ⟨htrou, hbase, hpage⟩ := chercheTrou_spec h
  unfold alignUp at ha
  split at ha
  · cases ha
    refine ⟨htrou, le_trans ?_ hbase, hpage (Nat.dvd_mul_left _ _)⟩
    unfold pageDe
    omega
  · cases ha

/-- Sorted spans are counted once where they overlap. -/
theorem sommeUnion_eq {start fin : ℕ} {l : List (ℕ × ℕ)} (total : ℕ)
    (hl : ((start, fin) :: l).Pairwise fun a b => a.1 ≤ b.1) : sommeUnion start fin total l =
      ajouteSature total (((start, fin) :: l).toFinset.biUnion fun s => Finset.Ico s.1 s.2).card := by
  induction l generalizing start fin total with
  | nil => simp [sommeUnion]
  | cons s l ih =>
    obtain ⟨d, f⟩ := s
    obtain ⟨hstart, hl⟩ := List.pairwise_cons.mp hl
    have hsd : start ≤ d := hstart (d, f) List.mem_cons_self
    simp only [List.toFinset_cons, biUnion_insert] at ih ⊢
    rw [sommeUnion]
    split_ifs with hd
    · rw [ih]
      · congr 2
        rw [← union_assoc]
        congr 1
        ext a
        simp
        omega
      · exact List.pairwise_cons.mpr ⟨fun s hs => hstart s (List.mem_cons_of_mem _ hs), hl.of_cons⟩
    · have hloin : Disjoint (Finset.Ico start fin)
          (Finset.Ico d f ∪ l.toFinset.biUnion fun s => Finset.Ico s.1 s.2) := by
        rw [disjoint_left]
        intro a ha hreste
        have hda : d ≤ a := by
          rcases mem_union.mp hreste with hreste | hreste
          · exact (mem_Ico.mp hreste).1
          · obtain ⟨s, hs, has⟩ := mem_biUnion.mp hreste
            have hds : d ≤ s.1 := List.rel_of_pairwise_cons hl (List.mem_toFinset.mp hs)
            exact hds.trans (mem_Ico.mp has).1
        have hfin := (mem_Ico.mp ha).2
        omega
      rw [ih _ hl, card_union_of_disjoint hloin, Nat.card_Ico]
      unfold ajouteSature
      omega

theorem octetsVirtuels_eq (regions : List Vma) : octetsVirtuels regions =
    ajouteSature 0 {a | ∃ v ∈ regions, v.contient a = true}.ncard := by
  have hperm := List.perm_insertionSort (fun a b : ℕ × ℕ => a.1 ≤ b.1) (regions.map fun v => (v.debut, v.fin))
  have hsort := List.pairwise_insertionSort (fun a b : ℕ × ℕ => a.1 ≤ b.1)
    (regions.map fun v => (v.debut, v.fin))
  rw [octetsVirtuels]
  generalize List.insertionSort (fun a b : ℕ × ℕ => a.1 ≤ b.1) _ = l at hperm hsort ⊢
  have hset : {a | ∃ v ∈ regions, v.contient a = true} =
      (l.toFinset.biUnion fun s => Finset.Ico s.1 s.2 : Finset ℕ) := by
    ext a
    simp [hperm.mem_iff, Vma.contient_iff, and_left_comm]
  rw [hset, Set.ncard_coe_finset]
  cases l with
  | nil => rfl
  | cons s l => exact sommeUnion_eq 0 hsort

/-- Coverage is exact, the measure is that of the union, and a hole that is found is one,
on a page boundary between `depart` and `limite`. The search is total. -/
theorem couverture_mesure_trou (regions : List Vma) : (∀ debut fin, couvre regions debut fin = true ↔
      ∀ a, debut ≤ a → a < fin → ∃ v ∈ regions, v.contient a = true) ∧
    ({a | ∃ v ∈ regions, v.contient a = true}.ncard < 2 ^ 64 →
      octetsVirtuels regions = {a | ∃ v ∈ regions, v.contient a = true}.ncard) ∧
    ∀ depart longueur limite base, trouveTrou regions depart longueur limite = some base →
      PAGE_SIZE ∣ base ∧ depart ≤ base ∧ base + longueur ≤ limite ∧
        ∀ a, base ≤ a → a < base + longueur → ¬∃ v ∈ regions, v.contient a = true := by
  refine ⟨fun debut fin => ?_, fun h => ?_, fun depart longueur limite base h => ?_⟩
  · rw [couvre_iff]
    refine forall_congr' fun a => ?_
    rw [← trouve_isSome_iff]
    exact and_imp
  · rw [octetsVirtuels_eq, ajouteSature]
    omega
  · obtain ⟨⟨hlibre, hlimite⟩, hdepart, hpage⟩ := trouveTrou_spec h
    refine ⟨hpage, hdepart, hlimite, fun a h1 h2 => ?_⟩
    rintro ⟨v, hv, hc⟩
    exact not_contient_of_chevauche hlibre hv ⟨h1, h2⟩ hc

theorem plageUserValide_lt {c : Creneau} (h : plageUserValide c base longueur = true) :
    base + longueur < 2 ^ 64 := by
  simp only [plageUserValide, Bool.and_eq_true, decide_eq_true_eq] at h
  exact h.1.1.2

/-- Without a fixed address the base is the beginning of a hole. -/
theorem choisitBaseMmap_spec {c : Creneau} {mmapNext addr flags next : ℕ} (hfixed : flags &&& MAP_FIXED = 0)
    (h : choisitBaseMmap c regions mmapNext addr longueur flags = .ok (base, next)) :
    chevauche regions base (base + longueur) = false ∧ base + longueur < 2 ^ 64 := by
  unfold choisitBaseMmap at h
  split at h
  · rename_i hflags
    have hno : flags &&& MAP_FIXED_NOREPLACE ≠ 0 := by
      intro h0
      rw [Nat.and_or_distrib_left, hfixed, h0] at hflags
      exact hflags rfl
    split at h
    · cases h
    split at h
    · cases h
    split at h
    · cases h
    split at h
    · cases h
    · rename_i hfit hvalide hch
      cases h
      exact ⟨by simpa using fun hc => hch ⟨hno, hc⟩, not_le.mp hfit⟩
  · split at h
    · rename_i hhint
      cases h
      exact ⟨hhint.2.2, plageUserValide_lt hhint.2.1⟩
    · split at h
      · cases h
      · rename_i b hb
        split at h
        · rename_i hfit
          cases h
          exact ⟨(trouveTrou_spec hb).1.1, by omega⟩
        · cases h

variable {σ : Type} {c : Creneau} {p : Pagination σ} {env : Environ σ} {id : ℕ} {mm : MmState σ}

def Croit (mm : MmState σ) (addr : ℕ) : Prop := 0 < addr ∧ mm.brkStart ≤ addr ∧ mm.brk < addr

/-- The heap grows by the pages between the two rounded breaks, or nothing changes. -/
def BrkPaisible (p : Pagination σ) (id : ℕ) (mm : MmState σ) (addr : ℕ) : Prop :=
  ∃ result mm', sysBrk p id mm addr = .ok (result, mm') ∧ Garde mm.promesses mm'.promesses ∧
    (result = addr → Neuves mm.promesses mm'.promesses (pageDe (mm.brk + 4095)) (pageDe (addr + 4095))) ∧
    (result ≠ addr → mm'.promesses = mm.promesses)

def TientSous (p : Pagination σ) (mm : MmState σ) (croissance : ℕ) : Prop :=
  mm.limiteAs = 0 ∨ tailleAs p mm + croissance ≤ mm.limiteAs

/-- The sums fit, and if the limit allows it nothing is mapped above the break. -/
structure TasLibre (p : Pagination σ) (mm : MmState σ) (addr : ℕ) : Prop where
  arrondi : addr + 4096 < 2 ^ 64
  limite : pageDe (mm.brk + 4095) < pageDe (addr + 4095) → mm.limiteAs ≠ 0 →
    tailleAs p mm + (pageDe (addr + 4095) - pageDe (mm.brk + 4095)) < 2 ^ 64
  libre : TientSous p mm (pageDe (addr + 4095) - pageDe (mm.brk + 4095)) →
    Libre mm.promesses (pageDe (mm.brk + 4095)) (pageDe (addr + 4095))

theorem tientSousLimite_eq_ok {croissance : ℕ} {tient : Bool} : tientSousLimite p mm croissance = .ok tient ↔
    (mm.limiteAs ≠ 0 → tailleAs p mm + croissance < 2 ^ 64) ∧ (tient = true ↔ TientSous p mm croissance) := by
  unfold tientSousLimite TientSous
  split
  · rename_i h0
    simp [h0, eq_comm]
  · rename_i h0
    cases tient <;> simp [h0, bind_eq_ok]

/-- What growing the heap comes to, once the breaks are rounded. -/
theorem sysBrk_croit {addr : ℕ} (hc : Croit mm addr) (hlt : addr + 4096 < 2 ^ 64) :
    sysBrk p id mm addr =
      if pageDe (mm.brk + 4095) < pageDe (addr + 4095) then
        tientSousLimite p mm (pageDe (addr + 4095) - pageDe (mm.brk + 4095)) >>= fun tient =>
          .ok (if tient then (addr, { mm with
              brk := addr
              promesses := remplace mm.promesses ⟨id, pageDe (mm.brk + 4095), pageDe (addr + 4095),
                protToFlags (PROT_READ ||| PROT_WRITE), .zero⟩ })
            else (mm.brk, mm))
      else .ok (addr, { mm with brk := addr }) := by
  obtain ⟨hpos, hstart, hbrk⟩ := hc
  have hgarde : ¬(addr = 0 ∨ addr < mm.brkStart) := by omega
  rw [sysBrk, brkSection, if_neg hgarde, if_pos hbrk, arrondi_of_lt (by omega), ok_bind, arrondi_of_lt hlt, ok_bind]
  split
  · cases tientSousLimite p mm (pageDe (addr + 4095) - pageDe (mm.brk + 4095)) with
    | ok tient => cases tient <;> rfl
    | err e => exact e.elim
    | fault f => rfl
  · rfl

theorem lt_of_sysBrk {addr : ℕ} {x : ℕ × MmState σ} (hc : Croit mm addr) (h : sysBrk p id mm addr = .ok x) :
    addr + 4096 < 2 ^ 64 := by
  obtain ⟨hpos, hstart, hbrk⟩ := hc
  have hgarde : ¬(addr = 0 ∨ addr < mm.brkStart) := by omega
  by_contra hge
  rw [sysBrk, brkSection, if_neg hgarde, if_pos hbrk, arrondi_of_ge (not_lt.mp hge)] at h
  by_cases hb : mm.brk + 4096 < 2 ^ 64
  · rw [arrondi_of_lt hb] at h
    cases h
  · rw [arrondi_of_ge (not_lt.mp hb)] at h
    cases h

theorem not_dans_of_le {debut fin a : ℕ} (h : fin ≤ debut) : ¬Dans debut fin a :=
  fun ha => absurd (ha.1.trans_lt ha.2) (not_lt.mpr h)

theorem neuves_vide {regions : List Vma} {debut fin : ℕ} (h : fin ≤ debut) : Neuves regions regions debut fin := by
  intro a
  constructor
  · rintro ⟨hnone, hsome⟩
    rw [hnone] at hsome
    cases hsome
  · intro ha
    exact absurd ha (not_dans_of_le h)

theorem brkPaisible_iff {addr : ℕ} (hc : Croit mm addr) : BrkPaisible p id mm addr ↔ TasLibre p mm addr := by
  constructor
  · rintro ⟨result, mm', hok, hg, hneuves, -⟩
    have hlt := lt_of_sysBrk hc hok
    rw [sysBrk_croit hc hlt] at hok
    split at hok
    · obtain ⟨tient, htient, hok⟩ := bind_eq_ok.mp hok
      obtain ⟨hfit, htiff⟩ := tientSousLimite_eq_ok.mp htient
      refine ⟨hlt, fun _ => hfit, fun hsous => ?_⟩
      rw [if_pos (htiff.mpr hsous)] at hok
      cases hok
      exact (remplace_paisible _ _).mp ⟨hg, hneuves rfl⟩
    · rename_i hge
      exact ⟨hlt, fun h => absurd h hge, fun _ a ha => absurd ha (not_dans_of_le (not_lt.mp hge))⟩
  · rintro ⟨hlt, hfit, hlibre⟩
    unfold BrkPaisible
    rw [sysBrk_croit hc hlt]
    split
    · rename_i hgrow
      by_cases htient : TientSous p mm (pageDe (addr + 4095) - pageDe (mm.brk + 4095))
      · rw [tientSousLimite_eq_ok.mpr ⟨hfit hgrow, iff_of_true rfl htient⟩, ok_bind]
        obtain ⟨hg, hn⟩ := (remplace_paisible mm.promesses ⟨id, pageDe (mm.brk + 4095), pageDe (addr + 4095),
          protToFlags (PROT_READ ||| PROT_WRITE), .zero⟩).mpr (hlibre htient)
        exact ⟨_, _, rfl, hg, fun _ => hn, fun h => absurd rfl h⟩
      · rw [tientSousLimite_eq_ok.mpr ⟨hfit hgrow, iff_of_false Bool.false_ne_true htient⟩, ok_bind]
        refine ⟨mm.brk, mm, rfl, garde_refl _, fun h => ?_, fun _ => rfl⟩
        exact absurd h hc.2.2.ne
    · rename_i hge
      exact ⟨_, _, rfl, garde_refl _, fun _ => neuves_vide (not_lt.mp hge), fun h => absurd rfl h⟩

variable {addr length prot flags offset l base next : ℕ} {fdKind : Option FdKind} {plan : Plan}

/-- The call maps a free range, or leaves the map as it is. -/
def MmapPaisible (c : Creneau) (p : Pagination σ) (env : Environ σ) (id : ℕ) (mm : MmState σ)
    (addr length prot flags : ℕ) (fdKind : Option FdKind) (offset : ℕ) : Prop :=
  ∃ r mm', sysMmap c p env id mm addr length prot flags fdKind offset = .ok (r, mm') ∧
    Garde mm.promesses mm'.promesses ∧
    (∀ b, r = .ok b → Neuves mm.promesses mm'.promesses b (b + pageDe (length + 4095))) ∧
    (∀ e, r = .error e → mm'.promesses = mm.promesses)

/-- The state of the process once a mapping is made. -/
def apresMmap (id : ℕ) (mm : MmState σ) (next : ℕ) (plan : Plan) : MmState σ :=
  avecPartage { mm with
    mmapNext := next
    promesses := remplace mm.promesses ⟨id, plan.base, plan.base + plan.length, plan.drapeaux, plan.backing⟩ } plan

/-- The mapping comes to be decided. -/
def Decide (c : Creneau) (env : Environ σ) (mm : MmState σ) (addr length prot flags : ℕ)
    (fdKind : Option FdKind) (offset : ℕ) (next : ℕ) (plan : Plan) : Prop :=
  ∃ l base, verifieMmap length prot flags offset = .ok l ∧
    choisitBaseMmap c mm.promesses mm.mmapNext addr l flags = .ok (base, next) ∧
    planMmap env base l prot flags fdKind offset = .ok plan

/-- A mapping that is decided meets a sum that fits and, if it is to be populated, pages
that can be. -/
structure Abouti (c : Creneau) (p : Pagination σ) (env : Environ σ) (id : ℕ) (mm : MmState σ)
    (addr length prot flags : ℕ) (fdKind : Option FdKind) (offset : ℕ) : Prop where
  limite : ∀ next plan, Decide c env mm addr length prot flags fdKind offset next plan →
    plan.limite = true → mm.limiteAs ≠ 0 → tailleAs p mm + plan.length < 2 ^ 64
  peuple : ∀ next plan, Decide c env mm addr length prot flags fdKind offset next plan →
    (plan.limite = true → TientSous p mm plan.length) → plan.populate = true →
    (peuplePages env (apresMmap id mm next plan)
      ((pages plan.base (plan.base + plan.length)).map (· * PAGE_SIZE))).2 = true

theorem peuplePages_promesses (mm : MmState σ) (l : List ℕ) :
    (peuplePages env mm l).1.promesses = mm.promesses := by
  induction l generalizing mm with
  | nil => rfl
  | cons page l ih =>
    rw [peuplePages]
    dsimp only
    split
    · rw [ih]
      rfl
    · rfl

theorem avecPartage_promesses (mm : MmState σ) (plan : Plan) : (avecPartage mm plan).promesses = mm.promesses := by
  unfold avecPartage
  split <;> rfl

theorem planMmap_ok (h : planMmap env base l prot flags fdKind offset = .ok plan) :
    plan.base = base ∧ plan.length = l := by
  unfold planMmap at h
  split at h
  · cases h
  · split at h
    · cases h
      exact ⟨rfl, rfl⟩
    · split at h
      · split at h
        · cases h
          exact ⟨rfl, rfl⟩
        · split at h
          · cases h
            exact ⟨rfl, rfl⟩
          · cases h
      · dsimp only at h
        split_ifs at h <;> cases h <;> exact ⟨rfl, rfl⟩
      · cases h
      · cases h

theorem verifieMmap_ok (h : verifieMmap length prot flags offset = .ok l) :
    l = pageDe (length + 4095) ∧ 0 < l := by
  unfold verifieMmap at h
  split_ifs at h with h1
  cases h
  refine ⟨rfl, ?_⟩
  unfold pageDe
  omega

theorem Decide.libre (hfixed : flags &&& MAP_FIXED = 0)
    (h : Decide c env mm addr length prot flags fdKind offset next plan) :
    Libre mm.promesses plan.base (plan.base + plan.length) ∧ plan.base + plan.length < 2 ^ 64 ∧
      plan.length = pageDe (length + 4095) ∧ 0 < plan.length := by
  obtain ⟨l, base, hv, hb, hp⟩ := h
  obtain ⟨rfl, rfl⟩ := planMmap_ok hp
  obtain ⟨hl, hpos⟩ := verifieMmap_ok hv
  obtain ⟨hch, hfit⟩ := choisitBaseMmap_spec hfixed hb
  exact ⟨libre_of_chevauche hch, hfit, hl, hpos⟩

variable (c p env id mm addr length prot flags fdKind offset) in
/-- Either the call fails before anything is decided, or it goes on with the plan. -/
theorem mmapSection_cases : (∃ e next, mmapSection c p env id mm addr length prot flags fdKind offset =
      .ok (.error e, { mm with mmapNext := next }, .vide) ∧
      ∀ next plan, ¬Decide c env mm addr length prot flags fdKind offset next plan) ∨
    ∃ next plan, Decide c env mm addr length prot flags fdKind offset next plan ∧
      (∀ next' plan', Decide c env mm addr length prot flags fdKind offset next' plan' →
        next' = next ∧ plan' = plan) ∧
      mmapSection c p env id mm addr length prot flags fdKind offset =
        poseMmap p id { mm with mmapNext := next } plan (flags &&& MAP_FIXED ≠ 0) := by
  unfold mmapSection Decide
  cases hv : verifieMmap length prot flags offset with
  | error e => exact .inl ⟨e, mm.mmapNext, rfl, fun _ _ ⟨_, _, h, _⟩ => nomatch h⟩
  | ok l =>
    cases hb : choisitBaseMmap c mm.promesses mm.mmapNext addr l flags with
    | error e =>
      refine .inl ⟨e, mm.mmapNext, ?_, ?_⟩
      · simp only [hb]
        rfl
      · rintro next plan ⟨l', base, hl, h, -⟩
        cases hl
        rw [hb] at h
        cases h
    | ok b =>
      obtain ⟨base, next⟩ := b
      cases hp : planMmap env base l prot flags fdKind offset with
      | error e =>
        refine .inl ⟨e, next, ?_, ?_⟩
        · simp only [hb, hp]
          rfl
        · rintro next' plan ⟨l', base', hl, h, h'⟩
          cases hl
          rw [hb] at h
          cases h
          rw [hp] at h'
          cases h'
      | ok plan =>
        refine .inr ⟨next, plan, ⟨l, base, rfl, hb, hp⟩, ?_, ?_⟩
        · rintro next' plan' ⟨l', base', hl, h, h'⟩
          cases hl
          rw [hb] at h
          cases h
          rw [hp] at h'
          cases h'
          exact ⟨rfl, rfl⟩
        · simp only [hb, hp]

theorem poseMmap_libre (hfit : plan.base + plan.length < 2 ^ 64) :
    poseMmap p id { mm with mmapNext := next } plan false =
      (tientPlan p mm plan false >>= fun tient =>
        .ok (if tient then (.ok plan, apresMmap id mm next plan, .vide)
          else (.error .ENOMEM, { mm with mmapNext := next }, .vide))) := by
  have htient : tientPlan p { mm with mmapNext := next } plan false = tientPlan p mm plan false := rfl
  rw [poseMmap, htient]
  cases tientPlan p mm plan false with
  | ok tient =>
    cases tient with
    | true =>
      rw [ok_bind, ok_bind, installeVma, ajoute_of_lt hfit]
      rfl
    | false => rfl
  | err e => exact e.elim
  | fault f => rfl

theorem tientPlan_eq_ok {tient : Bool} : tientPlan p mm plan false = .ok tient ↔
    (plan.limite = true → mm.limiteAs ≠ 0 → tailleAs p mm + plan.length < 2 ^ 64) ∧
      (tient = true ↔ (plan.limite = true → TientSous p mm plan.length)) := by
  unfold tientPlan
  cases plan.limite with
  | false => simp [eq_comm]
  | true => simpa using tientSousLimite_eq_ok

theorem acheveMmap_ok (env : Environ σ) (mm : MmState σ) (plan : Plan) :
    acheveMmap env (.ok plan) mm =
      if plan.populate = true ∧ (peuplePages env mm
          ((pages plan.base (plan.base + plan.length)).map (· * PAGE_SIZE))).2 = false then
        (.error .ENOMEM, (acheveMmap env (.ok plan) mm).2)
      else (.ok plan.base, (acheveMmap env (.ok plan) mm).2) := by
  unfold acheveMmap
  dsimp only
  cases hp : plan.populate with
  | false => simp
  | true =>
    generalize peuplePages env mm ((pages plan.base (plan.base + plan.length)).map (· * PAGE_SIZE)) = r
    obtain ⟨mm', ok⟩ := r
    cases ok <;> simp

theorem acheveMmap_promesses (env : Environ σ) (mm : MmState σ) (plan : Plan) :
    (acheveMmap env (.ok plan) mm).2.promesses = mm.promesses := by
  unfold acheveMmap
  dsimp only
  split
  · exact peuplePages_promesses mm _
  · rfl

theorem apresMmap_promesses (id : ℕ) (mm : MmState σ) (next : ℕ) (plan : Plan) :
    (apresMmap id mm next plan).promesses =
      remplace mm.promesses ⟨id, plan.base, plan.base + plan.length, plan.drapeaux, plan.backing⟩ :=
  avecPartage_promesses _ _

theorem sysMmap_decide (hfixed : flags &&& MAP_FIXED = 0) (hfit : plan.base + plan.length < 2 ^ 64)
    (h : mmapSection c p env id mm addr length prot flags fdKind offset =
      poseMmap p id { mm with mmapNext := next } plan (flags &&& MAP_FIXED ≠ 0)) :
    sysMmap c p env id mm addr length prot flags fdKind offset =
      (tientPlan p mm plan false >>= fun tient =>
        .ok (if tient then acheveMmap env (.ok plan) (apresMmap id mm next plan)
          else (.error .ENOMEM, { mm with mmapNext := next }))) := by
  have hlibre : decide (flags &&& MAP_FIXED ≠ 0) = false := by simp [hfixed]
  rw [hlibre, poseMmap_libre hfit] at h
  rw [sysMmap, h]
  cases tientPlan p mm plan false with
  | ok tient => cases tient <;> rfl
  | err e => exact e.elim
  | fault f => rfl

/-- A mapping without a fixed address disturbs nothing exactly when it comes to an end. -/
theorem mmapPaisible_iff (hfixed : flags &&& MAP_FIXED = 0) :
    MmapPaisible c p env id mm addr length prot flags fdKind offset ↔
      Abouti c p env id mm addr length prot flags fdKind offset := by
  obtain ⟨e, next, hsec, hnon⟩ | ⟨next, plan, hd, huniq, hsec⟩ :=
    mmapSection_cases c p env id mm addr length prot flags offset fdKind
  · have hcall : sysMmap c p env id mm addr length prot flags fdKind offset =
        .ok (.error e, { mm with mmapNext := next }) := by
      rw [sysMmap, hsec]
      rfl
    constructor
    · intro _
      exact ⟨fun next plan h => absurd h (hnon next plan), fun next plan h => absurd h (hnon next plan)⟩
    · intro _
      exact ⟨_, _, hcall, garde_refl _, nofun, fun _ _ => rfl⟩
  obtain ⟨hlibre, hfit, hlen, hpos⟩ := hd.libre hfixed
  have hcall := sysMmap_decide hfixed hfit hsec
  constructor
  · rintro ⟨r, mm', hok, -, -, herr⟩
    rw [hcall] at hok
    obtain ⟨tient, htient, hok⟩ := bind_eq_ok.mp hok
    obtain ⟨hsomme, htiff⟩ := tientPlan_eq_ok.mp htient
    constructor
    · intro next' plan' h'
      obtain ⟨rfl, rfl⟩ := huniq _ _ h'
      exact hsomme
    · intro next' plan' h' hsous hpop
      obtain ⟨rfl, rfl⟩ := huniq _ _ h'
      rw [if_pos (htiff.mpr hsous)] at hok
      by_contra hechec
      -- The pages were not all populated, yet the area is in the map.
      rw [acheveMmap_ok, if_pos ⟨hpop, by simpa using hechec⟩] at hok
      cases hok
      have heq := herr _ rfl
      rw [acheveMmap_promesses, apresMmap_promesses] at heq
      exact ne_remplace (by simpa using hpos) hlibre heq
  · rintro ⟨hsomme, hpeuple⟩
    unfold MmapPaisible
    rw [hcall]
    by_cases htient : plan.limite = true → TientSous p mm plan.length
    · rw [tientPlan_eq_ok.mpr ⟨hsomme next plan hd, iff_of_true rfl htient⟩, ok_bind]
      have hpop : ¬(plan.populate = true ∧ (peuplePages env (apresMmap id mm next plan)
          ((pages plan.base (plan.base + plan.length)).map (· * PAGE_SIZE))).2 = false) := by
        rintro ⟨hpop, hfalse⟩
        rw [hpeuple next plan hd htient hpop] at hfalse
        cases hfalse
      obtain ⟨hg, hn⟩ := (remplace_paisible mm.promesses
        ⟨id, plan.base, plan.base + plan.length, plan.drapeaux, plan.backing⟩).mpr hlibre
      rw [if_pos rfl, acheveMmap_ok, if_neg hpop]
      refine ⟨_, _, rfl, ?_, ?_, nofun⟩
      · rw [acheveMmap_promesses, apresMmap_promesses]
        exact hg
      · intro b hb
        cases hb
        rw [acheveMmap_promesses, apresMmap_promesses, ← hlen]
        exact hn
    · rw [tientPlan_eq_ok.mpr ⟨hsomme next plan hd, iff_of_false Bool.false_ne_true htient⟩, ok_bind]
      exact ⟨_, _, rfl, garde_refl _, nofun, fun _ _ => rfl⟩

/-- For every map, growing the heap and mapping without a fixed address change nothing that
was there, cover exactly their range, and change nothing when they fail, exactly when the
heap grows into free addresses and a mapping that is made is also populated. -/
theorem reservations_paisibles (c : Creneau) (p : Pagination σ) (env : Environ σ) (id : ℕ) (mm : MmState σ) :
    (∀ addr, Croit mm addr → (BrkPaisible p id mm addr ↔ TasLibre p mm addr)) ∧
      ∀ addr length prot flags fdKind offset, flags &&& MAP_FIXED = 0 →
        (MmapPaisible c p env id mm addr length prot flags fdKind offset ↔
          Abouti c p env id mm addr length prot flags fdKind offset) :=
  ⟨fun _ => brkPaisible_iff, fun _ _ _ _ _ _ => mmapPaisible_iff⟩

/-- Page tables in which nothing is resident. -/
def rienDeResident : Pagination Unit where
  mappedPages _ := 0
  translate _ _ := none
  prepareUnmap _ _ _ := .ok ((), [])
  finishUnmap _ _ := ()
  prepareProtect _ _ _ _ := .ok ()

/-- No screen, no file, and no frame left to populate a page with. -/
def sansFrame : Environ Unit := ⟨fun _ => 0, fun _ => false, none, none, fun _ _ => ((), [], false)⟩

def creneauCourant : Creneau := ⟨128, by decide⟩

def processusNeuf : MmState Unit :=
  ⟨(), creneauCourant.base + 0x800000, creneauCourant.base + 0x800000, creneauCourant.base + 0x10000000, [], 0, [], []⟩

/-- A fresh process grows its heap by a page, and maps a page after it. -/
theorem reservations_paisibles_neuf : (Croit processusNeuf (processusNeuf.brk + 4096) ∧
      BrkPaisible rienDeResident 1 processusNeuf (processusNeuf.brk + 4096)) ∧
    (MAP_PRIVATE ||| MAP_ANONYMOUS) &&& MAP_FIXED = 0 ∧
      (MmapPaisible creneauCourant rienDeResident sansFrame 1 processusNeuf 0 4096 PROT_READ
        (MAP_PRIVATE ||| MAP_ANONYMOUS) none 0 ↔
      Abouti creneauCourant rienDeResident sansFrame 1 processusNeuf 0 4096 PROT_READ
        (MAP_PRIVATE ||| MAP_ANONYMOUS) none 0) := by
  have hcroit : Croit processusNeuf (processusNeuf.brk + 4096) := ⟨by decide, by decide, by decide⟩
  obtain ⟨htas, hmap⟩ := reservations_paisibles creneauCourant rienDeResident sansFrame 1 processusNeuf
  refine ⟨⟨hcroit, (htas _ hcroit).mpr ⟨by decide, ?_, fun _ _ _ => rfl⟩⟩, by decide, hmap 0 4096 _ _ none 0 (by decide)⟩
  exact fun _ h => absurd rfl h

def unePageAuTas (id drapeaux : ℕ) : MmState Unit :=
  { processusNeuf with promesses := [⟨id, processusNeuf.brk, processusNeuf.brk + 4096, drapeaux, .zero⟩] }

/-- A page is mapped where the heap is to grow; growing the heap then replaces it. And a page
that cannot be populated stays in the map although the call fails. -/
theorem reservation_ecrase :
    sysMmap creneauCourant rienDeResident sansFrame 1 processusNeuf processusNeuf.brk 4096 PROT_READ
        (MAP_PRIVATE ||| MAP_ANONYMOUS) none 0 =
      .ok (.ok processusNeuf.brk, unePageAuTas 1 (protToFlags PROT_READ)) ∧
    sysBrk rienDeResident 2 (unePageAuTas 1 (protToFlags PROT_READ)) (processusNeuf.brk + 4096) =
      .ok (processusNeuf.brk + 4096,
        { unePageAuTas 2 (protToFlags (PROT_READ ||| PROT_WRITE)) with brk := processusNeuf.brk + 4096 }) ∧
    (trouve (unePageAuTas 1 (protToFlags PROT_READ)).promesses processusNeuf.brk).map (·.id) = some 1 ∧
    (trouve (unePageAuTas 2 (protToFlags (PROT_READ ||| PROT_WRITE))).promesses processusNeuf.brk).map (·.id) =
      some 2 ∧
    sysMmap creneauCourant rienDeResident sansFrame 1 processusNeuf processusNeuf.brk 4096 PROT_READ
        (MAP_PRIVATE ||| MAP_ANONYMOUS ||| MAP_POPULATE) none 0 =
      .ok (.error .ENOMEM, unePageAuTas 1 (protToFlags PROT_READ)) := by
  decide

end BouchaudOS.Mm
