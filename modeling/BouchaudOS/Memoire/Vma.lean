import BouchaudOS.Foundations.LastMatch

/-!
# The map of an address space

`src/kernel/memory/vma.rs`: a process has a list of areas, and the last one that
holds an address gives its rights. Removing, replacing or protecting a range cuts
the areas in place, so the map changes on the range and nowhere else. An identity
is drawn for each area and each change of rights: an identity seen twice at an
address was there all the time in between.

Addresses and identities are 64-bit numbers; nothing here adds to an address, and
the counter of identities stops before it wraps.
-/

namespace BouchaudOS.Memoire

open List Option

inductive Backing
  | zero
  | file (node : ℕ) (mappingStart fileOffset fileSize : ℕ)
  | sharedFile (node : ℕ) (mappingStart fileOffset fileSize : ℕ)
  | framebuffer (physBase mappingStart physOffset : ℕ)
  deriving DecidableEq

structure Vma where
  id : ℕ
  debut : ℕ
  fin : ℕ
  drapeaux : ℕ
  backing : Backing
  deriving DecidableEq

open Vma

/-- `nouvelle_identite`: the identity drawn and the next one. The kernel stops when
they are exhausted. -/
def nouvelleIdentite (prochain : ℕ) : Option (ℕ × ℕ) :=
  if prochain + 1 < 2 ^ 64 then some (prochain, prochain + 1) else none

namespace Vma

def contient (v : Vma) (addr : ℕ) : Bool := v.debut ≤ addr && addr < v.fin

def chevauche (v : Vma) (debut fin : ℕ) : Bool := v.debut < fin && debut < v.fin

/-- The part before `debut`; it is never empty. -/
def gauche (v : Vma) (debut : ℕ) : List Vma :=
  if v.debut < debut then [{ v with fin := debut }] else []

/-- The part from `fin` on; it is never empty. -/
def droite (v : Vma) (fin : ℕ) : List Vma :=
  if fin < v.fin then [{ v with debut := fin }] else []

def milieu (v : Vma) (debut fin drapeaux id : ℕ) : List Vma :=
  let m : Vma := ⟨id, max v.debut debut, min v.fin fin, drapeaux, v.backing⟩
  if m.debut < m.fin then [m] else []

def retireDe (debut fin : ℕ) (v : Vma) : List Vma :=
  if v.chevauche debut fin then v.gauche debut ++ v.droite fin else [v]

/-- One turn of the loop of `protege`. -/
def protegeDe (debut fin drapeaux : ℕ) (v : Vma) (prochain : ℕ) : Option (List Vma × ℕ) :=
  if v.chevauche debut fin then
    if v.drapeaux ≠ drapeaux then
      (nouvelleIdentite prochain).map fun (id, prochain) =>
        (v.gauche debut ++ v.milieu debut fin drapeaux id ++ v.droite fin, prochain)
    else some (v.gauche debut ++ v.milieu debut fin drapeaux v.id ++ v.droite fin, prochain)
  else some ([v], prochain)

end Vma

variable (regions : List Vma)

def trouve (addr : ℕ) : Option Vma :=
  lastMatch (fun v => v.contient addr) regions

def retire (debut fin : ℕ) : List Vma :=
  if fin ≤ debut then regions else regions.flatMap (retireDe debut fin)

def remplace (region : Vma) : List Vma :=
  retire regions region.debut region.fin ++ [region]

def overlay (region : Vma) : List Vma := regions ++ [region]

/-- Do the areas together cover the range? -/
def couvre (debut fin : ℕ) : Bool :=
  if fin ≤ debut then true
  else
    let spans := (regions.filter fun v => v.chevauche debut fin).map fun v =>
      (max v.debut debut, min v.fin fin)
    sweep fin debut (spans.insertionSort fun a b => a.1 ≤ b.1)

/-- The loop of `protege`. -/
def protegeTout (debut fin drapeaux : ℕ) : List Vma → ℕ → Option (List Vma × ℕ)
  | [], prochain => some ([], prochain)
  | v :: vs, prochain => do
    let (f, prochain) ← v.protegeDe debut fin drapeaux prochain
    let (fs, prochain) ← protegeTout debut fin drapeaux vs prochain
    pure (f ++ fs, prochain)

/-- `protege`, with the counter of identities. -/
def protege (regions : List Vma) (debut fin drapeaux prochain : ℕ) : Option (Bool × List Vma × ℕ) :=
  if couvre regions debut fin then
    (protegeTout debut fin drapeaux regions prochain).map fun r => (true, r)
  else some (false, regions, prochain)

/-- What the map says at an address. -/
structure Sens where
  id : ℕ
  drapeaux : ℕ
  backing : Backing
  deriving DecidableEq

def Vma.sens (v : Vma) : Sens := ⟨v.id, v.drapeaux, v.backing⟩

def lit (regions : List Vma) (addr : ℕ) : Option Sens := (trouve regions addr).map sens

variable {v w : Vma} {regions regions' : List Vma} {debut fin drapeaux addr prochain prochain' : ℕ}
  {f : List Vma}

def Dans (debut fin addr : ℕ) : Prop := debut ≤ addr ∧ addr < fin

instance : Decidable (Dans debut fin addr) := inferInstanceAs (Decidable (_ ∧ _))

namespace Vma

theorem contient_iff : v.contient addr = true ↔ v.debut ≤ addr ∧ addr < v.fin := by
  simp [contient]

theorem chevauche_of_contient (h : v.contient addr = true) (hd : Dans debut fin addr) :
    v.chevauche debut fin = true := by
  obtain ⟨h1, h2⟩ := contient_iff.mp h
  simp only [chevauche, Bool.and_eq_true, decide_eq_true_eq]
  exact ⟨h1.trans_lt hd.2, hd.1.trans_lt h2⟩

theorem lastMatch_gauche (hf : debut < v.fin) :
    lastMatch (fun w => w.contient addr) (v.gauche debut) =
      if v.contient addr ∧ addr < debut then some { v with fin := debut } else none := by
  refine lastMatch_guard ?_
  rw [contient_iff, contient_iff]
  dsimp only
  omega

theorem lastMatch_droite (hd : v.debut < fin) :
    lastMatch (fun w => w.contient addr) (v.droite fin) =
      if v.contient addr ∧ fin ≤ addr then some { v with debut := fin } else none := by
  refine lastMatch_guard ?_
  rw [contient_iff, contient_iff]
  dsimp only
  omega

theorem lastMatch_milieu {id : ℕ} :
    lastMatch (fun w => w.contient addr) (v.milieu debut fin drapeaux id) =
      if v.contient addr ∧ Dans debut fin addr then
        some ⟨id, max v.debut debut, min v.fin fin, drapeaux, v.backing⟩
      else none := by
  refine lastMatch_guard ?_
  rw [contient_iff, contient_iff, Dans]
  dsimp only
  omega

end Vma

/-- After a piece was cut, what is found outside of the range says the same. -/
theorem rel_retireDe (v : Vma) (hlt : debut < fin) :
    Option.Rel (fun a b : Vma => b.sens = a.sens)
      (if v.contient addr && !decide (Dans debut fin addr) then some v else none)
      (lastMatch (fun w => w.contient addr) (v.retireDe debut fin)) := by
  unfold retireDe
  by_cases hch : v.chevauche debut fin = true
  · have hch' := hch
    simp only [chevauche, Bool.and_eq_true, decide_eq_true_eq] at hch'
    rw [if_pos hch, lastMatch_append, lastMatch_gauche hch'.2, lastMatch_droite hch'.1]
    by_cases hc : v.contient addr = true
    · by_cases hg : addr < debut
      · have hnd : ¬fin ≤ addr := fun h => absurd (hlt.trans_le h) (not_lt.mpr hg.le)
        have hnin : ¬Dans debut fin addr := fun h => absurd hg (not_lt.mpr h.1)
        simp only [hc, hg, hnd, hnin, and_true, and_false, if_true, if_false, decide_false,
          Bool.not_false, Bool.and_true]
        exact .some rfl
      · by_cases hd : fin ≤ addr
        · have hnin : ¬Dans debut fin addr := fun h => absurd h.2 (not_lt.mpr hd)
          simp only [hc, hg, hd, hnin, and_true, and_false, if_true, decide_false,
            Bool.not_false, Bool.and_true]
          exact .some rfl
        · have hin : Dans debut fin addr := ⟨not_lt.mp hg, not_le.mp hd⟩
          simp only [hc, hg, hd, hin, and_false, if_false, decide_true, Bool.not_true, Bool.and_false]
          exact .none
    · simp [hc]
  · rw [if_neg hch, lastMatch_singleton]
    cases hc : v.contient addr with
    | false => exact .none
    | true =>
      have hnin : ¬Dans debut fin addr := fun h => hch (chevauche_of_contient hc h)
      simp only [hnin, decide_false, Bool.not_false, Bool.and_true, if_true]
      exact .some rfl

theorem rel_map_sens {o o' : Option Vma} (h : Option.Rel (fun a b : Vma => b.sens = a.sens) o o') :
    o'.map sens = o.map sens := by
  cases h with
  | none => rfl
  | some h => exact congrArg some h

/-- A range is empty after it was removed, and nothing else has changed. -/
theorem lit_retire (regions : List Vma) (debut fin addr : ℕ) :
    lit (retire regions debut fin) addr =
      if Dans debut fin addr then none else lit regions addr := by
  unfold retire
  split
  · rename_i hle
    rw [if_neg fun h : Dans debut fin addr => absurd (h.1.trans_lt h.2) (not_lt.mpr hle)]
  · rename_i hlt
    have hrel : Option.Rel (fun a b : Vma => b.sens = a.sens)
        (lastMatch (fun v => v.contient addr && !decide (Dans debut fin addr)) regions)
        (trouve (regions.flatMap (retireDe debut fin)) addr) := by
      refine lastMatch_flatten (List.forall₂_map_right_iff.mpr (List.forall₂_same.mpr fun v _ => ?_))
      exact rel_retireDe v (not_le.mp hlt)
    rw [lit, rel_map_sens hrel]
    by_cases hin : Dans debut fin addr
    · simp [hin, lastMatch_eq_none.mpr]
    · simp [hin, lit, trouve]

theorem trouve_retire (h : Dans debut fin addr) : trouve (retire regions debut fin) addr = none := by
  have hlit := lit_retire regions debut fin addr
  rw [if_pos h] at hlit
  exact map_eq_none_iff.mp hlit

theorem lit_overlay (regions : List Vma) (r : Vma) (addr : ℕ) :
    lit (overlay regions r) addr = if r.contient addr then some r.sens else lit regions addr := by
  unfold lit overlay trouve
  rw [lastMatch_concat]
  split <;> rfl

theorem trouve_remplace (h : v.contient addr = true) : trouve (remplace regions v) addr = some v := by
  rw [trouve, remplace, lastMatch_concat, if_pos h]

theorem lit_remplace (regions : List Vma) (r : Vma) (addr : ℕ) :
    lit (remplace regions r) addr = if r.contient addr then some r.sens else lit regions addr := by
  have hov : lit (remplace regions r) addr = lit (overlay (retire regions r.debut r.fin) r) addr := rfl
  rw [hov, lit_overlay, lit_retire]
  split
  · rfl
  · rename_i hc
    exact if_neg fun h : Dans r.debut r.fin addr => hc (contient_iff.mpr h)

theorem trouve_isSome_iff : (trouve regions addr).isSome ↔ ∃ v ∈ regions, v.contient addr = true := by
  rw [← ne_none_iff_isSome, ne_eq, trouve, lastMatch_eq_none]
  simp

/-- The test before `protege` is exact. -/
theorem couvre_iff : couvre regions debut fin = true ↔
    ∀ addr, Dans debut fin addr → (trouve regions addr).isSome := by
  unfold couvre
  split
  · rename_i hle
    exact iff_of_true rfl fun addr h => absurd (h.1.trans_lt h.2) (not_lt.mpr hle)
  · rename_i hlt
    generalize hspans : (regions.filter fun v => v.chevauche debut fin).map
      (fun v => (max v.debut debut, min v.fin fin)) = spans
    have hmem : ∀ addr, Dans debut fin addr → ((∃ s ∈ spans, s.1 ≤ addr ∧ addr < s.2) ↔
        ∃ v ∈ regions, v.contient addr = true) := by
      intro addr hin
      rw [← hspans]
      constructor
      · rintro ⟨s, hs, h1, h2⟩
        obtain ⟨v, hv, rfl⟩ := mem_map.mp hs
        exact ⟨v, (mem_filter.mp hv).1,
          contient_iff.mpr ⟨(le_max_left _ _).trans h1, h2.trans_le (min_le_left _ _)⟩⟩
      · rintro ⟨v, hv, hc⟩
        obtain ⟨h1, h2⟩ := contient_iff.mp hc
        refine ⟨_, mem_map.mpr ⟨v, mem_filter.mpr ⟨hv, ?_⟩, rfl⟩, max_le h1 hin.1, lt_min h2 hin.2⟩
        exact chevauche_of_contient hc hin
    have hperm := perm_insertionSort (fun a b : ℕ × ℕ => a.1 ≤ b.1) spans
    constructor
    · intro h addr hin
      obtain ⟨s, hs, hsx⟩ := exists_of_sweep h hin.1 hin.2
      exact trouve_isSome_iff.mpr ((hmem addr hin).mp ⟨s, hperm.mem_iff.mp hs, hsx⟩)
    · intro h
      refine sweep_of_forall (pairwise_insertionSort _ _) (not_le.mp hlt) fun addr h1 h2 => ?_
      obtain ⟨s, hs, hsx⟩ := (hmem addr ⟨h1, h2⟩).mpr (trouve_isSome_iff.mp (h addr ⟨h1, h2⟩))
      exact ⟨s, hperm.mem_iff.mpr hs, hsx⟩

/-- What a turn makes of an area: it stays, or it is cut in three with an identity in the middle. -/
theorem protegeDe_eq_some (h : v.protegeDe debut fin drapeaux prochain = some (f, prochain')) :
    prochain ≤ prochain' ∧ (v.chevauche debut fin ≠ true ∧ f = [v] ∨ v.chevauche debut fin = true ∧
      ∃ id, f = v.gauche debut ++ v.milieu debut fin drapeaux id ++ v.droite fin ∧
        (v.drapeaux = drapeaux ∧ id = v.id ∨ v.drapeaux ≠ drapeaux ∧ prochain ≤ id ∧ id < prochain')) := by
  unfold protegeDe nouvelleIdentite at h
  split_ifs at h with hch hne hid
  · cases h
    exact ⟨Nat.le_succ _, .inr ⟨hch, _, rfl, .inr ⟨hne, le_rfl, Nat.lt_succ_self _⟩⟩⟩
  · cases h
  · cases h
    exact ⟨le_rfl, .inr ⟨hch, _, rfl, .inl ⟨not_not.mp hne, rfl⟩⟩⟩
  · cases h
    exact ⟨le_rfl, .inl ⟨hch, rfl⟩⟩

/-- What `protege` may make of an area: the same rights and identity, or a fresh
identity below `prochain'`. -/
def Protegee (debut fin drapeaux prochain prochain' addr : ℕ) (v w : Vma) : Prop :=
  w.backing = v.backing ∧
    if Dans debut fin addr then
      w.drapeaux = drapeaux ∧ (v.drapeaux = drapeaux → w.id = v.id) ∧
        (v.drapeaux ≠ drapeaux → prochain ≤ w.id ∧ w.id < prochain')
    else w.sens = v.sens

/-- Fragments of an area, found at an address. -/
theorem rel_protegeDe {p p' : ℕ} (hp : prochain ≤ p) (hp' : p' ≤ prochain')
    (h : v.protegeDe debut fin drapeaux p = some (f, p')) :
    Option.Rel (Protegee debut fin drapeaux prochain prochain' addr)
      (if v.contient addr then some v else none) (lastMatch (fun w => w.contient addr) f) := by
  have hself : ¬Dans debut fin addr → ∀ w : Vma, w.sens = v.sens →
      Protegee debut fin drapeaux prochain prochain' addr v w := by
    intro hnin w hw
    refine ⟨congrArg Sens.backing hw, ?_⟩
    rw [if_neg hnin]
    exact hw
  -- the three fragments, whatever the identity of the middle one
  have hfrag : ∀ id, v.chevauche debut fin = true →
      (Dans debut fin addr → (v.drapeaux = drapeaux → id = v.id) ∧
        (v.drapeaux ≠ drapeaux → prochain ≤ id ∧ id < prochain')) →
      Option.Rel (Protegee debut fin drapeaux prochain prochain' addr)
        (if v.contient addr then some v else none)
        (lastMatch (fun w => w.contient addr)
          (v.gauche debut ++ v.milieu debut fin drapeaux id ++ v.droite fin)) := by
    intro id hch hid
    simp only [chevauche, Bool.and_eq_true, decide_eq_true_eq] at hch
    rw [lastMatch_append, lastMatch_append, lastMatch_gauche hch.2, lastMatch_milieu, lastMatch_droite hch.1]
    by_cases hc : v.contient addr = true
    · by_cases hd : fin ≤ addr
      · have hnin : ¬Dans debut fin addr := fun h => absurd h.2 (not_lt.mpr hd)
        simp only [hc, hd, and_true, if_true, some_or]
        exact .some (hself hnin _ rfl)
      · by_cases hin : Dans debut fin addr
        · simp only [hc, hd, hin, and_true, and_false, if_true, if_false, none_or, some_or]
          refine .some ⟨rfl, ?_⟩
          rw [if_pos hin]
          exact ⟨rfl, hid hin⟩
        · have hg : addr < debut := by
            by_contra hge
            exact hin ⟨not_lt.mp hge, not_le.mp hd⟩
          simp only [hc, hd, hin, hg, and_true, and_false, if_true, if_false, none_or]
          exact .some (hself hin _ rfl)
    · simp [hc]
  obtain ⟨-, ⟨hch, rfl⟩ | ⟨hch, id, rfl, hid⟩⟩ := protegeDe_eq_some h
  · rw [lastMatch_singleton]
    cases hc : v.contient addr with
    | false => exact .none
    | true => exact .some (hself (fun hin => hch (chevauche_of_contient hc hin)) v rfl)
  · refine hfrag id hch fun _ => ?_
    rcases hid with ⟨heq, rfl⟩ | ⟨hne, h1, h2⟩
    · exact ⟨fun _ => rfl, fun hne => absurd heq hne⟩
    · exact ⟨fun heq => absurd heq hne, fun _ => ⟨hp.trans h1, h2.trans_le hp'⟩⟩

theorem protegeTout_eq_some (h : protegeTout debut fin drapeaux regions prochain = some (regions', prochain')) :
    prochain ≤ prochain' ∧ ∃ fs, regions' = fs.flatten ∧ List.Forall₂ (fun v f => ∃ p p', prochain ≤ p ∧
      p' ≤ prochain' ∧ v.protegeDe debut fin drapeaux p = some (f, p')) regions fs := by
  induction regions generalizing prochain regions' with
  | nil =>
    cases h
    exact ⟨le_rfl, [], rfl, .nil⟩
  | cons v vs ih =>
    obtain ⟨⟨f, p⟩, hf, h⟩ := bind_eq_some_iff.mp h
    obtain ⟨⟨fs, p'⟩, hfs, h⟩ := bind_eq_some_iff.mp h
    cases h
    obtain ⟨hle, fs, rfl, hall⟩ := ih hfs
    have hle' := (protegeDe_eq_some hf).1
    refine ⟨hle'.trans hle, f :: fs, rfl, .cons ⟨_, _, le_rfl, hle, hf⟩ (hall.imp fun v f hv => ?_)⟩
    obtain ⟨q, q', hq, hq', he⟩ := hv
    exact ⟨q, q', hle'.trans hq, hq', he⟩

theorem protege_cases {ok : Bool}
    (h : protege regions debut fin drapeaux prochain = some (ok, regions', prochain')) :
    ok = true ∧ couvre regions debut fin = true ∧
        protegeTout debut fin drapeaux regions prochain = some (regions', prochain') ∨
      ok = false ∧ regions' = regions ∧ prochain' = prochain := by
  unfold protege at h
  split at h
  · rename_i hc
    obtain ⟨⟨fs, p⟩, htout, he⟩ := map_eq_some_iff.mp h
    cases he
    exact .inl ⟨rfl, hc, htout⟩
  · cases h
    exact .inr ⟨rfl, rfl, rfl⟩

section

variable (h : protege regions debut fin drapeaux prochain = some (true, regions', prochain'))

include h

theorem rel_protege (addr : ℕ) : couvre regions debut fin = true ∧
    Option.Rel (Protegee debut fin drapeaux prochain prochain' addr) (trouve regions addr) (trouve regions' addr) := by
  obtain ⟨-, hc, htout⟩ := (protege_cases h).resolve_right fun h => nomatch h.1
  obtain ⟨-, fs, rfl, hall⟩ := protegeTout_eq_some htout
  refine ⟨hc, lastMatch_flatten (hall.imp fun v f hv => ?_)⟩
  obtain ⟨p, p', hp, hp', he⟩ := hv
  exact rel_protegeDe hp hp' he

/-- Inside the range: the rights asked for, the old backing, and another identity
only where the rights change. -/
theorem trouve_protege
    (hin : Dans debut fin addr) : ∃ v w, trouve regions addr = some v ∧ trouve regions' addr = some w ∧
      w.drapeaux = drapeaux ∧ w.backing = v.backing ∧ (v.drapeaux = drapeaux → w.id = v.id) ∧
      (v.drapeaux ≠ drapeaux → prochain ≤ w.id ∧ w.id < prochain') := by
  obtain ⟨hc, hrel⟩ := rel_protege h addr
  have hsome := couvre_iff.mp hc addr hin
  generalize trouve regions addr = o at hrel hsome ⊢
  generalize trouve regions' addr = o' at hrel ⊢
  cases hrel with
  | none => cases hsome
  | @some v w hvw =>
    obtain ⟨hback, hsens⟩ := hvw
    rw [if_pos hin] at hsens
    exact ⟨v, w, rfl, rfl, hsens.1, hback, hsens.2⟩

theorem lit_protege (hnin : ¬Dans debut fin addr) : lit regions' addr = lit regions addr := by
  have hrel := (rel_protege h addr).2
  unfold lit
  generalize trouve regions addr = o at hrel ⊢
  generalize trouve regions' addr = o' at hrel ⊢
  cases hrel with
  | none => rfl
  | some hvw =>
    have hsens := hvw.2
    rw [if_neg hnin] at hsens
    exact congrArg some hsens

end

/-- A map, with the next identity to draw. -/
structure Carte where
  regions : List Vma
  prochain : ℕ

inductive Op
  | retire (debut fin : ℕ)
  | remplace (region : Vma)
  | overlay (region : Vma)
  | protege (debut fin drapeaux : ℕ)
  /-- An identity drawn for an area, here or in another process. -/
  | identite

namespace Carte

/-- The map after an operation, unless the identities are exhausted. -/
def execute (c : Carte) : Op → Option Carte
  | .retire debut fin => some { c with regions := retire c.regions debut fin }
  | .remplace r => some { c with regions := remplace c.regions r }
  | .overlay r => some { c with regions := overlay c.regions r }
  | .protege debut fin drapeaux =>
    (protege c.regions debut fin drapeaux c.prochain).map fun (_, regions, prochain) =>
      ⟨regions, prochain⟩
  | .identite => (nouvelleIdentite c.prochain).map fun (_, prochain) => { c with prochain }

def Tiree (c : Carte) : Prop := ∀ v ∈ c.regions, v.id < c.prochain

end Carte

/-- An area that is inserted has an identity that was drawn and that no area has had
up to then. -/
def Fraiche (c : ℕ → Carte) (k : ℕ) : Op → Prop
  | .remplace r | .overlay r => r.id < (c k).prochain ∧ ∀ j ≤ k, ∀ v ∈ (c j).regions, v.id ≠ r.id
  | _ => True

/-- The maps of an address space through `n` operations. -/
structure Histoire (c : ℕ → Carte) (n : ℕ) : Prop where
  depart : (c 0).Tiree
  pas : ∀ k < n, ∃ op, Fraiche c k op ∧ (c k).execute op = some (c (k + 1))

theorem mem_retire (hv : v ∈ retire regions debut fin) : ∃ w ∈ regions, v.id = w.id := by
  unfold retire at hv
  split at hv
  · exact ⟨v, hv, rfl⟩
  · obtain ⟨w, hw, hv⟩ := mem_flatMap.mp hv
    refine ⟨w, hw, ?_⟩
    unfold retireDe gauche droite at hv
    split_ifs at hv <;> simp at hv
    · rcases hv with rfl | rfl <;> rfl
    · rw [hv]
    · rw [hv]
    · rw [hv]

theorem mem_remplace {r : Vma} (hv : v ∈ remplace regions r) : v = r ∨ ∃ w ∈ regions, v.id = w.id := by
  rcases mem_append.mp hv with hv | hv
  · exact .inr (mem_retire hv)
  · exact .inl (mem_singleton.mp hv)

theorem mem_protegeDe (h : v.protegeDe debut fin drapeaux prochain = some (f, prochain'))
    (hw : w ∈ f) : w.id = v.id ∨ w.id < prochain' := by
  have hfrag : ∀ id, w ∈ v.gauche debut ++ v.milieu debut fin drapeaux id ++ v.droite fin →
      w.id = v.id ∨ w.id = id := by
    intro id hmem
    unfold gauche milieu droite at hmem
    simp only [mem_append] at hmem
    rcases hmem with (hmem | hmem) | hmem
    all_goals split at hmem
    all_goals simp at hmem
    all_goals simp [hmem]
  obtain ⟨-, ⟨-, rfl⟩ | ⟨-, id, rfl, hid⟩⟩ := protegeDe_eq_some h
  · rw [mem_singleton.mp hw]
    exact .inl rfl
  · rcases hfrag id hw with he | rfl
    · exact .inl he
    · exact hid.imp And.right fun hid => hid.2.2

theorem mem_protegeTout
    (h : protegeTout debut fin drapeaux regions prochain = some (regions', prochain')) (hw : w ∈ regions') :
    (∃ v ∈ regions, w.id = v.id) ∨ w.id < prochain' := by
  induction regions generalizing prochain regions' with
  | nil =>
    cases h
    cases hw
  | cons v vs ih =>
    obtain ⟨⟨f, p⟩, hf, h⟩ := bind_eq_some_iff.mp h
    obtain ⟨⟨fs, p'⟩, hfs, h⟩ := bind_eq_some_iff.mp h
    cases h
    rcases mem_append.mp hw with hw | hw
    · rcases mem_protegeDe hf hw with he | hlt
      · exact .inl ⟨v, mem_cons_self, he⟩
      · exact .inr (hlt.trans_le (protegeTout_eq_some hfs).1)
    · rcases ih hfs hw with ⟨u, hu, he⟩ | hlt
      · exact .inl ⟨u, mem_cons_of_mem _ hu, he⟩
      · exact .inr hlt

variable {c : ℕ → Carte} {n k : ℕ}

/-- One operation keeps the identities drawn, and draws in order. -/
theorem Histoire.tiree_succ {op : Op} (h : (c k).Tiree) (hf : Fraiche c k op)
    (hop : (c k).execute op = some (c (k + 1))) :
    (c (k + 1)).Tiree ∧ (c k).prochain ≤ (c (k + 1)).prochain := by
  generalize c (k + 1) = c' at hop
  cases op with
  | retire debut fin =>
    cases hop
    refine ⟨fun v hv => ?_, le_rfl⟩
    obtain ⟨w, hw, he⟩ := mem_retire hv
    rw [he]
    exact h w hw
  | remplace r =>
    cases hop
    refine ⟨fun v hv => ?_, le_rfl⟩
    rcases mem_remplace hv with rfl | ⟨w, hw, he⟩
    · exact hf.1
    · rw [he]
      exact h w hw
  | overlay r =>
    cases hop
    refine ⟨fun v hv => ?_, le_rfl⟩
    rcases mem_append.mp hv with hv | hv
    · exact h v hv
    · rw [mem_singleton.mp hv]
      exact hf.1
  | protege debut fin drapeaux =>
    obtain ⟨⟨ok, regions, prochain⟩, hp, he⟩ := map_eq_some_iff.mp hop
    cases he
    rcases protege_cases hp with ⟨-, -, htout⟩ | ⟨-, rfl, rfl⟩
    · have hle := (protegeTout_eq_some htout).1
      refine ⟨fun w hw => ?_, hle⟩
      rcases mem_protegeTout htout hw with ⟨v, hv, he⟩ | hlt
      · rw [he]
        exact (h v hv).trans_le hle
      · exact hlt
    · exact ⟨h, le_rfl⟩
  | identite =>
    obtain ⟨⟨id, prochain⟩, hp, he⟩ := map_eq_some_iff.mp hop
    cases he
    obtain ⟨-, hp⟩ := Option.ite_none_right_eq_some.mp hp
    cases hp
    exact ⟨fun v hv => (h v hv).trans (Nat.lt_succ_self _), Nat.le_succ _⟩

theorem Histoire.tiree (h : Histoire c n) (hk : k ≤ n) : (c k).Tiree := by
  induction k with
  | zero => exact h.depart
  | succ k ih =>
    obtain ⟨op, hf, hop⟩ := h.pas k hk
    exact (Histoire.tiree_succ (ih (Nat.le_of_succ_le hk)) hf hop).1

theorem Histoire.prochain_mono (h : Histoire c n) {j : ℕ} (hj : j ≤ k) (hk : k ≤ n) :
    (c j).prochain ≤ (c k).prochain := by
  induction k, hj using Nat.le_induction with
  | base => exact le_rfl
  | succ k _ ih =>
    obtain ⟨op, hf, hop⟩ := h.pas k hk
    have hle := Nat.le_of_succ_le hk
    exact (ih hle).trans (Histoire.tiree_succ (h.tiree hle) hf hop).2

/-- What an operation changes at an address bears an identity that was not in any
map before. -/
theorem Histoire.lit_succ (h : Histoire c n) (hk : k < n) (addr : ℕ) :
    lit (c (k + 1)).regions addr = lit (c k).regions addr ∨
      ∀ s, lit (c (k + 1)).regions addr = some s → ∀ j ≤ k, ∀ v ∈ (c j).regions, v.id ≠ s.id := by
  have hneuve : ∀ {id}, (c k).prochain ≤ id → ∀ j ≤ k, ∀ v ∈ (c j).regions, v.id ≠ id := by
    intro id hid j hj v hv he
    have hlt := h.tiree (hj.trans hk.le) v hv
    have hle := h.prochain_mono hj hk.le
    omega
  obtain ⟨op, hf, hop⟩ := h.pas k hk
  generalize c (k + 1) = c' at hop ⊢
  cases op with
  | retire debut fin =>
    cases hop
    rw [lit_retire]
    split
    · exact .inr fun s hs => nomatch hs
    · exact .inl rfl
  | remplace r =>
    cases hop
    rw [lit_remplace]
    split
    · refine .inr fun s hs => ?_
      cases hs
      exact hf.2
    · exact .inl rfl
  | overlay r =>
    cases hop
    rw [lit_overlay]
    split
    · refine .inr fun s hs => ?_
      cases hs
      exact hf.2
    · exact .inl rfl
  | protege debut fin drapeaux =>
    obtain ⟨⟨ok, regions, prochain⟩, hp, he⟩ := map_eq_some_iff.mp hop
    cases he
    rcases protege_cases hp with ⟨rfl, -⟩ | ⟨-, rfl, rfl⟩
    · by_cases hin : Dans debut fin addr
      · obtain ⟨v, w, hv, hw, hd, hback, heq, hne⟩ := trouve_protege hp hin
        unfold lit
        rw [hv, hw]
        by_cases hvd : v.drapeaux = drapeaux
        · left
          rw [map_some, map_some, sens, sens, heq hvd, hd, hvd, hback]
        · right
          intro s hs
          cases hs
          exact hneuve (hne hvd).1
      · exact .inl (lit_protege hp hin)
    · exact .inl rfl
  | identite =>
    obtain ⟨⟨id, prochain⟩, -, he⟩ := map_eq_some_iff.mp hop
    cases he
    exact .inl rfl

/-- An identity seen twice at an address was there all the time in between. -/
theorem Histoire.constante (h : Histoire c n) {i t : ℕ} (hit : i ≤ t) (ht : t ≤ n) {addr : ℕ} {s s' : Sens}
    (hs : lit (c i).regions addr = some s) (hs' : lit (c t).regions addr = some s') (hid : s'.id = s.id) :
    ∀ m, i ≤ m → m ≤ t → lit (c m).regions addr = some s := by
  obtain ⟨v, hv, rfl⟩ : ∃ v ∈ (c i).regions, v.sens = s := by
    obtain ⟨v, hv, he⟩ := map_eq_some_iff.mp hs
    exact ⟨v, (mem_of_lastMatch hv).1, he⟩
  -- up to each time the map has said the same at the address, or the identity is gone for good
  have hinv : ∀ t, i ≤ t → t ≤ n → (∀ m, i ≤ m → m ≤ t → lit (c m).regions addr = some v.sens) ∨
      ∀ s', lit (c t).regions addr = some s' → s'.id ≠ v.id := by
    intro t hit
    induction t, hit using Nat.le_induction with
    | base =>
      refine fun _ => .inl fun m h1 h2 => ?_
      rw [le_antisymm h2 h1]
      exact hs
    | succ t hit ih =>
      intro htn
      rcases h.lit_succ (Nat.lt_of_succ_le htn) addr with heq | hneuf
      · rcases ih (Nat.le_of_succ_le htn) with hall | hgone
        · refine .inl fun m h1 h2 => ?_
          rcases Nat.le_succ_iff.mp h2 with h2 | rfl
          · exact hall m h1 h2
          · rw [heq]
            exact hall t hit le_rfl
        · exact .inr fun s' hs' => hgone s' (heq ▸ hs')
      · exact .inr fun s' hs' he => hneuf s' hs' i hit v hv he.symm
  rcases hinv t hit ht with hall | hgone
  · exact hall
  · exact absurd hid (hgone s' hs')

/-- Every operation acts on its range and nowhere else, and identities are not
reused at an address. -/
theorem carte_ponctuelle : (∀ regions debut fin addr,
      (Dans debut fin addr → trouve (retire regions debut fin) addr = none) ∧
      (¬Dans debut fin addr → lit (retire regions debut fin) addr = lit regions addr)) ∧
    (∀ regions (r : Vma) addr,
      (r.contient addr = true → trouve (remplace regions r) addr = some r) ∧
      (r.contient addr = false → lit (remplace regions r) addr = lit regions addr)) ∧
    (∀ regions debut fin drapeaux prochain regions' prochain',
      protege regions debut fin drapeaux prochain = some (true, regions', prochain') →
      ∀ addr,
        (Dans debut fin addr → ∃ v w, trouve regions addr = some v ∧ trouve regions' addr = some w ∧
          w.drapeaux = drapeaux ∧ w.backing = v.backing ∧
          (v.drapeaux = drapeaux → w.id = v.id) ∧
          (v.drapeaux ≠ drapeaux → prochain ≤ w.id ∧ w.id < prochain')) ∧
        (¬Dans debut fin addr → lit regions' addr = lit regions addr)) ∧
    (∀ regions debut fin drapeaux prochain regions' prochain',
      protege regions debut fin drapeaux prochain = some (false, regions', prochain') →
      regions' = regions ∧ prochain' = prochain) ∧
    (∀ (c : ℕ → Carte) (n : ℕ), Histoire c n → ∀ i t, i ≤ t → t ≤ n → ∀ addr v w,
      trouve (c i).regions addr = some v → trouve (c t).regions addr = some w → w.id = v.id →
      ∀ m, i ≤ m → m ≤ t → ∃ u, trouve (c m).regions addr = some u ∧ u.id = v.id ∧
        u.drapeaux = v.drapeaux ∧ u.backing = v.backing) := by
  refine ⟨fun regions debut fin addr => ⟨trouve_retire, fun hnin => ?_⟩, fun regions r addr =>
    ⟨trouve_remplace, fun hc => ?_⟩, ?_, ?_, ?_⟩
  · rw [lit_retire, if_neg hnin]
  · rw [lit_remplace, hc, if_neg Bool.false_ne_true]
  · intro regions debut fin drapeaux prochain regions' prochain' h addr
    exact ⟨trouve_protege h, lit_protege h⟩
  · intro regions debut fin drapeaux prochain regions' prochain' h
    rcases protege_cases h with ⟨hok, -⟩ | ⟨-, h⟩
    · cases hok
    · exact h
  · intro c n h i t hit ht addr v w hv hw hid m him hmt
    have hlit : ∀ {k u}, trouve (c k).regions addr = some u → lit (c k).regions addr = some u.sens :=
      fun hu => congrArg (Option.map sens) hu
    have hm := h.constante hit ht (hlit hv) (hlit hw) hid m him hmt
    obtain ⟨u, hu, he⟩ := map_eq_some_iff.mp hm
    exact ⟨u, hu, congrArg Sens.id he, congrArg Sens.drapeaux he, congrArg Sens.backing he⟩

def arene : Vma := ⟨1, 0x1000, 0x9000, 7, .zero⟩

def areneProtegee : List Vma :=
  [⟨1, 0x1000, 0x3000, 7, .zero⟩, ⟨2, 0x3000, 0x5000, 5, .zero⟩, ⟨1, 0x5000, 0x9000, 7, .zero⟩]

def cartes (k : ℕ) : Carte := if k = 0 then ⟨[arene], 2⟩ else ⟨areneProtegee, 3⟩

theorem protege_arene : protege [arene] 0x3000 0x5000 5 2 = some (true, areneProtegee, 3) := by decide

theorem histoire_cartes : Histoire cartes 1 where
  depart v hv := by
    rw [mem_singleton.mp hv]
    decide
  pas k hk := by
    obtain rfl : k = 0 := by omega
    refine ⟨.protege 0x3000 0x5000 5, trivial, ?_⟩
    rfl

theorem carte_ponctuelle_arene :
    trouve (retire [arene] 0x3000 0x5000) 0x4000 = none ∧
    (∃ v w, trouve [arene] 0x4000 = some v ∧ trouve areneProtegee 0x4000 = some w ∧ w.drapeaux = 5 ∧
      v.drapeaux = 7 ∧ w.id ≠ v.id) ∧
    (∃ u, trouve (cartes 1).regions 0x2000 = some u ∧ u.drapeaux = 7) := by
  obtain ⟨hretire, -, hprotege, -, hhist⟩ := carte_ponctuelle
  refine ⟨(hretire [arene] 0x3000 0x5000 0x4000).1 (by decide), ?_, ?_⟩
  · obtain ⟨v, w, hv, hw, hd, -, -, hne⟩ :=
      (hprotege [arene] 0x3000 0x5000 5 2 areneProtegee 3 protege_arene 0x4000).1 (by decide)
    obtain rfl : arene = v := Option.some.inj hv
    have hid := (hne (by decide)).1
    refine ⟨arene, w, hv, hw, hd, rfl, fun he => ?_⟩
    rw [he] at hid
    exact absurd hid (by decide)
  · obtain ⟨u, hu, -, hd, -⟩ := hhist cartes 1 histoire_cartes 0 1 (by decide) le_rfl 0x2000 arene
      ⟨1, 0x1000, 0x3000, 7, .zero⟩ rfl rfl rfl 1 (by decide) le_rfl
    exact ⟨u, hu, hd⟩

end BouchaudOS.Memoire
