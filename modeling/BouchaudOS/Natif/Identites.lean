import BouchaudOS.Natif.Table

/-!
# Identifiers over a whole history

A slot is used again and again, each time under the next generation. As long as no slot has
gone through all of its generations, an identifier stands for one insertion for ever: it
is never given out twice, and it is found in the table exactly until that insertion is
closed.

The journal of a table says which identifiers were given out, for which entries, and which
of them were closed since. It is kept by looking at the calls and their results only.
-/

namespace BouchaudOS.Natif

open List HandleTable HandleId

namespace HandleTable

variable {t t' : HandleTable} {i j : ℕ} {id : HandleId} {e : Entry}

/-- The generation of a slot; a slot that was never used has none. -/
def generationDe (t : HandleTable) (i : ℕ) : ℕ := (t.slots[i]?.map Slot.generation).getD 0

def occupant (t : HandleTable) (i : ℕ) : Option Entry := t.slots[i]?.bind Slot.entry

theorem lt_of_generationDe (h : 0 < t.generationDe i) : i < maxHandlesPerProcess := by
  unfold generationDe at h
  cases hc : t.slots[i]? with
  | none => simp [hc] at h
  | some c => exact (List.getElem?_eq_some_iff.mp hc).1.trans_le t.borne

theorem libre_none {l : List Slot} (h : libre l = none) : (occupants l).card = l.length := by
  induction l with
  | nil => rfl
  | cons c l ih =>
    rw [libre, findIdx?_cons] at h
    cases hc : c.entry with
    | none => simp [hc] at h
    | some e =>
      have hl : libre l = none := by simpa [libre, hc] using h
      have := ih hl
      simp only [occupants, Multiset.coe_card] at this
      simp [occupants, hc, this]

theorem live_le (t : HandleTable) : t.live ≤ maxHandlesPerProcess := by
  have h : (occupants t.slots).card ≤ t.slots.length := by
    exact length_filterMap_le _ _
  rw [t.compte]
  exact h.trans t.borne

theorem insertLocked_slot (h : t.insertLocked e = .ok (id, t')) :
    ∃ i, i < maxHandlesPerProcess ∧ id = new (i + 1) (nextGeneration (t.generationDe i)) ∧
      t.occupant i = none ∧ t'.live = t.live + 1 ∧
      (∀ j, t'.generationDe j = if j = i then nextGeneration (t.generationDe i) else t.generationDe j) ∧
      ∀ j, t'.occupant j = if j = i then some e else t.occupant j := by
  obtain ⟨i, g, rfl, hlt, hlibre, hlive, -, hslots⟩ := insertLocked_slots h
  obtain ⟨rfl, ho⟩ : t.generationDe i = g ∧ t.occupant i = none := by
    unfold generationDe occupant
    cases hc : t.slots[i]? <;> simp_all
  refine ⟨i, hlt, rfl, ho, hlive, fun j => ?_, fun j => ?_⟩
  · rw [generationDe, hslots]
    split_ifs <;> rfl
  · rw [occupant, hslots]
    split_ifs <;> rfl

theorem insertLocked_eq_error : (∃ x, t.insertLocked e = .error x) ↔ t.live = maxHandlesPerProcess := by
  constructor
  · rintro ⟨x, h⟩
    apply le_antisymm t.live_le
    unfold insertLocked at h
    split at h
    · assumption
    split at h
    · rename_i i hlibre
      split at h
      · cases h
      · rename_i hc
        obtain ⟨c, hc', -⟩ := libre_some hlibre
        rw [hc] at hc'
        cases hc'
    · rename_i hlibre
      split_ifs at h with hl
      rw [t.compte, libre_none hlibre]
      exact not_lt.mp hl
  · intro h
    exact ⟨.noSpace, if_pos h.ge⟩

/-- The identifier is the one under which the slot was last given out. -/
def Designe (t : HandleTable) (id : HandleId) (i : ℕ) : Prop :=
  index id = .ok i ∧ 0 < t.generationDe i ∧ t.generationDe i = id.generation

theorem designe_new (hi : i < maxHandlesPerProcess) (hg : 0 < t.generationDe i) (hg' : t.generationDe i < 2 ^ 31) :
    t.Designe (.new (i + 1) (t.generationDe i)) i := by
  have hslot : i + 1 < 2 ^ 32 := by
    unfold maxHandlesPerProcess at hi
    omega
  have hgen := generation_new hslot hg'
  have hraw : (new (i + 1) (t.generationDe i)).raw ≠ 0 := by simp [new]
  refine ⟨?_, hg, hgen.symm⟩
  simp [index, HandleId.valid, HandleId.slot_new _ hslot, hgen, hraw, hg.ne']

theorem Designe.eq_new (hid : id.raw < 2 ^ 63) (h : t.Designe id i) :
    id = .new (i + 1) (t.generationDe i) := by
  obtain ⟨hindex, -, hgen⟩ := h
  have hslot := index_ok hindex
  obtain ⟨raw⟩ := id
  simp only [HandleId.slot, HandleId.generation] at hslot hgen hid
  simp only [HandleId.new, HandleId.mk.injEq, hgen]
  omega

theorem generation_pos_of_index (h : index id = .ok i) : 0 < id.generation := by
  unfold index at h
  split_ifs at h with hv
  simp only [valid, Bool.or_eq_true, Bool.not_eq_true', Bool.and_eq_false_iff,
    decide_eq_false_iff_not, decide_eq_true_eq, not_or] at hv
  omega

/-- A lookup finds what is in the slot that the identifier designates. -/
theorem lookup_of_designe (h : t.Designe id i) (required : Rights) :
    t.lookup id required =
      match t.occupant i with
      | none => .error .badHandle
      | some e => if e.rights.contains required then .ok e else .error .accessDenied := by
  obtain ⟨hindex, hpos, hgen⟩ := h
  unfold lookup
  rw [hindex]
  cases hc : t.slots[i]? with
  | none => simp [generationDe, hc] at hpos
  | some c =>
    have hg : t.generationDe i = c.generation := by simp [generationDe, hc]
    have ho : t.occupant i = c.entry := by simp [occupant, hc]
    have hv : verifieGeneration c.generation id.generation = .ok () := by
      rw [verifieGeneration, if_pos]
      omega
    simp only [bind, Except.bind, hv, ho, hc]
    cases c.entry with
    | none => rfl
    | some e =>
      simp only [verifieAcces]
      cases e.rights.contains required <;> rfl

theorem lookup_of_not_designe (h : ∀ i, ¬t.Designe id i) (required : Rights) :
    t.lookup id required = .error .badHandle := by
  unfold lookup
  cases hindex : index id with
  | error x =>
    unfold index at hindex
    split_ifs at hindex
    cases hindex
    rfl
  | ok i =>
    simp only [bind, Except.bind]
    cases hc : t.slots[i]? with
    | none => rfl
    | some c =>
      have hv : verifieGeneration c.generation id.generation = .error .badHandle := by
        rw [verifieGeneration, if_neg]
        rintro ⟨hne, hg⟩
        apply h i
        simp only [Designe, generationDe, hc, Option.map_some, Option.getD_some]
        exact ⟨hindex, Nat.pos_of_ne_zero hne, hg⟩
      simp only [hv]

theorem Designe.unique (h : t.Designe id i) (h' : t.Designe id j) : j = i := by
  have heq := h'.1
  rw [h.1, Except.ok.injEq] at heq
  exact heq.symm

theorem closeLocked_slot (h : t.closeLocked id = .ok (e, t')) :
    ∃ i, t.Designe id i ∧ t.occupant i = some e ∧ (∀ j, t'.generationDe j = t.generationDe j) ∧
      ∀ j, t'.occupant j = if j = i then none else t.occupant j := by
  obtain ⟨i, c, hindex, hc, hgen, he, -, hslots⟩ := closeLocked_slots h
  have hg : t.generationDe i = c.generation := by simp [generationDe, hc]
  have hpos := generation_pos_of_index hindex
  refine ⟨i, ⟨hindex, by omega, by omega⟩, by simp [occupant, hc, he], fun j => ?_, fun j => ?_⟩
  · rw [generationDe, hslots]
    split_ifs with hj
    · rw [hj, hg]
      rfl
    · rfl
  · rw [occupant, hslots]
    split_ifs <;> rfl

theorem closeLocked_of_designe (h : t.Designe id i) (ho : t.occupant i = some e) :
    ∃ t', t.closeLocked id = .ok (e, t') := by
  obtain ⟨hindex, -, hgen⟩ := h
  cases hc : t.slots[i]? with
  | none => simp [occupant, hc] at ho
  | some c =>
    have hg : t.generationDe i = c.generation := by simp [generationDe, hc]
    have he : c.entry = some e := by simpa [occupant, hc] using ho
    exact ⟨_, closeLocked_eq hindex hc (by omega) he⟩

@[simp] theorem generationDe_close (t : HandleTable) (id : HandleId) (j : ℕ) :
    (t.close id).generationDe j = t.generationDe j := by
  unfold close
  split
  · rfl
  · rename_i e t' h
    obtain ⟨i, -, -, hgen, -⟩ := closeLocked_slot h
    exact hgen j

theorem occupant_close_of_designe (h : t.Designe id i) (j : ℕ) :
    (t.close id).occupant j = if j = i then none else t.occupant j := by
  cases ho : t.occupant i with
  | none =>
    have hclose : t.close id = t := by
      unfold close
      split
      · rfl
      · rename_i e t' hok
        obtain ⟨k, hk, hsome, -⟩ := closeLocked_slot hok
        rw [h.unique hk, ho] at hsome
        cases hsome
    rw [hclose]
    split_ifs with hj
    · rw [hj, ho]
    · rfl
  | some e =>
    obtain ⟨t', hok⟩ := closeLocked_of_designe h ho
    obtain ⟨k, hk, -, -, hocc⟩ := closeLocked_slot hok
    have hclose : t.close id = t' := by
      unfold close
      rw [hok]
    rw [hclose, hocc, h.unique hk]

theorem close_of_not_designe (h : ∀ i, ¬t.Designe id i) : t.close id = t := by
  unfold close
  split
  · rfl
  · rename_i e t' hok
    obtain ⟨i, hi, -⟩ := closeLocked_slot hok
    exact absurd hi (h i)

@[simp] theorem generationDe_clear (t : HandleTable) (j : ℕ) : t.clear.generationDe j = t.generationDe j := by
  simp [generationDe, clear, Function.comp_def]

@[simp] theorem occupant_clear (t : HandleTable) (j : ℕ) : t.clear.occupant j = none := by
  cases h : t.slots[j]? <;> simp [occupant, clear, h]

theorem tient_iff : t.Tient id e ↔ ∃ i, i < maxHandlesPerProcess ∧ id = .new (i + 1) (t.generationDe i) ∧
    0 < t.generationDe i ∧ t.generationDe i < 2 ^ 31 ∧ t.occupant i = some e := by
  constructor
  · rintro ⟨i, g, rfl, hg, hg', hi⟩
    have hgen : t.generationDe i = g := by simp [generationDe, hi]
    rw [← hgen] at hg hg' ⊢
    exact ⟨i, lt_of_generationDe hg, rfl, hg, hg', by simp [occupant, hi]⟩
  · rintro ⟨i, -, rfl, hg, hg', ho⟩
    obtain ⟨c, hc, he⟩ := Option.bind_eq_some_iff.mp ho
    have hgen : t.generationDe i = c.generation := by simp [generationDe, hc]
    refine ⟨i, t.generationDe i, rfl, hg, hg', ?_⟩
    rw [hc, hgen, ← he]

theorem Tient.raw_lt (h : t.Tient id e) : id.raw < 2 ^ 63 := by
  obtain ⟨i, hi, rfl, hg, hg', -⟩ := tient_iff.mp h
  unfold maxHandlesPerProcess at hi
  simp only [new]
  omega

theorem tient_close {id0 : HandleId} (hid : id0.raw < 2 ^ 63) :
    (t.close id0).Tient id e ↔ t.Tient id e ∧ id ≠ id0 := by
  simp only [tient_iff, generationDe_close]
  by_cases hd : ∃ k, t.Designe id0 k
  · obtain ⟨k, hk⟩ := hd
    simp only [occupant_close_of_designe hk]
    constructor
    · rintro ⟨i, hi, rfl, hg, hg', ho⟩
      split_ifs at ho with hik
      refine ⟨⟨i, hi, rfl, hg, hg', ho⟩, ?_⟩
      rintro rfl
      exact hik (hk.unique (designe_new hi hg hg'))
    · rintro ⟨⟨i, hi, rfl, hg, hg', ho⟩, hne⟩
      have hik : i ≠ k := by
        rintro rfl
        exact hne (hk.eq_new hid).symm
      exact ⟨i, hi, rfl, hg, hg', by rw [if_neg hik]; exact ho⟩
  · rw [close_of_not_designe (not_exists.mp hd)]
    constructor
    · rintro ⟨i, hi, rfl, hg, hg', ho⟩
      refine ⟨⟨i, hi, rfl, hg, hg', ho⟩, ?_⟩
      rintro rfl
      exact hd ⟨i, designe_new hi hg hg'⟩
    · exact And.left

theorem Tient.of_insertLocked {id0 : HandleId} {e0 : Entry} (hi : t.insertLocked e0 = .ok (id0, t'))
    (h : t'.Tient id e) : t.Tient id e ∨ id = id0 := by
  obtain ⟨i, hlt, rfl, hlibre, -, hgen, hocc⟩ := insertLocked_slot hi
  obtain ⟨j, hj, rfl, hg, hg', ho⟩ := tient_iff.mp h
  rw [hgen] at hg hg' ⊢
  rw [hocc] at ho
  by_cases hji : j = i
  · subst hji
    rw [if_pos rfl]
    exact .inr rfl
  · rw [if_neg hji] at hg hg' ho ⊢
    exact .inl (tient_iff.mpr ⟨j, hj, rfl, hg, hg', ho⟩)

theorem insertSuite_of_room (es : List Entry) {installed : List HandleId}
    (h : t.live + es.length ≤ maxHandlesPerProcess) :
    ∃ ids t', insertSuite es t installed = (.ok (installed ++ ids), t') ∧ ids.length = es.length := by
  induction es generalizing t installed with
  | nil => exact ⟨[], t, by simp [insertSuite], rfl⟩
  | cons e es ih =>
    rw [length_cons] at h
    cases hi : t.insertLocked e with
    | error x =>
      have hfull := insertLocked_eq_error.mp ⟨x, hi⟩
      omega
    | ok r =>
      obtain ⟨id, t1⟩ := r
      obtain ⟨-, -, -, -, hlive, -⟩ := insertLocked_slot hi
      obtain ⟨ids, t', hsuite, hlen⟩ := @ih t1 (installed ++ [id]) (by omega)
      refine ⟨id :: ids, t', ?_, by simp [hlen]⟩
      rw [insertSuite, hi]
      simpa using hsuite

theorem insertMany_cases (t : HandleTable) (es : List Entry) :
    (maxHandlesPerProcess < t.live + es.length ∧ t.insertMany es = (.error .noSpace, t)) ∨
      ∃ ids t', t.insertMany es = (.ok ids, t') ∧ insertSuite es t [] = (.ok ids, t') ∧
        ids.length = es.length := by
  unfold insertMany
  split_ifs with hfull
  · exact .inl ⟨hfull, rfl⟩
  · obtain ⟨ids, t', hsuite, hlen⟩ := @insertSuite_of_room t es [] (not_lt.mp hfull)
    exact .inr ⟨ids, t', hsuite, hsuite, hlen⟩

theorem insertSuite_prefix {es : List Entry} {r installed : List HandleId} {t' : HandleTable}
    (h : insertSuite es t installed = (.ok r, t')) : ∃ ids, r = installed ++ ids := by
  induction es generalizing t installed with
  | nil => exact ⟨[], by simpa [insertSuite, eq_comm] using (Prod.mk.inj h).1⟩
  | cons e es ih =>
    rw [insertSuite] at h
    split at h
    · rename_i id t1 hok
      obtain ⟨ids, rfl⟩ := ih h
      exact ⟨id :: ids, by simp⟩
    · cases h

/-- The first turn of the loop of `insert_many`. -/
theorem insertSuite_cons {es : List Entry} {ids installed : List HandleId}
    (h : insertSuite (e :: es) t installed = (.ok (installed ++ ids), t')) : ∃ id t₁ ids', ids = id :: ids' ∧
      t.insertLocked e = .ok (id, t₁) ∧ insertSuite es t₁ (installed ++ [id]) = (.ok (installed ++ [id] ++ ids'), t') := by
  rw [insertSuite] at h
  split at h
  · rename_i id t₁ hok
    obtain ⟨ids', hr⟩ := insertSuite_prefix h
    obtain rfl : ids = id :: ids' := append_cancel_left (hr.trans (append_assoc _ _ _))
    exact ⟨id, t₁, ids', rfl, hok, hr ▸ h⟩
  · cases h

/-- The handles in use after an installation are those from before and the new ones, which
are none of those. -/
theorem insertSuite_tient {es : List Entry} {ids installed : List HandleId}
    (h : insertSuite es t installed = (.ok (installed ++ ids), t')) :
    (∀ id e, t.Tient id e → t'.Tient id e ∧ id ∉ ids) ∧ (∀ id e, t'.Tient id e → t.Tient id e ∨ id ∈ ids) ∧
      ∀ id ∈ ids, id.raw < 2 ^ 63 := by
  induction es generalizing t installed ids with
  | nil =>
    obtain ⟨rfl, rfl⟩ : ids = [] ∧ t = t' := by simpa [insertSuite] using h
    exact ⟨fun id e h => ⟨h, not_mem_nil⟩, fun id e h => .inl h, by simp⟩
  | cons e0 es ih =>
    obtain ⟨id0, t1, ids', rfl, hok, hsuite⟩ := insertSuite_cons h
    obtain ⟨-, hnew, hold⟩ := insertLocked_ok hok
    obtain ⟨hgarde, hinv, hraw⟩ := ih hsuite
    refine ⟨?_, ?_, ?_⟩
    · intro id e hid
      obtain ⟨hid1, hslot⟩ := hold id e hid
      obtain ⟨hid', hnot⟩ := hgarde id e hid1
      refine ⟨hid', ?_⟩
      rw [mem_cons, not_or]
      exact ⟨fun heq => hslot (congrArg slot heq), hnot⟩
    · intro id e hid
      rcases hinv id e hid with hid1 | hmem
      · rcases Tient.of_insertLocked hok hid1 with hid2 | rfl
        · exact .inl hid2
        · exact .inr mem_cons_self
      · exact .inr (mem_cons_of_mem _ hmem)
    · intro id hmem
      rcases mem_cons.mp hmem with rfl | hmem
      · exact hnew.raw_lt
      · exact hraw id hmem

end HandleTable

/-- An identifier that was given out for an entry; `ouverte` until it is closed. -/
structure Emission where
  id : HandleId
  entry : Entry
  ouverte : Bool
  deriving DecidableEq

/-- The calls that change a table. Identifiers come from user space as numbers. -/
inductive Operation
  | insert (e : Entry)
  | insertMany (es : List Entry)
  | duplicate (pid raw : ℕ) (requested : Rights)
  | close (raw : ℕ)
  | clear

structure Journal where
  table : HandleTable
  emissions : List Emission

open Journal

namespace Journal

def vide : Journal := ⟨.empty, []⟩

def note (j : Journal) (t : HandleTable) (ids : List HandleId) (es : List Entry) : Journal :=
  ⟨t, j.emissions ++ List.zipWith (fun id e => ⟨id, e, true⟩) ids es⟩

def ferme (j : Journal) (t : HandleTable) (p : HandleId → Bool) : Journal :=
  ⟨t, j.emissions.map fun x => if p x.id then { x with ouverte := false } else x⟩

def execute (j : Journal) : Operation → Journal
  | .insert e =>
    match j.table.insertLocked e with
    | .error _ => j
    | .ok (id, t) => j.note t [id] [e]
  | .insertMany es =>
    match j.table.insertMany es with
    | (.error _, t) => ⟨t, j.emissions⟩
    | (.ok ids, t) => j.note t ids es
  | .duplicate pid raw requested =>
    match j.table.lookup (.fromRaw raw) .dup, j.table.duplicate pid (.fromRaw raw) requested with
    | .ok source, .ok (id, t) => j.note t [id] [source.derive (.processus pid) requested]
    | _, _ => j
  | .close raw => j.ferme (j.table.close (.fromRaw raw)) (· = .fromRaw raw)
  | .clear => j.ferme j.table.clear fun _ => true

def joue (ops : List Operation) : Journal := ops.foldl execute vide

/-- How often slot `s` was given out. -/
def usages (j : Journal) (s : ℕ) : ℕ := j.emissions.countP fun x => x.id.slot = s

/-- How often slot `s` was given out again. -/
def reutilisations (j : Journal) (s : ℕ) : ℕ := j.usages s - 1

/-- The emission that an identifier stands for, if it is open. -/
def ouverte (j : Journal) (id : HandleId) : Option Emission := j.emissions.find? fun x => x.ouverte && x.id = id

structure Accorde (j : Journal) : Prop where
  generation : ∀ i, j.table.generationDe i = j.usages (i + 1)
  emise : ∀ x ∈ j.emissions, ∃ i g, i < maxHandlesPerProcess ∧ x.id = .new (i + 1) g ∧ 0 < g ∧ g < 2 ^ 31 ∧
    g ≤ j.table.generationDe i ∧
    (x.ouverte = true → g = j.table.generationDe i ∧ j.table.occupant i = some x.entry)
  occupe : ∀ i e, j.table.occupant i = some e → ⟨.new (i + 1) (j.table.generationDe i), e, true⟩ ∈ j.emissions
  distincts : (j.emissions.map Emission.id).Nodup

variable {j : Journal} {t : HandleTable} {id : HandleId} {e : Entry}

theorem accorde_vide : vide.Accorde := by
  refine ⟨fun i => rfl, nofun, ?_, nodup_nil⟩
  intro i e h
  simp [vide, occupant, empty] at h

/-- A new handle gets an identifier that was never given out, while the slot has generations
left. -/
theorem Accorde.insert (h : j.Accorde) (hi : j.table.insertLocked e = .ok (id, t))
    (hb : ∀ s, (j.note t [id] [e]).usages s < 2 ^ 31) : (j.note t [id] [e]).Accorde := by
  obtain ⟨i, hlt, rfl, hlibre, -, hgen, hocc⟩ := insertLocked_slot hi
  have hslot : i + 1 < 2 ^ 32 := by
    unfold maxHandlesPerProcess at hlt
    omega
  set g := nextGeneration (j.table.generationDe i) with hg
  have htable : (j.note t [.new (i + 1) g] [e]).table = t := rfl
  have hneuf : (j.note t [.new (i + 1) g] [e]).emissions = j.emissions ++ [⟨.new (i + 1) g, e, true⟩] := rfl
  generalize j.note t [.new (i + 1) g] [e] = j' at *
  have husages : ∀ s, j'.usages s = j.usages s + if i + 1 = s then 1 else 0 := by
    intro s
    simp only [usages, hneuf, countP_append, countP_singleton, slot_new g hslot, decide_eq_true_eq]
  have hsucc : g = j.table.generationDe i + 1 := by
    have := hb (i + 1)
    rw [husages, if_pos rfl, ← h.generation] at this
    rw [hg, nextGeneration]
    split_ifs <;> omega
  have hmem : ∀ x, x ∈ j'.emissions ↔ x ∈ j.emissions ∨ x = ⟨.new (i + 1) g, e, true⟩ := by
    intro x
    simp [hneuf]
  have hg31 : g < 2 ^ 31 := nextGeneration_lt _
  constructor
  · intro k
    rw [htable, hgen, husages]
    by_cases hki : k = i
    · subst hki
      rw [if_pos rfl, if_pos rfl, hsucc, h.generation]
    · rw [if_neg hki, if_neg (by omega), h.generation]
      rfl
  · intro x hx
    rw [htable]
    rcases (hmem x).mp hx with hx | rfl
    · obtain ⟨k, g', hk, hid, hpos, hg', hle, houv⟩ := h.emise x hx
      refine ⟨k, g', hk, hid, hpos, hg', ?_, ?_⟩
      · rw [hgen]
        split_ifs with hki
        · subst hki
          omega
        · exact hle
      · intro ho
        obtain ⟨heq, hsome⟩ := houv ho
        -- an open handle is in its slot, and the slot taken was free
        have hki : k ≠ i := by
          rintro rfl
          rw [hlibre] at hsome
          cases hsome
        rw [hgen, hocc, if_neg hki, if_neg hki]
        exact ⟨heq, hsome⟩
    · refine ⟨i, g, hlt, rfl, by omega, hg31, ?_, ?_⟩
      · rw [hgen, if_pos rfl]
      · intro _
        rw [hgen, hocc, if_pos rfl, if_pos rfl]
        exact ⟨rfl, rfl⟩
  · intro k e' hk
    rw [htable, hocc] at hk
    rw [htable, hmem, hgen]
    by_cases hki : k = i
    · subst hki
      rw [if_pos rfl] at hk ⊢
      cases hk
      exact .inr rfl
    · rw [if_neg hki] at hk ⊢
      exact .inl (h.occupe k e' hk)
  · rw [hneuf, map_append, map_singleton, nodup_append]
    refine ⟨h.distincts, nodup_singleton _, ?_⟩
    rintro a ha b hb rfl
    obtain ⟨x, hx, rfl⟩ := mem_map.mp ha
    obtain ⟨k, g', hk, hid, hpos, hg', hle, -⟩ := h.emise x hx
    rw [mem_singleton] at hb
    rw [hb] at hid
    have hs := congrArg slot hid
    have hk' : k + 1 < 2 ^ 32 := by
      unfold maxHandlesPerProcess at hk
      omega
    have hgeneration := congrArg HandleId.generation hid
    rw [slot_new g hslot, slot_new g' hk'] at hs
    rw [generation_new hslot hg31, generation_new hk' hg'] at hgeneration
    obtain rfl : k = i := by omega
    omega

theorem usages_le_note (s : ℕ) (j : Journal) (t : HandleTable) (ids : List HandleId) (es : List Entry) :
    j.usages s ≤ (j.note t ids es).usages s := by
  simp [usages, note]

@[simp] theorem usages_ferme (s : ℕ) (j : Journal) (t : HandleTable) (p : HandleId → Bool) :
    (j.ferme t p).usages s = j.usages s := by
  simp only [usages, ferme, countP_map]
  congr 1
  funext x
  simp only [Function.comp_apply]
  split <;> rfl

theorem Accorde.insertSuite {es : List Entry} {ids installed : List HandleId} {t' : HandleTable}
    (h : (⟨t, j.emissions⟩ : Journal).Accorde)
    (hi : insertSuite es t installed = (.ok (installed ++ ids), t'))
    (hb : ∀ s, (j.note t' ids es).usages s < 2 ^ 31) : (j.note t' ids es).Accorde := by
  induction es generalizing j t installed ids with
  | nil =>
    obtain ⟨hids, rfl⟩ : ids = [] ∧ t = t' := by simpa [insertSuite] using hi
    simpa [note] using h
  | cons e es ih =>
    obtain ⟨id, t1, ids', rfl, hok, hsuite⟩ := insertSuite_cons hi
    -- the rest of the loop goes on from the table with this handle
    have hnote : j.note t' (id :: ids') (e :: es) = (j.note t1 [id] [e]).note t' ids' es := by
      simp [note]
    rw [hnote] at hb ⊢
    exact ih (h.insert hok fun s => (usages_le_note s _ t' ids' es).trans_lt (hb s)) hsuite hb

theorem Accorde.ferme (h : j.Accorde) {t' : HandleTable} {p : HandleId → Bool}
    (hgen : ∀ i, t'.generationDe i = j.table.generationDe i)
    (hocc : ∀ i, t'.occupant i =
      if p (.new (i + 1) (j.table.generationDe i)) then none else j.table.occupant i) :
    (j.ferme t' p).Accorde := by
  constructor
  · intro i
    rw [usages_ferme, ← h.generation]
    exact hgen i
  · intro y hy
    obtain ⟨x, hx, rfl⟩ := mem_map.mp hy
    obtain ⟨i, g, hi, hid, hpos, hg, hle, houv⟩ := h.emise x hx
    have hid' : (if p x.id then { x with ouverte := false } else x).id = .new (i + 1) g := by
      split <;> exact hid
    refine ⟨i, g, hi, hid', hpos, hg, (hgen i).ge.trans' hle, ?_⟩
    intro ho
    split_ifs at ho with hp
    obtain ⟨rfl, hsome⟩ := houv ho
    rw [hid] at hp
    rw [if_neg (by rw [hid]; exact hp)]
    refine ⟨(hgen i).symm, ?_⟩
    change t'.occupant i = _
    rw [hocc, if_neg hp, hsome]
  · intro i e he
    change t'.occupant i = _ at he
    rw [hocc] at he
    split_ifs at he with hp
    apply mem_map.mpr
    refine ⟨_, h.occupe i e he, ?_⟩
    rw [if_neg hp]
    change _ = Emission.mk (.new (i + 1) (t'.generationDe i)) e true
    rw [hgen]
  · have hmap : (j.ferme t' p).emissions.map Emission.id = j.emissions.map Emission.id := by
      simp only [Journal.ferme, map_map]
      congr 1
      funext x
      simp only [Function.comp_apply]
      split <;> rfl
    rw [hmap]
    exact h.distincts

theorem Accorde.designe (h : j.Accorde) {x : Emission} (hx : x ∈ j.emissions) (ho : x.ouverte = true) :
    ∃ i, j.table.Designe x.id i ∧ j.table.occupant i = some x.entry := by
  obtain ⟨i, g, hi, hid, hpos, hg, -, houv⟩ := h.emise x hx
  obtain ⟨rfl, hsome⟩ := houv ho
  rw [hid]
  exact ⟨i, designe_new hi hpos hg, hsome⟩

theorem fromRaw_lt (raw : ℕ) : (fromRaw raw).raw < 2 ^ 63 := Nat.mod_lt _ (by decide)

theorem Accorde.designe_occupant (h : j.Accorde) {i : ℕ} (ho : j.table.occupant i = some e) :
    j.table.Designe (.new (i + 1) (j.table.generationDe i)) i := by
  have hi : i + 1 < 2 ^ 32 := by
    obtain ⟨c, hc, -⟩ := Option.bind_eq_some_iff.mp ho
    exact slot_lt hc
  obtain ⟨k, g, hk, hid, hpos, hg, -, houv⟩ := h.emise _ (h.occupe i e ho)
  obtain ⟨rfl, -⟩ := houv rfl
  have hslot := congrArg slot hid
  have hk' : k + 1 < 2 ^ 32 := by
    unfold maxHandlesPerProcess at hk
    omega
  rw [slot_new _ hi, slot_new _ hk'] at hslot
  obtain rfl : k = i := by omega
  exact designe_new hk hpos hg

theorem Accorde.close (h : j.Accorde) (raw : ℕ) :
    (j.ferme (j.table.close (.fromRaw raw)) (· = .fromRaw raw)).Accorde := by
  apply h.ferme (generationDe_close j.table _)
  intro i
  simp only [decide_eq_true_eq]
  have hreste : ¬j.table.Designe (.fromRaw raw) i → j.table.occupant i =
      if .new (i + 1) (j.table.generationDe i) = fromRaw raw then none else j.table.occupant i := by
    intro hi
    cases ho : j.table.occupant i with
    | none => rw [ite_self]
    | some e =>
      rw [if_neg]
      intro heq
      exact hi (heq ▸ h.designe_occupant ho)
  by_cases hd : ∃ k, j.table.Designe (.fromRaw raw) k
  · obtain ⟨k, hk⟩ := hd
    rw [occupant_close_of_designe hk]
    by_cases hik : i = k
    · subst hik
      rw [if_pos rfl, if_pos (hk.eq_new (fromRaw_lt raw)).symm]
    · rw [if_neg hik]
      exact hreste fun hi => hik (hk.unique hi)
  · rw [close_of_not_designe (not_exists.mp hd)]
    exact hreste (not_exists.mp hd i)

theorem Accorde.clear (h : j.Accorde) : (j.ferme j.table.clear fun _ => true).Accorde :=
  h.ferme (generationDe_clear j.table) fun i => by simp

theorem duplicate_eq_ok {pid raw : ℕ} {r : Rights} (h : j.table.duplicate pid (.fromRaw raw) r = .ok (id, t)) :
    ∃ source, j.table.lookup (.fromRaw raw) .dup = .ok source ∧
      j.table.insertLocked (source.derive (.processus pid) r) = .ok (id, t) := by
  obtain ⟨source, hsource, h⟩ := ok_of_bind h
  obtain ⟨accordes, haccordes, h⟩ := ok_of_bind h
  refine ⟨source, hsource, ?_⟩
  unfold verifieDuplication at haccordes
  split_ifs at haccordes
  cases haccordes
  exact h

theorem Accorde.execute (h : j.Accorde) (op : Operation) (hb : ∀ s, (j.execute op).usages s < 2 ^ 31) :
    (j.execute op).Accorde := by
  cases op with
  | insert e =>
    rw [Journal.execute] at hb ⊢
    split at hb
    · exact h
    · rename_i id t hok
      exact h.insert hok hb
  | insertMany es =>
    rw [Journal.execute] at hb ⊢
    obtain ⟨-, herr⟩ | ⟨ids, t, hok, hsuite, -⟩ := j.table.insertMany_cases es
    · rw [herr]
      exact h
    · rw [hok] at hb ⊢
      exact Accorde.insertSuite h hsuite hb
  | duplicate pid raw requested =>
    rw [Journal.execute] at hb ⊢
    split at hb
    · rename_i source id t hsource hok
      obtain ⟨source', hsource', hinsert⟩ := duplicate_eq_ok hok
      obtain rfl : source' = source := Except.ok.inj (hsource'.symm.trans hsource)
      exact h.insert hinsert hb
    · exact h
  | close raw => exact h.close raw
  | clear => exact h.clear

theorem usages_le_execute (j : Journal) (op : Operation) (s : ℕ) : j.usages s ≤ (j.execute op).usages s := by
  cases op with
  | insert e =>
    rw [execute]
    split
    · exact le_rfl
    · exact usages_le_note s j _ _ _
  | insertMany es =>
    rw [execute]
    split
    · exact le_rfl
    · exact usages_le_note s j _ _ _
  | duplicate pid raw requested =>
    rw [execute]
    split
    · exact usages_le_note s j _ _ _
    · exact le_rfl
  | close raw => exact (usages_ferme s j _ _).ge
  | clear => exact (usages_ferme s j _ _).ge

theorem joue_append (ops : List Operation) (op : Operation) : joue (ops ++ [op]) = (joue ops).execute op := by
  simp [joue]

theorem accorde_joue (ops : List Operation) (hb : ∀ s, (joue ops).usages s < 2 ^ 31) : (joue ops).Accorde := by
  induction ops using List.reverseRecOn with
  | nil => exact accorde_vide
  | append_singleton ops op ih =>
    rw [joue_append] at hb ⊢
    exact (ih fun s => (usages_le_execute _ op s).trans_lt (hb s)).execute op hb

/-- A lookup answers for the open emission of the identifier, if there is one. -/
theorem Accorde.lookup (h : j.Accorde) (raw : ℕ) (required : Rights) :
    j.table.lookup (.fromRaw raw) required =
      match j.ouverte (.fromRaw raw) with
      | none => .error .badHandle
      | some x => if x.entry.rights.contains required then .ok x.entry else .error .accessDenied := by
  cases hf : j.ouverte (.fromRaw raw) with
  | none =>
    have hnone : ∀ x ∈ j.emissions, x.ouverte = true → x.id ≠ .fromRaw raw := by
      simpa [ouverte] using hf
    by_cases hd : ∃ i, j.table.Designe (.fromRaw raw) i
    · obtain ⟨i, hi⟩ := hd
      cases ho : j.table.occupant i with
      | none => rw [lookup_of_designe hi, ho]
      | some e => exact absurd (hi.eq_new (fromRaw_lt raw)).symm (hnone _ (h.occupe i e ho) rfl)
    · exact lookup_of_not_designe (not_exists.mp hd) required
  | some x =>
    have hx := mem_of_find?_eq_some hf
    have hp := find?_some hf
    simp only [Bool.and_eq_true, decide_eq_true_eq] at hp
    obtain ⟨i, hi, ho⟩ := h.designe hx hp.1
    rw [hp.2] at hi
    rw [lookup_of_designe hi, ho]

end Journal

/-- What a table owes to its journal: it counts its handles, every identifier is new and
positive, it answers for the open ones only, and only a full table refuses. -/
structure Journal.Fidele (j : Journal) : Prop where
  compte : j.table.live = j.table.slots.countP fun c => c.entry.isSome
  borne : j.table.live ≤ maxHandlesPerProcess
  positifs : ∀ x ∈ j.emissions, 0 < x.id.raw ∧ x.id.raw < 2 ^ 63
  distincts : (j.emissions.map Emission.id).Nodup
  lookup : ∀ raw required, j.table.lookup (.fromRaw raw) required =
    match j.ouverte (.fromRaw raw) with
    | none => .error .badHandle
    | some x => if x.entry.rights.contains required then .ok x.entry else .error .accessDenied
  insert : ∀ e, (∃ x, j.table.insertLocked e = .error x) ↔ j.table.live = maxHandlesPerProcess
  insertMany : ∀ es, (∃ x, j.table.insertMany es = (.error x, j.table)) ∨
    ∃ ids t, j.table.insertMany es = (.ok ids, t) ∧ ids.length = es.length

/-- After every history in which each slot is used again fewer than `2 ^ 31 - 1` times. -/
theorem poignees_fideles (ops : List Operation)
    (h : ∀ s, (Journal.joue ops).reutilisations s < 2 ^ 31 - 1) : (Journal.joue ops).Fidele := by
  have hb : ∀ s, (joue ops).usages s < 2 ^ 31 := by
    intro s
    have := h s
    rw [reutilisations] at this
    omega
  have hacc := accorde_joue ops hb
  refine ⟨?_, live_le _, ?_, hacc.distincts, hacc.lookup, ?_, ?_⟩
  · rw [(joue ops).table.compte, occupants, Multiset.coe_card, length_filterMap_eq_countP]
  · intro x hx
    obtain ⟨i, g, hi, hid, hpos, hg, -⟩ := hacc.emise x hx
    unfold maxHandlesPerProcess at hi
    simp only [hid, new]
    omega
  · intro e
    exact insertLocked_eq_error
  · intro es
    obtain ⟨-, herr⟩ | ⟨ids, t, hok, -, hlen⟩ := (joue ops).table.insertMany_cases es
    · exact .inl ⟨_, herr⟩
    · exact .inr ⟨ids, t, hok, hlen⟩

/-- Two handles, the first of which is closed and its slot used again. -/
def deuxVies : List Operation :=
  [.insert (.installe (.processus 1) 0 .tous), .insert (.installe (.processus 1) 1 .tous), .close (2 ^ 32 + 1),
    .insert (.installe (.processus 1) 2 .tous)]

theorem poignees_fideles_deuxVies :
    (Journal.joue deuxVies).emissions.map Emission.id = [⟨2 ^ 32 + 1⟩, ⟨2 ^ 32 + 2⟩, ⟨2 * 2 ^ 32 + 1⟩] ∧
      (Journal.joue deuxVies).Fidele := by
  have hids : (joue deuxVies).emissions.map Emission.id =
      [⟨2 ^ 32 + 1⟩, ⟨2 ^ 32 + 2⟩, ⟨2 * 2 ^ 32 + 1⟩] := by decide
  refine ⟨hids, poignees_fideles deuxVies fun s => ?_⟩
  have hle : (joue deuxVies).usages s ≤ 3 := by
    have hlen := congrArg List.length hids
    exact countP_le_length.trans hlen.le
  rw [reutilisations]
  omega

end BouchaudOS.Natif
