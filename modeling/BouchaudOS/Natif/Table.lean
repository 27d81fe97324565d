import BouchaudOS.Foundations.Bags

/-!
# Handle tables of the native interface

`src/kernel/native/abi/types.rs`, `handle/politique_corps.rs` and `handle/table.rs`: a handle
names a slot and its generation, a slot holds a reference to an object with the rights
over it, and every access, duplication and transfer passes through the rules on rights.

Besides the object and the rights, an entry keeps here the line of handles it comes from.
No function reads it: it says, of every handle, where its rights come from.
-/

namespace BouchaudOS.Natif

open List

inductive Error
  | invalidCall | invalidArgument | badHandle | wrongType | accessDenied | wouldBlock
  | bufferTooSmall | queueFull | peerClosed | noSpace | fault | tooLarge | notFound | timedOut
  deriving DecidableEq, Repr

inductive ObjectKind
  | channel | event | waitSet | sharedRegion | process | update
  | legacyFile | legacyWindow | legacySocket | legacyDevice
  deriving DecidableEq, Repr

abbrev Rights := BitVec 32

namespace Rights

def read : Rights := 1 <<< 0
def write : Rights := 1 <<< 1
def signal : Rights := 1 <<< 2
def map : Rights := 1 <<< 3
def dup : Rights := 1 <<< 4
def transfer : Rights := 1 <<< 5
def inspect : Rights := 1 <<< 6
def wait : Rights := 1 <<< 7
def updateHealth : Rights := 1 <<< 8
def updateInstall : Rights := 1 <<< 9

def tous : Rights :=
  read ||| write ||| signal ||| map ||| dup ||| transfer ||| inspect ||| wait |||
    updateHealth ||| updateInstall

def channelDefault : Rights := read ||| write ||| dup ||| transfer ||| inspect ||| wait
def eventDefault : Rights := signal ||| dup ||| transfer ||| inspect ||| wait
def waitsetDefault : Rights := read ||| write ||| dup ||| transfer ||| inspect ||| wait
def processDefault : Rights := signal ||| dup ||| transfer ||| inspect ||| wait
def shmDefault : Rights := read ||| write ||| map ||| dup ||| transfer ||| inspect

/-- `DROITS_SUPERVISEUR`. -/
def superviseur : Rights := inspect ||| updateHealth ||| dup ||| transfer

/-- `DROITS_INSTALLATION`. -/
def installation : Rights := inspect ||| updateInstall ||| transfer

def contains (self wanted : Rights) : Bool := self &&& wanted == wanted

def intersection (self other : Rights) : Rights := self &&& other

def subsetOf (self parent : Rights) : Bool := parent.contains self

@[simp] theorem contains_self (r : Rights) : r.contains r = true := by
  simp [contains]

theorem contains_trans {a b c : Rights} (hab : a.contains b = true) (hbc : b.contains c = true) :
    a.contains c = true := by
  simp only [contains, beq_iff_eq] at hab hbc ⊢
  calc a &&& c = a &&& (b &&& c) := by rw [hbc]
    _ = (a &&& b) &&& c := by rw [BitVec.and_assoc]
    _ = c := by rw [hab, hbc]

theorem contains_intersection (r m : Rights) : r.contains (r.intersection m) = true := by
  simp only [contains, intersection, beq_iff_eq]
  rw [← BitVec.and_assoc, BitVec.and_self]

end Rights

theorem ok_of_bind {ε α β : Type} {x : Except ε α} {f : α → Except ε β} {b : β}
    (h : (x >>= f) = .ok b) : ∃ a, x = .ok a ∧ f a = .ok b := by
  cases x with
  | error e => cases h
  | ok a => exact ⟨a, rfl, h⟩

def verifieAcces (detenus requis : Rights) : Except Error Unit :=
  if detenus.contains requis then .ok () else .error .accessDenied

def verifieGenre (reel attendu : ObjectKind) : Except Error Unit :=
  if reel = attendu then .ok () else .error .wrongType

def verifieGeneration (emplacement handle : ℕ) : Except Error Unit :=
  if emplacement ≠ 0 ∧ emplacement = handle then .ok () else .error .badHandle

def verifieDuplication (source demandes : Rights) : Except Error Rights :=
  if !source.contains .dup then .error .accessDenied
  else if !demandes.subsetOf source then .error .accessDenied
  else .ok demandes

def verifieTransfert (source masque : Rights) : Except Error Rights :=
  if !source.contains .transfer then .error .accessDenied
  else .ok (source.intersection masque)

theorem verifieDuplication_ok {source demandes r : Rights} (h : verifieDuplication source demandes = .ok r) :
    source.contains .dup = true ∧ source.contains r = true := by
  unfold verifieDuplication at h
  split_ifs at h with hd hs
  cases h
  exact ⟨by simpa using hd, by simpa [Rights.subsetOf] using hs⟩

theorem verifieTransfert_ok {source masque r : Rights} (h : verifieTransfert source masque = .ok r) :
    source.contains .transfer = true ∧ source.contains r = true := by
  unfold verifieTransfert at h
  split_ifs at h with ht
  cases h
  exact ⟨by simpa using ht, Rights.contains_intersection source masque⟩

/-- 31 bits of generation over 32 bits of slot. -/
structure HandleId where
  raw : ℕ
  deriving DecidableEq

open HandleId

namespace HandleId

def new (slot generation : ℕ) : HandleId := ⟨generation % 2 ^ 31 * 2 ^ 32 + slot⟩

def fromRaw (raw : ℕ) : HandleId := ⟨raw % 2 ^ 63⟩

def slot (id : HandleId) : ℕ := id.raw % 2 ^ 32

def generation (id : HandleId) : ℕ := id.raw / 2 ^ 32 % 2 ^ 31

def valid (id : HandleId) : Bool := id.raw ≠ 0 && id.generation ≠ 0

theorem slot_new {i : ℕ} (g : ℕ) (hi : i < 2 ^ 32) : (new i g).slot = i := by
  simp only [new, slot]
  omega

theorem generation_new {i g : ℕ} (hi : i < 2 ^ 32) (hg : g < 2 ^ 31) : (new i g).generation = g := by
  simp only [new, generation]
  omega

end HandleId

/-- Where a handle is: in the table of a process, or in a queued message. -/
inductive Lieu
  | processus (pid : ℕ)
  | message
  deriving DecidableEq

/-- One handle of a line of descent. -/
structure Maillon where
  lieu : Lieu
  object : ℕ
  rights : Rights
  deriving DecidableEq

/-- A reference to an object with rights over it. `lignee` starts with the handle
itself, goes on with the handle it was derived from, and ends with the handle the object
was installed with. -/
structure Entry where
  object : ℕ
  rights : Rights
  lignee : List Maillon
  deriving DecidableEq

def Entry.installe (lieu : Lieu) (object : ℕ) (rights : Rights) : Entry :=
  ⟨object, rights, [⟨lieu, object, rights⟩]⟩

/-- A handle derived from `e`. -/
def Entry.derive (e : Entry) (lieu : Lieu) (rights : Rights) : Entry :=
  ⟨e.object, rights, ⟨lieu, e.object, rights⟩ :: e.lignee⟩

structure Slot where
  generation : ℕ
  entry : Option Entry
  deriving DecidableEq

def occupants (l : List Slot) : Multiset Entry := l.filterMap Slot.entry

theorem occupants_eq_sum (l : List Slot) :
    occupants l = (l.map fun c => (c.entry.toList : Multiset Entry)).sum := by
  induction l with
  | nil => rfl
  | cons c l ih =>
    rw [map_cons, sum_cons, ← ih]
    cases h : c.entry <;> simp [occupants, h]

theorem occupants_set {l : List Slot} {i : ℕ} {c : Slot} (h : l[i]? = some c) (x : Slot) :
    occupants (l.set i x) + (c.entry.toList : Multiset Entry) =
      occupants l + (x.entry.toList : Multiset Entry) := by
  rw [occupants_eq_sum, occupants_eq_sum]
  exact Bags.sum_map_set (fun c : Slot => (c.entry.toList : Multiset Entry)) h x

def maxHandlesPerProcess : ℕ := 4096

structure HandleTable where
  slots : List Slot
  live : ℕ
  borne : slots.length ≤ maxHandlesPerProcess
  compte : live = (occupants slots).card

namespace HandleTable

def empty : HandleTable := ⟨[], 0, by simp, by simp [occupants]⟩

def entries (t : HandleTable) : Multiset Entry := occupants t.slots

@[simp] theorem entries_empty : empty.entries = 0 := rfl

def nextGeneration (previous : ℕ) : ℕ :=
  if (previous + 1) % 2 ^ 31 = 0 then 1 else (previous + 1) % 2 ^ 31

theorem nextGeneration_pos (g : ℕ) : 0 < nextGeneration g := by
  unfold nextGeneration
  split_ifs <;> omega

theorem nextGeneration_lt (g : ℕ) : nextGeneration g < 2 ^ 31 := by
  unfold nextGeneration
  split_ifs <;> omega

/-- A new entry in the free slot `i`. -/
def pose (t : HandleTable) (i g : ℕ) (e : Entry) {c : Slot} (h : t.slots[i]? = some c)
    (hc : c.entry = none) : HandleTable where
  slots := t.slots.set i ⟨g, some e⟩
  live := t.live + 1
  borne := by simpa using t.borne
  compte := by
    have := congrArg Multiset.card (occupants_set h ⟨g, some e⟩)
    simp only [hc, Option.toList_none, Option.toList_some, Multiset.card_add,
      Multiset.coe_card, List.length_nil, List.length_singleton] at this
    rw [t.compte]
    omega

/-- A new entry in a new slot. -/
def pousse (t : HandleTable) (e : Entry) (h : t.slots.length < maxHandlesPerProcess) : HandleTable where
  slots := t.slots ++ [⟨1, some e⟩]
  live := t.live + 1
  borne := by simpa using h
  compte := by simp [t.compte, occupants]

/-- The slot at `i` emptied. -/
def vide (t : HandleTable) (i : ℕ) {c : Slot} {e : Entry} (h : t.slots[i]? = some c)
    (hc : c.entry = some e) : HandleTable where
  slots := t.slots.set i ⟨c.generation, none⟩
  live := t.live - 1
  borne := by simpa using t.borne
  compte := by
    have := congrArg Multiset.card (occupants_set h ⟨c.generation, none⟩)
    simp only [hc, Option.toList_none, Option.toList_some, Multiset.card_add,
      Multiset.coe_card, List.length_nil, List.length_singleton] at this
    rw [t.compte]
    omega

def libre (l : List Slot) : Option ℕ := l.findIdx? fun c => c.entry.isNone

variable {i g : ℕ} {t t' : HandleTable} {e : Entry} {c : Slot} {id : HandleId} {ids : List HandleId}
  {es : List Entry}

theorem libre_some {l : List Slot} (h : libre l = some i) : ∃ c, l[i]? = some c ∧ c.entry = none := by
  obtain ⟨hi, hp, -⟩ := findIdx?_eq_some_iff_getElem.mp h
  exact ⟨l[i], getElem?_eq_getElem hi, by simpa using hp⟩

def insertLocked (t : HandleTable) (e : Entry) : Except Error (HandleId × HandleTable) :=
  if maxHandlesPerProcess ≤ t.live then .error .noSpace
  else
    match h : libre t.slots with
    | some i =>
      match hc : t.slots[i]? with
      | some c =>
        let g := nextGeneration c.generation
        .ok (new (i + 1) g, t.pose i g e hc (by
          obtain ⟨c', hc', hn⟩ := libre_some h
          rw [hc] at hc'
          cases hc'
          exact hn))
      | none => .error .noSpace
    | none =>
      if hl : t.slots.length < maxHandlesPerProcess then
        .ok (new (t.slots.length + 1) 1, t.pousse e hl)
      else .error .noSpace

def index (id : HandleId) : Except Error ℕ :=
  if !id.valid || id.slot = 0 then .error .badHandle else .ok (id.slot - 1)

section

variable (t : HandleTable)

def lookup (id : HandleId) (required : Rights) : Except Error Entry := do
  let i ← index id
  match t.slots[i]? with
  | none => .error .badHandle
  | some c =>
    verifieGeneration c.generation id.generation
    match c.entry with
    | none => .error .badHandle
    | some e =>
      verifieAcces e.rights required
      return e

def closeLocked (id : HandleId) : Except Error (Entry × HandleTable) :=
  match index id with
  | .error x => .error x
  | .ok i =>
    match hi : t.slots[i]? with
    | none => .error .badHandle
    | some c =>
      if c.generation ≠ id.generation then .error .badHandle
      else
        match hc : c.entry with
        | none => .error .badHandle
        | some e => .ok (e, t.vide i hi hc)

/-- `close` with its result ignored. -/
def close (id : HandleId) : HandleTable :=
  match t.closeLocked id with
  | .error _ => t
  | .ok (_, t') => t'

def closeAll (ids : List HandleId) : HandleTable := ids.foldl close t

/-- `clear`: the slots keep their generations. -/
def clear : HandleTable where
  slots := t.slots.map fun c => ⟨c.generation, none⟩
  live := 0
  borne := by simpa using t.borne
  compte := by simp [occupants, List.filterMap_map]

end

/-- The loop of `insert_many`, with the handles installed so far. -/
def insertSuite : List Entry → HandleTable → List HandleId → Except Error (List HandleId) × HandleTable
  | [], t, installed => (.ok installed, t)
  | e :: entries, t, installed =>
    match t.insertLocked e with
    | .ok (id, t') => insertSuite entries t' (installed ++ [id])
    | .error x => (.error x, t.closeAll installed)

def insertMany (t : HandleTable) (entries : List Entry) : Except Error (List HandleId) × HandleTable :=
  if maxHandlesPerProcess < t.live + entries.length then (.error .noSpace, t)
  else insertSuite entries t []

/-- A handle of process `pid` to the same object with the rights asked for. -/
def duplicate (t : HandleTable) (pid : ℕ) (id : HandleId) (requested : Rights) :
    Except Error (HandleId × HandleTable) := do
  let source ← t.lookup id .dup
  let accordes ← verifieDuplication source.rights requested
  t.insertLocked (source.derive (.processus pid) accordes)

/-- `export`: the entry a transfer starts from and the rights that leave with it. -/
def exportHandle (t : HandleTable) (id : HandleId) (masque : Rights) : Except Error (Entry × Rights) := do
  let entry ← t.lookup id .transfer
  let rights ← verifieTransfert entry.rights masque
  return (entry, rights)

@[simp] theorem entries_pose (h : t.slots[i]? = some c) (hc : c.entry = none) :
    (t.pose i g e h hc).entries = e ::ₘ t.entries := by
  have := occupants_set h ⟨g, some e⟩
  simpa [hc, entries, pose, add_comm, Multiset.singleton_add] using this

@[simp] theorem entries_pousse
    (h : t.slots.length < maxHandlesPerProcess) : (t.pousse e h).entries = e ::ₘ t.entries := by
  simp [entries, pousse, occupants, ← Multiset.coe_add, add_comm, Multiset.singleton_add]

theorem entries_vide (h : t.slots[i]? = some c) (hc : c.entry = some e) :
    e ::ₘ (t.vide i h hc).entries = t.entries := by
  have := occupants_set h ⟨c.generation, none⟩
  simpa [hc, entries, vide, add_comm, Multiset.singleton_add] using this

/-- The identifier `id` designates the entry `e`. -/
def Tient (t : HandleTable) (id : HandleId) (e : Entry) : Prop :=
  ∃ i g, id = new (i + 1) g ∧ 0 < g ∧ g < 2 ^ 31 ∧ t.slots[i]? = some ⟨g, some e⟩

theorem slot_lt (h : t.slots[i]? = some c) : i + 1 < 2 ^ 32 := by
  obtain ⟨hi, -⟩ := List.getElem?_eq_some_iff.mp h
  have := t.borne
  simp only [maxHandlesPerProcess] at this
  omega

theorem slot_new (h : t.slots[i]? = some c) : (new (i + 1) g).slot = i + 1 :=
  HandleId.slot_new g (slot_lt h)

theorem Tient.of_slots (h : t.Tient id e) (hs : ∀ i c, t.slots[i]? = some c → c.entry = some e → id.slot = i + 1 →
      t'.slots[i]? = some c) : t'.Tient id e := by
  obtain ⟨i, g, rfl, hg, hg', hi⟩ := h
  exact ⟨i, g, rfl, hg, hg', hs i _ hi rfl (slot_new hi)⟩

/-- An insertion takes a free slot or a new one, under its next generation, and leaves the others alone. -/
theorem insertLocked_slots (h : t.insertLocked e = .ok (id, t')) : ∃ i g, id = new (i + 1) (nextGeneration g) ∧
    i < maxHandlesPerProcess ∧ t.slots[i]?.getD ⟨0, none⟩ = ⟨g, none⟩ ∧ t'.live = t.live + 1 ∧
      t'.entries = e ::ₘ t.entries ∧
      ∀ j, t'.slots[j]? = if j = i then some ⟨nextGeneration g, some e⟩ else t.slots[j]? := by
  unfold insertLocked at h
  split at h
  · cases h
  split at h
  · rename_i i hlibre
    split at h
    · rename_i c hc
      obtain ⟨c', hc', hn⟩ := libre_some hlibre
      obtain rfl : c = c' := by simpa [hc] using hc'
      cases h
      have hlt := (List.getElem?_eq_some_iff.mp hc).1
      refine ⟨i, c.generation, rfl, hlt.trans_le t.borne, by rw [hc, ← hn]; rfl, rfl, entries_pose hc hn, ?_⟩
      intro j
      simp [pose, List.getElem?_set, hlt, eq_comm]
    · cases h
  · split_ifs at h with hl
    cases h
    refine ⟨t.slots.length, 0, rfl, hl, by simp, rfl, entries_pousse hl, fun j => ?_⟩
    rcases lt_trichotomy j t.slots.length with hj | rfl | hj
    · simp [pousse, getElem?_append_left hj, hj.ne]
    · simp [pousse, nextGeneration]
    · rw [if_neg hj.ne', getElem?_eq_none hj.le]
      exact getElem?_eq_none (by simpa [pousse] using hj)

theorem insertLocked_ok (h : t.insertLocked e = .ok (id, t')) : t'.entries = e ::ₘ t.entries ∧ t'.Tient id e ∧
      ∀ id' e', t.Tient id' e' → t'.Tient id' e' ∧ id'.slot ≠ id.slot := by
  obtain ⟨i, g, rfl, -, hlibre, -, hentries, hslots⟩ := insertLocked_slots h
  have hi : t'.slots[i]? = some ⟨nextGeneration g, some e⟩ := by rw [hslots, if_pos rfl]
  refine ⟨hentries, ⟨i, _, rfl, nextGeneration_pos g, nextGeneration_lt g, hi⟩, fun id' e' hid => ?_⟩
  -- the slot taken was free, so no handle is designated through it
  have hne : ∀ j c, t.slots[j]? = some c → c.entry = some e' → j ≠ i := by
    rintro j c hj hc rfl
    rw [hj] at hlibre
    cases hlibre
    cases hc
  constructor
  · apply hid.of_slots
    intro j c hj hc _
    rw [hslots, if_neg (hne j c hj hc), hj]
  · obtain ⟨j, g', rfl, -, -, hj⟩ := hid
    rw [slot_new hj, slot_new hi]
    have := hne j _ hj rfl
    omega

theorem mem_entries (h : t.slots[i]? = some c) (hc : c.entry = some e) : e ∈ t.entries := by
  rw [entries, occupants, Multiset.mem_coe, mem_filterMap]
  exact ⟨c, mem_of_getElem? h, hc⟩

theorem verifieAcces_ok {detenus requis : Rights} {x : Unit}
    (h : verifieAcces detenus requis = .ok x) : detenus.contains requis = true := by
  unfold verifieAcces at h
  split_ifs at h with hr
  exact hr

theorem lookup_ok {required : Rights}
    (h : t.lookup id required = .ok e) : e ∈ t.entries ∧ e.rights.contains required = true := by
  obtain ⟨i, -, h⟩ := ok_of_bind h
  split at h
  · cases h
  · rename_i c hc
    obtain ⟨_, -, h⟩ := ok_of_bind h
    split at h
    · cases h
    · rename_i e' he
      obtain ⟨_, ha, h⟩ := ok_of_bind h
      cases h
      exact ⟨mem_entries hc he, verifieAcces_ok ha⟩

theorem index_ok (h : index id = .ok i) : id.slot = i + 1 := by
  unfold index at h
  split_ifs at h with hv
  cases h
  simp only [Bool.or_eq_true, decide_eq_true_eq, not_or] at hv
  omega

/-- Closing empties the slot of the identifier and nothing else. -/
theorem closeLocked_slots (h : t.closeLocked id = .ok (e, t')) : ∃ i c, index id = .ok i ∧
    t.slots[i]? = some c ∧ c.generation = id.generation ∧ c.entry = some e ∧ e ::ₘ t'.entries = t.entries ∧
      ∀ j, t'.slots[j]? = if j = i then some ⟨c.generation, none⟩ else t.slots[j]? := by
  unfold closeLocked at h
  split at h
  · cases h
  rename_i i hi
  split at h
  · cases h
  rename_i c hc
  split_ifs at h with hg
  split at h
  · cases h
  rename_i e' he
  cases h
  refine ⟨i, c, hi, hc, not_not.mp hg, he, entries_vide hc he, fun j => ?_⟩
  simp [vide, List.getElem?_set, (List.getElem?_eq_some_iff.mp hc).1, eq_comm]

theorem closeLocked_ok (h : t.closeLocked id = .ok (e, t')) : e ::ₘ t'.entries = t.entries ∧
      ∀ id' e', t.Tient id' e' → id'.slot ≠ id.slot → t'.Tient id' e' := by
  obtain ⟨i, c, hi, -, -, -, hentries, hslots⟩ := closeLocked_slots h
  refine ⟨hentries, fun id' e' hid hne => hid.of_slots fun j d hj _ hj' => ?_⟩
  rw [hslots, if_neg, hj]
  rintro rfl
  exact hne (hj'.trans (index_ok hi).symm)

theorem Tient.index (hg : 0 < g) (hg' : g < 2 ^ 31)
    (h : t.slots[i]? = some c) : HandleTable.index (new (i + 1) g) = .ok i := by
  have hgen := generation_new (slot_lt h) hg'
  have hraw : (new (i + 1) g).raw ≠ 0 := by simp [new]
  simp [HandleTable.index, valid, slot_new h, hgen, hraw, hg.ne']

theorem closeLocked_eq (hid : index id = .ok i) (hi : t.slots[i]? = some c) (hg : c.generation = id.generation)
    (hc : c.entry = some e) : t.closeLocked id = .ok (e, t.vide i hi hc) := by
  unfold closeLocked
  split
  · simp_all
  · rename_i j hj
    obtain rfl : i = j := by simpa [hid] using hj
    split
    · simp_all
    · rename_i d hd
      obtain rfl : c = d := by simpa [hi] using hd
      rw [if_neg (by simp [hg])]
      split
      · simp_all
      · rename_i x hx
        obtain rfl : e = x := by simpa [hc] using hx
        rfl

theorem Tient.closeLocked (h : t.Tient id e) : ∃ t', t.closeLocked id = .ok (e, t') := by
  obtain ⟨i, g, rfl, hg, hg', hi⟩ := h
  have hgen := generation_new (slot_lt hi) hg'
  exact ⟨_, closeLocked_eq (Tient.index hg hg' hi) hi hgen.symm rfl⟩

/-- The identifiers designate the entries, each in a slot of its own. -/
structure Tenus (t : HandleTable) (ids : List HandleId) (es : List Entry) : Prop where
  tient : List.Forall₂ t.Tient ids es
  distincts : (ids.map slot).Nodup

theorem closeAll_entries (h : t.Tenus ids es) : (es : Multiset Entry) + (t.closeAll ids).entries = t.entries := by
  induction ids generalizing t es with
  | nil =>
    obtain rfl := List.forall₂_nil_left_iff.mp h.tient
    simp [closeAll]
  | cons id ids ih =>
    obtain ⟨e, es, hid, hids, rfl⟩ := List.forall₂_cons_left_iff.mp h.tient
    obtain ⟨t', ht'⟩ := hid.closeLocked
    obtain ⟨hentries, hautres⟩ := closeLocked_ok ht'
    obtain ⟨hnot, hnodup⟩ := nodup_cons.mp h.distincts
    have htenus : t'.Tenus ids es := by
      refine ⟨?_, hnodup⟩
      rw [List.forall₂_iff_get] at hids ⊢
      refine ⟨hids.1, ?_⟩
      intro k hk hk'
      apply hautres _ _ (hids.2 k hk hk')
      intro heq
      apply hnot
      rw [← heq]
      exact mem_map_of_mem (get_mem ids ⟨k, hk⟩)
    have hclose : t.closeAll (id :: ids) = t'.closeAll ids := by
      simp [closeAll, close, ht']
    rw [hclose, ← hentries, ← ih htenus, ← Multiset.cons_coe, Multiset.cons_add]

theorem Tenus.insertLocked (h : t.Tenus ids es) (hi : t.insertLocked e = .ok (id, t')) :
    t'.Tenus (ids ++ [id]) (es ++ [e]) := by
  obtain ⟨-, hnew, hold⟩ := insertLocked_ok hi
  constructor
  · apply rel_append (h.tient.imp fun id' e' hid => (hold id' e' hid).1)
    exact List.Forall₂.cons hnew List.Forall₂.nil
  · rw [map_append, nodup_append]
    refine ⟨h.distincts, by simp, ?_⟩
    intro a ha b hb
    obtain ⟨id', hid', rfl⟩ := mem_map.mp ha
    obtain rfl : b = id.slot := by simpa using hb
    obtain ⟨k, hk, rfl⟩ := getElem_of_mem hid'
    have htient := (List.forall₂_iff_get.mp h.tient).2 k hk (by rw [← h.tient.length_eq]; exact hk)
    exact (hold _ _ htient).2

theorem insertSuite_spec {faits : List Entry} {t0 : HandleTable}
    (ht : t.entries = (faits : Multiset Entry) + t0.entries) (hids : t.Tenus ids faits) :
    match insertSuite es t ids with
    | (.ok ids', t') => t'.entries = ((faits ++ es : List Entry) : Multiset Entry) + t0.entries ∧
        t'.Tenus ids' (faits ++ es)
    | (.error _, t') => t'.entries = t0.entries := by
  induction es generalizing t ids faits with
  | nil => simpa [insertSuite] using ⟨ht, hids⟩
  | cons e es ih =>
    unfold insertSuite
    cases hi : t.insertLocked e with
    | error x =>
      have := closeAll_entries hids
      rw [ht] at this
      exact add_left_cancel this
    | ok r =>
      obtain ⟨id, t'⟩ := r
      have ht' : t'.entries = ((faits ++ [e] : List Entry) : Multiset Entry) + t0.entries := by
        rw [(insertLocked_ok hi).1, ht, ← Multiset.coe_add, ← Multiset.cons_add,
          add_comm (faits : Multiset Entry), Multiset.coe_singleton, Multiset.singleton_add]
      simpa using ih ht' (hids.insertLocked hi)

theorem insertMany_spec (t : HandleTable) (es : List Entry) :
    match t.insertMany es with
    | (.ok ids, t') => t'.entries = (es : Multiset Entry) + t.entries ∧ t'.Tenus ids es
    | (.error _, t') => t'.entries = t.entries := by
  unfold insertMany
  split_ifs
  · rfl
  · exact insertSuite_spec (by simp) ⟨.nil, by simp⟩

theorem duplicate_ok {pid : ℕ} {id' : HandleId} {r : Rights} (h : t.duplicate pid id r = .ok (id', t')) :
    ∃ e r', e ∈ t.entries ∧ e.rights.contains .dup = true ∧ e.rights.contains r' = true ∧
      t'.entries = e.derive (.processus pid) r' ::ₘ t.entries := by
  obtain ⟨e, he, h⟩ := ok_of_bind h
  obtain ⟨r', hr, h⟩ := ok_of_bind h
  obtain ⟨hmem, hdup⟩ := lookup_ok he
  exact ⟨e, r', hmem, hdup, (verifieDuplication_ok hr).2, (insertLocked_ok h).1⟩

theorem exportHandle_ok {m r : Rights} (h : t.exportHandle id m = .ok (e, r)) :
    t.lookup id .transfer = .ok e ∧ e.rights.contains r = true := by
  obtain ⟨e', he, h⟩ := ok_of_bind h
  obtain ⟨r', hr, h⟩ := ok_of_bind h
  cases h
  exact ⟨he, (verifieTransfert_ok hr).2⟩

end HandleTable

end BouchaudOS.Natif
