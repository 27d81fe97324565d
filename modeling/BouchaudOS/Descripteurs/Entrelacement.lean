import BouchaudOS.Descripteurs.Fichiers

/-!
# Threads that share a table

`read` and `write` of `src/compat/linux/file.rs` take the lock of the table several times:
for the object, for the position, and to move the position. In between, another thread
may close the number, or put another descriptor there. Each section under a lock is one
step here, and threads are calls in progress that take their steps in any order.

A mark is the identity of a descriptor, given when it enters the table. The journal keeps
what reads and writes did; no call reads marks or the journal.
-/

namespace BouchaudOS.Descripteurs

open List Option FdTable Runs

def FdTable.EnPosition (t : FdTable Suivi) (marque o : ℕ) : Prop :=
  ∃ j d, t.slot j = some d ∧ d.marque = marque ∧ d.desc.offset = o

/-- A `read` whose number was found to be a regular file. -/
structure Lecture where
  fd : ℤ
  resolu : Suivi
  node : ℕ
  count : ℕ
  limite : ℕ
  inscriptible : Bool

/-- A `write` whose number was found to be a regular file. -/
structure Ecriture where
  fd : ℤ
  resolu : Suivi
  node : ℕ
  data : List UInt8

/-- Where a call in progress is. `vue` is the table at the moment the call read a position. -/
inductive Phase
  | lecture (a : Lecture)
  | lecturePlacee (a : Lecture) (vue : FdTable Suivi) (offset : ℕ)
  | lectureMesuree (a : Lecture) (vue : FdTable Suivi) (offset wanted : ℕ)
  | ecriture (a : Ecriture)
  | ecriturePlacee (a : Ecriture) (vue : FdTable Suivi) (offset : ℕ) (append : Bool)
  | avance (fd : ℤ) (resolu : Suivi) (ecriture : Bool) (debut nombre : ℕ)
  | ouverture (node : ℕ) (flags : Flags) (longueur : ℕ)
  | fini

/-- What a read or a write did: its bytes, from one state of the file to the next, or the
move of the position, from one table to the next. -/
inductive Fait
  | transfert (resolu : Suivi) (ecriture : Bool) (vue : FdTable Suivi) (avant apres : Fichier)
      (debut : ℕ) (octets : List UInt8)
  | avance (resolu : Suivi) (ecriture : Bool) (debut nombre : ℕ) (avant apres : FdTable Suivi)

def Suivi.enFin (d : Suivi) (ecriture : Bool) : Bool := ecriture && d.append

/-- Bytes go to, or come from, the position of the descriptor that the call resolved; that
position advances by their number, if the descriptor is still there, and no other moves. -/
def Fait.Juste : Fait → Prop
  | .transfert resolu ecriture vue avant apres debut octets =>
    (if resolu.enFin ecriture then debut = avant.contenu.length
      else vue.EnPosition resolu.marque debut) ∧
    if ecriture then apres = avant.ecrit debut octets
    else apres = avant ∧ octets <+: avant.contenu.drop debut
  | .avance resolu ecriture debut nombre avant apres =>
    (∀ o, avant.EnPosition resolu.marque o →
      (resolu.enFin ecriture = false → o = debut) ∧ apres.EnPosition resolu.marque (debut + nombre)) ∧
    ∀ m, m ≠ resolu.marque → ∀ o, apres.EnPosition m o ↔ avant.EnPosition m o

structure Partagee where
  table : FdTable Suivi
  fs : Systemefichiers
  prochain : ℕ
  appels : List Phase
  journal : List Fait
  panique : Bool

/-- `close` looks up the number once more before it closes it, for the record locks only. -/
inductive Pas
  | ouvre (node : ℕ) (flags : Flags)
  | read (fd : ℤ) (count limite : ℕ) (inscriptible : Bool)
  | write (fd : ℤ) (data : List UInt8)
  | suite (i : ℕ)
  | lseek (fd offset : ℤ) (whence : ℕ)
  | dup2 (old new : ℤ)
  | dup3 (old new : ℤ) (flags : Flags)
  | close (fd : ℤ)

namespace Partagee

def neuf (fs : Systemefichiers) : Partagee := ⟨.vide, fs, 0, [], [], false⟩

variable (s : Partagee)

def clone (cloexec : Bool) (d : Suivi) : Suivi :=
  { d.clone cloexec with marque := s.prochain }

def lance (p : Phase) : Partagee := { s with appels := s.appels ++ [p] }

def va (i : ℕ) (p : Phase) : Partagee := { s with appels := s.appels.set i p }

/-- `open` of a regular file, up to the insertion. -/
def sysOpen (node : ℕ) (flags : Flags) : Partagee :=
  let f := s.fs node
  let acces := flags &&& 3
  if f.disque ∧ (acces = 1 ∨ acces = 2 ∨ flags &&& oTrunc ≠ 0) then s.lance .fini
  else
    let f' : Fichier := if flags &&& oTrunc ≠ 0 then { f with contenu := [] } else f
    { s with fs := Function.update s.fs node f' }.lance (.ouverture node flags f'.contenu.length)

/-- The first section of `read`. Only regular files are opened here. -/
def sysRead (fd : ℤ) (count limite : ℕ) (inscriptible : Bool) : Partagee :=
  if count = 0 then s.lance .fini
  else
    match s.table.get fd with
    | none => s.lance .fini
    | some d =>
      match d.desc.kind with
      | .file node => s.lance (.lecture ⟨fd, d, node, count, limite, inscriptible⟩)
      | _ => s.lance .fini

/-- The first section of `write`, after the bytes were copied from user memory. -/
def sysWrite (fd : ℤ) (data : List UInt8) : Partagee :=
  if data = [] then s.lance .fini
  else
    match s.table.get fd with
    | none => s.lance .fini
    | some d =>
      match d.desc.kind with
      | .file node => s.lance (.ecriture ⟨fd, d, node, data⟩)
      | _ => s.lance .fini

/-- The bytes of `read_at`, written to user memory if it can be. -/
def transfereLecture (i : ℕ) (a : Lecture) (vue : FdTable Suivi) (offset wanted : ℕ) : Partagee :=
  let f := s.fs a.node
  let octets := f.readAt offset wanted a.limite
  if a.inscriptible then
    { s with journal := .transfert a.resolu false vue f f offset octets :: s.journal }.va i
      (.avance a.fd a.resolu false offset octets.length)
  else s.va i .fini

/-- The section of `write` under the lock of the file system. -/
def transfereEcriture (i : ℕ) (a : Ecriture) (vue : FdTable Suivi) (offset : ℕ) (append : Bool) : Partagee :=
  let f := s.fs a.node
  let start := if append then f.contenu.length else offset
  if Ramfs.maxFileSize < start + a.data.length then s.va i .fini
  else
    let f' := f.ecrit start a.data
    { s with
      fs := Function.update s.fs a.node f'
      journal := .transfert a.resolu true vue f f' start a.data :: s.journal }.va i
      (.avance a.fd a.resolu true start a.data.length)

/-- The next section of a call. -/
def poursuit (i : ℕ) : Phase → Option Partagee
  | .lecture a =>
    -- a number that was closed meanwhile is read from position 0
    some (s.va i (.lecturePlacee a s.table (((s.table.get a.fd).map fun d => d.desc.offset).getD 0)))
  | .lecturePlacee a vue offset =>
    let total := (s.fs a.node).contenu.length
    if total ≤ offset then some (s.va i .fini)
    else some (s.va i (.lectureMesuree a vue offset (min a.count (total - offset))))
  | .lectureMesuree a vue offset wanted => some (s.transfereLecture i a vue offset wanted)
  | .ecriture a =>
    if (s.fs a.node).disque then some (s.va i .fini)
    else
      match s.table.get a.fd with
      | none => some { s with panique := true }
      | some d => some (s.va i (.ecriturePlacee a s.table d.desc.offset d.append))
  | .ecriturePlacee a vue offset append => some (s.transfereEcriture i a vue offset append)
  | .avance fd resolu ecriture debut nombre =>
    let table := s.table.modify fd (Suivi.place (debut + nombre))
    some ({ s with
      table := table
      journal := .avance resolu ecriture debut nombre s.table table :: s.journal }.va i .fini)
  | .ouverture node flags longueur =>
    let offset := if flags &&& oAppend ≠ 0 then longueur else 0
    let desc : Suivi := ⟨⟨.file node, offset, flags, flags &&& oCloexec ≠ 0⟩, s.prochain⟩
    some ({ s with
      table := (s.table.insert desc).2
      prochain := s.prochain + 1 }.va i .fini)
  | .fini => none

def rend {β : Type} (s : Partagee) : Except Errno (β × FdTable Suivi) → Partagee
  | .error _ => s
  | .ok (_, t) => { s with table := t, prochain := s.prochain + 1 }

/-- A step; there is none after a panic. -/
def execute (s : Partagee) (e : Pas) : Option Partagee :=
  if s.panique then none
  else
    match e with
    | .ouvre node flags => some (s.sysOpen node flags)
    | .read fd count limite inscriptible => some (s.sysRead fd count limite inscriptible)
    | .write fd data => some (s.sysWrite fd data)
    | .suite i => s.appels[i]?.bind (s.poursuit i)
    | .lseek fd offset whence =>
      match sysLseek s.table s.fs fd offset whence with
      | none => some { s with panique := true }
      | some (_, t) => some { s with table := t }
    | .dup2 old new => some (s.rend (s.table.sysDup2 (s.clone false) old new))
    | .dup3 old new flags =>
      some (s.rend (s.table.sysDup3 (s.clone (flags &&& oCloexec ≠ 0)) old new flags))
    | .close fd => some { s with table := (s.table.close fd).2 }

/-- The number still designates the descriptor that was resolved. -/
def Designe (s : Partagee) (fd : ℤ) (resolu : Suivi) : Prop :=
  (s.table.get fd).map Suivi.marque = some resolu.marque

/-- At its later sections, a call finds the descriptor it resolved; to move its position it
finds it where the transfer began, or finds nothing. A `lseek` does not overflow. -/
def Convient (s : Partagee) : Pas → Prop
  | .suite i =>
    match s.appels[i]? with
    | some (.lecture a) => s.Designe a.fd a.resolu
    | some (.ecriture a) => (s.fs a.node).disque = false → s.Designe a.fd a.resolu
    | some (.avance fd resolu ecriture debut _) =>
      ∀ d ∈ s.table.get fd, d.marque = resolu.marque ∧ (resolu.enFin ecriture = false → d.desc.offset = debut)
    | _ => True
  | .lseek fd offset whence =>
    ∀ d size base, s.table.get fd = some d → taille s.fs d.desc.kind = some size →
      origineLseek d size whence = some base → -2 ^ 63 ≤ base + offset ∧ base + offset < 2 ^ 63
  | _ => True

/-- The number and the descriptor that a call resolved. -/
def cible : Phase → Option (ℤ × Suivi)
  | .lecture a | .lecturePlacee a _ _ | .lectureMesuree a _ _ _ => some (a.fd, a.resolu)
  | .ecriture a | .ecriturePlacee a _ _ _ => some (a.fd, a.resolu)
  | .avance fd resolu _ _ _ => some (fd, resolu)
  | .ouverture _ _ _ | .fini => none

/-- A descriptor stays at its number and only its position changes; at most one enters the
table, under a mark of its own. A call keeps the descriptor it resolved. -/
structure Suit (s s' : Partagee) : Prop where
  prochain : s.prochain ≤ s'.prochain
  table : ∃ k, ∀ j d', s'.table.slot j = some d' →
    (∃ d o, s.table.slot j = some d ∧ d' = d.place o) ∨
      j = k ∧ d'.marque = s.prochain ∧ s.prochain < s'.prochain
  appels : ∀ p ∈ s'.appels, ∀ c, cible p = some c →
    (∃ q ∈ s.appels, cible q = some c) ∨ s.table.get c.1 = some c.2

variable {s s' : Partagee} {i : ℕ} {fd : ℤ}

theorem Suit.of_table (hp : s'.prochain = s.prochain)
    (ht : ∀ j d', s'.table.slot j = some d' → ∃ d o, s.table.slot j = some d ∧ d' = d.place o)
    (ha : ∀ p ∈ s'.appels, ∀ c, cible p = some c →
      (∃ q ∈ s.appels, cible q = some c) ∨ s.table.get c.1 = some c.2) : Suit s s' :=
  ⟨hp.ge, ⟨0, fun j d' h => .inl (ht j d' h)⟩, ha⟩

theorem slot_reste (t : FdTable Suivi) (j : ℕ) (d' : Suivi) (h : t.slot j = some d') :
    ∃ d o, t.slot j = some d ∧ d' = d.place o := ⟨d', _, h, rfl⟩

variable {t vue : FdTable Suivi} {d resolu : Suivi} {e : Pas} {offset : ℕ}

theorem slot_of_deplace {t' : FdTable Suivi} (h : Deplace t fd t') (j : ℕ) (d' : Suivi)
    (hd : t'.slot j = some d') : ∃ d o, t.slot j = some d ∧ d' = d.place o := by
  obtain ⟨o, ho⟩ := h
  rw [ho] at hd
  split_ifs at hd
  · obtain ⟨d, hslot, rfl⟩ := map_eq_some_iff.mp hd
    exact ⟨d, o, hslot, rfl⟩
  · exact slot_reste t j d' hd

variable {p q : Phase}

theorem mem_va (h : q ∈ (s.va i p).appels) : q ∈ s.appels ∨ q = p :=
  mem_or_eq_of_mem_set h

theorem mem_lance (h : q ∈ (s.lance p).appels) : q ∈ s.appels ∨ q = p := by
  rcases mem_append.mp h with h | h
  · exact .inl h
  · exact .inr (mem_singleton.mp h)

theorem suit_va (hi : s.appels[i]? = some p) (ha : s'.appels = (s.va i q).appels)
    (hq : cible q = none ∨ cible q = cible p) (hp : s'.prochain = s.prochain)
    (ht : ∀ j d', s'.table.slot j = some d' → ∃ d o, s.table.slot j = some d ∧ d' = d.place o) :
    Suit s s' := by
  refine .of_table hp ht fun r hr c hc => .inl ?_
  rw [ha] at hr
  rcases mem_va hr with hr | rfl
  · exact ⟨r, hr, hc⟩
  rcases hq with hq | hq
  · rw [hq] at hc
    cases hc
  · exact ⟨p, mem_of_getElem? hi, hq ▸ hc⟩

/-- The position a call read is that of the descriptor it resolved. -/
def Placee : Phase → Prop
  | .lecturePlacee a vue offset | .lectureMesuree a vue offset _ =>
    vue.EnPosition a.resolu.marque offset
  | .ecriturePlacee a vue offset append =>
    vue.EnPosition a.resolu.marque offset ∧ append = a.resolu.append
  | _ => True

/-- A call starts with the descriptor it resolved, and the files may change. -/
def Debute (s s' : Partagee) : Prop :=
  ∃ fs p, s' = { s with fs := fs }.lance p ∧ Placee p ∧ ∀ c, cible p = some c → s.table.get c.1 = some c.2

theorem debute_fini : Debute s (s.lance .fini) := ⟨s.fs, .fini, rfl, trivial, nofun⟩

theorem debute_sysOpen (node : ℕ) (flags : Flags) : Debute s (s.sysOpen node flags) := by
  unfold sysOpen
  dsimp only
  split
  · exact debute_fini
  · exact ⟨_, _, rfl, trivial, nofun⟩

theorem debute_sysRead (fd : ℤ) (count limite : ℕ) (inscriptible : Bool) :
    Debute s (s.sysRead fd count limite inscriptible) := by
  unfold sysRead
  split
  · exact debute_fini
  split
  · exact debute_fini
  rename_i d hd
  split
  · refine ⟨s.fs, _, rfl, trivial, ?_⟩
    rintro _ ⟨⟩
    exact hd
  · exact debute_fini

theorem debute_sysWrite (fd : ℤ) (data : List UInt8) : Debute s (s.sysWrite fd data) := by
  unfold sysWrite
  split
  · exact debute_fini
  split
  · exact debute_fini
  rename_i d hd
  split
  · refine ⟨s.fs, _, rfl, trivial, ?_⟩
    rintro _ ⟨⟩
    exact hd
  · exact debute_fini

theorem Debute.suit (h : Debute s s') : Suit s s' := by
  obtain ⟨fs, p, rfl, -, hp⟩ := h
  refine .of_table rfl (slot_reste s.table) fun q hq c hc => ?_
  rcases mem_lance hq with hq | rfl
  · exact .inl ⟨q, hq, hc⟩
  · exact .inr (hp c hc)

theorem suit_panique : Suit s { s with panique := true } :=
  .of_table rfl (slot_reste s.table) fun q hq _ hc => .inl ⟨q, hq, hc⟩

theorem suit_poursuit (hi : s.appels[i]? = some p) (h : s.poursuit i p = some s') : Suit s s' := by
  have hreste := slot_reste s.table
  cases p with
  | lecture a =>
    cases h
    exact suit_va hi rfl (.inr rfl) rfl hreste
  | lecturePlacee a vue offset =>
    simp only [poursuit] at h
    split at h
    · cases h
      exact suit_va hi rfl (.inl rfl) rfl hreste
    · cases h
      exact suit_va hi rfl (.inr rfl) rfl hreste
  | lectureMesuree a vue offset wanted =>
    cases h
    unfold transfereLecture
    split
    · exact suit_va hi rfl (.inr rfl) rfl hreste
    · exact suit_va hi rfl (.inl rfl) rfl hreste
  | ecriture a =>
    simp only [poursuit] at h
    split at h
    · cases h
      exact suit_va hi rfl (.inl rfl) rfl hreste
    split at h
    · cases h
      exact suit_panique
    · cases h
      exact suit_va hi rfl (.inr rfl) rfl hreste
  | ecriturePlacee a vue offset append =>
    cases h
    unfold transfereEcriture
    dsimp only
    generalize (if append = true then _ else offset) = start
    split
    · exact suit_va hi rfl (.inl rfl) rfl hreste
    · exact suit_va hi rfl (.inr rfl) rfl hreste
  | avance fd resolu ecriture debut nombre =>
    cases h
    exact suit_va hi rfl (.inl rfl) rfl (slot_of_deplace (.modify s.table fd _))
  | ouverture node flags longueur =>
    cases h
    generalize hdesc : Suivi.mk _ s.prochain = desc
    obtain ⟨k, t, hins, -, -, hslot⟩ := s.table.insertAtLeast_spec desc 0
    rw [show s.table.insert desc = (k, t) from hins]
    refine ⟨Nat.le_succ _, ⟨k, fun j d' hd => ?_⟩, fun q hq c hc => .inl ?_⟩
    · have hd' : t.slot j = some d' := hd
      rw [hslot] at hd'
      split_ifs at hd' with hj
      · cases hd'
        exact .inr ⟨hj, congrArg Suivi.marque hdesc.symm, Nat.lt_succ_self _⟩
      · exact .inl (hreste j d' hd')
    · rcases mem_va hq with hq | rfl
      · exact ⟨q, hq, hc⟩
      · cases hc
  | fini => cases h

theorem suit_set (hd : d.marque = s.prochain) (new : ℕ) :
    Suit s { s with table := (s.table.set new d).2, prochain := s.prochain + 1 } := by
  refine ⟨Nat.le_succ _, ⟨new, fun j d' hd' => ?_⟩, fun q hq c hc => .inl ⟨q, hq, hc⟩⟩
  rw [(s.table.set_spec new d).2 j] at hd'
  split_ifs at hd' with hj
  · cases hd'
    exact .inr ⟨hj, hd, Nat.lt_succ_self _⟩
  · exact .inl (slot_reste s.table j d' hd')

theorem suit_refl : Suit s s :=
  .of_table rfl (slot_reste s.table) fun q hq _ hc => .inl ⟨q, hq, hc⟩

theorem suit_sysDup2 (old new : ℤ) : Suit s (s.rend (s.table.sysDup2 (s.clone false) old new)) := by
  unfold sysDup2
  split
  · exact suit_refl
  split
  · split
    · exact ⟨Nat.le_succ _, ⟨0, fun j d' hd => .inl (slot_reste s.table j d' hd)⟩,
        fun q hq _ hc => .inl ⟨q, hq, hc⟩⟩
    · exact suit_refl
  split
  · exact suit_refl
  · exact suit_set rfl new.toNat

theorem suit_sysDup3 (cloexec : Bool) (old new : ℤ) (flags : Flags) :
    Suit s (s.rend (s.table.sysDup3 (s.clone cloexec) old new flags)) := by
  unfold sysDup3
  split
  · exact suit_refl
  split
  · exact suit_refl
  split
  · exact suit_refl
  split
  · exact suit_refl
  · exact suit_set rfl new.toNat

theorem suit_execute (h : s.execute e = some s') : Suit s s' := by
  unfold execute at h
  split at h
  · cases h
  cases e with
  | ouvre node flags =>
    cases h
    exact (debute_sysOpen node flags).suit
  | read fd count limite inscriptible =>
    cases h
    exact (debute_sysRead fd count limite inscriptible).suit
  | write fd data =>
    cases h
    exact (debute_sysWrite fd data).suit
  | suite i =>
    obtain ⟨p, hi, hp⟩ := bind_eq_some_iff.mp h
    exact suit_poursuit hi hp
  | lseek fd offset whence =>
    dsimp only at h
    split at h
    · cases h
      exact suit_panique
    · rename_i r t hr
      cases h
      exact .of_table rfl (slot_of_deplace (deplace_sysLseek hr)) fun q hq _ hc =>
        .inl ⟨q, hq, hc⟩
  | dup2 old new =>
    cases h
    exact suit_sysDup2 old new
  | dup3 old new flags =>
    cases h
    exact suit_sysDup3 _ old new flags
  | close fd =>
    cases h
    refine .of_table rfl (fun j d' hd => ?_) fun q hq _ hc => .inl ⟨q, hq, hc⟩
    rw [show ((s.table.close fd).2).slot j = _ from (s.table.close_spec fd).2 j] at hd
    split_ifs at hd
    exact slot_reste s.table j d' hd

/-- Marks are identities, and a descriptor that a call resolved is at the number where the
call found it, if it still is in the table. -/
structure Coherent (s : Partagee) : Prop where
  marques : ∀ j d, s.table.slot j = some d → d.marque < s.prochain
  uniques : ∀ j j' d d', s.table.slot j = some d → s.table.slot j' = some d' → d.marque = d'.marque → j = j'
  resolus : ∀ p ∈ s.appels, ∀ c, cible p = some c → c.2.marque < s.prochain ∧
    ∀ j d, s.table.slot j = some d → d.marque = c.2.marque → (j : ℤ) = c.1 ∧ ∃ o, d = c.2.place o

theorem coherent_neuf (fs : Systemefichiers) : (neuf fs).Coherent where
  marques := fun j d hd => by simp [neuf] at hd
  uniques := fun j j' d d' hd => by simp [neuf] at hd
  resolus := nofun

theorem Coherent.suit (h : s.Coherent) (hs : Suit s s') : s'.Coherent := by
  obtain ⟨hp, ⟨k, htable⟩, happels⟩ := hs
  refine ⟨fun j d hd => ?_, fun j j' d d' hd hd' hm => ?_, fun p hpm c hc => ?_⟩
  · rcases htable j d hd with ⟨e, o, he, rfl⟩ | ⟨-, hm, hlt⟩
    · exact lt_of_lt_of_le (h.marques j e he) hp
    · exact hm ▸ hlt
  · rcases htable j d hd with ⟨e, o, he, rfl⟩ | ⟨rfl, hmd, -⟩ <;>
      rcases htable j' d' hd' with ⟨e', o', he', rfl⟩ | ⟨rfl, hmd', -⟩
    · exact h.uniques j j' e e' he he' hm
    · have hlt : (e.place o).marque < s.prochain := h.marques j e he
      omega
    · have hlt : (e'.place o').marque < s.prochain := h.marques j' e' he'
      omega
    · rfl
  · have hc' : c.2.marque < s.prochain ∧ ∀ j d, s.table.slot j = some d →
        d.marque = c.2.marque → (j : ℤ) = c.1 ∧ ∃ o, d = c.2.place o := by
      rcases happels p hpm c hc with ⟨q, hq, hcq⟩ | hget
      · exact h.resolus q hq c hcq
      obtain ⟨hfd, hslot⟩ := get_eq_some_iff.mp hget
      refine ⟨h.marques _ _ hslot, fun j d hd hm => ?_⟩
      obtain rfl : j = c.1.toNat := h.uniques _ _ _ _ hd hslot hm
      cases hd.symm.trans hslot
      exact ⟨Int.toNat_of_nonneg hfd, _, rfl⟩
    refine ⟨lt_of_lt_of_le hc'.1 hp, fun j d hd hm => ?_⟩
    rcases htable j d hd with ⟨e, o, he, rfl⟩ | ⟨-, hmd, -⟩
    · obtain ⟨hj, o', rfl⟩ := hc'.2 j e he hm
      exact ⟨hj, o, rfl⟩
    · omega

structure Sur (s : Partagee) : Prop where
  panique : s.panique = false
  journal : ∀ x ∈ s.journal, x.Juste
  appels : ∀ p ∈ s.appels, Placee p

theorem Sur.debute (h : s.Sur) (hd : Debute s s') : s'.Sur := by
  obtain ⟨fs, p, rfl, hp, -⟩ := hd
  refine ⟨h.panique, h.journal, fun q hq => ?_⟩
  rcases mem_lance hq with hq | rfl
  · exact h.appels q hq
  · exact hp

theorem Sur.va (h : s.Sur) (hp : Placee p) : (s.va i p).Sur := by
  refine ⟨h.panique, h.journal, fun q hq => ?_⟩
  rcases mem_va hq with hq | rfl
  · exact h.appels q hq
  · exact hp

theorem Sur.note {x : Fait} (h : s.Sur) (hx : x.Juste) (hp : Placee p)
    (table : FdTable Suivi) (fs : Systemefichiers) :
    ({ s with table := table, fs := fs, journal := x :: s.journal }.va i p).Sur := by
  refine ⟨h.panique, fun y hy => ?_, fun q hq => ?_⟩
  · rcases mem_cons.mp hy with rfl | hy
    · exact hx
    · exact h.journal y hy
  · rcases mem_va hq with hq | rfl
    · exact h.appels q hq
    · exact hp

theorem enPosition_of_get (h : s.table.get fd = some d) : s.table.EnPosition d.marque d.desc.offset :=
  ⟨_, d, (get_eq_some_iff.mp h).2, rfl, rfl⟩

theorem exists_of_designe (hc : s.Coherent) (hp : p ∈ s.appels)
    (hcible : cible p = some (fd, resolu)) (h : s.Designe fd resolu) :
    ∃ o, s.table.get fd = some (resolu.place o) := by
  obtain ⟨d, hd, hm⟩ := map_eq_some_iff.mp h
  obtain ⟨-, o, rfl⟩ :=
    (hc.resolus p hp _ hcible).2 _ d (get_eq_some_iff.mp hd).2 hm
  exact ⟨o, hd⟩

theorem juste_avance {ecriture : Bool} {debut nombre : ℕ} (hc : s.Coherent)
    (hp : .avance fd resolu ecriture debut nombre ∈ s.appels)
    (h : ∀ d ∈ s.table.get fd, d.marque = resolu.marque ∧
      (resolu.enFin ecriture = false → d.desc.offset = debut)) :
    (Fait.avance resolu ecriture debut nombre s.table
      (s.table.modify fd (Suivi.place (debut + nombre)))).Juste := by
  refine ⟨?_, fun m hm o => ?_⟩
  · rintro o ⟨j, d, hd, hm, rfl⟩
    obtain ⟨rfl, -⟩ := (hc.resolus _ hp _ rfl).2 j d hd hm
    refine ⟨(h d (by simpa using hd)).2, j, d.place (debut + nombre), ?_, hm, rfl⟩
    rw [slot_modify, if_pos rfl, hd]
    rfl
  -- the number holds the resolved descriptor, which is not this one
  have hautre : ∀ j d, s.table.slot j = some d → d.marque = m → fd ≠ j := by
    rintro j d hd rfl rfl
    exact hm (h d (by simpa using hd)).1
  constructor
  · rintro ⟨j, d', hd', rfl, rfl⟩
    rw [slot_modify] at hd'
    split_ifs at hd' with hj
    · obtain ⟨d, hd, rfl⟩ := map_eq_some_iff.mp hd'
      exact absurd hj (hautre j d hd rfl)
    · exact ⟨j, d', hd', rfl, rfl⟩
  · rintro ⟨j, d, hd, rfl, rfl⟩
    refine ⟨j, d, ?_, rfl, rfl⟩
    rw [slot_modify, if_neg (hautre j d hd rfl), hd]

theorem readAt_prefix (f : Fichier) (offset wanted limite : ℕ) :
    f.readAt offset wanted limite <+: f.contenu.drop offset := by
  unfold Fichier.readAt
  split
  · exact (List.take_prefix _ _).trans (List.take_prefix _ _)
  · exact take_prefix _ _

theorem Sur.transfereLecture {a : Lecture} (h : s.Sur) (hvue : vue.EnPosition a.resolu.marque offset) (wanted : ℕ) :
    (s.transfereLecture i a vue offset wanted).Sur := by
  unfold Partagee.transfereLecture
  split
  · have hx : (Fait.transfert a.resolu false vue (s.fs a.node) (s.fs a.node) offset
        ((s.fs a.node).readAt offset wanted a.limite)).Juste :=
      ⟨hvue, rfl, readAt_prefix _ offset wanted a.limite⟩
    exact h.note hx (by trivial) s.table s.fs
  · exact h.va (by trivial)

theorem Sur.transfereEcriture {a : Ecriture} {append : Bool}
    (h : s.Sur) (hvue : vue.EnPosition a.resolu.marque offset) (happend : append = a.resolu.append) :
    (s.transfereEcriture i a vue offset append).Sur := by
  subst happend
  unfold Partagee.transfereEcriture
  dsimp only
  generalize hstart : (if a.resolu.append = true then _ else offset) = start
  split
  · exact h.va (by trivial)
  have hx : (Fait.transfert a.resolu true vue (s.fs a.node) ((s.fs a.node).ecrit start a.data)
      start a.data).Juste := by
    refine ⟨?_, rfl⟩
    rw [Suivi.enFin, Bool.true_and, ← hstart]
    split
    · rfl
    · exact hvue
  exact h.note hx (by trivial) s.table _

theorem Sur.poursuit (hc : s.Coherent) (h : s.Sur) (hi : s.appels[i]? = some p)
    (hconv : s.Convient (.suite i)) (hs : s.poursuit i p = some s') : s'.Sur := by
  have hp := mem_of_getElem? hi
  have hplacee := h.appels p hp
  simp only [Convient, hi] at hconv
  cases p with
  | lecture a =>
    cases hs
    obtain ⟨o, ho⟩ := exists_of_designe hc hp rfl hconv
    refine h.va ?_
    rw [ho]
    exact enPosition_of_get ho
  | lecturePlacee a vue offset =>
    simp only [poursuit] at hs
    split at hs
    · cases hs
      exact h.va (by trivial)
    · cases hs
      exact h.va hplacee
  | lectureMesuree a vue offset wanted =>
    cases hs
    exact h.transfereLecture hplacee wanted
  | ecriture a =>
    simp only [poursuit] at hs
    split at hs
    · cases hs
      exact h.va (by trivial)
    · rename_i hdisque
      obtain ⟨o, ho⟩ := exists_of_designe hc hp rfl (hconv (by simpa using hdisque))
      rw [ho] at hs
      cases hs
      exact h.va ⟨enPosition_of_get ho, rfl⟩
  | ecriturePlacee a vue offset append =>
    cases hs
    exact h.transfereEcriture hplacee.1 hplacee.2
  | avance fd resolu ecriture debut nombre =>
    cases hs
    exact h.note (juste_avance hc hp hconv) (by trivial) _ s.fs
  | ouverture node flags longueur =>
    cases hs
    refine ⟨h.panique, h.journal, fun q hq => ?_⟩
    rcases mem_va hq with hq | rfl
    · exact h.appels q hq
    · trivial
  | fini => cases hs

theorem sysLseek_isSome {fs : Systemefichiers} {offset : ℤ} {whence : ℕ}
    (h : ∀ d size base, t.get fd = some d → taille fs d.desc.kind = some size →
      origineLseek d size whence = some base → -2 ^ 63 ≤ base + offset ∧ base + offset < 2 ^ 63) :
    sysLseek t fs fd offset whence ≠ none := by
  unfold sysLseek
  split
  · exact nofun
  rename_i d hd
  split
  · exact nofun
  rename_i size hsize
  split
  · exact nofun
  rename_i base hbase
  obtain ⟨hmin, hmax⟩ := h d size base hd hsize hbase
  rw [if_neg (by omega)]
  split <;> exact nofun

theorem Sur.execute (hc : s.Coherent) (h : s.Sur) (hconv : s.Convient e) (hs : s.execute e = some s') : s'.Sur := by
  unfold Partagee.execute at hs
  rw [if_neg (by simp [h.panique])] at hs
  cases e with
  | ouvre node flags =>
    cases hs
    exact h.debute (debute_sysOpen node flags)
  | read fd count limite inscriptible =>
    cases hs
    exact h.debute (debute_sysRead fd count limite inscriptible)
  | write fd data =>
    cases hs
    exact h.debute (debute_sysWrite fd data)
  | suite i =>
    obtain ⟨p, hi, hp⟩ := bind_eq_some_iff.mp hs
    exact h.poursuit hc hi hconv hp
  | lseek fd offset whence =>
    dsimp only at hs
    split at hs
    · rename_i hnone
      exact absurd hnone (sysLseek_isSome hconv)
    · cases hs
      exact ⟨h.panique, h.journal, h.appels⟩
  | dup2 old new =>
    cases hs
    unfold rend
    split <;> exact ⟨h.panique, h.journal, h.appels⟩
  | dup3 old new flags =>
    cases hs
    unfold rend
    split <;> exact ⟨h.panique, h.journal, h.appels⟩
  | close fd =>
    cases hs
    exact ⟨h.panique, h.journal, h.appels⟩

/-- A later section of a call leaves the table as it is, enters it in the journal, or ends an
`open`. -/
theorem table_poursuit (hs : s.poursuit i p = some s') : s'.table = s.table ∨ (∃ resolu ecriture debut nombre,
      s'.journal = .avance resolu ecriture debut nombre s.table s'.table :: s.journal) ∨
      ∃ node flags longueur, p = .ouverture node flags longueur := by
  cases p with
  | avance fd resolu ecriture debut nombre =>
    cases hs
    exact .inr (.inl ⟨resolu, ecriture, debut, nombre, rfl⟩)
  | ouverture node flags longueur => exact .inr (.inr ⟨node, flags, longueur, rfl⟩)
  | fini => cases hs
  | lecture a =>
    cases hs
    exact .inl rfl
  | lecturePlacee a vue offset =>
    simp only [poursuit] at hs
    split at hs <;> cases hs <;> exact .inl rfl
  | lectureMesuree a vue offset wanted =>
    cases hs
    unfold transfereLecture
    split <;> exact .inl rfl
  | ecriture a =>
    simp only [poursuit] at hs
    split at hs
    · cases hs
      exact .inl rfl
    · split at hs <;> cases hs <;> exact .inl rfl
  | ecriturePlacee a vue offset append =>
    cases hs
    unfold transfereEcriture
    dsimp only
    generalize (if append = true then _ else offset) = start
    split <;> exact .inl rfl

theorem sur_neuf (fs : Systemefichiers) : (neuf fs).Sur := ⟨rfl, nofun, nofun⟩

/-- As long as calls find the descriptor they resolved, and where they left it, no step
panics, every read and write is at the position of the descriptor it resolved and moves that
position alone; the other sections of reads and writes do not change the table. -/
theorem descripteur_resolu_respecte {fs : Systemefichiers} {es : List Pas}
    (hC : ∀ t e, Runs.Taken execute (neuf fs) es t e → t.Convient e) {t : Partagee}
    (ht : Runs.Moment execute (neuf fs) es t) :
    t.panique = false ∧ (∀ x ∈ t.journal, x.Juste) ∧
      ∀ i p t', t.appels[i]? = some p → t.execute (.suite i) = some t' →
        t'.table = t.table ∨ (∃ resolu ecriture debut nombre,
          t'.journal = .avance resolu ecriture debut nombre t.table t'.table :: t.journal) ∨
          ∃ node flags longueur, p = .ouverture node flags longueur := by
  have hsur : t.Coherent ∧ t.Sur := by
    refine forall_moment_of_taken (P := fun s => s.Coherent ∧ s.Sur) ⟨coherent_neuf fs, sur_neuf fs⟩ ?_ hC ht
    rintro s e s' ⟨hc, h⟩ hconv hs
    exact ⟨hc.suit (suit_execute hs), h.execute hc hconv hs⟩
  refine ⟨hsur.2.panique, hsur.2.journal, fun i p t' hi hs => ?_⟩
  unfold execute at hs
  rw [if_neg (by simp [hsur.2.panique])] at hs
  obtain ⟨q, hq, hs⟩ := bind_eq_some_iff.mp hs
  cases hi.symm.trans hq
  exact table_poursuit hs

def troisOctets : Systemefichiers := fun node => ⟨if node = 5 then [1, 2, 3] else [], false⟩

def lectureSeule : List Pas :=
  [.ouvre 5 0, .suite 0, .read 0 2 0 true, .suite 1, .suite 1, .suite 1, .suite 1]

theorem descripteur_resolu_respecte_lectureSeule :
    ∃ t, Runs.run execute (neuf troisOctets) lectureSeule = some t ∧ t.panique = false ∧
      ∀ x ∈ t.journal, x.Juste := by
  have hC : ∀ t e, Taken execute (neuf troisOctets) lectureSeule t e → t.Convient e := by
    refine forall_taken_cons trivial rfl ?_
    refine forall_taken_cons trivial rfl ?_
    refine forall_taken_cons trivial rfl ?_
    refine forall_taken_cons rfl rfl ?_
    refine forall_taken_cons trivial rfl ?_
    refine forall_taken_cons trivial rfl ?_
    refine forall_taken_cons ?_ rfl fun t e h => absurd h not_taken_nil
    rintro _ ⟨⟩
    exact ⟨rfl, fun _ => rfl⟩
  obtain ⟨t, ht⟩ := isSome_iff_exists.mp
    (by decide : (run execute (neuf troisOctets) lectureSeule).isSome = true)
  obtain ⟨hpanique, hjournal, -⟩ := descripteur_resolu_respecte hC (.of_run ht)
  exact ⟨t, ht, hpanique, hjournal⟩

/-- A `write` whose number is closed after its first section panics. A `read` whose number is
closed and given to another file moves the position of that file's descriptor. -/
theorem numero_repris_pendant_l_appel : (Runs.run execute (neuf troisOctets)
        [.ouvre 5 2, .suite 0, .write 0 [65], .close 0, .suite 1]).map panique = some true ∧
      (Runs.run execute (neuf troisOctets)
          [.ouvre 5 0, .suite 0, .read 0 2 0 true, .suite 1, .suite 1, .suite 1,
            .close 0, .ouvre 6 0, .suite 2, .suite 1]).map
        (fun t => (t.table.get 0).map fun d => (d.marque, d.desc.kind, d.desc.offset)) =
        some (some (1, .file 6, 2)) := by
  decide

end Partagee

end BouchaudOS.Descripteurs
