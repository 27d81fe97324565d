import BouchaudOS.Descripteurs.Canal
import BouchaudOS.Foundations.Runs

/-!
# The stream of bytes of a pipe or of a socket pair

`write`, `sendmsg`, `read` and `recvmsg` on one pipe, or on one direction of a socket pair,
by any number of callers. Each section under the lock of the buffer is one step. A call
that finds no room, or nothing to read, may try again or give up with `EAGAIN`.

Two histories that no call reads are kept: the bytes added to the buffer with the call they
come from, and the bytes given to readers in the order they were taken.
-/

namespace BouchaudOS.Descripteurs

open List

variable {δ : Type*}

/-- What a descriptor of a stream designates. -/
inductive Objet (δ : Type*)
  | tube (p : PipeState)
  | canal (c : Canal δ)

namespace Objet

def buffer : Objet δ → List UInt8
  | tube p => p.buffer
  | canal c => c.octets.buffer

/-- The section of `write`. -/
def propose (data : List UInt8) : Objet δ → Capacite × Objet δ
  | tube p => ((p.propose data).1, tube (p.propose data).2)
  | canal c => ((c.propose data).1, canal (c.propose data).2)

end Objet

namespace Flux

/-- Where a call is; `fait` is a `write` or a `sendmsg` that added bytes and returned their
number, and `fini` any other call that returned. -/
inductive Phase (δ : Type*)
  | ecriture (data : List UInt8)
  | envoi (payload : List UInt8) (droits : List δ)
  | lecture (count : ℕ) (inscriptible : Bool)
  | lectureTube (count : ℕ) (inscriptible : Bool)
  | reception (len capacite : ℕ) (inscriptible : Bool)
  | fait (demande ajoute : List UInt8)
  | fini

/-- A call starts, takes a section or gives up; or descriptors of the object are made and
closed. -/
inductive Pas (δ : Type*)
  | write (data : List UInt8)
  | sendmsg (payload : List UInt8) (droits : List δ)
  | read (count : ℕ) (inscriptible : Bool)
  | recvmsg (len capacite : ℕ) (inscriptible : Bool)
  | suite (i : ℕ)
  | renonce (i : ℕ)
  | extremites (lecteurs ecrivains : ℕ) (eof : Bool)

end Flux

open Flux

structure Flux (δ : Type*) where
  objet : Objet δ
  appels : List (Phase δ)
  ajouts : List (ℕ × List UInt8)
  lus : List UInt8

namespace Flux

def neuf (δ : Type*) (tube : Bool) : Flux δ :=
  ⟨if tube then .tube .new else .canal .neuf, [], [], []⟩

variable (s : Flux δ)

def lance (p : Phase δ) : Flux δ := { s with appels := s.appels ++ [p] }

variable (i : ℕ)

def va (p : Phase δ) : Flux δ := { s with appels := s.appels.set i p }

/-- The end of a section of `write` or `sendmsg`. -/
def repond (demande : List UInt8) : Capacite × Objet δ → Flux δ
  | (.rompu, _) => s.va i .fini
  | (.place 0, _) => s
  | (.place (n + 1), o) =>
    { s with objet := o, ajouts := s.ajouts ++ [(i, demande.take (n + 1))] }.va i
      (.fait demande (demande.take (n + 1)))

/-- The end of a section of `read` or `recvmsg`: bytes that cannot be written to user memory
are lost. -/
def rend (inscriptible : Bool) (octets : List UInt8) (o : Objet δ) : Flux δ :=
  { s with objet := o, lus := if inscriptible then s.lus ++ octets else s.lus }.va i .fini

/-- The next section of a call. -/
def poursuit (p : Phase δ) : Option (Flux δ) :=
  match p, s.objet with
  | .ecriture data, o => some (s.repond i data (o.propose data))
  | .envoi payload droits, .canal c =>
    some (s.repond i payload ((c.envoie payload droits).1, .canal (c.envoie payload droits).2))
  | .lecture count inscriptible, .tube p =>
    if p.buffer ≠ [] then some (s.va i (.lectureTube count inscriptible))
    else if p.writers = 0 then some (s.va i .fini)
    else some s
  | .lecture count inscriptible, .canal c =>
    match c.draine count with
    | none => some s
    | some (octets, c') => some (s.rend i inscriptible octets (.canal c'))
  | .lectureTube count inscriptible, .tube p =>
    some (s.rend i inscriptible (p.draine count).1 (.tube (p.draine count).2))
  | .reception len capacite inscriptible, .canal c =>
    match c.recoit len capacite with
    | none => some s
    | some (octets, _, c') => some (s.rend i inscriptible octets (.canal c'))
  | _, _ => none

/-- A call that waits returns `EAGAIN`. -/
def abandonne : Phase δ → Option (Flux δ)
  | .ecriture _ | .envoi _ _ | .lecture _ _ | .reception _ _ _ => some (s.va i .fini)
  | _ => none

def extremites (lecteurs ecrivains : ℕ) (eof : Bool) : Objet δ → Objet δ
  | .tube p => .tube { p with readers := lecteurs, writers := ecrivains }
  | .canal c => .canal { c with lecteurs := lecteurs, ecrivains := ecrivains, octets.eof := eof }

/-- `sendmsg` and `recvmsg` refuse a pipe. -/
def execute : Pas δ → Option (Flux δ)
  | .write data => some (s.lance (if data = [] then .fini else .ecriture data))
  | .sendmsg payload droits =>
    match s.objet with
    | .tube _ => some (s.lance .fini)
    | .canal _ => some (s.lance (if payload = [] then .fini else .envoi payload droits))
  | .read count inscriptible =>
    some (s.lance (if count = 0 then .fini else .lecture count inscriptible))
  | .recvmsg len capacite inscriptible =>
    match s.objet with
    | .tube _ => some (s.lance .fini)
    | .canal _ =>
      some (s.lance (if len = 0 then .fini else .reception len capacite inscriptible))
  | .suite i => s.appels[i]?.bind (s.poursuit i)
  | .renonce i => s.appels[i]?.bind (s.abandonne i)
  | .extremites lecteurs ecrivains eof =>
    some { s with objet := extremites lecteurs ecrivains eof s.objet }

/-- What call `i` was asked to add, and what it added. -/
def fait (i : ℕ) : Option (List UInt8 × List UInt8) :=
  match s.appels[i]? with
  | some (.fait demande ajoute) => some (demande, ajoute)
  | _ => none

/-- A call asked to add at most `pipeBuf` bytes, if it added any, added all of them. -/
def Entiers : Prop :=
  ∀ i demande ajoute, s.fait i = some (demande, ajoute) → demande.length ≤ pipeBuf → ajoute = demande

/-- The bytes given to readers and those of the buffer are the bytes added, in order. -/
def Ordonne : Prop :=
  s.lus ++ s.objet.buffer = (s.ajouts.map Prod.snd).flatten

/-- Each call that added bytes did it once, the others never. -/
def UneFois : Prop :=
  ∀ i, s.ajouts.filter (fun x => x.1 = i) = (s.fait i).toList.map fun x => (i, x.2)

/-- A `sendmsg` of at most `pipeBuf` bytes finds room for none or for all of them, and a read
that takes bytes can write them to user memory. -/
def Convient : Pas δ → Prop
  | .suite i =>
    match s.appels[i]?, s.objet with
    | some (.envoi payload _), .canal c =>
      c.lecteurs ≠ 0 → c.place ≠ 0 → payload.length ≤ pipeBuf → payload.length ≤ c.place
    | some (.lecture _ inscriptible), .canal c => inscriptible = true ∨ c.octets.buffer = []
    | some (.reception _ _ inscriptible), .canal c => inscriptible = true ∨ c.octets.buffer = []
    | some (.lectureTube _ inscriptible), .tube p => inscriptible = true ∨ p.buffer = []
    | _, _ => True
  | _ => True

/-- The condition of the step is the last index. -/
inductive Effet (s s' : Flux δ) : Prop → Prop
  | calme {C : Prop} (hC : C) (hbuffer : s'.objet.buffer = s.objet.buffer) (hlus : s'.lus = s.lus)
      (hajouts : s'.ajouts = s.ajouts) (hfait : ∀ j, s'.fait j = s.fait j) : Effet s s' C
  | ajoute {C : Prop} (i : ℕ) (demande ajoute : List UInt8)
      (hC : C ↔ (demande.length ≤ pipeBuf → ajoute = demande))
      (hplace : ajoute.length ≤ capaciteCanal - s.objet.buffer.length)
      (hbuffer : s'.objet.buffer = s.objet.buffer ++ ajoute) (hlus : s'.lus = s.lus)
      (hajouts : s'.ajouts = s.ajouts ++ [(i, ajoute)]) (hi : s.fait i = none)
      (hfait : ∀ j, s'.fait j = if j = i then some (demande, ajoute) else s.fait j) : Effet s s' C
  | prend {C : Prop} (inscriptible : Bool) (octets : List UInt8)
      (hC : C ↔ (inscriptible = true ∨ octets = []))
      (hbuffer : s.objet.buffer = octets ++ s'.objet.buffer)
      (hlus : s'.lus = if inscriptible then s.lus ++ octets else s.lus)
      (hajouts : s'.ajouts = s.ajouts) (hfait : ∀ j, s'.fait j = s.fait j) : Effet s s' C

/-- Reads in progress have a buffer. -/
def Lisible : Phase δ → Prop
  | .lecture count _ | .lectureTube count _ => count ≠ 0
  | .reception len _ _ => len ≠ 0
  | _ => True

variable {s s' : Flux δ} {i : ℕ}

def Phase.estFait : Phase δ → Option (List UInt8 × List UInt8)
  | .fait demande ajoute => some (demande, ajoute)
  | _ => none

theorem fait_eq (s : Flux δ) (j : ℕ) : s.fait j = s.appels[j]?.bind Phase.estFait := by
  unfold fait
  cases h : s.appels[j]? with
  | none => rfl
  | some p => cases p <;> rfl

variable {p q : Phase δ} {C : Prop} {o : Objet δ} {data : List UInt8} {e : Pas δ}

theorem fait_lance (hp : p.estFait = none) (j : ℕ) : (s.lance p).fait j = s.fait j := by
  rw [fait_eq, fait_eq]
  unfold lance
  rw [getElem?_append]
  split_ifs with hj
  · rfl
  · rw [getElem?_eq_none (not_lt.mp hj), getElem?_singleton]
    split_ifs
    · exact hp
    · rfl

theorem fait_va (hi : s.appels[i]? = some q) (j : ℕ) :
    (s.va i p).fait j = if j = i then p.estFait else s.fait j := by
  have hlt := (List.getElem?_eq_some_iff.mp hi).1
  rw [fait_eq, fait_eq]
  unfold va
  split_ifs with hj
  · subst hj
    rw [List.getElem?_set_self hlt]
    rfl
  · rw [List.getElem?_set_ne (Ne.symm hj)]

theorem fait_va_of_none (hi : s.appels[i]? = some q) (hq : q.estFait = none)
    (hp : p.estFait = none) (j : ℕ) : (s.va i p).fait j = s.fait j := by
  rw [fait_va hi]
  split_ifs with hj
  · subst hj
    rw [hp, fait_eq, hi]
    exact hq.symm
  · rfl

/-- A step with an effect after which reads in progress have a buffer. -/
structure Passe (s s' : Flux δ) (C : Prop) : Prop where
  effet : Effet s s' C
  lisible : ∀ q ∈ s'.appels, Lisible q

section

variable (hl : ∀ q ∈ s.appels, Lisible q)

include hl

theorem passe_calme (hC : C) : Passe s s C := ⟨.calme hC rfl rfl rfl fun _ => rfl, hl⟩

theorem passe_lance (hC : C) (hp : p.estFait = none) (hlisible : Lisible p) : Passe s (s.lance p) C := by
  refine ⟨.calme hC rfl rfl rfl (fait_lance hp), fun q hq => ?_⟩
  rcases mem_append.mp hq with hq | hq
  · exact hl q hq
  · exact mem_singleton.mp hq ▸ hlisible

theorem lisible_va (hp : Lisible p) : ∀ q ∈ s.appels.set i p, Lisible q := by
  intro q hq
  rcases mem_or_eq_of_mem_set hq with hq | rfl
  · exact hl q hq
  · exact hp

variable (hi : s.appels[i]? = some q) (hq : q.estFait = none)

include hi hq

theorem passe_va (hC : C) (hp : p.estFait = none) (hlisible : Lisible p) : Passe s (s.va i p) C :=
  ⟨.calme hC rfl rfl rfl (fait_va_of_none hi hq hp), lisible_va hl hlisible⟩

theorem passe_rend {octets : List UInt8} {inscriptible : Bool} (hbuffer : s.objet.buffer = octets ++ o.buffer)
    (hC : C ↔ (inscriptible = true ∨ octets = [])) : Passe s (s.rend i inscriptible octets o) C :=
  ⟨.prend inscriptible octets hC hbuffer rfl rfl (fait_va_of_none hi hq rfl), lisible_va hl trivial⟩

/-- An answer that adds no more than the room there is. -/
theorem passe_repond {demande : List UInt8} {r : Capacite} (hrien : (∀ n, r ≠ .place (n + 1)) → C)
    (hplace : ∀ n, r = .place (n + 1) → n + 1 ≤ capaciteCanal - s.objet.buffer.length ∧
      o.buffer = s.objet.buffer ++ demande.take (n + 1) ∧
      (C ↔ (demande.length ≤ pipeBuf → demande.take (n + 1) = demande))) :
    Passe s (s.repond i demande (r, o)) C := by
  match r with
  | .rompu => exact passe_va hl hi hq (hrien (by rintro n ⟨⟩)) rfl trivial
  | .place 0 => exact passe_calme hl (hrien (by rintro n ⟨⟩))
  | .place (n + 1) =>
    obtain ⟨hn, hbuffer, hC⟩ := hplace n rfl
    have hfait : s.fait i = none := by
      rw [fait_eq, hi]
      exact hq
    refine ⟨.ajoute i demande _ hC ?_ hbuffer rfl rfl hfait (fait_va hi), lisible_va hl trivial⟩
    rw [length_take]
    omega

end

theorem take_eq_self_iff {l : List UInt8} {n : ℕ} : l.take n = l ↔ l.length ≤ n :=
  ⟨fun h => by simpa using congrArg List.length h, take_of_length_le⟩

theorem Objet.propose_place {n : ℕ} (h : (o.propose data).1 = .place n) :
    n = octetsAdmis (capaciteCanal - o.buffer.length) data.length ∧
      (o.propose data).2.buffer = o.buffer ++ data.take n := by
  cases o with
  | tube p => exact PipeState.propose_place h
  | canal c => exact Canal.propose_place h

section

variable (hl : ∀ q ∈ s.appels, Lisible q) (hi : s.appels[i]? = some q) (hq : q.estFait = none)

include hl hi hq

theorem passe_propose : Passe s (s.repond i data (s.objet.propose data)) True := by
  refine passe_repond hl hi hq (fun _ => trivial) fun n hn => ?_
  obtain ⟨hadmis, hbuffer⟩ := Objet.propose_place hn
  refine ⟨?_, hbuffer, iff_of_true trivial fun hl => ?_⟩
  · rw [hadmis]
    exact octetsAdmis_le _ _
  · have hn' : n + 1 = data.length := by
      rw [hadmis]
      exact octetsAdmis_eq_of_pos hl (hadmis ▸ Nat.succ_ne_zero n)
    rw [hn', take_length]

/-- `sendmsg`: a short message is whole if there is room for it. -/
theorem passe_envoie {c : Canal δ} {payload : List UInt8} {droits : List δ} (hc : s.objet = .canal c) :
    Passe s (s.repond i payload ((c.envoie payload droits).1, .canal (c.envoie payload droits).2))
      (c.lecteurs ≠ 0 → c.place ≠ 0 → payload.length ≤ pipeBuf → payload.length ≤ c.place) := by
  refine passe_repond hl hi hq (fun hrien hlecteurs hplace hl => ?_) fun n hn => ?_
  · by_contra hcourt
    refine hrien (c.place - 1) ?_
    unfold Canal.envoie
    rw [if_neg hlecteurs, if_neg hplace, min_eq_left (not_le.mp hcourt).le]
    exact congrArg Capacite.place (Nat.succ_pred_eq_of_ne_zero hplace).symm
  · obtain ⟨hlecteurs, hplace, hecrits, hbuffer, -⟩ := Canal.envoie_place hn
    rw [hc]
    refine ⟨hecrits ▸ min_le_left _ _, hbuffer, ?_⟩
    simp only [take_eq_self_iff, hlecteurs, hplace, ne_eq, not_false_eq_true, forall_const]
    rw [hecrits, le_min_iff]
    simp

theorem passe_prend {buffer : List UInt8} {count : ℕ} {inscriptible : Bool} (hcount : count ≠ 0)
    (hbuffer : s.objet.buffer = buffer) (ho : o.buffer = buffer.drop count) :
    Passe s (s.rend i inscriptible (buffer.take count) o) (inscriptible = true ∨ buffer = []) := by
  refine passe_rend hl hi hq ?_ (or_congr_right ?_)
  · rw [hbuffer, ho, take_append_drop]
  · rw [take_eq_nil_iff]
    exact (or_iff_right hcount).symm

end

theorem passe_poursuit (hl : ∀ q ∈ s.appels, Lisible q) (hi : s.appels[i]? = some p)
    (h : s.poursuit i p = some s') : Passe s s' (s.Convient (.suite i)) := by
  have hp := hl p (mem_of_getElem? hi)
  unfold poursuit at h
  simp only [Convient, hi]
  split at h
  · cases h
    exact passe_propose hl hi rfl
  · rename_i payload droits c ho
    cases h
    rw [ho]
    exact passe_envoie hl hi rfl ho
  · rename_i count inscriptible t ho
    rw [ho]
    split at h
    · cases h
      exact passe_va hl hi rfl trivial rfl hp
    split at h
    · cases h
      exact passe_va hl hi rfl trivial rfl trivial
    · cases h
      exact passe_calme hl trivial
  · rename_i count inscriptible c ho
    rw [ho]
    rcases c.draine_cases count with ⟨hc, hvide⟩ | ⟨c', hc, hreste⟩
    · rw [hc] at h
      cases h
      exact passe_calme hl (.inr hvide)
    · rw [hc] at h
      cases h
      exact passe_prend hl hi rfl hp (by rw [ho]; rfl) hreste
  · rename_i count inscriptible t ho
    cases h
    rw [ho]
    exact passe_prend hl hi rfl hp (by rw [ho]; rfl) rfl
  · rename_i len capacite inscriptible c ho
    rw [ho]
    rcases c.recoit_cases len capacite with ⟨hc, hvide⟩ | ⟨c', hc, hreste, -⟩
    · rw [hc] at h
      cases h
      exact passe_calme hl (.inr hvide)
    · rw [hc] at h
      cases h
      exact passe_prend hl hi rfl hp (by rw [ho]; rfl) hreste
  · cases h

theorem passe_execute (hl : ∀ p ∈ s.appels, Lisible p) (h : s.execute e = some s') : Passe s s' (s.Convient e) := by
  cases e with
  | write data =>
    cases h
    exact passe_lance hl trivial (by split <;> rfl) (by split <;> trivial)
  | sendmsg payload droits =>
    simp only [execute] at h
    split at h
    · cases h
      exact passe_lance hl trivial rfl trivial
    · cases h
      exact passe_lance hl trivial (by split <;> rfl) (by split <;> trivial)
  | read count inscriptible =>
    cases h
    exact passe_lance hl trivial (by split <;> rfl) (by split <;> trivial)
  | recvmsg len capacite inscriptible =>
    simp only [execute] at h
    split at h
    · cases h
      exact passe_lance hl trivial rfl trivial
    · cases h
      exact passe_lance hl trivial (by split <;> rfl) (by split <;> trivial)
  | suite i =>
    obtain ⟨p, hi, hp⟩ := Option.bind_eq_some_iff.mp h
    exact passe_poursuit hl hi hp
  | renonce i =>
    obtain ⟨p, hi, hp⟩ := Option.bind_eq_some_iff.mp h
    unfold abandonne at hp
    split at hp
    case h_5 => cases hp
    all_goals
      cases hp
      exact passe_va hl hi rfl trivial rfl trivial
  | extremites lecteurs ecrivains eof =>
    cases h
    refine ⟨.calme trivial ?_ rfl rfl fun _ => rfl, hl⟩
    cases ho : s.objet <;> simp [extremites, Objet.buffer]

/-- What holds in every state. -/
structure Tenu (s : Flux δ) : Prop where
  lisible : ∀ p ∈ s.appels, Lisible p
  capacite : s.objet.buffer.length ≤ capaciteCanal
  uneFois : s.UneFois

theorem tenu_neuf (tube : Bool) : (neuf δ tube).Tenu := by
  refine ⟨nofun, ?_, fun i => rfl⟩
  cases tube <;> exact Nat.zero_le _

theorem Tenu.execute (h : s.Tenu) (hs : s.execute e = some s') : s'.Tenu := by
  obtain ⟨heffet, hlisible⟩ := passe_execute h.lisible hs
  refine ⟨hlisible, ?_, fun i => ?_⟩
  · have hcap := h.capacite
    cases heffet with
    | calme hC hbuffer hlus hajouts hfait => rwa [hbuffer]
    | ajoute i demande ajoute hC hplace hbuffer hlus hajouts hi hfait =>
      rw [hbuffer, length_append]
      omega
    | prend inscriptible octets hC hbuffer hlus hajouts hfait =>
      rw [hbuffer, length_append] at hcap
      omega
  · have hune := h.uneFois i
    cases heffet with
    | calme hC hbuffer hlus hajouts hfait => rw [hajouts, hfait, hune]
    | ajoute k demande ajoute hC hplace hbuffer hlus hajouts hi hfait =>
      rw [hajouts, filter_append, hune, hfait]
      by_cases hk : i = k
      · subst hk
        simp [hi]
      · simp [hk, Ne.symm hk]
    | prend inscriptible octets hC hbuffer hlus hajouts hfait => rw [hajouts, hfait, hune]

theorem entiers_ordonne_iff (hE : s.Entiers) (hO : s.Ordonne) (h : Effet s s' C) : s'.Entiers ∧ s'.Ordonne ↔ C := by
  cases h with
  | calme hC hbuffer hlus hajouts hfait =>
    refine iff_of_true ⟨fun i d a h => ?_, ?_⟩ hC
    · rw [hfait] at h
      exact hE i d a h
    · unfold Ordonne
      rw [hlus, hbuffer, hajouts]
      exact hO
  | ajoute i demande ajoute hC hplace hbuffer hlus hajouts hi hfait =>
    rw [hC]
    refine ⟨fun h => h.1 i demande ajoute (by rw [hfait, if_pos rfl]), fun hentier => ⟨?_, ?_⟩⟩
    · intro j d a h
      rw [hfait] at h
      split_ifs at h
      · cases h
        exact hentier
      · exact hE j d a h
    · unfold Ordonne at hO ⊢
      rw [hlus, hbuffer, hajouts, ← append_assoc, hO]
      simp
  | prend inscriptible octets hC hbuffer hlus hajouts hfait =>
    have hE' : s'.Entiers := fun i d a h => hE i d a (by rw [← hfait, h])
    rw [hC, and_iff_right hE']
    unfold Ordonne at hO ⊢
    rw [hajouts, ← hO, hbuffer, hlus]
    cases inscriptible with
    | true => simp
    | false => simp

/-- In every run, the buffer never holds more than its capacity and each call adds bytes at
most once, in one piece. Short messages are whole, and the bytes read are those added, in
order, exactly when every `sendmsg` of a short message finds room for all of it or none and
no bytes are taken for a buffer that cannot be written. -/
theorem messages_courts_entiers {tube : Bool} {es : List (Pas δ)} {s : Flux δ}
    (h : Runs.run execute (neuf δ tube) es = some s) :
    (∀ t, Runs.Moment execute (neuf δ tube) es t → t.objet.buffer.length ≤ capaciteCanal ∧ t.UneFois) ∧
    ((∀ t, Runs.Moment execute (neuf δ tube) es t → t.Entiers ∧ t.Ordonne) ↔
      ∀ t e, Runs.Taken execute (neuf δ tube) es t e → t.Convient e) := by
  constructor
  · intro t ht
    have htenu := ht.invariant (fun _ _ _ => Tenu.execute) (tenu_neuf tube)
    exact ⟨htenu.capacite, htenu.uneFois⟩
  · refine Runs.forall_moment_iff (tenu_neuf tube) (fun _ _ _ => Tenu.execute) ?_ ?_ h
    · refine ⟨nofun, ?_⟩
      cases tube <;> rfl
    · rintro t e t' ht ⟨hE, hO⟩ hs
      exact entiers_ordonne_iff hE hO (passe_execute ht.lisible hs).effet

def unOctet : List (Pas Unit) :=
  [.write [7], .suite 0, .read 1 true, .suite 1, .suite 1]

theorem messages_courts_entiers_unOctet :
    ∃ s, Runs.run execute (neuf Unit true) unOctet = some s ∧
      ((∀ t, Runs.Moment execute (neuf Unit true) unOctet t → t.Entiers ∧ t.Ordonne) ↔
        ∀ t e, Runs.Taken execute (neuf Unit true) unOctet t e → t.Convient e) := by
  obtain ⟨s, hs⟩ := Option.isSome_iff_exists.mp
    (by decide : (Runs.run execute (neuf Unit true) unOctet).isSome = true)
  exact ⟨s, hs, (messages_courts_entiers hs).2⟩

theorem fait_presque_plein (hdata : data.length = 65535) : (Runs.run execute (neuf Unit false)
        [.write data, .suite 0, .sendmsg [1, 2] [], .suite 1]).bind (fun s => s.fait 1) =
      some ([1, 2], [1]) := by
  have hne : data ≠ [] := by
    rintro rfl
    cases hdata
  simp [hne, hdata, execute, neuf, lance, poursuit, Objet.propose, Canal.propose, Canal.neuf,
    Canal.place, octetsAdmis, capaciteCanal, pipeBuf, repond, va, Canal.envoie, fait]

/-- A `sendmsg` of two bytes into a socket pair with room for one adds the first one and
returns 1. -/
theorem sendmsg_coupe_un_message_court : (Runs.run execute (neuf Unit false)
        [.write (List.replicate 65535 0), .suite 0, .sendmsg [1, 2] [], .suite 1]).bind
      (fun s => s.fait 1) = some ([1, 2], [1]) :=
  fait_presque_plein length_replicate

end Flux

end BouchaudOS.Descripteurs
