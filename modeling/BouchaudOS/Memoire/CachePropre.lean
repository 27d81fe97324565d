import BouchaudOS.Foundations.Bags

/-!
# The clean page cache

`src/kernel/memory/page_cache.rs`: pages of files, read once and shared by all mappings.
The table gives the entry of a key; an entry is being loaded, holds a frame with the number
of references to it, or has failed. Entries without reference may be evicted.

A section under the lock of the table or of one entry is one step, and so is an
allocation, a release of a frame and an update of the counter. Calls in progress form a
collection, so that any number of them runs; a reference obtained and not yet released
stands there with them. Keys stand for pages of files whose generation does not change.
-/

namespace BouchaudOS.CachePropre

open Multiset Bags

def maxReclaimablePages : ℕ := 16384

def limiteCandidats : ℕ := 4 * maxReclaimablePages

inductive State
  | loading
  | present (frame mappings : ℕ)
  | failed
  deriving DecidableEq

open State

def recuperable : State → Bool
  | .present _ mappings => mappings = 0
  | .failed => true
  | .loading => false

/-- How far a call is. `e` is the entry the call works on. -/
inductive Phase (K : Type*)
  /-- `acquire` found the page being loaded. -/
  | attend (key : K) (e : ℕ)
  /-- `acquire` has entered `e` and has to retire the entry it evicted. -/
  | evince (key : K) (e ancien : ℕ)
  /-- The frame of the evicted entry has to be freed. -/
  | jette (key : K) (e frame : ℕ)
  | charge (key : K) (e : ℕ)
  | lit (key : K) (e frame : ℕ)
  | conclut (key : K) (e : ℕ) (result : Option ℕ)
  /-- A page became reclaimable: the counter, then the list of candidates. `suite` tells
  `release`, which goes on with `reclaim_excess`, from a load that failed. -/
  | libre (key : K) (suite : Bool)
  | propose (key : K) (suite : Bool)
  /-- A reference, from the return of `acquire` or `retain` to the call of `release`. -/
  | tient (key : K) (e frame : ℕ)
  | rend (key : K) (e frame : ℕ)
  /-- `release` found the entry `trouve` under its key. -/
  | decompte (key : K) (e frame trouve : ℕ)
  /-- The loop of `reclaim_excess` and of `reclaim_pages`. -/
  | recupere
  | prend (ancien : ℕ)
  | libere (frame : ℕ)
  | panique
  deriving DecidableEq

/-- Table, candidates, entries, the counter `RECUPERABLES`, the frames held by the cache,
and the calls in progress. -/
structure Etat (K : Type*) where
  entrees : List (K × ℕ)
  candidats : List K
  etats : List State
  recuperables : ℕ
  alloues : Finset ℕ
  appels : Multiset (Phase K)

namespace Etat

variable {K : Type*} [LinearOrder K]

def vide : Etat K := ⟨[], [], [], 0, ∅, 0⟩

def sortable (s : Etat K) (e : ℕ) : Bool := (s.etats[e]?.map recuperable).getD false

/-- The candidates in turn, up to one that may go. -/
def chercheCandidat (s : Etat K) : List K → Option (K × ℕ) × List K
  | [] => (none, [])
  | key :: candidats =>
    match s.entrees.lookup key with
    | some e => if s.sortable e then (some (key, e), candidats) else s.chercheCandidat candidats
    | none => s.chercheCandidat candidats

/-- The entry of `key` leaves the table. -/
def remove (s : Etat K) (key : K) : Etat K :=
  { s with
    entrees := s.entrees.filter fun x => x.1 ≠ key
    recuperables := s.recuperables - 1 }

def retireUnCandidat (s : Etat K) : Option ℕ × Etat K :=
  let r := s.chercheCandidat s.candidats
  let s := { s with candidats := r.2 }
  match r.1 with
  | some (key, e) => (some e, s.remove key)
  | none =>
    if s.recuperables = 0 then (none, s)
    else
      match s.entrees.find? fun x => s.sortable x.2 with
      | some (key, e) => (some e, s.remove key)
      | none => (none, s)

/-- A new entry, being loaded, under `key`. -/
def insert (s : Etat K) (key : K) : Etat K :=
  { s with
    entrees := s.entrees.orderedInsert (fun a b => a.1 ≤ b.1) (key, s.etats.length)
    etats := s.etats ++ [.loading] }

def propose (s : Etat K) (key : K) : Etat K :=
  if s.candidats.length < limiteCandidats then { s with candidats := s.candidats ++ [key] } else s

/-- Entry `e` gets a new state. -/
def pose (s : Etat K) (e : ℕ) (state : State) : Etat K := { s with etats := s.etats.set e state }

/-- One reference more to an entry with `mappings` of them. -/
def retient (s : Etat K) (e frame mappings : ℕ) : Etat K :=
  { s.pose e (.present frame (mappings + 1)) with
    recuperables := if mappings = 0 then s.recuperables - 1 else s.recuperables }

def avec (s : Etat K) (appels : Multiset (Phase K)) : Etat K := { s with appels := appels }

end Etat

open Etat Phase

variable {K : Type*} {key : K}

/-- A step of a call, with the entry it takes out of the table. -/
inductive Pas [LinearOrder K] : Etat K → Option ℕ → Etat K → Prop
  /-- `acquire` of a page that is there, and `retain`. -/
  | trouve {s : Etat K} {key : K} {e f m : ℕ} (hk : s.entrees.lookup key = some e)
      (he : s.etats[e]? = some (.present f m)) (hm : m + 1 < 2 ^ 64) :
      Pas s none ((s.retient e f m).avec (tient key e f ::ₘ s.appels))
  | attend {s : Etat K} {key : K} {e : ℕ} (hk : s.entrees.lookup key = some e)
      (he : s.etats[e]? = some .loading) :
      Pas s none (s.avec (attend key e ::ₘ s.appels))
  | charge {s : Etat K} {key : K} (hk : s.entrees.lookup key = none)
      (hl : s.entrees.length < maxReclaimablePages) :
      Pas s none ((s.insert key).avec (charge key s.etats.length ::ₘ s.appels))
  | chargeSature {s : Etat K} {key : K} (hk : s.entrees.lookup key = none)
      (hl : maxReclaimablePages ≤ s.entrees.length) (hv : s.retireUnCandidat.1 = none) :
      Pas s none ((s.retireUnCandidat.2.insert key).avec (charge key s.etats.length ::ₘ s.appels))
  | chargeEvince {s : Etat K} {key : K} {a : ℕ} (hk : s.entrees.lookup key = none)
      (hl : maxReclaimablePages ≤ s.entrees.length) (hv : s.retireUnCandidat.1 = some a) :
      Pas s (some a) ((s.retireUnCandidat.2.insert key).avec (evince key s.etats.length a ::ₘ s.appels))
  | evince {s : Etat K} {key : K} {e a f : ℕ} {reste : Multiset (Phase K)}
      (h : s.appels = evince key e a ::ₘ reste) (ha : s.etats[a]? = some (.present f 0)) :
      Pas s none ((s.pose a .failed).avec (jette key e f ::ₘ reste))
  | evinceRien {s : Etat K} {key : K} {e a : ℕ} {reste : Multiset (Phase K)}
      (h : s.appels = evince key e a ::ₘ reste) (ha : ∀ f, s.etats[a]? ≠ some (.present f 0)) :
      Pas s none (s.avec (charge key e ::ₘ reste))
  | jette {s : Etat K} {key : K} {e f : ℕ} {reste : Multiset (Phase K)}
      (h : s.appels = jette key e f ::ₘ reste) :
      Pas s none ({ s with alloues := s.alloues.erase f }.avec (charge key e ::ₘ reste))
  | alloue {s : Etat K} {key : K} {e f : ℕ} {reste : Multiset (Phase K)}
      (h : s.appels = charge key e ::ₘ reste) (hf : f ∉ s.alloues) :
      Pas s none ({ s with alloues := Insert.insert f s.alloues }.avec (lit key e f ::ₘ reste))
  | sansTrame {s : Etat K} {key : K} {e : ℕ} {reste : Multiset (Phase K)}
      (h : s.appels = charge key e ::ₘ reste) :
      Pas s none (s.avec (conclut key e none ::ₘ reste))
  | lu {s : Etat K} {key : K} {e f : ℕ} {reste : Multiset (Phase K)}
      (h : s.appels = lit key e f ::ₘ reste) :
      Pas s none (s.avec (conclut key e (some f) ::ₘ reste))
  | luMal {s : Etat K} {key : K} {e f : ℕ} {reste : Multiset (Phase K)}
      (h : s.appels = lit key e f ::ₘ reste) :
      Pas s none ({ s with alloues := s.alloues.erase f }.avec (conclut key e none ::ₘ reste))
  | conclut {s : Etat K} {key : K} {e f : ℕ} {reste : Multiset (Phase K)}
      (h : s.appels = conclut key e (some f) ::ₘ reste) :
      Pas s none ((s.pose e (.present f 1)).avec (tient key e f ::ₘ reste))
  | conclutEchec {s : Etat K} {key : K} {e : ℕ} {reste : Multiset (Phase K)}
      (h : s.appels = conclut key e none ::ₘ reste) :
      Pas s none ((s.pose e .failed).avec (libre key false ::ₘ reste))
  | libre {s : Etat K} {key : K} {suite : Bool} {reste : Multiset (Phase K)}
      (h : s.appels = libre key suite ::ₘ reste) :
      Pas s none ({ s with recuperables := s.recuperables + 1 }.avec (propose key suite ::ₘ reste))
  | propose {s : Etat K} {key : K} {suite : Bool} {reste : Multiset (Phase K)}
      (h : s.appels = propose key suite ::ₘ reste) :
      Pas s none ((s.propose key).avec (if suite then recupere ::ₘ reste else reste))
  /-- The thread that waited finds the page. -/
  | reveil {s : Etat K} {key : K} {e f m : ℕ} {reste : Multiset (Phase K)}
      (h : s.appels = Phase.attend key e ::ₘ reste) (he : s.etats[e]? = some (.present f m))
      (hm : m + 1 < 2 ^ 64) :
      Pas s none ((s.retient e f m).avec (tient key e f ::ₘ reste))
  | reveilEchec {s : Etat K} {key : K} {e : ℕ} {reste : Multiset (Phase K)}
      (h : s.appels = Phase.attend key e ::ₘ reste) (he : s.etats[e]? = some .failed) :
      Pas s none (s.avec reste)
  /-- `release` is called with a reference of its own. -/
  | rend {s : Etat K} {key : K} {e f : ℕ} {reste : Multiset (Phase K)}
      (h : s.appels = tient key e f ::ₘ reste) :
      Pas s none (s.avec (rend key e f ::ₘ reste))
  | rendTrouve {s : Etat K} {key : K} {e f e' : ℕ} {reste : Multiset (Phase K)}
      (h : s.appels = Phase.rend key e f ::ₘ reste) (hk : s.entrees.lookup key = some e') :
      Pas s none (s.avec (decompte key e f e' ::ₘ reste))
  | rendAbsent {s : Etat K} {key : K} {e f : ℕ} {reste : Multiset (Phase K)}
      (h : s.appels = Phase.rend key e f ::ₘ reste) (hk : s.entrees.lookup key = none) :
      Pas s none (s.avec (panique ::ₘ reste))
  | decompte {s : Etat K} {key : K} {e f e' f' m : ℕ} {reste : Multiset (Phase K)}
      (h : s.appels = decompte key e f e' ::ₘ reste)
      (he : s.etats[e']? = some (.present f' (m + 1))) :
      Pas s none ((s.pose e' (.present f' m)).avec
        ((if m = 0 then Phase.libre key true else recupere) ::ₘ reste))
  | decomptePanique {s : Etat K} {key : K} {e f e' : ℕ} {reste : Multiset (Phase K)}
      (h : s.appels = Phase.decompte key e f e' ::ₘ reste)
      (he : ∀ f' m, s.etats[e']? ≠ some (.present f' (m + 1))) :
      Pas s none (s.avec (panique ::ₘ reste))
  /-- `reclaim_pages` is called. -/
  | recupere {s : Etat K} : Pas s none (s.avec (recupere ::ₘ s.appels))
  /-- The loop ends: enough pages were freed, or few enough are left. -/
  | cesse {s : Etat K} {reste : Multiset (Phase K)} (h : s.appels = Phase.recupere ::ₘ reste) :
      Pas s none (s.avec reste)
  | prendRien {s : Etat K} {reste : Multiset (Phase K)} (h : s.appels = Phase.recupere ::ₘ reste)
      (hv : s.retireUnCandidat.1 = none) :
      Pas s none (s.retireUnCandidat.2.avec reste)
  | prend {s : Etat K} {a : ℕ} {reste : Multiset (Phase K)}
      (h : s.appels = Phase.recupere ::ₘ reste) (hv : s.retireUnCandidat.1 = some a) :
      Pas s (some a) (s.retireUnCandidat.2.avec (prend a ::ₘ reste))
  | retire {s : Etat K} {a f : ℕ} {reste : Multiset (Phase K)}
      (h : s.appels = Phase.prend a ::ₘ reste) (ha : s.etats[a]? = some (.present f 0)) :
      Pas s none ((s.pose a .failed).avec (libere f ::ₘ reste))
  | retireRien {s : Etat K} {a : ℕ} {reste : Multiset (Phase K)}
      (h : s.appels = Phase.prend a ::ₘ reste) (ha : ∀ f, s.etats[a]? ≠ some (.present f 0)) :
      Pas s none (s.avec (Phase.recupere ::ₘ reste))
  | libere {s : Etat K} {f : ℕ} {reste : Multiset (Phase K)}
      (h : s.appels = libere f ::ₘ reste) :
      Pas s none ({ s with alloues := s.alloues.erase f }.avec (Phase.recupere ::ₘ reste))

namespace Phase

variable {K : Type*} (key : K) (e : ℕ)

def tenue : Phase K → Option ℕ
  | tient _ e _ | rend _ e _ | decompte _ e _ _ => some e
  | _ => none

def chargee : Phase K → Option ℕ
  | evince _ e _ | jette _ e _ | charge _ e | lit _ e _ | conclut _ e _ => some e
  | _ => none

/-- The entry a call took out of the table and has to retire. -/
def sortie : Phase K → Option ℕ
  | evince _ _ a | prend a => some a
  | _ => none

def trame : Phase K → Option ℕ
  | jette _ _ f | lit _ _ f | conclut _ _ (some f) | libere f => some f
  | _ => none

def reference : Phase K → Option (K × ℕ)
  | tient key _ f | rend key _ f | decompte key _ f _ => some (key, f)
  | _ => none

/-- What a call knows of the table and of its entry. -/
def Juste (entrees : List (K × ℕ)) (etats : List State) : Phase K → Prop
  | attend key e => (key, e) ∈ entrees ∨ etats[e]? = some .failed
  | evince key e _ | jette key e _ | charge key e | lit key e _ | conclut key e _ =>
    (key, e) ∈ entrees
  | tient key e f | rend key e f => (key, e) ∈ entrees ∧ ∃ m, etats[e]? = some (.present f m)
  | decompte key e f trouve =>
    trouve = e ∧ (key, e) ∈ entrees ∧ ∃ m, etats[e]? = some (.present f m)
  | panique => False
  | _ => True

@[simp] theorem tenue_charge : (charge key e).tenue = none := rfl

@[simp] theorem chargee_charge : (charge key e).chargee = some e := rfl

@[simp] theorem sortie_charge : (charge key e).sortie = none := rfl

@[simp] theorem trame_charge : (charge key e).trame = none := rfl

end Phase

def State.frame : State → Option ℕ
  | .present f _ => some f
  | _ => none

def tramesDe (etats : List State) (appels : Multiset (Phase K)) : Multiset ℕ :=
  (etats.map fun st => (st.frame.toList : Multiset ℕ)).sum +
    (appels.map fun p => (p.trame.toList : Multiset ℕ)).sum

@[simp] theorem tramesDe_cons (etats : List State) (p : Phase K) (appels : Multiset (Phase K)) :
    tramesDe etats (p ::ₘ appels) = (p.trame.toList : Multiset ℕ) + tramesDe etats appels := by
  simp only [tramesDe, map_cons, sum_cons]
  abel

/-- An entry in its state, inside the table or not, with the numbers of calls that refer to
it, load it and retire it. -/
def Accorde : Option State → Prop → ℕ → ℕ → ℕ → Prop
  | none, dedans, refs, charges, sorties => ¬dedans ∧ refs = 0 ∧ charges = 0 ∧ sorties = 0
  | some .loading, dedans, refs, charges, sorties =>
    dedans ∧ refs = 0 ∧ charges = 1 ∧ sorties = 0
  | some (.present _ m), dedans, refs, charges, sorties =>
    refs = m ∧ charges = 0 ∧ (dedans → sorties = 0) ∧ (¬dedans → sorties = 1 ∧ m = 0)
  | some .failed, _, refs, charges, _ => refs = 0 ∧ charges = 0

/-- Entry `e` is in the table. -/
def Dedans (entrees : List (K × ℕ)) (e : ℕ) : Prop := ∃ key, (key, e) ∈ entrees

structure Inv (s : Etat K) : Prop where
  cles : (s.entrees.map Prod.fst).Nodup
  numeros : (s.entrees.map Prod.snd).Nodup
  accorde : ∀ e, Accorde s.etats[e]? (Dedans s.entrees e) (tally tenue s.appels e)
    (tally chargee s.appels e) (tally sortie s.appels e)
  juste : ∀ p ∈ s.appels, p.Juste s.entrees s.etats
  trames : Owns (tramesDe s.etats s.appels) s.alloues

theorem inv_vide : Inv (vide : Etat K) where
  cles := by simp [vide]
  numeros := by simp [vide]
  accorde e := by simp [vide, Accorde, Dedans]
  juste p hp := by cases hp
  trames := ⟨by simp [vide, tramesDe], by simp [vide, tramesDe]⟩

section

variable [BEq K] [LawfulBEq K]

variable {l : List (K × ℕ)}

theorem mem_of_lookup {e : ℕ} (h : l.lookup key = some e) : (key, e) ∈ l := by
  obtain ⟨l1, l2, rfl, -⟩ := List.lookup_eq_some_iff.mp h
  simp

theorem not_mem_of_lookup (h : l.lookup key = none) (e : ℕ) : (key, e) ∉ l := by
  intro hmem
  have := List.lookup_eq_none_iff.mp h _ hmem
  simp at this

theorem lookup_of_mem {e : ℕ} (hl : (l.map Prod.fst).Nodup) (h : (key, e) ∈ l) : l.lookup key = some e := by
  induction l with
  | nil => cases h
  | cons x l ih =>
    obtain ⟨hx, hl⟩ := List.nodup_cons.mp hl
    rcases List.mem_cons.mp h with rfl | h
    · simp
    · have hne : key ≠ x.1 := by
        rintro rfl
        exact hx (List.mem_map.mpr ⟨_, h, rfl⟩)
      have hb : (key == x.1) = false := by simpa using hne
      rw [List.lookup_cons, hb]
      exact ih hl h

end

theorem Inv.eq_of_mem [BEq K] [LawfulBEq K] {s : Etat K} (h : Inv s) {e e' : ℕ} (he : (key, e) ∈ s.entrees)
    (he' : (key, e') ∈ s.entrees) : e = e' := by
  have := (lookup_of_mem h.cles he).symm.trans (lookup_of_mem h.cles he')
  simpa using this

theorem chercheCandidat_some [LinearOrder K] {s : Etat K} {l l' : List K} {x : K × ℕ}
    (h : s.chercheCandidat l = (some x, l')) : x ∈ s.entrees ∧ s.sortable x.2 = true := by
  induction l with
  | nil => cases h
  | cons key l ih =>
    unfold chercheCandidat at h
    split at h
    · rename_i e he
      split_ifs at h with hs
      · cases h
        exact ⟨mem_of_lookup he, hs⟩
      · exact ih h
    · exact ih h

/-- What `retire_un_candidat` does: nothing to the table, or one entry leaves it that
nobody refers to. -/
theorem retireUnCandidat_spec [LinearOrder K] (s : Etat K) :
    s.retireUnCandidat.2.etats = s.etats ∧ s.retireUnCandidat.2.alloues = s.alloues ∧
    (s.retireUnCandidat.1 = none → s.retireUnCandidat.2.entrees = s.entrees) ∧
    ∀ a, s.retireUnCandidat.1 = some a → ∃ key, (key, a) ∈ s.entrees ∧ s.sortable a = true ∧
      s.retireUnCandidat.2.entrees = s.entrees.filter fun x => x.1 ≠ key := by
  unfold retireUnCandidat
  dsimp only
  split
  · rename_i key e he
    have hx := chercheCandidat_some (Prod.ext he rfl : s.chercheCandidat s.candidats = (_, _))
    refine ⟨rfl, rfl, by simp, ?_⟩
    intro a ha
    cases ha
    exact ⟨key, hx.1, hx.2, rfl⟩
  · split_ifs
    · simp
    split
    · rename_i key e he
      have hmem := List.mem_of_find?_eq_some he
      have hs := List.find?_some he
      refine ⟨rfl, rfl, by simp, ?_⟩
      intro a ha
      cases ha
      exact ⟨key, hmem, hs, rfl⟩
    · simp

section

variable {s s' : Etat K} {key : K} {e a f m : ℕ} {reste : Multiset (Phase K)} {b : Multiset (Phase K)}

theorem Inv.congr (h : Inv s) (hn : s'.entrees = s.entrees) (he : s'.etats = s.etats)
    (ha : s'.alloues = s.alloues) (hp : s'.appels = s.appels) : Inv s' := by
  obtain ⟨entrees, candidats, etats, recuperables, alloues, appels⟩ := s'
  subst hn he ha hp
  exact ⟨h.cles, h.numeros, h.accorde, h.juste, h.trames⟩

/-- Calls that go on with what they hold. -/
theorem Inv.change (h : Inv s) (ht : ∀ e, tally tenue b e = tally tenue s.appels e)
    (hc : ∀ e, tally chargee b e = tally chargee s.appels e)
    (hs : ∀ e, tally sortie b e = tally sortie s.appels e)
    (hf : tramesDe s.etats b = tramesDe s.etats s.appels)
    (hj : ∀ p ∈ b, p.Juste s.entrees s.etats) : Inv (s.avec b) where
  cles := h.cles
  numeros := h.numeros
  accorde e := by
    simp only [avec]
    rw [ht, hc, hs]
    exact h.accorde e
  juste := hj
  trames := by
    simp only [avec]
    rw [hf]
    exact h.trames

variable {p : Phase K} {etats : List State} {st : State}

theorem Inv.ajoute (h : Inv s) (ht : p.tenue = none) (hc : p.chargee = none)
    (hs : p.sortie = none) (hf : p.trame = none) (hj : p.Juste s.entrees s.etats) :
    Inv (s.avec (p ::ₘ s.appels)) := by
  apply h.change
  · simp [ht]
  · simp [hc]
  · simp [hs]
  · simp [hf]
  · exact forall_mem_cons.mpr ⟨hj, h.juste⟩

section

variable (h : Inv s) (hp : s.appels = p ::ₘ reste)

include h hp

theorem Inv.tete : p.Juste s.entrees s.etats :=
  h.juste p (hp ▸ mem_cons_self _ _)

theorem Inv.queue : ∀ q ∈ reste, q.Juste s.entrees s.etats :=
  fun q hq => h.juste q (hp ▸ mem_cons_of_mem hq)

theorem Inv.ote (ht : p.tenue = none) (hc : p.chargee = none) (hs : p.sortie = none) (hf : p.trame = none) :
    Inv (s.avec reste) := by
  apply h.change
  · simp [hp, ht]
  · simp [hp, hc]
  · simp [hp, hs]
  · simp [hp, hf]
  · exact h.queue hp

theorem Inv.avance {q : Phase K}
    (ht : q.tenue = p.tenue) (hc : q.chargee = p.chargee) (hs : q.sortie = p.sortie)
    (hf : q.trame = p.trame) (hj : q.Juste s.entrees s.etats) : Inv (s.avec (q ::ₘ reste)) := by
  apply h.change
  · simp [hp, ht]
  · simp [hp, hc]
  · simp [hp, hs]
  · simp [hp, hf]
  · exact forall_mem_cons.mpr ⟨hj, h.queue hp⟩

/-- A loader apart from what else it holds, an entry to retire or a frame. -/
theorem Inv.scinde {r : Phase K}
    (ht : p.tenue = none ∧ r.tenue = none) (hc : p.chargee = some e ∧ r.chargee = none)
    (hs : r.sortie = p.sortie) (hf : r.trame = p.trame) (hn : (key, e) ∈ s.entrees)
    (hr : r.Juste s.entrees s.etats) : Inv (s.avec (r ::ₘ charge key e ::ₘ reste)) := by
  apply h.change
  · simp [hp, ht]
  · simp [hp, hc]
  · simp [hp, hs]
  · simp [hp, hf]
  · exact forall_mem_cons.mpr ⟨hr, forall_mem_cons.mpr ⟨hn, h.queue hp⟩⟩

end

theorem Inv.joint {r : Phase K} (h : Inv s) (hp : s.appels = r ::ₘ charge key e ::ₘ reste)
    (ht : p.tenue = none ∧ r.tenue = none) (hc : p.chargee = some e ∧ r.chargee = none)
    (hs : p.sortie = r.sortie) (hf : p.trame = r.trame) (hj : p.Juste s.entrees s.etats) :
    Inv (s.avec (p ::ₘ reste)) := by
  apply h.change
  · simp [hp, ht]
  · simp [hp, hc]
  · simp [hp, hs]
  · simp [hp, hf]
  · exact forall_mem_cons.mpr ⟨hj, (forall_mem_cons.mp (h.queue hp)).2⟩

/-- What a call knows stays true if its entry stays in the table and keeps its frame; who
waits may also find that the entry has failed. -/
theorem Phase.Juste.mono {entrees entrees' : List (K × ℕ)} {etats' : List State} (h : p.Juste entrees etats)
    (hn : ∀ key e, p.tenue = some e ∨ p.chargee = some e → (key, e) ∈ entrees → (key, e) ∈ entrees')
    (hw : ∀ key e, p = attend key e → (key, e) ∈ entrees → (key, e) ∈ entrees' ∨ etats'[e]? = some .failed)
    (hp : ∀ key e f m, (key, e) ∈ entrees → etats[e]? = some (.present f m) →
      ∃ m', etats'[e]? = some (.present f m'))
    (hf : ∀ i : ℕ, etats[i]? = some failed → etats'[i]? = some failed) :
    p.Juste entrees' etats' := by
  cases p with
  | attend key e =>
    rcases h with h | h
    · exact hw key e rfl h
    · exact .inr (hf e h)
  | tient key e f =>
    obtain ⟨he, m, hm⟩ := h
    exact ⟨hn _ _ (.inl rfl) he, hp key e f m he hm⟩
  | rend key e f =>
    obtain ⟨he, m, hm⟩ := h
    exact ⟨hn _ _ (.inl rfl) he, hp key e f m he hm⟩
  | decompte key e f e' =>
    obtain ⟨rfl, he, m, hm⟩ := h
    exact ⟨rfl, hn _ _ (.inl rfl) he, hp key _ f m he hm⟩
  | evince key e a => exact hn _ _ (.inr rfl) h
  | jette key e f => exact hn _ _ (.inr rfl) h
  | charge key e => exact hn _ _ (.inr rfl) h
  | lit key e f => exact hn _ _ (.inr rfl) h
  | conclut key e r => exact hn _ _ (.inr rfl) h
  | panique => exact h
  | _ => trivial

theorem getElem?_pose (he : etats[e]? = some st) (x : State)
    (i : ℕ) : (etats.set e x)[i]? = if i = e then some x else etats[i]? := by
  have hlt := (List.getElem?_eq_some_iff.mp he).1
  by_cases hi : i = e
  · subst hi
    simp [hlt]
  · simp [hi, List.getElem?_set_ne (Ne.symm hi)]

/-- An entry may change its state without the calls noticing, unless it gives up its
frame while it is in the table, or comes back from a failure. -/
theorem Phase.Juste.pose {entrees : List (K × ℕ)} {x : State} (h : p.Juste entrees etats) (he : etats[e]? = some st)
    (hp : ∀ f m, st = .present f m → Dedans entrees e → ∃ m', x = .present f m')
    (hf : st ≠ .failed) : p.Juste entrees (etats.set e x) := by
  apply h.mono
  · exact fun _ _ _ hi => hi
  · exact fun _ _ _ hi => .inl hi
  · intro key i f m hi hpi
    rw [getElem?_pose he]
    split_ifs with hie
    · subst hie
      rw [he] at hpi
      obtain ⟨m', rfl⟩ := hp f m (Option.some.inj hpi) ⟨key, hi⟩
      exact ⟨m', rfl⟩
    · exact ⟨m, hpi⟩
  · intro i hi
    rw [getElem?_pose he, if_neg]
    · exact hi
    · rintro rfl
      rw [he] at hi
      exact hf (Option.some.inj hi)

section

variable (h : Inv s)

include h

/-- Entry `e` changes its state, and the calls what they hold of it. -/
theorem Inv.pose {x : State} (he : s.etats[e]? = some st)
    (hacc : Accorde (some x) (Dedans s.entrees e) (tally tenue b e) (tally chargee b e) (tally sortie b e))
    (hautres : ∀ i, i ≠ e → tally tenue b i = tally tenue s.appels i ∧
      tally chargee b i = tally chargee s.appels i ∧
      tally sortie b i = tally sortie s.appels i)
    (hf : tramesDe s.etats b + (x.frame.toList : Multiset ℕ) =
      tramesDe s.etats s.appels + (st.frame.toList : Multiset ℕ))
    (hj : ∀ p ∈ b, p.Juste s.entrees (s.etats.set e x)) : Inv ((s.pose e x).avec b) where
  cles := h.cles
  numeros := h.numeros
  accorde i := by
    simp only [Etat.pose, avec]
    rw [getElem?_pose he]
    split_ifs with hie
    · exact hie ▸ hacc
    · obtain ⟨ht, hc, hs⟩ := hautres i hie
      rw [ht, hc, hs]
      exact h.accorde i
  juste := hj
  trames := by
    have hset := sum_map_set (fun st : State => (st.frame.toList : Multiset ℕ)) he x
    have htr : tramesDe (s.etats.set e x) b = tramesDe s.etats s.appels := by
      apply add_right_cancel (b := (st.frame.toList : Multiset ℕ))
      rw [← hf, tramesDe, tramesDe, add_right_comm, hset, add_right_comm]
    simp only [Etat.pose, avec]
    rw [htr]
    exact h.trames

/-- A reference more. -/
theorem Inv.retient (hn : (key, e) ∈ s.entrees) (he : s.etats[e]? = some (.present f m)) :
    Inv ((s.retient e f m).avec (tient key e f ::ₘ s.appels)) := by
  have hacc := h.accorde e
  rw [he] at hacc
  obtain ⟨hm, hc, hin, -⟩ := hacc
  have hd : Dedans s.entrees e := ⟨key, hn⟩
  have hpose : Inv ((s.pose e (.present f (m + 1))).avec (tient key e f ::ₘ s.appels)) := by
    apply h.pose he
    · simp [Accorde, tenue, chargee, sortie, hm, hc, hin hd, hd]
    · intro i hi
      simp [tenue, chargee, sortie, hi.symm]
    · simp [frame, trame]
    · intro p hp
      rcases mem_cons.mp hp with rfl | hp
      · exact ⟨hn, m + 1, by simp [getElem?_pose he]⟩
      · apply (h.juste p hp).pose he
        · intro f' m' heq _
          cases heq
          exact ⟨m + 1, rfl⟩
        · exact State.noConfusion
  exact hpose.congr rfl rfl rfl rfl

/-- A reference less. -/
theorem Inv.rend (hp : s.appels = p ::ₘ reste) (ht : p.tenue = some e)
    (hc : p.chargee = none) (hs : p.sortie = none) (hf : p.trame = none)
    (he : s.etats[e]? = some (.present f (m + 1))) :
    Inv ((s.pose e (.present f m)).avec reste) := by
  have hacc := h.accorde e
  rw [he, hp] at hacc
  obtain ⟨hm, hch, hin, hout⟩ := hacc
  simp only [tally_cons, ht, hc, hs, if_true, if_false, reduceCtorEq, add_zero] at hm hch hin hout
  apply h.pose he
  · refine ⟨by omega, hch, hin, ?_⟩
    intro hd
    exact (hout hd).2.elim
  · intro i hi
    simp [hp, ht, hc, hs, hi.symm]
  · simp [hp, frame, hf]
  · intro q hq
    apply (h.queue hp q hq).pose he
    · intro f' m' heq _
      cases heq
      exact ⟨m, rfl⟩
    · exact State.noConfusion

theorem Inv.loading (hp : s.appels = p ::ₘ reste) (hc : p.chargee = some e) : s.etats[e]? = some .loading := by
  have hacc := h.accorde e
  have hpos : 0 < tally chargee s.appels e := tally_pos _ (hp ▸ mem_cons_self _ _) hc
  match hst : s.etats[e]? with
  | some .loading => rfl
  | none | some (.present _ _) | some .failed =>
    rw [hst] at hacc
    simp only [Accorde] at hacc
    omega

theorem Inv.conclut (hp : s.appels = conclut key e (some f) ::ₘ reste) :
    Inv ((s.pose e (.present f 1)).avec (tient key e f ::ₘ reste)) := by
  have he := h.loading hp rfl
  have hn : (key, e) ∈ s.entrees :=
    h.tete hp
  have hacc := h.accorde e
  apply h.pose he
  · simp_all [Accorde, tenue, chargee, sortie]
  · intro i hi
    simp [hp, tenue, chargee, sortie, hi.symm]
  · simp [hp, frame, trame, add_comm]
  · intro p hp'
    rcases mem_cons.mp hp' with rfl | hp'
    · exact ⟨hn, 1, by simp [getElem?_pose he]⟩
    · apply (h.queue hp p hp').pose he
      · intro f' m' heq
        cases heq
      · exact State.noConfusion

theorem Inv.conclutEchec (hp : s.appels = Phase.conclut key e none ::ₘ reste) :
    Inv ((s.pose e .failed).avec reste) := by
  have he := h.loading hp rfl
  have hacc := h.accorde e
  apply h.pose he
  · simp_all [Accorde, tenue, chargee, sortie]
  · intro i hi
    simp [hp, tenue, chargee, sortie, hi.symm]
  · simp [hp, frame, trame]
  · intro p hp'
    apply (h.queue hp p hp').pose he
    · intro f' m' heq
      cases heq
    · exact State.noConfusion

theorem Inv.dehors (hp : s.appels = prend a ::ₘ reste)
    (ha : s.etats[a]? = some (.present f m)) : ¬Dedans s.entrees a ∧ m = 0 := by
  have hacc := h.accorde a
  rw [ha, hp] at hacc
  obtain ⟨-, -, hin, hout⟩ := hacc
  simp only [tally_cons, sortie, if_true] at hin
  have hd : ¬Dedans s.entrees a := fun hd => absurd (hin hd) (Nat.succ_ne_zero _)
  exact ⟨hd, (hout hd).2⟩

theorem Inv.retire (hp : s.appels = prend a ::ₘ reste) (ha : s.etats[a]? = some (.present f 0)) :
    Inv ((s.pose a .failed).avec (libere f ::ₘ reste)) := by
  obtain ⟨hd, -⟩ := h.dehors hp ha
  have hacc := h.accorde a
  apply h.pose ha
  · simp_all [Accorde, tenue, chargee, sortie]
  · intro i hi
    simp [hp, tenue, chargee, sortie, hi.symm]
  · simp [hp, frame, trame, add_comm]
  · intro p hp'
    rcases mem_cons.mp hp' with rfl | hp'
    · trivial
    · apply (h.queue hp p hp').pose ha
      · intro f' m' _ hin
        exact absurd hin hd
      · exact State.noConfusion

/-- Nothing is left to do for an entry that has failed. -/
theorem Inv.retireRien (hp : s.appels = prend a ::ₘ reste)
    (ha : ∀ f, s.etats[a]? ≠ some (.present f 0)) : Inv (s.avec reste) where
  cles := h.cles
  numeros := h.numeros
  accorde i := by
    have hacc := h.accorde i
    rw [hp] at hacc
    by_cases hi : i = a
    · subst hi
      match hst : s.etats[i]? with
      | some (.present f m) =>
        obtain ⟨-, rfl⟩ := h.dehors hp hst
        exact absurd hst (ha f)
      | none | some .loading =>
        rw [hst] at hacc
        simp [Accorde, sortie] at hacc
      | some .failed =>
        simpa [Accorde, avec, hst, tenue, chargee] using hacc
    · simpa [avec, tenue, chargee, sortie, Ne.symm hi] using hacc
  juste := h.queue hp
  trames := by
    have := h.trames
    simpa [avec, hp, trame] using this

theorem Inv.alloue (hf : f ∉ s.alloues) :
    Inv ({ s with alloues := Insert.insert f s.alloues }.avec (libere f ::ₘ s.appels)) where
  cles := h.cles
  numeros := h.numeros
  accorde i := by simpa [avec, tenue, chargee, sortie] using h.accorde i
  juste := forall_mem_cons.mpr ⟨trivial, h.juste⟩
  trames := by
    have := h.trames.give hf
    simpa [avec, trame] using this

theorem Inv.libere (hp : s.appels = libere f ::ₘ reste) :
    Inv ({ s with alloues := s.alloues.erase f }.avec reste) where
  cles := h.cles
  numeros := h.numeros
  accorde i := by simpa [hp, avec, tenue, chargee, sortie] using h.accorde i
  juste := h.queue hp
  trames := by
    have htr : tramesDe s.etats s.appels = f ::ₘ tramesDe s.etats reste := by
      simp [hp, trame]
    exact (htr ▸ h.trames).take

theorem Inv.mem_filter [DecidableEq K] (ha : (key, a) ∈ s.entrees) {k : K} {i : ℕ} :
    (k, i) ∈ (s.entrees.filter fun x => x.1 ≠ key) ↔ (k, i) ∈ s.entrees ∧ i ≠ a := by
  rw [List.mem_filter]
  simp only [ne_eq, decide_not, Bool.not_eq_eq_eq_not, Bool.not_true, decide_eq_false_iff_not]
  constructor
  · rintro ⟨hk, hne⟩
    refine ⟨hk, ?_⟩
    rintro rfl
    have := List.inj_on_of_nodup_map h.numeros hk ha rfl
    exact hne (Prod.mk.inj this).1
  · rintro ⟨hk, hne⟩
    refine ⟨hk, ?_⟩
    rintro rfl
    exact hne (h.eq_of_mem hk ha)

theorem Inv.of_sortable (ha : s.sortable a = true) :
    tally tenue s.appels a = 0 ∧ tally chargee s.appels a = 0 ∧
      (s.etats[a]? = some .failed ∨ ∃ f, s.etats[a]? = some (.present f 0)) := by
  have hacc := h.accorde a
  unfold sortable at ha
  match hst : s.etats[a]? with
  | none | some .loading => simp [hst, recuperable] at ha
  | some .failed =>
    rw [hst] at hacc
    exact ⟨hacc.1, hacc.2, .inl rfl⟩
  | some (.present f m) =>
    rw [hst] at hacc
    obtain rfl : m = 0 := by simpa [hst, recuperable] using ha
    exact ⟨hacc.1, hacc.2.1, .inr ⟨f, rfl⟩⟩

/-- An eviction. Nobody may wait for the page: who waits keeps the entry, and would take
a reference to it outside the table. -/
theorem Inv.sort [DecidableEq K] (hn : (key, a) ∈ s.entrees) (ha : s.sortable a = true)
    (hw : ∀ f m, s.etats[a]? = some (.present f m) → ∀ k, Phase.attend k a ∉ s.appels) :
    Inv ({ s with entrees := s.entrees.filter fun x => x.1 ≠ key }.avec (prend a ::ₘ s.appels)) := by
  obtain ⟨ht, hc, hst⟩ := h.of_sortable ha
  have hd : ∀ i, Dedans (s.entrees.filter fun x => x.1 ≠ key) i ↔ Dedans s.entrees i ∧ i ≠ a := by
    intro i
    simp only [Dedans, h.mem_filter hn, exists_and_right]
  constructor
  · exact h.cles.sublist (List.filter_sublist.map _)
  · exact h.numeros.sublist (List.filter_sublist.map _)
  · intro i
    have hacc := h.accorde i
    simp only [avec, hd, tally_cons, tenue, chargee, sortie, reduceCtorEq, if_false, add_zero]
    by_cases hi : i = a
    · subst hi
      have hin : Dedans s.entrees i := ⟨key, hn⟩
      rcases hst with hst | ⟨f, hst⟩
      · rw [hst] at hacc ⊢
        exact hacc
      · rw [hst] at hacc ⊢
        simp_all [Accorde]
    · simpa [hi, Ne.symm hi] using hacc
  · intro p hp
    rcases mem_cons.mp hp with rfl | hmem
    · trivial
    have htp : p.tenue ≠ some a := fun hp' => (tally_pos _ hmem hp').ne' ht
    have hcp : p.chargee ≠ some a := fun hp' => (tally_pos _ hmem hp').ne' hc
    apply (h.juste p hmem).mono
    · intro k i hi hki
      apply (h.mem_filter hn).mpr
      refine ⟨hki, ?_⟩
      rintro rfl
      exact hi.elim htp hcp
    · rintro k i rfl hki
      by_cases hi : i = a
      · subst hi
        rcases hst with hst | ⟨f, hst⟩
        · exact .inr hst
        · exact absurd hmem (hw f 0 hst k)
      · exact .inl ((h.mem_filter hn).mpr ⟨hki, hi⟩)
    · exact fun _ _ f m _ hi => ⟨m, hi⟩
    · exact fun _ hi => hi
  · have := h.trames
    simpa [avec, trame] using this

theorem Inv.insert [LinearOrder K] (hk : s.entrees.lookup key = none) :
    Inv ((s.insert key).avec (Phase.charge key s.etats.length ::ₘ s.appels)) := by
  have hperm := List.perm_orderedInsert (fun a b : K × ℕ => a.1 ≤ b.1) (key, s.etats.length) s.entrees
  -- the new number is the number of no entry yet
  have hneuf := h.accorde s.etats.length
  rw [List.getElem?_eq_none le_rfl] at hneuf
  obtain ⟨hd, ht, hc, hs⟩ := hneuf
  have hmem : ∀ x, x ∈ (s.insert key).entrees ↔ x = (key, s.etats.length) ∨ x ∈ s.entrees := by
    intro x
    exact hperm.mem_iff.trans List.mem_cons
  have hget : ∀ i, (s.insert key).etats[i]? =
      if i = s.etats.length then some .loading else s.etats[i]? := by
    intro i
    simp only [Etat.insert, List.getElem?_append]
    split_ifs with h1 h2 h2
    · omega
    · rfl
    · simp [h2]
    · rw [List.getElem?_eq_none (by simp; omega), List.getElem?_eq_none (by omega)]
  constructor
  · apply (hperm.map Prod.fst).nodup_iff.mpr
    apply List.nodup_cons.mpr
    refine ⟨?_, h.cles⟩
    intro hin
    obtain ⟨⟨k, i⟩, hi, rfl⟩ := List.mem_map.mp hin
    exact not_mem_of_lookup hk i hi
  · apply (hperm.map Prod.snd).nodup_iff.mpr
    apply List.nodup_cons.mpr
    refine ⟨?_, h.numeros⟩
    intro hin
    obtain ⟨⟨k, i⟩, hi, heq⟩ := List.mem_map.mp hin
    obtain rfl : i = s.etats.length := heq
    exact hd ⟨k, hi⟩
  · intro i
    have hacc := h.accorde i
    have hdi : Dedans (s.insert key).entrees i ↔ i = s.etats.length ∨ Dedans s.entrees i := by
      constructor
      · rintro ⟨k, hki⟩
        rcases (hmem _).mp hki with heq | hki
        · exact .inl (Prod.mk.inj heq).2
        · exact .inr ⟨k, hki⟩
      · rintro (rfl | ⟨k, hki⟩)
        · exact ⟨key, (hmem _).mpr (.inl rfl)⟩
        · exact ⟨k, (hmem _).mpr (.inr hki)⟩
    show Accorde (s.insert key).etats[i]? (Dedans (s.insert key).entrees i) _ _ _
    rw [hget, hdi]
    by_cases hi : i = s.etats.length
    · subst hi
      simp [Accorde, avec, tenue, chargee, sortie, ht, hc, hs]
    · simpa [hi, avec, tenue, chargee, sortie, Ne.symm hi] using hacc
  · intro p hp
    rcases mem_cons.mp hp with rfl | hp
    · exact (hmem _).mpr (.inl rfl)
    have hvieux : ∀ (i : ℕ) st, s.etats[i]? = some st → (s.insert key).etats[i]? = some st := by
      intro i st hi
      have hlt := (List.getElem?_eq_some_iff.mp hi).1
      rw [hget, if_neg (by omega), hi]
    apply (h.juste p hp).mono
    · exact fun k i _ hi => (hmem _).mpr (.inr hi)
    · exact fun k i _ hi => .inl ((hmem _).mpr (.inr hi))
    · exact fun _ i f m _ hi => ⟨m, hvieux i _ hi⟩
    · exact fun i hi => hvieux i _ hi
  · have := h.trames
    simpa [avec, Etat.insert, tramesDe, trame, frame] using this

/-- The entry of a reference is in the table with the frame of the reference. -/
theorem Inv.reference (hp : p ∈ s.appels) {f : ℕ} (hr : p.reference = some (key, f)) :
    ∃ e m, (key, e) ∈ s.entrees ∧ s.etats[e]? = some (.present f m) := by
  have hj := h.juste p hp
  cases p with
  | tient key' e f' =>
    cases hr
    obtain ⟨hn, m, hm⟩ := hj
    exact ⟨e, m, hn, hm⟩
  | rend key' e f' =>
    cases hr
    obtain ⟨hn, m, hm⟩ := hj
    exact ⟨e, m, hn, hm⟩
  | decompte key' e f' e' =>
    cases hr
    obtain ⟨-, hn, m, hm⟩ := hj
    exact ⟨e, m, hn, hm⟩
  | _ => cases hr

end

theorem mem_tramesDe {e f m : ℕ} (h : etats[e]? = some (.present f m))
    (appels : Multiset (Phase K)) : f ∈ tramesDe etats appels := by
  have hset := sum_map_set (fun st : State => (st.frame.toList : Multiset ℕ)) h .failed
  change _ + ({f} : Multiset ℕ) = _ + 0 at hset
  rw [add_zero] at hset
  rw [tramesDe, ← hset]
  simp

end

section

variable [LinearOrder K] {s s' : Etat K} {victime : Option ℕ}

/-- The entry that leaves the table has no frame, or nobody waits for it. -/
def Calme (s : Etat K) (victime : Option ℕ) : Prop :=
  ∀ a f m, victime = some a → s.etats[a]? = some (.present f m) → ∀ key, Phase.attend key a ∉ s.appels

theorem retireUnCandidat_inv (h : Inv s) {a : ℕ} (hv : s.retireUnCandidat.1 = some a)
    (hw : Calme s (some a)) :
    Inv (s.retireUnCandidat.2.avec (Phase.prend a ::ₘ s.appels)) := by
  obtain ⟨he, hf, -, hs⟩ := retireUnCandidat_spec s
  obtain ⟨key, hmem, hsort, hn⟩ := hs a hv
  exact (h.sort hmem hsort fun f m hfm => hw a f m rfl hfm).congr hn he hf rfl

theorem Pas.inv (hp : Pas s victime s') (h : Inv s) (hw : Calme s victime) : Inv s' := by
  cases hp with
  | trouve hk he hm => exact h.retient (mem_of_lookup hk) he
  | attend hk he => exact h.ajoute rfl rfl rfl rfl (.inl (mem_of_lookup hk))
  | charge hk hl => exact h.insert hk
  | @chargeSature key hk hl hv =>
    obtain ⟨he, hf, hn, -⟩ := retireUnCandidat_spec s
    have hs : Inv (s.retireUnCandidat.2.avec s.appels) := h.congr (hn hv) he hf rfl
    have hk' : (s.retireUnCandidat.2.avec s.appels).entrees.lookup key = none := by
      rw [avec, hn hv]
      exact hk
    exact he ▸ hs.insert hk'
  | @chargeEvince key a hk hl hv =>
    obtain ⟨he, hf, -, hsort⟩ := retireUnCandidat_spec s
    obtain ⟨k, -, -, hn⟩ := hsort a hv
    have hs := retireUnCandidat_inv h hv hw
    have hk' : (s.retireUnCandidat.2.avec (Phase.prend a ::ₘ s.appels)).entrees.lookup key =
        none := by
      rw [avec, hn, List.lookup_eq_none_iff]
      intro x hx
      exact List.lookup_eq_none_iff.mp hk x (List.mem_of_mem_filter hx)
    have hi := he ▸ hs.insert hk'
    have hj := hi.tete (p := Phase.charge key s.etats.length) rfl
    exact hi.joint (cons_swap _ _ _) ⟨rfl, rfl⟩ ⟨rfl, rfl⟩ rfl rfl hj
  | evince hp ha =>
    have hn := h.tete hp
    have hs := h.scinde (r := Phase.prend _) hp ⟨rfl, rfl⟩ ⟨rfl, rfl⟩ rfl rfl hn trivial
    have hr := hs.retire rfl ha
    exact hr.joint rfl ⟨rfl, rfl⟩ ⟨rfl, rfl⟩ rfl rfl hn
  | evinceRien hp ha =>
    have hs := h.scinde (r := Phase.prend _) hp ⟨rfl, rfl⟩ ⟨rfl, rfl⟩ rfl rfl (h.tete hp) trivial
    exact hs.retireRien rfl ha
  | jette hp =>
    have hs := h.scinde (r := Phase.libere _) hp ⟨rfl, rfl⟩ ⟨rfl, rfl⟩ rfl rfl (h.tete hp) trivial
    exact hs.libere rfl
  | alloue hp hf =>
    have hn := h.tete hp
    have hs := h.alloue hf
    rw [hp] at hs
    exact hs.joint rfl ⟨rfl, rfl⟩ ⟨rfl, rfl⟩ rfl rfl hn
  | sansTrame hp =>
    have hn := h.tete hp
    exact h.avance hp rfl rfl rfl rfl hn
  | lu hp =>
    have hn := h.tete hp
    exact h.avance hp rfl rfl rfl rfl hn
  | luMal hp =>
    have hn := h.tete hp
    have hs := h.scinde (r := Phase.libere _) hp ⟨rfl, rfl⟩ ⟨rfl, rfl⟩ rfl rfl hn trivial
    exact (hs.libere rfl).avance rfl rfl rfl rfl rfl hn
  | conclut hp => exact h.conclut hp
  | conclutEchec hp => exact (h.conclutEchec hp).ajoute rfl rfl rfl rfl trivial
  | @libre key suite reste hp =>
    have hs : Inv (s.avec (Phase.propose key suite ::ₘ reste)) :=
      h.avance hp rfl rfl rfl rfl trivial
    exact hs.congr rfl rfl rfl rfl
  | @propose key suite reste hp =>
    have hs : Inv (s.avec (if suite then Phase.recupere ::ₘ reste else reste)) := by
      cases suite with
      | false => exact h.ote hp rfl rfl rfl rfl
      | true => exact h.avance hp rfl rfl rfl rfl trivial
    apply hs.congr <;> unfold Etat.propose <;> split_ifs <;> rfl
  | reveil hp he hm =>
    have hn := (h.tete hp).resolve_right (by rw [he]; simp)
    exact (h.ote hp rfl rfl rfl rfl).retient hn he
  | reveilEchec hp he => exact h.ote hp rfl rfl rfl rfl
  | rend hp =>
    have hn := h.tete hp
    exact h.avance hp rfl rfl rfl rfl hn
  | rendTrouve hp hk =>
    obtain ⟨hn, hf⟩ := h.tete hp
    exact h.avance hp rfl rfl rfl rfl ⟨h.eq_of_mem (mem_of_lookup hk) hn, hn, hf⟩
  | rendAbsent hp hk =>
    obtain ⟨hn, -⟩ := h.tete hp
    exact absurd hn (not_mem_of_lookup hk _)
  | @decompte key e f e' f' m reste hp he =>
    obtain ⟨rfl, hn, hf⟩ := h.tete hp
    have hs := h.rend hp rfl rfl rfl rfl he
    split_ifs
    · exact hs.ajoute rfl rfl rfl rfl trivial
    · exact hs.ajoute rfl rfl rfl rfl trivial
  | @decomptePanique key e f e' reste hp he =>
    obtain ⟨rfl, hn, m, hf⟩ := h.tete hp
    -- the call itself is one of the references
    have hacc := h.accorde e'
    rw [hf, hp] at hacc
    have hm := hacc.1
    simp only [tally_cons, tenue, if_true] at hm
    exact absurd (hm ▸ hf) (he _ _)
  | recupere => exact h.ajoute rfl rfl rfl rfl trivial
  | cesse hp => exact h.ote hp rfl rfl rfl rfl
  | prendRien hp hv =>
    obtain ⟨he, hf, hn, -⟩ := retireUnCandidat_spec s
    exact (h.ote hp rfl rfl rfl rfl).congr (hn hv) he hf rfl
  | prend hp hv =>
    have hs := retireUnCandidat_inv h hv hw
    rw [hp, cons_swap] at hs
    exact hs.ote rfl rfl rfl rfl rfl
  | retire hp ha => exact h.retire hp ha
  | retireRien hp ha => exact (h.retireRien hp ha).ajoute rfl rfl rfl rfl trivial
  | libere hp => exact (h.libere hp).ajoute rfl rfl rfl rfl trivial

/-- A run from the empty cache all of whose steps meet `permis`. -/
inductive Course (permis : Etat K → Option ℕ → Prop) : Etat K → Prop
  | debut : Course permis vide
  | pas {s s' : Etat K} {victime : Option ℕ} (h : Course permis s) (hp : Pas s victime s')
      (hv : permis s victime) : Course permis s'

/-- No release has panicked; the frame of a reference has not been given back; references
to one key are to one frame. -/
structure Sur (s : Etat K) : Prop where
  sansPanique : panique ∉ s.appels
  vivante : ∀ p ∈ s.appels, ∀ key f, p.reference = some (key, f) → f ∈ s.alloues
  unique : ∀ p ∈ s.appels, ∀ q ∈ s.appels, ∀ key f f', p.reference = some (key, f) →
    q.reference = some (key, f') → f = f'

theorem Course.inv (h : Course Calme s) : Inv s := by
  induction h with
  | debut => exact inv_vide
  | pas _ hp hv ih => exact hp.inv ih hv

theorem Inv.sur (h : Inv s) : Sur s where
  sansPanique hp := h.juste panique hp
  vivante p hp key f hr := by
    obtain ⟨e, m, -, hm⟩ := h.reference hp hr
    exact h.trames.mem f (mem_tramesDe hm s.appels)
  unique p hp q hq key f f' hr hr' := by
    obtain ⟨e, m, hn, hm⟩ := h.reference hp hr
    obtain ⟨e', m', hn', hm'⟩ := h.reference hq hr'
    obtain rfl := h.eq_of_mem hn hn'
    rw [hm] at hm'
    cases hm'
    rfl

/-- References are safe in every run in which no page leaves the table while a call still
waits for it. -/
theorem references_sures (s : Etat K) (h : Course Calme s) : Sur s :=
  h.inv.sur

end

theorem calme_none [LinearOrder K] (s : Etat K) : Calme s none := by
  intro a f m ha
  cases ha

/-- One call has a frame for the page and has read it. -/
theorem course_lue {permis : Etat ℕ → Option ℕ → Prop} (h : ∀ s, permis s none) :
    Course permis ⟨[(0, 0)], [], [.loading], 0, {7}, {Phase.conclut 0 0 (some 7)}⟩ := by
  have h1 : Course permis ⟨[(0, 0)], [], [.loading], 0, ∅, {Phase.charge 0 0}⟩ :=
    .pas .debut (.charge rfl (by decide)) (h _)
  exact .pas (.pas h1 (.alloue (show _ = Phase.charge 0 0 ::ₘ 0 from rfl) (Finset.notMem_empty 7)) (h _))
    (.lu (show _ = lit 0 0 7 ::ₘ 0 from rfl)) (h _)

/-- A page loaded by one call. -/
theorem references_sures_une : Sur (⟨[(0, 0)], [], [.present 7 1], 0, {7}, {tient 0 0 7}⟩ : Etat ℕ) :=
  references_sures _ (.pas (course_lue calme_none)
    (.conclut (show _ = Phase.conclut 0 0 (some 7) ::ₘ 0 from rfl)) (calme_none _))

/-- One call loads a page and releases it while another waits for it; the page is
evicted, then taken by the call that waited, whose release finds no entry. -/
theorem reference_orpheline : ∃ s : Etat ℕ, Course (fun _ _ => True) s ∧ panique ∈ s.appels := by
  have h₂' : Course (fun _ _ => True) (⟨[(0, 0)], [], [.loading], 0, {7},
      {Phase.attend 0 0, Phase.conclut 0 0 (some 7)}⟩ : Etat ℕ) :=
    .pas (course_lue fun _ => trivial) (.attend (show List.lookup 0 _ = some 0 from rfl) rfl) trivial
  have h₃ : Course (fun _ _ => True)
      (⟨[(0, 0)], [], [.present 7 1], 0, {7}, {tient 0 0 7, Phase.attend 0 0}⟩ : Etat ℕ) :=
    .pas h₂' (.conclut (show _ = Phase.conclut 0 0 (some 7) ::ₘ {Phase.attend 0 0} from
      cons_swap (Phase.attend 0 0) (Phase.conclut 0 0 (some 7)) 0)) trivial
  -- the first call releases the page
  have h₄ : Course (fun _ _ => True)
      (⟨[(0, 0)], [], [.present 7 0], 0, {7}, {Phase.libre 0 true, Phase.attend 0 0}⟩ : Etat ℕ) :=
    .pas (.pas (.pas h₃ (.rend (show _ = tient 0 0 7 ::ₘ {Phase.attend 0 0} from rfl)) trivial)
      (.rendTrouve (show _ = Phase.rend 0 0 7 ::ₘ {Phase.attend 0 0} from rfl) (show _ = some 0 from rfl)) trivial)
      (.decompte (show _ = Phase.decompte 0 0 7 0 ::ₘ {Phase.attend 0 0} from rfl) rfl) trivial
  have h₅ : Course (fun _ _ => True) (⟨[(0, 0)], [0], [.present 7 0], 1, {7}, {Phase.attend 0 0}⟩ : Etat ℕ) :=
    .pas (.pas (.pas h₄ (.libre (show _ = Phase.libre 0 true ::ₘ {Phase.attend 0 0} from rfl)) trivial)
      (.propose (show _ = Phase.propose 0 true ::ₘ {Phase.attend 0 0} from rfl)) trivial)
      (.cesse (show _ = Phase.recupere ::ₘ {Phase.attend 0 0} from rfl)) trivial
  -- memory pressure evicts it before the second call wakes up
  have h₆ : Course (fun _ _ => True)
      (⟨[], [], [.present 7 0], 0, {7}, {Phase.prend 0, Phase.attend 0 0}⟩ : Etat ℕ) :=
    .pas (.pas h₅ .recupere trivial)
      (.prend (show _ = Phase.recupere ::ₘ {Phase.attend 0 0} from rfl) rfl) trivial
  have h₇ : Course (fun _ _ => True)
      (⟨[], [], [.present 7 1], 0, {7}, {tient 0 0 7, Phase.prend 0}⟩ : Etat ℕ) :=
    .pas h₆ (.reveil (show _ = Phase.attend 0 0 ::ₘ {Phase.prend 0} from
      cons_swap (Phase.prend 0) (Phase.attend 0 0) 0) rfl (by decide)) trivial
  have h₈ : Course (fun _ _ => True) (⟨[], [], [.present 7 1], 0, {7}, {panique, Phase.prend 0}⟩ : Etat ℕ) :=
    .pas (.pas h₇ (.rend (show _ = tient 0 0 7 ::ₘ {Phase.prend 0} from rfl)) trivial)
      (.rendAbsent (show _ = Phase.rend 0 0 7 ::ₘ {Phase.prend 0} from rfl) rfl) trivial
  exact ⟨_, h₈, by simp⟩

end BouchaudOS.CachePropre
