import BouchaudOS.Natif.Reception

/-!
# Messages are neither lost nor doubled, but they may change places

In every interleaving a message that was accepted is in one place, and a receive that fails
leaves the handles of its process as they were. The order and the limits of a queue are
another matter: a message that comes back is put in front whatever has happened since, and
counts for nothing while it is away.
-/

namespace BouchaudOS.Natif

open Runs List Function Option

/-- The handles that a receive has installed and not closed again. -/
def Phase.installes : Phase → List HandleId
  | .installe _ _ _ _ ids | .annule _ _ _ _ ids _ => ids
  | _ => []

def Phase.demande : Phase → Demande
  | .trouve d _ | .pret d _ | .tient d _ _ _ | .installe d _ _ _ _ | .annule d _ _ _ _ _ | .livre d _ _ _
  | .echoue d _ => d

namespace Reseau

variable {bout : ℕ → Option Bool} {s s' t t' : Reseau} {k : ℕ} {d : Demande} {id : HandleId} {e : Entry}
  {p : Phase} {a : Etape}

theorem appels_of_ne (h : s.execute bout a = some s') (ha : a ≠ .avance k) (hk : s.appels[k]? = some p) :
    s'.appels[k]? = some p := by
  have hlt := (List.getElem?_eq_some_iff.mp hk).1
  cases a with
  | envoie side m =>
    cases h
    unfold envoie
    split <;> exact hk
  | ferme side =>
    cases h
    exact hk
  | table t op =>
    cases h
    exact hk
  | commence d =>
    cases h
    unfold commence
    split
    · exact (List.getElem?_append_left hlt).trans hk
    · split <;> exact (List.getElem?_append_left hlt).trans hk
  | avance j =>
    have hj : j ≠ k := by
      rintro rfl
      exact ha rfl
    have hset : ∀ q, (s.appels.set j q)[k]? = some p := fun q => (List.getElem?_set_ne hj).trans hk
    change s.avance j = some s' at h
    unfold avance at h
    split at h
    · cases h
      exact hset _
    · cases h
      unfold prend
      split <;> exact hset _
    · cases h
      unfold installe
      split <;> exact hset _
    · cases h
      exact hset _
    · cases h
      exact hset _
    · cases h
      exact hset _
    · cases h

/-- Of a handle that no other call touches: it was in use before the receive, or the receive has
installed it and has yet to close it. -/
def Suivi (s : Reseau) (k : ℕ) (d : Demande) (id : HandleId) (e : Entry) (avant : Prop) : Prop :=
  ∃ p, s.appels[k]? = some p ∧ p.demande = d ∧ (∀ x ∈ p.installes, x.raw < 2 ^ 63) ∧
    (avant → (s.tables d.table).Tient id e ∧ id ∉ p.installes) ∧
    (¬avant → (s.tables d.table).Tient id e → id ∈ p.installes)

variable {avant : Prop}

theorem Suivi.of_ne (h : s.Suivi k d id e avant) (ha : s.execute bout a = some s') (hne : a ≠ .avance k)
    (hid : (s.tables d.table).Tient id e ↔ (s'.tables d.table).Tient id e) : s'.Suivi k d id e avant := by
  obtain ⟨p, hk, hd, hraw, hav, hap⟩ := h
  rw [hid] at hav hap
  exact ⟨p, appels_of_ne ha hne hk, hd, hraw, hav, hap⟩

/-- A section that touches neither the tables nor the handles installed. -/
theorem Suivi.pose (h : s.Suivi k d id e avant) (hk : s.appels[k]? = some p) {p' : Phase}
    (hs : s'.appels = s.appels.set k p') (ht : s'.tables = s.tables) (hd : p'.demande = p.demande)
    (hi : p'.installes = p.installes) : s'.Suivi k d id e avant := by
  obtain ⟨q, hq, hqd, hraw, hav, hap⟩ := h
  obtain rfl : q = p := some.inj (hq.symm.trans hk)
  have hlt := (List.getElem?_eq_some_iff.mp hk).1
  refine ⟨p', ?_, hd.trans hqd, ?_, ?_, ?_⟩
  · rw [hs]
    exact List.getElem?_set_self hlt
  · rw [hi]
    exact hraw
  · rw [hi, ht]
    exact hav
  · rw [hi, ht]
    exact hap

variable {side : Bool} {d' : Demande} {x : Error} {es : List Etape} {m : Message}

theorem Suivi.installe {n : ℕ} (h : s.Suivi k d id e avant)
    (hk : s.appels[k]? = some (.tient d' side n m)) : (s.installe k d' side n m).Suivi k d id e avant := by
  obtain ⟨q, hq, hqd, -, hav, hap⟩ := h
  obtain rfl : q = .tient d' side n m := some.inj (hq.symm.trans hk)
  obtain rfl : d' = d := hqd
  have hlt := (List.getElem?_eq_some_iff.mp hk).1
  unfold Reseau.installe
  obtain ⟨-, herr⟩ | ⟨ids, t', hok, hsuite, -⟩ := (s.tables d'.table).insertMany_cases
    (m.handles.map fun e => e.derive (.processus d'.table) e.rights)
  · rw [herr]
    refine ⟨_, List.getElem?_set_self hlt, rfl, nofun, ?_, ?_⟩
    · simpa [setTable, Phase.installes] using hav
    · simpa [setTable, Phase.installes] using hap
  · rw [hok]
    obtain ⟨hgarde, hinv, hraw⟩ := HandleTable.insertSuite_tient hsuite
    refine ⟨_, List.getElem?_set_self hlt, rfl, hraw, ?_, ?_⟩
    · intro h
      simp only [setTable, update_self]
      exact hgarde id e (hav h).1
    · intro hnon htient
      simp only [setTable, update_self] at htient
      rcases hinv id e htient with hold | hnew
      · exact absurd (hap hnon hold) List.not_mem_nil
      · exact hnew

theorem Suivi.close {n : ℕ} {id0 : HandleId} {ids : List HandleId} (h : s.Suivi k d id e avant)
    (hk : s.appels[k]? = some (.annule d' side n m (id0 :: ids) x)) :
    ((s.pose k (.annule d' side n m ids x)).setTable d'.table ((s.tables d'.table).close id0)).Suivi
      k d id e avant := by
  obtain ⟨q, hq, hqd, hraw, hav, hap⟩ := h
  obtain rfl : q = .annule d' side n m (id0 :: ids) x := some.inj (hq.symm.trans hk)
  obtain rfl : d' = d := hqd
  have hlt := (List.getElem?_eq_some_iff.mp hk).1
  have hclose := @HandleTable.tient_close (s.tables d'.table) id e id0 (hraw id0 List.mem_cons_self)
  refine ⟨_, List.getElem?_set_self hlt, rfl, fun y hy => hraw y (List.mem_cons_of_mem _ hy), ?_, ?_⟩
  · intro h
    obtain ⟨htient, hnot⟩ := hav h
    rw [Phase.installes, List.mem_cons, not_or] at hnot
    obtain ⟨hne, hnot⟩ := hnot
    simp only [setTable, update_self]
    exact ⟨hclose.mpr ⟨htient, hne⟩, hnot⟩
  · intro hnon htient
    simp only [setTable, update_self] at htient
    obtain ⟨hold, hne⟩ := hclose.mp htient
    exact (List.mem_cons.mp (hap hnon hold)).resolve_left hne

theorem installes_mesure (s : Reseau) (d : Demande) (side : Bool) :
    (s.mesure d side).installes = [] ∧ (s.mesure d side).demande = d := by
  unfold mesure
  split
  · exact ⟨rfl, rfl⟩
  · split_ifs <;> exact ⟨rfl, rfl⟩

theorem installes_suite (d : Demande) (side : Bool) (n : ℕ) (m : Message) :
    (suite d side n m).installes = [] ∧ (suite d side n m).demande = d := by
  unfold suite
  split <;> exact ⟨rfl, rfl⟩

theorem Suivi.avance (h : s.Suivi k d id e avant) (ha : s.avance k = some s')
    (hfin : ∀ d side n m, s'.appels[k]? ≠ some (.livre d side n m)) : s'.Suivi k d id e avant := by
  unfold Reseau.avance at ha
  split at ha
  · rename_i d' side hk
    cases ha
    obtain ⟨hi, hd⟩ := installes_mesure s d' side
    exact h.pose hk rfl rfl hd hi
  · rename_i d' side hk
    cases ha
    unfold prend
    split
    · exact h.pose hk rfl rfl rfl rfl
    · rename_i m c hr
      obtain ⟨hi, hd⟩ := installes_suite d' side ((s.numeros side).headD 0) m
      exact h.pose hk rfl rfl hd hi
  · rename_i d' side n m hk
    cases ha
    exact h.installe hk
  · rename_i d' side n m ids hk
    cases ha
    have hlt := (List.getElem?_eq_some_iff.mp hk).1
    -- a receive that succeeds is not one of those followed here
    cases hc : System.copyout d'.u d'.args m ids with
    | ok _ =>
      have hliv : conclut d' side n m ids = .livre d' side n m := by
        unfold conclut
        rw [hc]
      rw [hliv] at hfin
      exact absurd (getElem?_set_self hlt) (hfin d' side n m)
    | error x =>
      have hann : conclut d' side n m ids = .annule d' side n m ids x := by
        unfold conclut
        rw [hc]
      rw [hann]
      exact h.pose hk rfl rfl rfl rfl
  · rename_i d' side n m id0 ids x hk
    cases ha
    exact h.close hk
  · rename_i d' side n m x hk
    cases ha
    exact h.pose hk rfl rfl rfl rfl
  · cases ha

theorem livre_persiste {n : ℕ}
    (h : run (execute bout) s es = some s') (hk : s.appels[k]? = some (.livre d side n m)) :
    s'.appels[k]? = some (.livre d side n m) := by
  apply run_invariant (I := fun s => s.appels[k]? = some (.livre d side n m)) _ hk h
  intro t a t' ht hstep
  by_cases ha : a = .avance k
  · subst ha
    change t.avance k = some t' at hstep
    rw [avance, ht] at hstep
    cases hstep
  · exact appels_of_ne hstep ha ht

theorem Suivi.run (h : s.Suivi k d id e avant)
    (hrun : run (execute bout) s es = some s') (hfin : s'.appels[k]? = some (.echoue d' x))
    (hautres : ∀ t a t', Taken (execute bout) s es t a → a ≠ .avance k → t.execute bout a = some t' →
      ((t.tables d.table).Tient id e ↔ (t'.tables d.table).Tient id e)) : s'.Suivi k d id e avant := by
  induction es generalizing s with
  | nil =>
    cases hrun
    exact h
  | cons a es ih =>
    obtain ⟨s1, hs1, hrun1⟩ := bind_eq_some_iff.mp hrun
    have h1 : s1.Suivi k d id e avant := by
      by_cases ha : a = .avance k
      · subst ha
        refine h.avance hs1 fun d1 side n m hliv => ?_
        rw [livre_persiste hrun1 hliv] at hfin
        cases hfin
      · exact h.of_ne hs1 ha (hautres s a s1 ⟨[], by simp, rfl⟩ ha hs1)
    refine ih h1 hrun1 ?_
    rintro t b t' ⟨es', hp, ht⟩ hb hstep
    refine hautres t b t' ⟨a :: es', cons_prefix_cons.mpr ⟨rfl, hp⟩, ?_⟩ hb hstep
    rw [run_cons, hs1]
    exact ht

theorem suivi_commence (s : Reseau) (d : Demande) (id : HandleId) (e : Entry) :
    (s.commence bout d).Suivi s.appels.length d id e ((s.tables d.table).Tient id e) := by
  unfold commence
  split
  · exact ⟨.echoue d _, getElem?_concat_length, rfl, nofun, fun h => ⟨h, not_mem_nil⟩,
      fun hnon h => absurd h hnon⟩
  · split
    · exact ⟨.echoue d _, getElem?_concat_length, rfl, nofun, fun h => ⟨h, not_mem_nil⟩,
      fun hnon h => absurd h hnon⟩
    · exact ⟨.trouve d _, getElem?_concat_length, rfl, nofun, fun h => ⟨h, not_mem_nil⟩,
      fun hnon h => absurd h hnon⟩

end Reseau

open Reseau

/-- At every moment of every interleaving each message accepted is in one place: in the queue, or
with one receive, which goes on or has returned with it. The bytes queued are counted. And a
receive that fails changes no handle of its table: one that no other call touches since it
began is in use after it exactly if it was before. -/
theorem receptions_conservatrices (bout : ℕ → Option Bool) (tables : ℕ → HandleTable) (es : List Etape) (s : Reseau)
    (h : run (execute bout) (initial tables) es = some s) :
    (∀ side, (s.voie side).Conserve) ∧
      ∀ es₁ d es₂ s₁ d' x, es = es₁ ++ .commence d :: es₂ → run (execute bout) (initial tables) es₁ = some s₁ →
        s.appels[s₁.appels.length]? = some (.echoue d' x) → ∀ id e,
        (∀ t a t', Taken (execute bout) (s₁.commence bout d) es₂ t a → a ≠ .avance s₁.appels.length →
          t.execute bout a = some t' →
          ((t.tables d.table).Tient id e ↔ (t'.tables d.table).Tient id e)) →
        ((s₁.tables d.table).Tient id e ↔ (s.tables d.table).Tient id e) := by
  constructor
  · exact run_invariant (I := fun s => ∀ side, (s.voie side).Conserve) (fun _ _ _ => conserve_execute)
      (conserve_initial tables) h
  · rintro es₁ d es₂ s₁ d' x rfl hs₁ hfin id e hautres
    rw [run_append, hs₁] at h
    obtain ⟨p, hp, -, -, hav, hap⟩ := (suivi_commence s₁ d id e).run h hfin hautres
    obtain rfl : p = .echoue d' x := some.inj (hp.symm.trans hfin)
    constructor
    · intro ht
      exact (hav ht).1
    · intro ht
      by_contra hnon
      exact absurd (hap hnon ht) not_mem_nil

/-- A process whose first handle is the end of the channel on side `true`. -/
def receveur : HandleTable :=
  match HandleTable.empty.insertLocked (.installe (.processus 1) 0 .channelDefault) with
  | .ok (_, t) => t
  | .error _ => .empty

def memoireSaine : Usercopy := ⟨fun _ _ n => .ok (List.replicate n 0), fun _ _ _ => .ok (), fun _ _ _ => .ok ()⟩

def memoireFautive : Usercopy :=
  ⟨fun _ _ _ => .error .fault, fun _ _ _ => .error .fault, fun _ _ _ => .error .fault⟩

/-- A receive through the first handle with buffers of 64 bytes and 4 handles. -/
def recoit (u : Usercopy) : Demande := ⟨1, u, fun i => [2 ^ 32 + 1, 0x1000, 64, 0x2000, 4, 0].getD i 0⟩

def boutUnique : ℕ → Option Bool := fun o => if o = 0 then some true else none

/-- A message whose first receive fails and whose second delivers it. -/
def echange : List Etape :=
  [.envoie false ⟨[1, 2], []⟩, .commence (recoit memoireFautive), .avance 0, .avance 0, .avance 0,
    .commence (recoit memoireSaine), .avance 1, .avance 1, .avance 1, .avance 1]

theorem receptions_conservatrices_echange :
    ∃ s, run (execute boutUnique) (initial fun _ => receveur) echange = some s ∧ s.numeros true = [] ∧
      ∀ side, (s.voie side).Conserve := by
  have hrun : (run (execute boutUnique) (initial fun _ => receveur) echange).map (fun s => s.numeros true) =
      some [] := by decide
  obtain ⟨s, hs, hnum⟩ := map_eq_some_iff.mp hrun
  exact ⟨s, hs, hnum, (receptions_conservatrices _ _ _ s hs).1⟩

/-- The queue holds messages in the order in which they were accepted, and not too many. -/
structure Voie.Reguliere (v : Voie) : Prop where
  ordre : v.numeros.Pairwise (· < ·)
  suite : v.file.Sublist v.acceptes
  nombre : v.file.length ≤ maxQueuedMessages
  octets : (v.file.map fun m => m.bytes.length).sum ≤ maxQueuedBytes

theorem filterMap_getElem?_range {α : Type*} (l : List α) : (List.range l.length).filterMap (fun n => l[n]?) = l := by
  have hmap : (List.range l.length).map (fun n => l[n]?) = l.map some :=
    ext_getElem (by simp) (by simp +contextual)
  have hid := congrArg (filterMap id) hmap
  rwa [filterMap_map, filterMap_map, Function.id_comp, Function.id_comp, filterMap_some] at hid

namespace Voie

variable {v v' : Voie} {n : ℕ} {m : Message}

theorem Conserve.suite (h : v.Conserve) (hordre : v.numeros.Pairwise (· < ·)) : v.file.Sublist v.acceptes := by
  have hfile : v.file = v.numeros.filterMap fun n => v.acceptes[n]? := by
    have hmap := congrArg (List.filterMap id) h.file
    rwa [filterMap_map, filterMap_map, id_comp, id_comp, filterMap_some] at hmap
  have hrange : v.numeros.Sublist (List.range v.acceptes.length) := by
    apply sublist_of_subperm_of_pairwise _ hordre pairwise_lt_range
    apply subperm_of_subset (hordre.imp Nat.ne_of_lt)
    intro n hn
    exact mem_range.mpr (h.lt hn)
  have hsub := hrange.filterMap fun n => v.acceptes[n]?
  rw [filterMap_getElem?_range] at hsub
  rw [hfile]
  exact hsub

theorem Reguliere.suit (h : v.Reguliere) (hc : v.Conserve) (hs : v.Suit v') : v'.Reguliere := by
  cases hs with
  | calme => exact h
  | accepte m hlen hoct =>
    have hordre : (v.accepte m).numeros.Pairwise (· < ·) := by
      apply pairwise_append.mpr
      refine ⟨h.ordre, pairwise_singleton _ _, ?_⟩
      intro a ha b hb
      rw [mem_singleton.mp hb]
      exact hc.lt ha
    refine ⟨hordre, (hc.accepte m).suite hordre, ?_, ?_⟩
    · change (v.file ++ [m]).length ≤ _
      rw [length_append, length_singleton]
      exact hlen
    · rw [← (hc.accepte m).octets]
      exact hoct
  | sort m reste hm =>
    have hordre : (v.sort m reste).numeros.Pairwise (· < ·) := h.ordre.sublist (tail_sublist _)
    refine ⟨hordre, (hc.sort hm).suite hordre, ?_, ?_⟩
    · have hlen := h.nombre
      rw [hm, length_cons] at hlen
      exact (Nat.le_succ _).trans hlen
    · have hoct := h.octets
      rw [hm, map_cons, sum_cons] at hoct
      exact (Nat.le_add_left _ _).trans hoct

theorem reguliere_revient_iff (h : v.Reguliere) (hc : v.Conserve) {avec : Multiset (ℕ × Message)}
    (hp : v.avec = (n, m) ::ₘ avec) :
    (v.revient n m avec).Reguliere ↔ (∀ n' ∈ v.numeros, n < n') ∧ v.file.length < maxQueuedMessages ∧
      v.octets + m.bytes.length ≤ maxQueuedBytes := by
  constructor
  · intro h'
    refine ⟨(pairwise_cons.mp h'.ordre).1, h'.nombre, ?_⟩
    have hoct := h'.octets
    rwa [← (hc.revient hp).octets] at hoct
  · rintro ⟨hplus, hlen, hoct⟩
    have hordre : (v.revient n m avec).numeros.Pairwise (· < ·) := pairwise_cons.mpr ⟨hplus, h.ordre⟩
    refine ⟨hordre, (hc.revient hp).suite hordre, hlen, ?_⟩
    rw [← (hc.revient hp).octets]
    exact hoct

end Voie

/-- If the section puts a message back, that message was accepted before all those in the queue,
and the queue has room for it. -/
def RemiseSure (s : Reseau) (a : Etape) : Prop :=
  ∀ k d side n m x, a = .avance k → s.appels[k]? = some (.annule d side n m [] x) →
    (∀ n' ∈ s.numeros side, n < n') ∧ (s.canal.queues side).length < maxQueuedMessages ∧
      s.canal.queuedBytes side + m.bytes.length ≤ maxQueuedBytes

theorem reguliere_execute_iff {bout : ℕ → Option Bool} {s s' : Reseau} {a : Etape}
    (hc : ∀ side, (s.voie side).Conserve) (h : ∀ side, (s.voie side).Reguliere) (ha : s.execute bout a = some s') :
    (∀ side, (s'.voie side).Reguliere) ↔ RemiseSure s a := by
  obtain ⟨k, d, side, n, m, x, rfl, hk, rfl⟩ | ⟨hautre, hsuit⟩ := execute_cases ha
  · obtain ⟨hp, hv⟩ := voie_remet hk side
    rw [if_pos rfl] at hv
    have hiff := Voie.reguliere_revient_iff (h side) (hc side) (hp rfl)
    rw [← hv] at hiff
    constructor
    · intro hreg k' d' side' n' m' x' heq hk'
      cases heq
      rw [hk, some.injEq] at hk'
      cases hk'
      exact hiff.mp (hreg side)
    · intro hsure side'
      by_cases hside : side' = side
      · rw [hside]
        exact hiff.mpr (hsure k d side n m x rfl hk)
      · rw [(voie_remet hk side').2, if_neg hside]
        exact h side'
  · constructor
    · intro _ k d side n m x heq hk
      exact absurd hk (hautre k d side n m x heq)
    · intro _ side
      exact (h side).suit (hc side) (hsuit side)

/-- In every interleaving the queues keep order and limits at all times exactly when every message
that comes back is older than what is in the queue and finds room there. -/
theorem files_regulieres (bout : ℕ → Option Bool) (tables : ℕ → HandleTable) (es : List Etape) (s : Reseau)
    (h : run (execute bout) (initial tables) es = some s) :
    (∀ t, Moment (execute bout) (initial tables) es t → ∀ side, (t.voie side).Reguliere) ↔
      ∀ t a, Taken (execute bout) (initial tables) es t a → RemiseSure t a := by
  apply forall_moment_iff (I := fun t => ∀ side, (t.voie side).Conserve) (conserve_initial tables)
    (fun _ _ _ => conserve_execute) _ (fun _ _ _ => reguliere_execute_iff) h
  intro side
  exact ⟨List.Pairwise.nil, List.Sublist.refl _, Nat.zero_le _, Nat.zero_le _⟩

theorem files_regulieres_echange : (run (execute boutUnique) (initial fun _ => receveur) echange).isSome ∧
      ((∀ t, Moment (execute boutUnique) (initial fun _ => receveur) echange t → ∀ side, (t.voie side).Reguliere) ↔
        ∀ t a, Taken (execute boutUnique) (initial fun _ => receveur) echange t a → RemiseSure t a) := by
  have hrun : (run (execute boutUnique) (initial fun _ => receveur) echange).isSome = true := by decide
  obtain ⟨s, hs⟩ := isSome_iff_exists.mp hrun
  exact ⟨hrun, files_regulieres _ _ _ s hs⟩

/-- Two receives fail; the second puts its message before that of the first. And a message
that was away while another took its place is one too many. -/
theorem files_deregles : (run (execute boutUnique) (initial fun _ => receveur)
      [.envoie false ⟨[1], []⟩, .envoie false ⟨[2], []⟩, .commence (recoit memoireFautive),
        .commence (recoit memoireFautive), .avance 0, .avance 0, .avance 1, .avance 1, .avance 0,
        .avance 1]).map (fun s => ((s.canal.queues true).map Message.bytes, (s.acceptes true).map Message.bytes)) =
      some ([[2], [1]], [[1], [2]]) ∧
    (run (execute boutUnique) (initial fun _ => receveur)
      (List.replicate 64 (.envoie false ⟨[], []⟩) ++ [.commence (recoit memoireFautive), .avance 0, .avance 0,
        .envoie false ⟨[], []⟩, .avance 0])).map (fun s => (s.canal.queues true).length) = some 65 := by
  decide +kernel

end BouchaudOS.Natif
