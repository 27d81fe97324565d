import BouchaudOS.Foundations.Runs
import BouchaudOS.Natif.Appels
import BouchaudOS.Natif.Identites

/-!
# Receiving, section by section

A receive is a sequence of sections under locks of the channel and of the table of handles:
it looks at the front of the queue, takes the message out, installs the handles, and on a
failure closes them again and puts the message back. Between two sections any number of
other receives, sends and calls on the tables do theirs.

The state is one channel, the tables of handles and the receives on that channel, those
that have returned included. The messages that a side will receive are numbered in the
order in which they were accepted. The numbers are only there to be spoken about: `numeros`
gives those of the messages in the queue.
-/

namespace BouchaudOS.Natif

open List Function

/-- What a receive is called with: the table of its process, what user memory answers, and
the arguments. -/
structure Demande where
  table : ℕ
  u : Usercopy
  args : Args

/-- How far a receive is, on which side, and which message it has. -/
inductive Phase
  /-- The end of the channel is found. -/
  | trouve (d : Demande) (side : Bool)
  /-- The message in front is small enough. -/
  | pret (d : Demande) (side : Bool)
  /-- The message is out of the queue and its destinations are checked. -/
  | tient (d : Demande) (side : Bool) (n : ℕ) (m : Message)
  /-- The handles are installed. -/
  | installe (d : Demande) (side : Bool) (n : ℕ) (m : Message) (ids : List HandleId)
  /-- The receive fails; handles are to be closed, then the message is put back. -/
  | annule (d : Demande) (side : Bool) (n : ℕ) (m : Message) (ids : List HandleId) (x : Error)
  | livre (d : Demande) (side : Bool) (n : ℕ) (m : Message)
  | echoue (d : Demande) (x : Error)

structure Reseau where
  canal : ChannelInner
  numeros : Bool → List ℕ
  acceptes : Bool → List Message
  tables : ℕ → HandleTable
  appels : List Phase

/-- One section of a call, or the drop of an end of the channel. -/
inductive Etape
  | envoie (side : Bool) (m : Message)
  | ferme (side : Bool)
  | table (t : ℕ) (op : Operation)
  | commence (d : Demande)
  | avance (k : ℕ)

namespace Reseau

def initial (tables : ℕ → HandleTable) : Reseau := ⟨.new, fun _ => [], fun _ => [], tables, []⟩

def envoie (s : Reseau) (side : Bool) (m : Message) : Reseau :=
  match s.canal.send side m with
  | .error _ => s
  | .ok (_, c) =>
    { s with
      canal := c
      numeros := Function.update s.numeros (!side) (s.numeros (!side) ++ [(s.acceptes !side).length])
      acceptes := Function.update s.acceptes (!side) (s.acceptes (!side) ++ [m]) }

def ferme (s : Reseau) (side : Bool) : Reseau :=
  { s with canal := { s.canal with closed := Function.update s.canal.closed side true } }

def setTable (s : Reseau) (t : ℕ) (h : HandleTable) : Reseau :=
  { s with tables := Function.update s.tables t h }

def pose (s : Reseau) (k : ℕ) (p : Phase) : Reseau := { s with appels := s.appels.set k p }

/-- `bout` gives the side of the objects that are ends of the channel. -/
def commence (bout : ℕ → Option Bool) (s : Reseau) (d : Demande) : Reseau :=
  match (s.tables d.table).lookup (.fromRaw (d.args 0)) .read with
  | .error x => { s with appels := s.appels ++ [.echoue d x] }
  | .ok e =>
    match bout e.object with
    | none => { s with appels := s.appels ++ [.echoue d .wrongType] }
    | some side => { s with appels := s.appels ++ [.trouve d side] }

/-- `front_sizes` -/
def mesure (s : Reseau) (d : Demande) (side : Bool) : Phase :=
  match s.canal.frontSizes side with
  | .error x => .echoue d x
  | .ok needed =>
    if d.args 2 < needed.1 ∨ d.args 4 < needed.2 then
      .echoue d (System.tropPetit d.u 0 (d.args 5) needed)
    else .pret d side

/-- The tests on a message that was taken out. -/
def verifie (d : Demande) (m : Message) : Except Error Unit :=
  if d.args 2 < m.bytes.length ∨ d.args 4 < m.handles.length then
    .error (System.tropPetit d.u 7 (d.args 5) (m.bytes.length, m.handles.length))
  else System.copyoutPreflight d.u d.args m

def suite (d : Demande) (side : Bool) (n : ℕ) (m : Message) : Phase :=
  match verifie d m with
  | .ok () => .tient d side n m
  | .error x => .annule d side n m [] x

/-- `recv` -/
def prend (s : Reseau) (k : ℕ) (d : Demande) (side : Bool) : Reseau :=
  match s.canal.recv side with
  | .error x => s.pose k (.echoue d x)
  | .ok (m, c) =>
    { s.pose k (suite d side ((s.numeros side).headD 0) m) with
      canal := c
      numeros := Function.update s.numeros side (s.numeros side).tail }

/-- `insert_many` -/
def installe (s : Reseau) (k : ℕ) (d : Demande) (side : Bool) (n : ℕ) (m : Message) : Reseau :=
  match (s.tables d.table).insertMany (m.handles.map fun e => e.derive (.processus d.table) e.rights) with
  | (.error x, t) => (s.pose k (.annule d side n m [] x)).setTable d.table t
  | (.ok ids, t) => (s.pose k (.installe d side n m ids)).setTable d.table t

/-- The copies to user memory. -/
def conclut (d : Demande) (side : Bool) (n : ℕ) (m : Message) (ids : List HandleId) : Phase :=
  match System.copyout d.u d.args m ids with
  | .ok () => .livre d side n m
  | .error x => .annule d side n m ids x

/-- `requeue_front` -/
def remet (s : Reseau) (k : ℕ) (d : Demande) (side : Bool) (n : ℕ) (m : Message) (x : Error) : Reseau :=
  { s.pose k (.echoue d x) with
    canal := s.canal.requeueFront side m
    numeros := Function.update s.numeros side (n :: s.numeros side) }

/-- The next section of a receive. -/
def avance (s : Reseau) (k : ℕ) : Option Reseau :=
  match s.appels[k]? with
  | some (.trouve d side) => some (s.pose k (s.mesure d side))
  | some (.pret d side) => some (s.prend k d side)
  | some (.tient d side n m) => some (s.installe k d side n m)
  | some (.installe d side n m ids) => some (s.pose k (conclut d side n m ids))
  | some (.annule d side n m (id :: ids) x) =>
    some ((s.pose k (.annule d side n m ids x)).setTable d.table ((s.tables d.table).close id))
  | some (.annule d side n m [] x) => some (s.remet k d side n m x)
  | _ => none

def execute (bout : ℕ → Option Bool) (s : Reseau) : Etape → Option Reseau
  | .envoie side m => some (s.envoie side m)
  | .ferme side => some (s.ferme side)
  | .table t op => some (s.setTable t (Journal.execute ⟨s.tables t, []⟩ op).table)
  | .commence d => some (s.commence bout d)
  | .avance k => s.avance k

end Reseau

/-- The message that a receive has, or has delivered, with its side and its number. -/
def Phase.porte : Phase → Option (Bool × ℕ × Message)
  | .tient _ side n m | .installe _ side n m _ | .annule _ side n m _ _ | .livre _ side n m => some (side, n, m)
  | _ => none

def portes (l : List Phase) : Multiset (Bool × ℕ × Message) := (l.map fun p => (p.porte.toList : Multiset _)).sum

theorem portes_append (l : List Phase) (p : Phase) : portes (l ++ [p]) = portes l + p.porte.toList := by
  simp [portes]

theorem portes_set {l : List Phase} {k : ℕ} {p : Phase} (h : l[k]? = some p) (p' : Phase) :
    portes (l.set k p') + p.porte.toList = portes l + p'.porte.toList :=
  Bags.sum_map_set (fun p : Phase => (p.porte.toList : Multiset (Bool × ℕ × Message))) h p'

theorem portes_set_of_eq {l : List Phase} {k : ℕ} {p p' : Phase} (h : l[k]? = some p) (hp : p'.porte = p.porte) :
    portes (l.set k p') = portes l := by
  have hset := portes_set h p'
  rw [hp] at hset
  exact add_right_cancel hset

def recus (l : Multiset (Bool × ℕ × Message)) (side : Bool) : Multiset (ℕ × Message) :=
  l.filterMap fun x => if x.1 = side then some x.2 else none

theorem recus_cons (l : Multiset (Bool × ℕ × Message)) (side side' : Bool) (x : ℕ × Message) :
    recus ((side, x) ::ₘ l) side' = if side' = side then x ::ₘ recus l side' else recus l side' := by
  split_ifs with h
  · exact Multiset.filterMap_cons_some _ _ _ (by simp [h])
  · exact Multiset.filterMap_cons_none _ _ (by simp [Ne.symm h])

/-- One direction of the channel: its queue, the bytes counted in it, the numbers of its
messages, all the messages accepted, and those that are with receives. -/
@[ext] structure Voie where
  file : List Message
  octets : ℕ
  numeros : List ℕ
  acceptes : List Message
  avec : Multiset (ℕ × Message)

def Reseau.voie (s : Reseau) (side : Bool) : Voie where
  file := s.canal.queues side
  octets := s.canal.queuedBytes side
  numeros := s.numeros side
  acceptes := s.acceptes side
  avec := recus (portes s.appels) side

namespace Voie

def accepte (v : Voie) (m : Message) : Voie :=
  { v with
    file := v.file ++ [m]
    octets := v.octets + m.bytes.length
    numeros := v.numeros ++ [v.acceptes.length]
    acceptes := v.acceptes ++ [m] }

/-- The message in front is taken out; `reste` is behind it. -/
def sort (v : Voie) (m : Message) (reste : List Message) : Voie :=
  { v with
    file := reste
    octets := v.octets - m.bytes.length
    numeros := v.numeros.tail
    avec := (v.numeros.headD 0, m) ::ₘ v.avec }

/-- A message comes back; `avec` are the others that are with receives. -/
def revient (v : Voie) (n : ℕ) (m : Message) (avec : Multiset (ℕ × Message)) : Voie :=
  { v with
    file := m :: v.file
    octets := v.octets + m.bytes.length
    numeros := n :: v.numeros
    avec := avec }

/-- What the sections do to a direction, other than putting a message back. -/
inductive Suit (v : Voie) : Voie → Prop
  | calme : Suit v v
  | accepte (m : Message) (hlen : v.file.length < maxQueuedMessages)
      (hoct : v.octets + m.bytes.length ≤ maxQueuedBytes) : Suit v (v.accepte m)
  | sort (m : Message) (reste : List Message) (hm : v.file = m :: reste) : Suit v (v.sort m reste)

end Voie

namespace Reseau

variable {bout : ℕ → Option Bool} {s s' : Reseau} {k : ℕ} {d : Demande} {side : Bool} {n : ℕ} {m : Message}
  {p p' : Phase}

theorem voie_pose (h : s.appels[k]? = some p) (hp : p'.porte = p.porte) (side : Bool) :
    (s.pose k p').voie side = s.voie side := by
  have hset : portes (s.pose k p').appels = portes s.appels := portes_set_of_eq h hp
  ext1
  · rfl
  · rfl
  · rfl
  · rfl
  · change recus _ side = recus _ side
    rw [hset]

theorem suit_of_pose (h : s.appels[k]? = some p) (hp : p'.porte = p.porte) (side : Bool) :
    (s.voie side).Suit ((s.pose k p').voie side) := by
  rw [voie_pose h hp]
  exact .calme

theorem suit_envoie (s : Reseau) (side : Bool) (m : Message) (side' : Bool) :
    (s.voie side').Suit ((s.envoie side m).voie side') := by
  unfold envoie
  cases h : s.canal.send side m with
  | error x => exact .calme
  | ok r =>
    unfold ChannelInner.send at h
    split_ifs at h with hclosed hplein
    cases h
    obtain ⟨hlen, hoct⟩ := not_or.mp hplein
    by_cases hside : side' = !side
    · subst hside
      have hv := @Voie.Suit.accepte (s.voie !side) m (not_le.mp hlen) (not_lt.mp hoct)
      simpa [voie, Voie.accepte] using hv
    · have hv : (s.voie side').Suit (s.voie side') := .calme
      simpa [voie, hside] using hv

theorem portes_prise (h : s.appels[k]? = some p) (hp : p.porte = none)
    (hp' : p'.porte = some (side, n, m)) : portes (s.appels.set k p') = (side, n, m) ::ₘ portes s.appels := by
  have hset := portes_set h p'
  rw [hp, hp', Option.toList_none, Option.toList_some, Multiset.coe_nil, add_zero, Multiset.coe_singleton] at hset
  rw [hset, add_comm, Multiset.singleton_add]

theorem porte_mesure (s : Reseau) (d : Demande) (side : Bool) : (s.mesure d side).porte = none := by
  unfold mesure
  split
  · rfl
  · split_ifs <;> rfl

theorem porte_suite (d : Demande) (side : Bool) (n : ℕ) (m : Message) : (suite d side n m).porte = some (side, n, m) := by
  unfold suite
  split <;> rfl

theorem porte_conclut (d : Demande) (side : Bool) (n : ℕ) (m : Message) (ids : List HandleId) :
    (conclut d side n m ids).porte = some (side, n, m) := by
  unfold conclut
  split <;> rfl

theorem suit_prend (h : s.appels[k]? = some (.pret d side)) (side' : Bool) :
    (s.voie side').Suit ((s.prend k d side).voie side') := by
  unfold prend
  cases hr : s.canal.recv side with
  | error x => exact @suit_of_pose s k _ (.echoue d x) h rfl side'
  | ok r =>
    obtain ⟨m, c⟩ := r
    have hp := portes_prise h rfl (porte_suite d side ((s.numeros side).headD 0) m)
    unfold ChannelInner.recv at hr
    split at hr
    · rename_i m' reste hq
      cases hr
      by_cases hside : side' = side
      · subst hside
        have hv := @Voie.Suit.sort (s.voie side') m reste hq
        convert hv using 1
        ext1
        · exact update_self _ _ _
        · exact update_self _ _ _
        · exact update_self _ _ _
        · rfl
        · change recus (portes (s.appels.set k _)) side' = _
          rw [hp, recus_cons, if_pos rfl]
          rfl
      · have hv : (s.voie side').Suit (s.voie side') := .calme
        convert hv using 1
        ext1
        · exact update_of_ne hside _ _
        · exact update_of_ne hside _ _
        · exact update_of_ne hside _ _
        · rfl
        · change recus (portes (s.appels.set k _)) side' = _
          rw [hp, recus_cons, if_neg hside]
          rfl
    · split_ifs at hr

theorem suit_installe (h : s.appels[k]? = some (.tient d side n m)) (side' : Bool) :
    (s.voie side').Suit ((s.installe k d side n m).voie side') := by
  unfold installe
  split
  · exact @suit_of_pose s k _ (.annule d side n m [] _) h rfl side'
  · exact @suit_of_pose s k _ (.installe d side n m _) h rfl side'

theorem suit_commence (bout : ℕ → Option Bool) (s : Reseau) (d : Demande) (side : Bool) :
    (s.voie side).Suit ((s.commence bout d).voie side) := by
  have hcalme : ∀ p : Phase, p.porte = none →
      (s.voie side).Suit (({ s with appels := s.appels ++ [p] } : Reseau).voie side) := by
    intro p hp
    have hv : ({ s with appels := s.appels ++ [p] } : Reseau).voie side = s.voie side := by
      simp [voie, portes_append, hp]
    rw [hv]
    exact .calme
  unfold commence
  split
  · exact hcalme _ rfl
  · split
    · exact hcalme _ rfl
    · exact hcalme _ rfl

/-- Putting a message back touches its direction only. -/
theorem voie_remet {x : Error} (h : s.appels[k]? = some (.annule d side n m [] x)) (side' : Bool) :
    (side' = side → (s.voie side').avec = (n, m) ::ₘ ((s.remet k d side n m x).voie side').avec) ∧
    (s.remet k d side n m x).voie side' =
      if side' = side then (s.voie side').revient n m ((s.remet k d side n m x).voie side').avec
      else s.voie side' := by
  have hp : portes s.appels = (side, n, m) ::ₘ portes (s.appels.set k (.echoue d x)) := by
    have hset := portes_set h (.echoue d x)
    simp only [Phase.porte, Option.toList_none, Option.toList_some, Multiset.coe_nil, add_zero,
      Multiset.coe_singleton] at hset
    rw [← hset, add_comm, Multiset.singleton_add]
  have havec : (s.voie side').avec = recus ((side, n, m) ::ₘ portes (s.appels.set k (.echoue d x))) side' := by
    rw [← hp]
    rfl
  rw [recus_cons] at havec
  by_cases hside : side' = side
  · rw [if_pos hside] at havec ⊢
    refine ⟨fun _ => havec, ?_⟩
    subst hside
    ext1
    · exact update_self _ _ _
    · exact update_self _ _ _
    · exact update_self _ _ _
    · rfl
    · rfl
  · rw [if_neg hside] at havec ⊢
    refine ⟨fun h => absurd h hside, ?_⟩
    ext1
    · exact update_of_ne hside _ _
    · exact update_of_ne hside _ _
    · exact update_of_ne hside _ _
    · rfl
    · exact havec.symm

/-- A section either puts a message back or does something harmless to each direction. -/
theorem execute_cases {a : Etape} (h : s.execute bout a = some s') :
    (∃ k d side n m x, a = .avance k ∧ s.appels[k]? = some (.annule d side n m [] x) ∧
      s' = s.remet k d side n m x) ∨
    ((∀ k d side n m x, a = .avance k → s.appels[k]? ≠ some (.annule d side n m [] x)) ∧
      ∀ side, (s.voie side).Suit (s'.voie side)) := by
  cases a with
  | envoie side m =>
    cases h
    exact .inr ⟨nofun, suit_envoie s side m⟩
  | ferme side =>
    cases h
    exact .inr ⟨nofun, fun _ => .calme⟩
  | table t op =>
    cases h
    exact .inr ⟨nofun, fun _ => .calme⟩
  | commence d =>
    cases h
    exact .inr ⟨nofun, suit_commence bout s d⟩
  | avance k =>
    change s.avance k = some s' at h
    unfold avance at h
    have hautre : ∀ p, s.appels[k]? = some p → (∀ d side n m x, p ≠ .annule d side n m [] x) →
        ∀ k' d side n m x, Etape.avance k = .avance k' → s.appels[k']? ≠ some (.annule d side n m [] x) := by
      rintro p hp hne k' d side n m x hk heq
      cases hk
      exact hne d side n m x (Option.some.inj (hp.symm.trans heq))
    split at h
    · rename_i d side hk
      cases h
      exact .inr ⟨hautre _ hk nofun, suit_of_pose hk (porte_mesure s d side)⟩
    · rename_i d side hk
      cases h
      exact .inr ⟨hautre _ hk nofun, suit_prend hk⟩
    · rename_i d side n m hk
      cases h
      exact .inr ⟨hautre _ hk nofun, suit_installe hk⟩
    · rename_i d side n m ids hk
      cases h
      exact .inr ⟨hautre _ hk nofun, suit_of_pose hk (porte_conclut d side n m ids)⟩
    · rename_i d side n m id ids x hk
      cases h
      exact .inr ⟨hautre _ hk nofun, @suit_of_pose s k _ (.annule d side n m ids x) hk rfl⟩
    · rename_i d side n m x hk
      cases h
      exact .inl ⟨k, d, side, n, m, x, rfl, hk, rfl⟩
    · cases h

end Reseau

namespace Voie

/-- Every message accepted is once in the queue or once with a receive, the bytes in the queue
are counted, and the numbers do not lie. -/
structure Conserve (v : Voie) : Prop where
  places : (v.numeros : Multiset ℕ) + v.avec.map Prod.fst = Multiset.range v.acceptes.length
  file : v.file.map some = v.numeros.map fun n => v.acceptes[n]?
  tenus : ∀ n m, (n, m) ∈ v.avec → v.acceptes[n]? = some m
  octets : v.octets = (v.file.map fun m => m.bytes.length).sum

variable {v v' : Voie} {n : ℕ} {m : Message}

theorem Conserve.lt (h : v.Conserve) (hn : n ∈ v.numeros) : n < v.acceptes.length := by
  have hin : n ∈ (v.numeros : Multiset ℕ) + v.avec.map Prod.fst := Multiset.mem_add.mpr (.inl hn)
  rwa [h.places, Multiset.mem_range] at hin

theorem Conserve.accepte (h : v.Conserve) (m : Message) : (v.accepte m).Conserve := by
  constructor
  · change ((v.numeros ++ [v.acceptes.length] : List ℕ) : Multiset ℕ) + v.avec.map Prod.fst =
      Multiset.range (v.acceptes ++ [m]).length
    rw [length_append, length_singleton, Multiset.range_succ, ← h.places, ← Multiset.coe_add,
      Multiset.coe_singleton, add_right_comm, add_comm, Multiset.singleton_add]
  · change (v.file ++ [m]).map some = (v.numeros ++ [v.acceptes.length]).map fun n => (v.acceptes ++ [m])[n]?
    rw [map_append, map_append, h.file]
    congr 1
    · apply map_congr_left
      intro n hn
      rw [getElem?_append_left (h.lt hn)]
    · simp
  · intro n x hx
    have hn := h.tenus n x hx
    change (v.acceptes ++ [m])[n]? = some x
    rw [List.getElem?_append_left (List.getElem?_eq_some_iff.mp hn).1, hn]
  · change v.octets + m.bytes.length = ((v.file ++ [m]).map fun m => m.bytes.length).sum
    rw [h.octets]
    simp

theorem Conserve.sort (h : v.Conserve) {reste : List Message} (hm : v.file = m :: reste) :
    (v.sort m reste).Conserve := by
  -- the head of the queue and its number go together
  have hfile := h.file
  rw [hm] at hfile
  obtain ⟨n, ns, hnum⟩ : ∃ n ns, v.numeros = n :: ns := by
    cases hl : v.numeros with
    | nil => simp [hl] at hfile
    | cons n ns => exact ⟨n, ns, rfl⟩
  rw [hnum, map_cons, map_cons, List.cons.injEq] at hfile
  constructor
  · change ((v.numeros.tail : List ℕ) : Multiset ℕ) + ((v.numeros.headD 0, m) ::ₘ v.avec).map Prod.fst =
      Multiset.range v.acceptes.length
    rw [← h.places, hnum, tail_cons, headD_cons, Multiset.map_cons, ← Multiset.cons_coe,
      Multiset.add_cons, Multiset.cons_add]
  · change reste.map some = v.numeros.tail.map fun n => v.acceptes[n]?
    rw [hnum]
    exact hfile.2
  · intro n' m' hx
    change (n', m') ∈ (v.numeros.headD 0, m) ::ₘ v.avec at hx
    rw [hnum, headD_cons] at hx
    rcases Multiset.mem_cons.mp hx with heq | hx
    · cases heq
      exact hfile.1.symm
    · exact h.tenus n' m' hx
  · change v.octets - m.bytes.length = (reste.map fun m => m.bytes.length).sum
    rw [h.octets, hm]
    simp

theorem Conserve.revient (h : v.Conserve) {avec : Multiset (ℕ × Message)} (hp : v.avec = (n, m) ::ₘ avec) :
    (v.revient n m avec).Conserve := by
  have hm := h.tenus n m (by rw [hp]; exact Multiset.mem_cons_self _ _)
  constructor
  · change ((n :: v.numeros : List ℕ) : Multiset ℕ) + avec.map Prod.fst = Multiset.range v.acceptes.length
    rw [← h.places, hp, Multiset.map_cons, ← Multiset.cons_coe, Multiset.cons_add, Multiset.add_cons]
  · change (m :: v.file).map some = (n :: v.numeros).map fun n => v.acceptes[n]?
    rw [map_cons, map_cons, h.file, hm]
  · intro n' m' hx
    apply h.tenus
    rw [hp]
    exact Multiset.mem_cons_of_mem hx
  · change v.octets + m.bytes.length = ((m :: v.file).map fun m => m.bytes.length).sum
    rw [h.octets, map_cons, sum_cons, add_comm]

theorem Conserve.suit (h : v.Conserve) (hs : v.Suit v') : v'.Conserve := by
  cases hs with
  | calme => exact h
  | accepte m hlen hoct => exact h.accepte m
  | sort m reste hm => exact h.sort hm

end Voie

namespace Reseau

variable {bout : ℕ → Option Bool} {s s' : Reseau}

theorem conserve_execute {a : Etape} (h : ∀ side, (s.voie side).Conserve) (ha : s.execute bout a = some s')
    (side : Bool) : (s'.voie side).Conserve := by
  obtain ⟨k, d, side', n, m, x, rfl, hk, rfl⟩ | ⟨-, hsuit⟩ := execute_cases ha
  · obtain ⟨hp, hv⟩ := voie_remet hk side
    rw [hv]
    split_ifs with hside
    · exact (h side).revient (hp hside)
    · exact h side
  · exact (h side).suit (hsuit side)

theorem conserve_initial (tables : ℕ → HandleTable) (side : Bool) : ((initial tables).voie side).Conserve :=
  ⟨rfl, rfl, nofun, rfl⟩

end Reseau

end BouchaudOS.Natif
