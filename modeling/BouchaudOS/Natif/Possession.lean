import BouchaudOS.Foundations.Acyclic
import BouchaudOS.Foundations.Runs
import BouchaudOS.Natif.Attenuation

/-!
# Who keeps whom alive

Objects are counted references (`object.rs`, `waitset.rs`, `ipc/channel.rs`): a handle, a
queued message and a wait set each keep an object, an end of a channel keeps the state of
the channel, and the state keeps the messages queued in it. An object is dropped when
nothing keeps it.

A send refuses the ends of the channel it goes through, and a wait set refuses wait sets.
Neither looks further, so that two channels can each carry an end of the other.
-/

namespace BouchaudOS.Natif

open Relation List Function System ChannelInner

/-- The system with what each wait set watches: pairs of a key and an object. -/
structure Noyau where
  sys : System
  watches : ℕ → List (ℕ × ℕ)

namespace Noyau

def vide : Noyau := ⟨.vide, fun _ => []⟩

variable (n : Noyau)

/-- A handle, a queued message or a wait set refers to an object with the property. -/
def refere (p : ℕ → Bool) : Bool :=
  0 < n.sys.prises.countP (fun x => p x.2.object = true) ||
    (List.range n.sys.objects.length).any fun w => (n.watches w).any fun x => p x.2

/-- The object is this end of channel `c`. -/
def estExtremite (c : ℕ) (side : Bool) (o : ℕ) : Bool :=
  n.sys.object o = some (.channel c side)

/-- `Drop` of the ends of channel `c` that nothing refers to, and of the queues with the
second end. -/
def lache (c : ℕ) : Noyau :=
  let k := n.sys.channel c
  let closed := fun side => k.closed side || !n.refere (n.estExtremite c side)
  { n with
    sys := n.sys.setChannel c
      { k with
        closed := closed
        queues := if closed false && closed true then fun _ => [] else k.queues } }

def lacheVeille (w : ℕ) : Noyau :=
  if n.refere (· = w) then n else { n with watches := Function.update n.watches w [] }

/-- The wait set and the object of a `WAITSET_ADD` that `WaitSet::add` accepts. -/
def cibleVeille (pid ws cible key : ℕ) : Except Error (ℕ × ℕ) := do
  let waitset ← n.sys.lookupKind pid (.fromRaw ws) .write .waitSet
  let target ← (n.sys.tableFor pid).lookup (.fromRaw cible) .wait
  if n.sys.object target.object = some .waitSet then .error .wrongType
  else if (n.watches waitset.object).any (fun x => x.1 = key) then .error .invalidArgument
  else .ok (waitset.object, target.object)

/-- `WAITSET_ADD`. -/
def waitsetAdd (pid ws cible key : ℕ) : Except Error (ℕ × Noyau) := do
  let (w, o) ← n.cibleVeille pid ws cible key
  return (0, { n with watches := Function.update n.watches w (n.watches w ++ [(key, o)]) })

/-- `WAITSET_REMOVE`, with `WaitSet::remove`. -/
def waitsetRemove (pid ws key : ℕ) : Except Error (ℕ × Noyau) := do
  let waitset ← n.sys.lookupKind pid (.fromRaw ws) .write .waitSet
  let reste := (n.watches waitset.object).filter fun x => x.1 ≠ key
  if reste.length = (n.watches waitset.object).length then .error .notFound
  else .ok (0, { n with watches := Function.update n.watches waitset.object reste })

end Noyau

/-- A native call, or a drop. -/
inductive Action
  | appel (a : Appel)
  | waitsetAdd (pid ws cible key : ℕ)
  | waitsetRemove (pid ws key : ℕ)
  | lacheVeille (w : ℕ)

namespace Noyau

def rend (n : Noyau) : Except Error (ℕ × Noyau) → Noyau
  | .error _ => n
  | .ok (_, n') => n'

def execute (n : Noyau) : Action → Noyau
  | .appel (.lache c) => n.lache c
  | .appel a => { n with sys := (n.sys.execute a).2 }
  | .waitsetAdd pid ws cible key => n.rend (n.waitsetAdd pid ws cible key)
  | .waitsetRemove pid ws key => n.rend (n.waitsetRemove pid ws key)
  | .lacheVeille w => n.lacheVeille w

def joue (actions : List Action) : Noyau := actions.foldl execute vide

end Noyau

inductive Noeud
  | canal (c : ℕ)
  | objet (o : ℕ)
  deriving DecidableEq

/-- What keeps what alive. -/
inductive Noyau.Possede (n : Noyau) : Noeud → Noeud → Prop
  | file {c : ℕ} {side : Bool} {m : Message} {e : Entry} (hm : m ∈ (n.sys.channel c).queues side)
      (he : e ∈ m.handles) : Possede n (.canal c) (.objet e.object)
  | extremite {o c : ℕ} {side : Bool} (h : n.sys.object o = some (.channel c side)) :
      Possede n (.objet o) (.canal c)
  | veille {w : ℕ} {x : ℕ × ℕ} (h : x ∈ n.watches w) : Possede n (.objet w) (.objet x.2)

namespace System

/-- The end that a send goes through, and the message. -/
def envoi (s : System) (pid : ℕ) (u : Usercopy) (args : Args) (masquesPtr : ℕ) :
    Except Error (ℕ × Bool × Message) := do
  let (bytes, demandes) ← lisEnvoi u args masquesPtr
  let endpoint ← s.lookupKind pid (.fromRaw (args 0)) .write .channel
  let transferred ← s.exporteMessage (s.tableFor pid) endpoint demandes
  match s.object endpoint.object with
  | some (.channel c side) => return (c, side, ⟨bytes, transferred⟩)
  | _ => .error .wrongType

/-- The links of a send that the channel accepts: from the channel to every object of the
message. -/
def liens (s : System) (pid : ℕ) (u : Usercopy) (args : Args) (masquesPtr : ℕ) : List (Noeud × ℕ) :=
  match s.envoi pid u args masquesPtr with
  | .error _ => []
  | .ok (c, side, m) =>
    match (s.channel c).send side m with
    | .error _ => []
    | .ok _ => m.handles.map fun e => (.canal c, e.object)

end System

namespace Noyau

variable (n : Noyau)

/-- The link of a wait set to what it is told to watch. -/
def lienVeille (pid ws cible key : ℕ) : List (Noeud × ℕ) :=
  match n.cibleVeille pid ws cible key with
  | .error _ => []
  | .ok (w, o) => [(.objet w, o)]

/-- The links to existing objects that a step adds. -/
def ajouts : Action → List (Noeud × ℕ)
  | .appel (.channelSend pid u args) => n.sys.liens pid u args 0
  | .appel (.channelSendAttenue pid u args) => n.sys.liens pid u args (args 5)
  | .waitsetAdd pid ws cible key => n.lienVeille pid ws cible key
  | _ => []

/-- Nothing that the step starts to keep keeps, by whatever way, what keeps it. -/
def SansBoucle (a : Action) : Prop :=
  ∀ x ∈ n.ajouts a, ¬ ReflTransGen n.Possede (.objet x.2) x.1

def SansPoignee : Prop := ∀ row ∈ n.sys.registry, row.2.entries = 0

def Repos : Prop := (∀ c, n.lache c = n) ∧ ∀ w, n.lacheVeille w = n

def ToutLache : Prop := ∀ k ∈ n.sys.channels, ∀ side, k.closed side = true

end Noyau

/-- Channels and objects are added, and no queue holds a message it did not hold. -/
structure System.Etend (s s' : System) : Prop where
  files : ∀ c side, ∀ m ∈ (s'.channel c).queues side, m ∈ (s.channel c).queues side
  canaux : s.channels.length ≤ s'.channels.length
  objets : s.objects <+: s'.objects
  extremites : ∀ o c side, s'.object o = some (.channel c side) →
    s.object o = some (.channel c side) ∨ c < s'.channels.length

namespace System

variable {s s' s'' : System} {pid c : ℕ} {side : Bool} {m : Message} {o : Object} {r : Rights} {id : HandleId}

theorem Etend.refl (s : System) : Etend s s where
  files := fun _ _ _ h => h
  canaux := le_rfl
  objets := prefix_rfl
  extremites := fun _ _ _ h => .inl h

theorem Etend.trans (h : Etend s s') (h' : Etend s' s'') : Etend s s'' where
  files := fun c side m hm => h.files c side m (h'.files c side m hm)
  canaux := h.canaux.trans h'.canaux
  objets := h.objets.trans h'.objets
  extremites := by
    intro o c side ho
    rcases h'.extremites o c side ho with ho' | hlt
    · rcases h.extremites o c side ho' with ho | hlt
      · exact .inl ho
      · exact .inr (hlt.trans_le h'.canaux)
    · exact .inr hlt

theorem Etend.of_eq (hc : s'.channels = s.channels) (ho : s'.objects = s.objects) : Etend s s' := by
  obtain ⟨registre, objets, canaux⟩ := s'
  subst hc ho
  exact ⟨fun _ _ _ h => h, le_rfl, prefix_rfl, fun _ _ _ h => .inl h⟩

theorem Etend.of_sys (h : s' = s) : Etend s s' := h ▸ .refl s'

theorem channel_setChannel (s : System) (c : ℕ) (k : ChannelInner) (d : ℕ) : (s.setChannel c k).channel d =
      if d = c ∧ c < s.channels.length then k else s.channel d := by
  unfold channel setChannel
  rw [getD_eq_getElem?_getD, getD_eq_getElem?_getD, getElem?_set]
  split_ifs <;> simp_all

variable {k : ChannelInner}

theorem etend_setChannel (h : ∀ side, ∀ m ∈ k.queues side, m ∈ (s'.channel c).queues side ∨
      m ∈ (s.channel c).queues side) (he : Etend s s') : Etend s (s'.setChannel c k) where
  files := by
    intro d side m hm
    rw [channel_setChannel] at hm
    split_ifs at hm with hd
    · rw [hd.1]
      rcases h side m hm with hm | hm
      · exact he.files c side m hm
      · exact hm
    · exact he.files d side m hm
  canaux := by simpa [setChannel] using he.canaux
  objets := he.objets
  extremites := by simpa [setChannel, object] using he.extremites

/-- The queues of a channel are kept or dropped. -/
theorem etend_vide {octets : Bool → ℕ} {closed : Bool → Bool} {p : Prop} [Decidable p] : Etend s (s.setChannel c
    ⟨if p then fun _ => [] else (s.channel c).queues, octets, closed⟩) := by
  refine etend_setChannel ?_ (.refl s)
  intro side m hm
  split_ifs at hm
  · cases hm
  · exact .inl hm

theorem etend_install (h : s.install pid o r = .ok (id, s'))
    (ho : ∀ c side, o = .channel c side → c < s.channels.length) : Etend s s' := by
  unfold install at h
  split at h
  · cases h
  · cases h
    refine ⟨fun _ _ _ h => h, le_rfl, prefix_append _ _, ?_⟩
    intro i c side hi
    simp only [object, getElem?_append, setTable] at hi ⊢
    split_ifs at hi
    · exact .inl hi
    · obtain ⟨x, hx, hxo⟩ := Option.map_eq_some_iff.mp hi
      obtain rfl := mem_singleton.mp (mem_of_getElem? hx)
      exact .inr (ho c side hxo)

theorem etend_canal (s : System) : Etend s { s with channels := s.channels ++ [new] } := by
  refine ⟨?_, by simp, prefix_rfl, fun _ _ _ h => .inl h⟩
  intro c side m hm
  simp only [channel, getD_eq_getElem?_getD, getElem?_append] at hm ⊢
  split_ifs at hm
  · exact hm
  · cases hc : c - s.channels.length <;> simp [hc, new] at hm

theorem etend_requeueFront (h : Etend s s') (hm : m ∈ (s.channel c).queues side) :
    Etend s (s'.requeueFront c side m) := by
  refine etend_setChannel ?_ h
  intro side' m' hm'
  by_cases hside : side' = side
  · subst hside
    simp only [ChannelInner.requeueFront, update_self, mem_cons] at hm'
    rcases hm' with rfl | hm'
    · exact .inr hm
    · exact .inl hm'
  · simp only [ChannelInner.requeueFront, update_of_ne hside] at hm'
    exact .inl hm'

/-- A received message leaves its queue, or goes back to it. -/
theorem etend_livre {u : Usercopy} {args : Args} (h : (s.channel c).recv side = .ok (m, k)) :
    Etend s ((s.setChannel c k).livre pid c side m u args).2 := by
  unfold recv at h
  split at h
  · rename_i m' reste hq
    cases h
    have hm : m ∈ (s.channel c).queues side := hq ▸ mem_cons_self
    have hset : ∀ octets, Etend s (s.setChannel c
        ⟨Function.update (s.channel c).queues side reste, octets, (s.channel c).closed⟩) := by
      intro octets
      refine etend_setChannel (fun side' m' hm' => .inr ?_) (.refl s)
      exact Bags.update_subset (hq ▸ subset_cons_self _ _) side' hm'
    unfold livre
    split_ifs
    · exact etend_requeueFront (hset _) hm
    split
    · exact etend_requeueFront (hset _) hm
    split
    · exact etend_requeueFront ((hset _).trans (.of_eq rfl rfl)) hm
    split
    · exact etend_requeueFront ((hset _).trans (.of_eq rfl rfl)) hm
    · exact (hset _).trans (.of_eq rfl rfl)
  · split_ifs at h

theorem regle_etend : Regle Etend where
  refl := .refl
  trans := .trans
  install := etend_install
  canal := etend_canal
  close _ _ _ := .of_eq rfl rfl
  dup _ := .of_eq rfl rfl
  livre _ _ _ := etend_livre
  mort _ _ := .of_eq rfl rfl
  lache _ _ := etend_vide

theorem etend_execute (s : System) {a : Appel} (ha : ∀ pid u args, a ≠ .channelSend pid u args)
    (ha' : ∀ pid u args, a ≠ .channelSendAttenue pid u args) : Etend s (s.execute a).2 := by
  refine regle_etend.execute s ?_ ?_
  · rintro pid u args ptr (rfl | rfl)
    · exact absurd rfl (ha pid u args)
    · exact absurd rfl (ha' pid u args)
  · rintro pid u args lancement -
    refine regle_etend.processSpawn s pid u args lancement fun path demandes xs fils _ _ => ?_
    unfold prepare
    split <;> exact .of_eq rfl rfl

end System

variable {x : Prise}

theorem Vue.Fondee.object_lt {s : System} (h : s.vue.Fondee) (hx : x ∈ s.prises) :
    x.2.object < s.objects.length := by
  obtain ⟨_, r, -, hr⟩ := (h x hx).racine
  have := (List.getElem?_eq_some_iff.mp hr).1
  simpa [vue] using this

/-- A handle is in a table or in a queued message. -/
theorem System.mem_prises_iff {s : System} : x ∈ s.prises ↔ (∃ row ∈ s.registry, x ∈ row.2.prises row.1) ∨
      ∃ c side, ∃ m ∈ (s.channel c).queues side, ∃ e ∈ m.handles, x = (.message, e) := by
  have hfile : ∀ l : List Message, x ∈ prisesFile l ↔ ∃ m ∈ l, ∃ e ∈ m.handles, x = (.message, e) := by
    intro l
    simp [prisesFile, Bags.mem_sum_map, Message.prises, eq_comm]
  have hcanal : ∀ k : ChannelInner, x ∈ k.prises ↔
      ∃ side, ∃ m ∈ k.queues side, ∃ e ∈ m.handles, x = (.message, e) := by
    intro k
    rw [ChannelInner.prises, Multiset.mem_add, hfile, hfile, Bool.exists_bool]
  rw [prises, Multiset.mem_add, Bags.mem_sum_map, Bags.mem_sum_map]
  apply or_congr_right
  constructor
  · rintro ⟨k, hk, hx⟩
    obtain ⟨c, hc, rfl⟩ := mem_iff_getElem.mp hk
    refine ⟨c, ?_⟩
    rw [channel, getD_eq_getElem _ _ hc]
    exact (hcanal _).mp hx
  · rintro ⟨c, side, m, hm, hx⟩
    rcases channel_cases s c with hc | ⟨hn, -⟩
    · exact ⟨_, mem_of_getElem? hc, (hcanal _).mpr ⟨side, m, hm, hx⟩⟩
    · simp [hn, new] at hm

namespace System

variable {s s' : System} {pid c : ℕ} {u : Usercopy} {args : Args} {ptr : ℕ} {side : Bool} {m : Message}

theorem lookupKind_ok {id : HandleId} {required : Rights} {kind : ObjectKind} {e : Entry}
    (h : s.lookupKind pid id required kind = .ok e) :
    e ∈ (s.tableFor pid).entries ∧ e.rights.contains required = true := by
  obtain ⟨e', he', h⟩ := ok_of_bind h
  split at h
  · cases h
  · obtain ⟨_, -, h⟩ := ok_of_bind h
    cases h
    exact HandleTable.lookup_ok he'

theorem channelSend_eq (s : System) (pid : ℕ) (u : Usercopy) (args : Args) (ptr : ℕ) :
    s.channelSendAvecMasques pid u args ptr = do
      let x ← s.envoi pid u args ptr
      let r ← (s.channel x.1).send x.2.1 x.2.2
      return (r.1, s.setChannel x.1 r.2) := by
  unfold channelSendAvecMasques envoi
  simp only [bind_assoc]
  congr 1
  funext x
  congr 1
  funext endpoint
  congr 1
  funext transferred
  rcases s.object endpoint.object with _ | o
  · rfl
  · cases o <;> rfl

theorem envoi_ok (h : s.envoi pid u args ptr = .ok (c, side, m)) :
    ∃ o, s.object o = some (.channel c side) := by
  obtain ⟨_, -, h⟩ := ok_of_bind h
  obtain ⟨endpoint, -, h⟩ := ok_of_bind h
  obtain ⟨_, -, h⟩ := ok_of_bind h
  split at h
  · rename_i ho
    cases h
    exact ⟨_, ho⟩
  · cases h

/-- A send that the channel accepts adds its message to one queue. -/
theorem mem_queues_send {k : ℕ} {canal : ChannelInner} (hc : c < s.channels.length)
    (h : (s.channel c).send side m = .ok (k, canal)) (d : ℕ) (file : Bool) (m' : Message) :
    m' ∈ ((s.setChannel c canal).channel d).queues file ↔
      m' ∈ (s.channel d).queues file ∨ d = c ∧ file = !side ∧ m' = m := by
  unfold send at h
  split_ifs at h
  cases h
  rw [channel_setChannel]
  by_cases hd : d = c
  · subst hd
    rw [if_pos ⟨rfl, hc⟩, Bags.mem_update_concat]
    simp
  · simp [hd]

end System

namespace Noyau

variable {n n' : Noyau} {a : Action}

/-- References go to existing objects, and ends belong to existing channels. -/
structure Fonde (n : Noyau) : Prop where
  prises : n.sys.vue.Fondee
  canaux : ∀ o c side, n.sys.object o = some (.channel c side) → c < n.sys.channels.length
  veilles : ∀ w, ∀ x ∈ n.watches w, w < n.sys.objects.length ∧ x.2 < n.sys.objects.length

variable {e : Entry} {p : ℕ → Bool} {w : ℕ} {x : ℕ × ℕ} {side : Bool} {c : ℕ} {m : Message}

theorem Fonde.file_lt (h : n.Fonde) (hm : m ∈ (n.sys.channel c).queues side) (he : e ∈ m.handles) :
    e.object < n.sys.objects.length := by
  have hmem : ((.message, e) : Prise) ∈ n.sys.prises :=
    mem_prises_iff.mpr (.inr ⟨c, side, m, hm, e, he, rfl⟩)
  exact h.prises.object_lt hmem

theorem Possede.of_etend (he : n.sys.Etend n'.sys) (hw : ∀ w, n'.watches w ⊆ n.watches w)
    {p q : Noeud} (h : n'.Possede p q) :
    n.Possede p q ∨ ∃ o, p = .objet o ∧ n.sys.objects.length ≤ o := by
  cases h with
  | file hm hentry => exact .inl (.file (he.files _ _ _ hm) hentry)
  | veille hx => exact .inl (.veille (hw _ hx))
  | @extremite o c side ho =>
    rcases Nat.lt_or_ge o n.sys.objects.length with hlt | hge
    · left
      apply Possede.extremite
      obtain ⟨l, hl⟩ := he.objets
      rw [object, ← hl, getElem?_append_left hlt] at ho
      exact ho
    · exact .inr ⟨o, rfl, hge⟩

theorem acyclic_of_etend (hf : n.Fonde) (he : n.sys.Etend n'.sys)
    (hw : ∀ w, n'.watches w ⊆ n.watches w) (h : Acyclic n.Possede) : Acyclic n'.Possede := by
  apply h.of_unreferenced fun p q (hpq : n'.Possede p q) => hpq.of_etend he hw
  rintro p q ⟨o, rfl, ho⟩ hpq
  cases hpq with
  | file hm hentry => exact absurd (hf.file_lt (he.files _ _ _ hm) hentry) ho.not_gt
  | veille hx => exact absurd (hf.veilles _ _ (hw _ hx)).2 ho.not_gt

/-- The links after a send, accepted or not. -/
theorem acyclic_send_iff (hf : n.Fonde) (h : Acyclic n.Possede) (pid : ℕ) (u : Usercopy)
    (args : Args) (ptr : ℕ) :
    Acyclic ({ n with sys := (n.sys.rend (n.sys.channelSendAvecMasques pid u args ptr)).2 } : Noyau).Possede ↔
      ∀ x ∈ n.sys.liens pid u args ptr, ¬ ReflTransGen n.Possede (.objet x.2) x.1 := by
  rw [channelSend_eq]
  unfold liens
  cases henvoi : n.sys.envoi pid u args ptr with
  | error x => simpa [bind, Except.bind, System.rend] using h
  | ok r =>
    obtain ⟨c, side, m⟩ := r
    obtain ⟨o, ho⟩ := envoi_ok henvoi
    cases hsend : (n.sys.channel c).send side m with
    | error x => simpa [bind, Except.bind, System.rend, hsend] using h
    | ok r =>
      have hqueues := mem_queues_send (hf.canaux o c side ho) hsend
      simp only [bind, Except.bind, pure, Except.pure, hsend, forall_mem_map]
      -- the links from the channel to the objects of the message
      rw [h.iff_of_edges_from (x := .canal c) (T := fun q => ∃ e ∈ m.handles, q = .objet e.object)]
      · constructor
        · intro hT e he
          exact hT _ ⟨e, he, rfl⟩
        · rintro hT _ ⟨e, he, rfl⟩
          exact hT e he
      · intro p q
        constructor
        · rintro (⟨hm, he⟩ | ho | hx)
          · rcases (hqueues _ _ _).mp hm with hm | ⟨rfl, -, rfl⟩
            · exact .inl (.file hm he)
            · exact .inr ⟨rfl, _, he, rfl⟩
          · exact .inl (.extremite ho)
          · exact .inl (.veille hx)
        · rintro ((⟨hm, he⟩ | ho | hx) | ⟨rfl, e, he, rfl⟩)
          · exact .file ((hqueues _ _ _).mpr (.inl hm)) he
          · exact .extremite ho
          · exact .veille hx
          · exact .file ((hqueues _ _ _).mpr (.inr ⟨rfl, rfl, rfl⟩)) he

/-- The links after a `WAITSET_ADD`, accepted or not. -/
theorem acyclic_waitsetAdd_iff (h : Acyclic n.Possede) (pid ws cible key : ℕ) :
    Acyclic (n.rend (n.waitsetAdd pid ws cible key)).Possede ↔
      ∀ x ∈ n.lienVeille pid ws cible key, ¬ ReflTransGen n.Possede (.objet x.2) x.1 := by
  unfold waitsetAdd lienVeille
  cases hcible : n.cibleVeille pid ws cible key with
  | error x => simpa [bind, Except.bind, rend] using h
  | ok r =>
    obtain ⟨w, o⟩ := r
    simp only [bind, Except.bind, pure, Except.pure, rend, forall_mem_singleton]
    rw [h.iff_of_edges_from (x := .objet w) (T := fun q => q = .objet o)]
    · simp
    · intro p q
      constructor
      · rintro (⟨hm, he⟩ | ho | @⟨w', x, hx⟩)
        · exact .inl (.file hm he)
        · exact .inl (.extremite ho)
        · rcases Bags.mem_update_concat.mp hx with hx | ⟨rfl, rfl⟩
          · exact .inl (.veille hx)
          · exact .inr ⟨rfl, rfl⟩
      · rintro ((⟨hm, he⟩ | ho | @⟨w', x, hx⟩) | ⟨rfl, rfl⟩)
        · exact .file hm he
        · exact .extremite ho
        · exact .veille (Bags.mem_update_concat.mpr (.inl hx))
        · exact Possede.veille (x := (key, o)) (by simp)

theorem sys_lacheVeille (n : Noyau) (w : ℕ) : (n.lacheVeille w).sys = n.sys := by
  unfold lacheVeille
  split_ifs <;> rfl

theorem waitsetRemove_spec (n : Noyau) (pid ws key : ℕ) : (n.rend (n.waitsetRemove pid ws key)).sys = n.sys ∧
      ∀ v, (n.rend (n.waitsetRemove pid ws key)).watches v ⊆ n.watches v := by
  unfold waitsetRemove
  cases n.sys.lookupKind pid (.fromRaw ws) .write .waitSet with
  | error x => exact ⟨rfl, fun v => List.Subset.refl _⟩
  | ok e =>
    simp only [bind, Except.bind]
    split_ifs
    · exact ⟨rfl, fun v => List.Subset.refl _⟩
    · exact ⟨rfl, Bags.update_subset (filter_subset_self _)⟩

theorem watches_lacheVeille (n : Noyau) (w v : ℕ) : (n.lacheVeille w).watches v ⊆ n.watches v := by
  unfold lacheVeille
  split_ifs
  · exact List.Subset.refl _
  · exact Bags.update_subset (nil_subset _) v

/-- A step keeps the ownership graph without cycles exactly when no link it adds closes
one. -/
theorem acyclic_execute_iff (hf : n.Fonde) (h : Acyclic n.Possede) (a : Action) :
    Acyclic (n.execute a).Possede ↔ n.SansBoucle a := by
  have hcalme : ∀ n' : Noyau, n.sys.Etend n'.sys → (∀ w, n'.watches w ⊆ n.watches w) →
      n.ajouts a = [] → (Acyclic n'.Possede ↔ n.SansBoucle a) := by
    intro n' he hw ha
    have hboucle : n.SansBoucle a := by simp [SansBoucle, ha]
    exact iff_of_true (acyclic_of_etend hf he hw h) hboucle
  have hmeme : ∀ w, n.watches w ⊆ n.watches w := fun w => List.Subset.refl _
  cases a with
  | waitsetAdd pid ws cible key => exact acyclic_waitsetAdd_iff h pid ws cible key
  | waitsetRemove pid ws key =>
    obtain ⟨hsys, hw⟩ := waitsetRemove_spec n pid ws key
    exact hcalme _ (.of_sys hsys) hw rfl
  | lacheVeille w => exact hcalme _ (.of_sys (sys_lacheVeille n w)) (watches_lacheVeille n w) rfl
  | appel a =>
    cases a with
    | channelSend pid u args => exact acyclic_send_iff hf h pid u args 0
    | channelSendAttenue pid u args => exact acyclic_send_iff hf h pid u args (args 5)
    | lache c => exact hcalme _ etend_vide hmeme rfl
    | _ => exact hcalme _ (etend_execute n.sys nofun nofun) hmeme rfl

theorem Fonde.of_etend (hf : n.Fonde) (he : n.sys.Etend n'.sys) (hv : n'.sys.vue.Fondee)
    (hw : ∀ w, n'.watches w ⊆ n.watches w) : n'.Fonde where
  prises := hv
  canaux := by
    intro o c side ho
    rcases he.extremites o c side ho with ho | hlt
    · exact (hf.canaux o c side ho).trans_le he.canaux
    · exact hlt
  veilles := by
    intro w x hx
    obtain ⟨hlt, hlt'⟩ := hf.veilles w x (hw w hx)
    exact ⟨hlt.trans_le he.objets.length_le, hlt'.trans_le he.objets.length_le⟩

theorem Fonde.of_sys (hf : n.Fonde) (h : n'.sys = n.sys) (hw : ∀ w, n'.watches w ⊆ n.watches w) : n'.Fonde :=
  hf.of_etend (.of_sys h) (h ▸ hf.prises) hw

theorem Fonde.send (hf : n.Fonde) {pid ptr : ℕ} {u : Usercopy} {args : Args}
    (hv : (n.sys.rend (n.sys.channelSendAvecMasques pid u args ptr)).2.vue.Fondee) :
    Fonde { n with sys := (n.sys.rend (n.sys.channelSendAvecMasques pid u args ptr)).2 } := by
  cases hsend : n.sys.channelSendAvecMasques pid u args ptr with
  | error x => exact hf
  | ok r =>
    rw [hsend] at hv
    rw [channelSend_eq] at hsend
    obtain ⟨x, -, hsend⟩ := ok_of_bind hsend
    obtain ⟨y, -, hsend⟩ := ok_of_bind hsend
    cases hsend
    refine ⟨hv, ?_, hf.veilles⟩
    simpa [System.rend, System.setChannel, System.object] using hf.canaux

theorem Fonde.waitsetAdd (hf : n.Fonde) (pid ws cible key : ℕ) :
    Fonde (n.rend (n.waitsetAdd pid ws cible key)) := by
  unfold Noyau.waitsetAdd
  cases hcible : n.cibleVeille pid ws cible key with
  | error x => exact hf
  | ok r =>
    obtain ⟨w, o⟩ := r
    have htable : ∀ e ∈ (n.sys.tableFor pid).entries, e.object < n.sys.objects.length :=
      fun e he => hf.prises.object_lt (mem_prises_tableFor he)
    have hdesigne : w < n.sys.objects.length ∧ o < n.sys.objects.length := by
      obtain ⟨waitset, hws, h⟩ := ok_of_bind hcible
      obtain ⟨target, htarget, h⟩ := ok_of_bind h
      split_ifs at h
      cases h
      exact ⟨htable waitset (lookupKind_ok hws).1, htable target (HandleTable.lookup_ok htarget).1⟩
    refine ⟨hf.prises, hf.canaux, ?_⟩
    intro v x hx
    rcases Bags.mem_update_concat.mp hx with hx | ⟨rfl, rfl⟩
    · exact hf.veilles v x hx
    · exact hdesigne

theorem fondee_lache (hf : n.Fonde) (c : ℕ) : (n.lache c).sys.vue.Fondee := by
  have hle : Suite (fun _ => False) n.sys.vue (n.lache c).sys.vue := by
    refine suite_of_le (prises_setChannel_le ?_) rfl
    split_ifs
    · simp [ChannelInner.prises, prisesFile]
    · exact le_rfl
  exact hle.fondee hf.prises

theorem Fonde.execute (hf : n.Fonde) (a : Action) : (n.execute a).Fonde := by
  have hmeme : ∀ w, n.watches w ⊆ n.watches w := fun w => List.Subset.refl _
  have hvue : ∀ a, (n.sys.execute a).2.vue.Fondee := fun a => (n.sys.suite_execute a).fondee hf.prises
  cases a with
  | waitsetAdd pid ws cible key => exact hf.waitsetAdd pid ws cible key
  | waitsetRemove pid ws key =>
    obtain ⟨hsys, hw⟩ := waitsetRemove_spec n pid ws key
    exact hf.of_sys hsys hw
  | lacheVeille w => exact hf.of_sys (sys_lacheVeille n w) (watches_lacheVeille n w)
  | appel a =>
    cases a with
    | channelSend pid u args => exact hf.send (hvue (.channelSend pid u args))
    | channelSendAttenue pid u args => exact hf.send (hvue (.channelSendAttenue pid u args))
    | lache c => exact hf.of_etend etend_vide (fondee_lache hf c) hmeme
    | _ => exact hf.of_etend (etend_execute n.sys nofun nofun) (hvue _) hmeme

theorem fonde_vide : vide.Fonde where
  prises := by
    intro x hx
    cases hx
  canaux := by simp [vide, System.vide, System.object]
  veilles := by simp [vide]

theorem acyclic_vide : Acyclic vide.Possede := by
  intro p hp
  obtain ⟨q, hpq, -⟩ := TransGen.head'_iff.mp hp
  cases hpq with
  | file hm => simp [vide, System.vide, System.channel, new] at hm
  | extremite ho => simp [vide, System.vide, System.object] at ho
  | veille hx => cases hx

theorem exists_of_refere (hs : n.SansPoignee) (h : n.refere p = true) :
    (∃ c side, ∃ m ∈ (n.sys.channel c).queues side, ∃ e ∈ m.handles, p e.object = true) ∨
      ∃ w, ∃ x ∈ n.watches w, p x.2 = true := by
  unfold refere at h
  rw [Bool.or_eq_true, decide_eq_true_eq, Multiset.countP_pos] at h
  rcases h with ⟨x, hx, hp⟩ | h
  · left
    rcases mem_prises_iff.mp hx with ⟨row, hrow, hx⟩ | ⟨c, side, m, hm, e, he, rfl⟩
    · rw [HandleTable.prises, hs row hrow] at hx
      cases hx
    · exact ⟨c, side, m, hm, e, he, hp⟩
  · obtain ⟨w, -, hw⟩ := any_eq_true.mp h
    exact .inr ⟨w, any_eq_true.mp hw⟩

theorem refere_of_file
    (hm : m ∈ (n.sys.channel c).queues side) (he : e ∈ m.handles) (hp : p e.object = true) :
    n.refere p = true := by
  have hmem : ((.message, e) : Prise) ∈ n.sys.prises :=
    mem_prises_iff.mpr (.inr ⟨c, side, m, hm, e, he, rfl⟩)
  rw [refere, Bool.or_eq_true, decide_eq_true_eq, Multiset.countP_pos]
  exact .inl ⟨_, hmem, hp⟩

theorem refere_of_watch (hw : w < n.sys.objects.length)
    (hx : x ∈ n.watches w) (hp : p x.2 = true) : n.refere p = true := by
  rw [refere, Bool.or_eq_true]
  exact .inr (any_eq_true.mpr ⟨w, mem_range.mpr hw, any_eq_true.mpr ⟨x, hx, hp⟩⟩)

theorem Repos.refere_of_ouvert (h : n.Repos) (hc : c < n.sys.channels.length)
    (ho : (n.sys.channel c).closed side = false) : n.refere (n.estExtremite c side) = true := by
  have hlache := congrArg (fun n => (n.sys.channel c).closed side) (h.1 c)
  simp only [lache, channel_setChannel, hc, and_self, if_true, ho, Bool.false_or,
    Bool.not_eq_false'] at hlache
  exact hlache

theorem Repos.ouvert_of_file (h : n.Repos) (hm : m ∈ (n.sys.channel c).queues side) :
    c < n.sys.channels.length ∧ ∃ side, (n.sys.channel c).closed side = false := by
  have hc : c < n.sys.channels.length := by
    rcases channel_cases n.sys c with hc | ⟨hn, -⟩
    · exact (List.getElem?_eq_some_iff.mp hc).1
    · simp [hn, new] at hm
  refine ⟨hc, ?_⟩
  by_contra hclos
  simp only [not_exists, Bool.not_eq_false] at hclos
  have hlache := congrArg (fun n => (n.sys.channel c).queues side) (h.1 c)
  simp only [lache, channel_setChannel, hc, and_self, if_true, hclos, Bool.true_or] at hlache
  rw [← hlache] at hm
  cases hm

theorem Repos.refere_of_veille (h : n.Repos) (hx : x ∈ n.watches w) : n.refere (· = w) = true := by
  by_contra hr
  have hlache := congrArg (fun n => n.watches w) (h.2 w)
  simp only [lacheVeille, if_neg hr, update_self] at hlache
  rw [← hlache] at hx
  cases hx

/-- Without handles and without cycles nothing is left: an open end is kept by an object
that something keeps, and so on without end. -/
theorem toutLache_of_acyclic (hf : n.Fonde) (h : Acyclic n.Possede) (hs : n.SansPoignee)
    (hr : n.Repos) : n.ToutLache := by
  -- what is still there
  let reste : Set Noeud := {p | match p with
    | .canal c => c < n.sys.channels.length ∧ ∃ side, (n.sys.channel c).closed side = false
    | .objet o => o < n.sys.objects.length ∧ n.refere (· = o) = true}
  have hfini : reste.Finite := by
    apply Set.Finite.subset (((Set.finite_lt_nat n.sys.channels.length).image Noeud.canal).union
      ((Set.finite_lt_nat n.sys.objects.length).image Noeud.objet))
    rintro (c | o) hp
    · exact .inl ⟨c, hp.1, rfl⟩
    · exact .inr ⟨o, hp.1, rfl⟩
  -- a reference to an object with the property comes from something still there
  have htient : ∀ p : ℕ → Bool, n.refere p = true →
      ∃ o, p o = true ∧ .objet o ∈ reste ∧ ∃ q ∈ reste, n.Possede q (.objet o) := by
    intro p hp
    rcases exists_of_refere hs hp with ⟨c, side, m, hm, e, he, hpe⟩ | ⟨w, x, hx, hpx⟩
    · exact ⟨e.object, hpe, ⟨hf.file_lt hm he, refere_of_file hm he (decide_eq_true rfl)⟩,
        .canal c, hr.ouvert_of_file hm, .file hm he⟩
    · obtain ⟨hw, ho⟩ := hf.veilles w x hx
      exact ⟨x.2, hpx, ⟨ho, refere_of_watch hw hx (decide_eq_true rfl)⟩,
        .objet w, ⟨hw, hr.refere_of_veille hx⟩, .veille hx⟩
  have hvide := h.eq_empty_of_referenced hfini (by
    rintro (c | o) hp
    · obtain ⟨hc, side, hside⟩ := hp
      obtain ⟨o, ho, hmem, -⟩ := htient _ (hr.refere_of_ouvert hc hside)
      exact ⟨_, hmem, .extremite (of_decide_eq_true ho)⟩
    · obtain ⟨o', ho', -, q, hq, hqo⟩ := htient _ hp.2
      obtain rfl := of_decide_eq_true ho'
      exact ⟨q, hq, hqo⟩)
  intro k hk side
  obtain ⟨c, hc, rfl⟩ := mem_iff_getElem.mp hk
  by_contra hside
  have hmem : Noeud.canal c ∈ reste := by
    refine ⟨hc, side, ?_⟩
    rw [channel, getD_eq_getElem _ _ hc]
    exact Bool.not_eq_true _ ▸ hside
  rw [hvide] at hmem
  exact hmem

/-- No object is kept alive by a cycle, and without handles every end of a channel is
dropped. -/
def SansFuite (n : Noyau) : Prop :=
  Acyclic n.Possede ∧ (n.SansPoignee → n.Repos → n.ToutLache)

/-- In every run, no object is ever kept alive by a cycle exactly when none of its sends and
additions to wait sets closes one. -/
theorem objets_sans_cycle (actions : List Action) : (∀ debut, debut <+: actions → (joue debut).SansFuite) ↔
      ∀ debut a, debut ++ [a] <+: actions → (joue debut).SansBoucle a := by
  have hfuite : ∀ t : Noyau, t.Fonde → (t.SansFuite ↔ Acyclic t.Possede) := fun t hf =>
    ⟨And.left, fun ha => ⟨ha, toutLache_of_acyclic hf ha⟩⟩
  apply Runs.forall_prefix_iff (I := Fonde) fonde_vide
  · intro s a hs
    exact hs.execute a
  · exact (hfuite vide fonde_vide).mpr acyclic_vide
  · intro s a hs hP
    rw [hfuite _ (hs.execute a)]
    exact acyclic_execute_iff hs hP.1 a

def nomme (raw : ℕ) : Usercopy :=
  ⟨fun k _ _ => .ok (if k = 1 then Bytes.leBytes 8 raw else []), fun _ _ _ => .ok (),
    fun _ _ _ => .ok ()⟩

/-- The handle in slot `slot`, on its first use. -/
def poignee (slot : ℕ) : ℕ := 2 ^ 32 + slot

/-- Process 1 sends the handle in one slot through the end in another. -/
def passe (par objet : ℕ) : Action :=
  .appel (.channelSend 1 (nomme (poignee objet)) ![poignee par, 0, 0, 8, 1, 0])

/-- Two channels made by process 1: handles 1 and 2 for the first, 3 and 4 for the second. -/
def deuxCanaux : List Action :=
  [.appel (.channelCreate 1 (nomme 0) 8), .appel (.channelCreate 1 (nomme 0) 8)]

/-- Process 1 closes its four handles, and what can be dropped is dropped. -/
def fermeTout : List Action :=
  [1, 2, 3, 4].map (fun slot => .appel (.handleClose 1 (poignee slot))) ++
    [.appel (.lache 0), .appel (.lache 1), .appel (.lache 0)]

/-- Which ends of the channels are dropped, and how many handles processes have. -/
def bilan (n : Noyau) : List (Bool × Bool) × ℕ :=
  (n.sys.channels.map fun k => (k.closed false, k.closed true),
    (n.sys.registry.map fun row => row.2.entries.card).sum)

def transportes (n : Noyau) (c : ℕ) (side : Bool) : List ℕ :=
  ((n.sys.channel c).queues side).flatMap fun m => m.handles.map Entry.object

theorem Possede.of_transportes {c o : ℕ} (h : o ∈ n.transportes c side) :
    n.Possede (.canal c) (.objet o) := by
  obtain ⟨m, hm, ho⟩ := mem_flatMap.mp h
  obtain ⟨e, he, rfl⟩ := mem_map.mp ho
  exact .file hm he

def croisement : Noyau := joue (deuxCanaux ++ [passe 3 1, passe 1 3] ++ fermeTout)

/-- Both sends are accepted; once all handles are closed each channel keeps the other, and
neither is dropped. -/
theorem deux_canaux_se_tiennent :
    TransGen croisement.Possede (.canal 0) (.canal 0) ∧
      croisement.bilan = ([(false, true), (false, true)], 0) := by
  constructor
  · have h₀ : 2 ∈ croisement.transportes 0 true := by decide
    have h₁ : croisement.sys.object 2 = some (.channel 1 false) := by decide
    have h₂ : 0 ∈ croisement.transportes 1 true := by decide
    have h₃ : croisement.sys.object 0 = some (.channel 0 false) := by decide
    have haller := (TransGen.single (Possede.of_transportes h₀)).tail (.extremite h₁)
    exact (haller.tail (.of_transportes h₂)).tail (.extremite h₃)
  · decide

/-- With one end sent, everything is dropped. -/
example : (joue (deuxCanaux ++ [passe 3 1] ++ fermeTout)).bilan = ([(true, true), (true, true)], 0) := by
  decide

end Noyau

end BouchaudOS.Natif
