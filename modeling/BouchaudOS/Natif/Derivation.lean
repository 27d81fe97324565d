import BouchaudOS.Natif.Appels

/-!
# What a native call does to the handles of the system

Seen from the handles alone, a system is the collection of all handles, each with its
place, and the rights every object was installed with. There a call is a sequence of small
steps: handles go away, an object is installed, a handle is copied inside a process,
copied out of it, or taken out of a message.
-/

namespace BouchaudOS.Natif

open List HandleTable Function

/-- The handles of a system, and the first rights over each object. -/
structure Vue where
  prises : Multiset Prise
  premiers : List Rights

/-- One small step. `nommee` tells the entries that may be copied out of a process. -/
inductive Passe (nommee : Entry → Prop) : Vue → Vue → Prop
  | perd {v : Vue} {p : Multiset Prise} (h : p ≤ v.prises) : Passe nommee v ⟨p, v.premiers⟩
  | installe {v : Vue} (pid : ℕ) (r : Rights) :
      Passe nommee v ⟨(.processus pid, .installe (.processus pid) v.premiers.length r) ::ₘ
        v.prises, v.premiers ++ [r]⟩
  | duplique {v : Vue} {pid : ℕ} {e : Entry} {r : Rights} (he : (.processus pid, e) ∈ v.prises)
      (hd : e.rights.contains .dup = true) (hr : e.rights.contains r = true) :
      Passe nommee v ⟨(.processus pid, e.derive (.processus pid) r) ::ₘ v.prises, v.premiers⟩
  | exporte {v : Vue} {pid : ℕ} {e : Entry} {r : Rights} (lieu : Lieu)
      (he : (.processus pid, e) ∈ v.prises) (hn : nommee e)
      (ht : e.rights.contains .transfer = true) (hr : e.rights.contains r = true) :
      Passe nommee v ⟨(lieu, e.derive lieu r) ::ₘ v.prises, v.premiers⟩
  | recoit {v : Vue} {p : Multiset Prise} {e : Entry} (pid : ℕ)
      (h : v.prises = (.message, e) ::ₘ p) :
      Passe nommee v ⟨(.processus pid, e.derive (.processus pid) e.rights) ::ₘ p, v.premiers⟩

/-- A sequence of small steps. -/
abbrev Suite (nommee : Entry → Prop) : Vue → Vue → Prop := Relation.ReflTransGen (Passe nommee)

variable {nommee : Entry → Prop} {v : Vue}

theorem Suite.perd {p : Multiset Prise} (h : p ≤ v.prises) : Suite nommee v ⟨p, v.premiers⟩ :=
  .single (.perd h)

/-- Copies leave their source behind, so that the source serves for all of them. -/
theorem Suite.exporte {pid : ℕ} (lieu : Lieu) {l : List (Entry × Rights)}
    (h : ∀ x ∈ l, (.processus pid, x.1) ∈ v.prises ∧ nommee x.1 ∧
      x.1.rights.contains .transfer = true ∧ x.1.rights.contains x.2 = true) :
    Suite nommee v ⟨((l.map fun x => (lieu, x.1.derive lieu x.2) : List Prise) : Multiset Prise) +
      v.prises, v.premiers⟩ := by
  induction l with
  | nil => simpa using Relation.ReflTransGen.refl
  | cons x l ih =>
    obtain ⟨hmem, hn, ht, hr⟩ := h x mem_cons_self
    apply (ih fun y hy => h y (mem_cons_of_mem x hy)).tail
    have hmem' : (.processus pid, x.1) ∈
        ((l.map fun x => (lieu, x.1.derive lieu x.2) : List Prise) : Multiset Prise) + v.prises :=
      Multiset.mem_add.mpr (.inr hmem)
    rw [map_cons, ← Multiset.cons_coe, Multiset.cons_add]
    exact .exporte lieu hmem' hn ht hr

/-- The handles of a message move one after the other. -/
theorem Suite.recoit (pid : ℕ) {l : List Entry} {p : Multiset Prise}
    (h : v.prises = (l : Multiset Entry).map (Prod.mk .message) + p) :
    Suite nommee v ⟨((l.map fun e => e.derive (.processus pid) e.rights : List Entry) :
      Multiset Entry).map (Prod.mk (.processus pid)) + p, v.premiers⟩ := by
  induction l generalizing v p with
  | nil =>
    obtain ⟨p', r⟩ := v
    obtain rfl : p' = p := by simpa using h
    simpa using Relation.ReflTransGen.refl
  | cons e l ih =>
    have hcons : v.prises = (.message, e) ::ₘ ((l : Multiset Entry).map (Prod.mk .message) + p) := by
      rw [h, ← Multiset.cons_coe, Multiset.map_cons, Multiset.cons_add]
    refine .head (.recoit pid hcons) ?_
    rw [map_cons, ← Multiset.cons_coe, Multiset.map_cons, Multiset.cons_add,
      ← Multiset.add_cons, ← Multiset.add_cons]
    exact ih rfl

theorem prises_poseTable (l : List (ℕ × HandleTable)) (pid : ℕ) (t : HandleTable) :
    ((poseTable pid t l).map fun row => row.2.prises row.1).sum + ((l.lookup pid).getD .empty).prises pid =
      (l.map fun row => row.2.prises row.1).sum + t.prises pid := by
  induction l with
  | nil => simp [poseTable, prises]
  | cons row l ih =>
    obtain ⟨p, u⟩ := row
    by_cases hp : pid = p
    · subst hp
      simp only [poseTable, if_true, map_cons, sum_cons, lookup_cons_self, Option.getD_some]
      abel
    · have hne : (pid == p) = false := by simpa using hp
      simp only [poseTable, if_neg hp, map_cons, sum_cons, lookup_cons, hne]
      rw [add_assoc, ih, add_assoc]

namespace System

variable {s : System} {pid c : ℕ} {t : HandleTable} {side : Bool} {m : Message}

def vue (s : System) : Vue := ⟨s.prises, s.objects.map Installe.premier⟩

theorem prises_setTable (s : System) (pid : ℕ) (t : HandleTable) :
    (s.setTable pid t).prises + (s.tableFor pid).prises pid = s.prises + t.prises pid := by
  have := prises_poseTable s.registry pid t
  rw [prises, prises, add_right_comm, add_right_comm _ _ (t.prises pid)]
  exact congrArg (· + _) this

theorem prises_setTable_add {a : Multiset Entry} (h : t.entries = a + (s.tableFor pid).entries) :
    (s.setTable pid t).prises = a.map (Prod.mk (.processus pid)) + s.prises := by
  have hset := prises_setTable s pid t
  rw [HandleTable.prises, HandleTable.prises, h, Multiset.map_add, ← add_assoc] at hset
  rw [add_right_cancel hset, add_comm]

theorem prises_setTable_le (h : t.entries ≤ (s.tableFor pid).entries) :
    (s.setTable pid t).prises ≤ s.prises := by
  have hset := prises_setTable s pid t
  have hle : t.prises pid ≤ (s.tableFor pid).prises pid := Multiset.map_le_map h
  exact le_of_add_le_add_right (hset.trans_le (add_le_add_right hle _))

theorem prises_setTable_eq (h : t.entries = (s.tableFor pid).entries) :
    (s.setTable pid t).prises = s.prises := by
  simpa using prises_setTable_add (a := 0) (by simpa using h)

theorem prises_tableFor_le (s : System) (pid : ℕ) : (s.tableFor pid).prises pid ≤ s.prises := by
  have := prises_setTable s pid .empty
  have hempty : empty.prises pid = 0 := rfl
  rw [hempty, add_zero] at this
  exact this ▸ Multiset.le_add_left _ _

theorem mem_prises_tableFor {e : Entry} (h : e ∈ (s.tableFor pid).entries) : (.processus pid, e) ∈ s.prises :=
  Multiset.mem_of_le (prises_tableFor_le s pid) (Multiset.mem_map_of_mem _ h)

theorem close_le (t : HandleTable) (id : HandleId) : (t.close id).entries ≤ t.entries := by
  unfold close
  cases h : t.closeLocked id with
  | error x => exact le_rfl
  | ok r => exact (closeLocked_ok h).1 ▸ Multiset.le_cons_self _ _

/-! Queues. -/

variable {k : ChannelInner}

theorem prises_setChannel (h : s.channels[c]? = some k) (k' : ChannelInner) :
    (s.setChannel c k').prises + k.prises = s.prises + k'.prises := by
  have := Bags.sum_map_set ChannelInner.prises h k'
  rw [prises, prises, add_assoc, add_assoc]
  exact congrArg (_ + ·) this

theorem prises_queues (k : ChannelInner) (side : Bool) (l : List Message)
    (octets : Bool → ℕ) (closed : Bool → Bool) :
    (ChannelInner.mk (update k.queues side l) octets closed).prises +
      prisesFile (k.queues side) = k.prises + prisesFile l := by
  cases side <;> simp only [ChannelInner.prises, update_self,
    update_of_ne (Bool.false_ne_true.symm), update_of_ne Bool.false_ne_true] <;>
    abel

theorem channel_cases (s : System) (c : ℕ) :
    s.channels[c]? = some (s.channel c) ∨ s.channel c = .new ∧ ∀ k, s.setChannel c k = s := by
  by_cases h : c < s.channels.length
  · left
    simp [channel, getD_eq_getElem?_getD, getElem?_eq_getElem h]
  · right
    have hle := Nat.le_of_not_lt h
    refine ⟨by simp [channel, getD_eq_getElem?_getD, getElem?_eq_none hle], ?_⟩
    simp [setChannel, set_eq_of_length_le hle]

theorem prises_setQueue (hc : s.channels[c]? = some (s.channel c)) (side : Bool)
    (l : List Message) (octets : Bool → ℕ) (closed : Bool → Bool) :
    (s.setChannel c ⟨update (s.channel c).queues side l, octets, closed⟩).prises +
      prisesFile ((s.channel c).queues side) = s.prises + prisesFile l := by
  have hk := prises_queues (s.channel c) side l octets closed
  have hset := prises_setChannel hc ⟨update (s.channel c).queues side l, octets, closed⟩
  apply add_right_cancel (b := (s.channel c).prises)
  rw [add_right_comm, hset, add_assoc, hk, add_right_comm, add_assoc]

theorem prises_setQueue_le {l : List Message} {octets : Bool → ℕ} {closed : Bool → Bool}
    {p : Multiset Prise} (h : prisesFile l = p + prisesFile ((s.channel c).queues side)) :
    (s.setChannel c ⟨update (s.channel c).queues side l, octets, closed⟩).prises ≤ p + s.prises := by
  rcases channel_cases s c with hc | ⟨-, hs⟩
  · have := prises_setQueue hc side l octets closed
    rw [h, ← add_assoc] at this
    exact (add_right_cancel this).trans_le (add_comm _ _).le
  · rw [hs]
    exact Multiset.le_add_left _ _

theorem prises_setChannel_le (h : k.prises ≤ (s.channel c).prises) : (s.setChannel c k).prises ≤ s.prises := by
  rcases channel_cases s c with hc | ⟨-, hs⟩
  · have hset := prises_setChannel hc k
    exact le_of_add_le_add_right (hset.trans_le (add_le_add_right h _))
  · rw [hs]

theorem prises_send {n : ℕ} (h : (s.channel c).send side m = .ok (n, k)) :
    (s.setChannel c k).prises ≤ m.prises + s.prises := by
  unfold ChannelInner.send at h
  split_ifs at h
  cases h
  apply prises_setQueue_le
  simp [prisesFile, add_comm]

theorem prises_requeueFront (s : System) (c : ℕ) (side : Bool) (m : Message) :
    (s.requeueFront c side m).prises ≤ m.prises + s.prises := by
  apply prises_setQueue_le
  simp [prisesFile]

theorem prises_recv (h : (s.channel c).recv side = .ok (m, k)) :
    m.prises + (s.setChannel c k).prises = s.prises := by
  unfold ChannelInner.recv at h
  split at h
  · rename_i m' reste hq
    cases h
    rcases channel_cases s c with hc | ⟨hn, -⟩
    · have hset := prises_setQueue hc side reste
        (update (s.channel c).queuedBytes side
          ((s.channel c).queuedBytes side - m.bytes.length)) (s.channel c).closed
      have hfile : prisesFile ((s.channel c).queues side) = m.prises + prisesFile reste := by
        simp [hq, prisesFile]
      rw [hfile, ← add_assoc] at hset
      rw [add_comm]
      exact add_right_cancel hset
    · simp [hn, ChannelInner.new] at hq
  · split_ifs at h

/-- A relation that every change a call is made of keeps, sends and the handles of a new process
apart. -/
structure Regle (R : System → System → Prop) : Prop where
  refl (s : System) : R s s
  trans {s s' s'' : System} : R s s' → R s' s'' → R s s''
  install {s s' : System} {pid : ℕ} {o : Object} {r : Rights} {id : HandleId} :
    s.install pid o r = .ok (id, s') → (∀ c side, o = .channel c side → c < s.channels.length) → R s s'
  canal (s : System) : R s { s with channels := s.channels ++ [.new] }
  close (s : System) (pid : ℕ) (id : HandleId) : R s (s.closeHandle pid id)
  dup {s : System} {pid : ℕ} {id id' : HandleId} {r : Rights} {t : HandleTable} :
    (s.tableFor pid).duplicate pid id r = .ok (id', t) → R s (s.setTable pid t)
  livre {s : System} {c : ℕ} {side : Bool} {m : Message} {k : ChannelInner} (pid : ℕ) (u : Usercopy)
    (args : Args) : (s.channel c).recv side = .ok (m, k) → R s ((s.setChannel c k).livre pid c side m u args).2
  mort (s : System) (pid : ℕ) : R s (s.releaseProcess pid)
  lache (s : System) (c : ℕ) : R s (s.lache c)

section

variable {R : System → System → Prop} (hR : Regle R) (s : System) (pid : ℕ) (u : Usercopy) (args : Args)

include hR

theorem Regle.creeObjet {o : Object} (r : Rights) (ho : ∀ c side, o ≠ .channel c side) :
    R s (s.creeObjet pid o r).2 := by
  unfold System.creeObjet
  split
  · exact hR.refl s
  · rename_i h
    exact hR.install h fun c side hc => absurd hc (ho c side)

theorem Regle.handleClose (raw : ℕ) : R s (s.handleClose pid raw).2 := by
  have h := hR.close s pid (.fromRaw raw)
  unfold System.handleClose
  split
  · exact hR.refl s
  · rename_i hok
    rwa [closeHandle, HandleTable.close, hok] at h

theorem Regle.pairToUser (out : ℕ) : R s (s.pairToUser pid u out).2 := by
  unfold System.pairToUser
  split_ifs
  · exact hR.refl s
  dsimp only
  split
  · exact hR.canal s
  · rename_i left s1 hleft
    have h1 := hR.trans (hR.canal s) (hR.install hleft (by rintro c side ⟨⟩; simp))
    have hc1 : s.channels.length < s1.channels.length := by
      unfold System.install at hleft
      split at hleft
      · cases hleft
      · cases hleft
        simp [setTable]
    split
    · exact hR.trans h1 (hR.close s1 pid left)
    · rename_i right s2 hright
      have h2 := hR.trans h1 (hR.install hright (by rintro c side ⟨⟩; exact hc1))
      split
      · exact hR.trans (hR.trans h2 (hR.close s2 pid left)) (hR.close _ pid right)
      · exact h2

theorem Regle.channelRecv : R s (s.channelRecv pid u args).2 := by
  unfold System.channelRecv
  split
  · exact hR.refl s
  split
  · split
    · exact hR.refl s
    split_ifs
    · exact hR.refl s
    split
    · exact hR.refl s
    · rename_i h
      exact hR.livre pid u args h
  · exact hR.refl s

theorem Regle.suitFils (out fils : ℕ) (complet : Bool) : R s (s.suitFils pid u out fils complet).2 := by
  unfold System.suitFils
  split_ifs
  · exact hR.refl s
  split
  · exact hR.refl s
  · rename_i id' s' h
    have hinstall : R s s' := hR.install h nofun
    split
    · exact hR.trans hinstall (hR.close s' pid id')
    · exact hinstall

theorem Regle.processSpawn (lancement : Lancement)
    (h : ∀ path demandes xs fils, lisNaissance u args = .ok (path, demandes) →
      exporteFils (s.tableFor pid) demandes = .ok xs → R s (s.prepare fils xs).2) :
    R s (s.processSpawn pid u args lancement).2 := by
  unfold System.processSpawn
  split
  · exact hR.refl s
  rename_i path demandes hlis
  split
  · exact hR.refl s
  rename_i xs hxs
  have hprepare := fun fils => h path demandes xs fils hlis hxs
  cases lancement with
  | refuse introuvable => exact hR.refl s
  | echoue fils introuvable => exact hprepare fils
  | lance fils => exact hR.trans (hprepare fils) (hR.suitFils _ pid u (args 5) fils _)

theorem Regle.execute {a : Appel}
    (hsend : ∀ pid u args ptr, a = .channelSend pid u args ∨ a = .channelSendAttenue pid u args →
      R s (s.rend (s.channelSendAvecMasques pid u args ptr)).2)
    (hspawn : ∀ pid u args lancement, a = .processSpawn pid u args lancement →
      R s (s.processSpawn pid u args lancement).2) : R s (s.execute a).2 := by
  cases a with
  | handleClose pid raw => exact hR.handleClose s pid raw
  | handleDup pid raw droits =>
    simp only [System.execute, handleDup]
    split
    · exact hR.refl s
    · rename_i h
      exact hR.dup h
  | channelCreate pid u out => exact hR.pairToUser s pid u out
  | channelSend pid u args => exact hsend pid u args 0 (.inl rfl)
  | channelSendAttenue pid u args => exact hsend pid u args (args 5) (.inr rfl)
  | channelRecv pid u args => exact hR.channelRecv s pid u args
  | eventCreate pid => exact hR.creeObjet s pid _ nofun
  | waitsetCreate pid => exact hR.creeObjet s pid _ nofun
  | shmCreate pid size =>
    simp only [System.execute, shmCreate]
    split_ifs
    · exact hR.refl s
    · exact hR.creeObjet s pid _ nofun
  | processSpawn pid u args lancement => exact hspawn pid u args lancement rfl
  | lanceSuperviseur pid =>
    exact hR.trans (hR.creeObjet s pid _ (o := .update) nofun) (hR.creeObjet _ pid _ (o := .update) nofun)
  | mort pid => exact hR.mort s pid
  | lache canal => exact hR.lache s canal

end

variable {nommee : Entry → Prop} {s' : System} {id : HandleId} {o : Object} {r : Rights}

theorem vue_eq {p : Multiset Prise} {l : List Rights} (hp : s.prises = p)
    (hl : s.objects.map Installe.premier = l) : s.vue = ⟨p, l⟩ := by
  rw [vue, hp, hl]

theorem suite_of_le (h : s'.prises ≤ s.prises) (ho : s'.objects = s.objects) : Suite nommee s.vue s'.vue := by
  rw [vue_eq (s := s') rfl (congrArg (List.map Installe.premier) ho)]
  exact Suite.perd h

theorem suite_install (h : s.install pid o r = .ok (id, s')) : Suite nommee s.vue s'.vue := by
  unfold install at h
  split at h
  · cases h
  · rename_i id' t ht
    cases h
    have hentries : t.entries = {.installe (.processus pid) s.objects.length r} +
        (s.tableFor pid).entries := by
      rw [(insertLocked_ok ht).1, Multiset.singleton_add]
    have hp := prises_setTable_add hentries
    have hlen : s.objects.length = s.vue.premiers.length := by simp [vue]
    rw [Multiset.map_singleton, Multiset.singleton_add, hlen] at hp
    rw [vue_eq (s := { s.setTable pid t with objects := s.objects ++ [⟨o, r⟩] }) hp (map_append ..)]
    exact .single (.installe pid r)

section

variable (s : System)

theorem suite_closeHandle (pid : ℕ) (id : HandleId) : Suite nommee s.vue (s.closeHandle pid id).vue :=
  suite_of_le (prises_setTable_le (close_le _ id)) rfl

theorem suite_dup {id' : HandleId} {t : HandleTable} (h : (s.tableFor pid).duplicate pid id r = .ok (id', t)) :
    Suite nommee s.vue (s.setTable pid t).vue := by
  obtain ⟨e, r', hmem, hdup, hr, hentries⟩ := duplicate_ok h
  rw [← Multiset.singleton_add] at hentries
  have hp := prises_setTable_add hentries
  rw [vue_eq (s := s.setTable pid t) hp rfl]
  exact .single (.duplique (mem_prises_tableFor hmem) hdup hr)

/-- A new channel starts with empty queues. -/
theorem vue_canal : ({ s with channels := s.channels ++ [ChannelInner.new] } : System).vue = s.vue := by
  simp [vue, prises, ChannelInner.prises, ChannelInner.new, prisesFile]

theorem suite_releaseProcess (pid : ℕ) : Suite nommee s.vue (s.releaseProcess pid).vue := by
  refine suite_of_le (add_le_add_left ?_ _) rfl
  exact (filter_sublist.map _).sum_le_sum fun _ _ => Multiset.zero_le _

theorem suite_lache (c : ℕ) : Suite nommee s.vue (s.lache c).vue := by
  refine suite_of_le (prises_setChannel_le ?_) rfl
  split_ifs
  · simp [ChannelInner.prises, prisesFile]
  · exact le_rfl

end

/-- The entry designates a handle named in the list, which may leave its process. -/
def Cite (t : HandleTable) (ids : List HandleId) (e : Entry) : Prop :=
  ∃ id ∈ ids, t.lookup id .transfer = .ok e

variable {l : List (HandleId × Rights)} {xs : List (Entry × Rights)} {u : Usercopy} {args : Args}

theorem exporteFils_ok (h : exporteFils t l = .ok xs) :
    ∀ x ∈ xs, Cite t (l.map Prod.fst) x.1 ∧ x.1.rights.contains x.2 = true := by
  induction l generalizing xs with
  | nil =>
    cases h
    simp
  | cons y l ih =>
    obtain ⟨⟨e, r⟩, he, h⟩ := ok_of_bind h
    obtain ⟨suite, hsuite, h⟩ := ok_of_bind h
    cases h
    obtain ⟨hlookup, hr⟩ := exportHandle_ok he
    intro x hx
    rcases mem_cons.mp hx with rfl | hx
    · exact ⟨⟨y.1, mem_cons_self, hlookup⟩, hr⟩
    · obtain ⟨⟨id, hid, hlid⟩, hrx⟩ := ih hsuite x hx
      exact ⟨⟨id, mem_cons_of_mem y.1 hid, hlid⟩, hrx⟩

/-- Up to the refusal of cycles, a message takes its handles as a new process does. -/
theorem exporteMessage_ok {endpoint : Entry} {es : List Entry} (h : s.exporteMessage t endpoint l = .ok es) :
    ∃ xs, exporteFils t l = .ok xs ∧ es = xs.map fun x => x.1.derive .message x.2 := by
  induction l generalizing es with
  | nil =>
    cases h
    exact ⟨[], rfl, rfl⟩
  | cons y l ih =>
    obtain ⟨⟨e, r⟩, he, h⟩ := ok_of_bind h
    dsimp only at h
    split_ifs at h
    obtain ⟨suite, hsuite, h⟩ := ok_of_bind h
    cases h
    obtain ⟨xs, hxs, rfl⟩ := ih hsuite
    exact ⟨(e, r) :: xs, by simp [exporteFils, he, hxs, bind, Except.bind, pure, Except.pure], rfl⟩

theorem suite_exporte {ids : List HandleId} (lieu : Lieu)
    (h : ∀ x ∈ xs, Cite (s.tableFor pid) ids x.1 ∧ x.1.rights.contains x.2 = true)
    (hn : ∀ e, Cite (s.tableFor pid) ids e → nommee e) :
    Suite nommee s.vue
      ⟨((xs.map fun x => x.1.derive lieu x.2 : List Entry) : Multiset Entry).map (Prod.mk lieu) +
        s.prises, s.vue.premiers⟩ := by
  rw [Multiset.map_coe, map_map]
  apply Suite.exporte lieu
  intro x hx
  obtain ⟨hcite, hr⟩ := h x hx
  obtain ⟨id, -, hlookup⟩ := hcite
  obtain ⟨hmem, ht⟩ := lookup_ok hlookup
  exact ⟨mem_prises_tableFor hmem, hn x.1 (h x hx).1, ht, hr⟩

theorem lisEnvoi_ok {ptr : ℕ} {bytes : List UInt8} (h : lisEnvoi u args ptr = .ok (bytes, l)) :
    u.readHandles 1 (args 3) (args 4) = .ok (l.map Prod.fst) := by
  unfold lisEnvoi at h
  split_ifs at h
  obtain ⟨_, -, h⟩ := ok_of_bind h
  obtain ⟨ids, hids, h⟩ := ok_of_bind h
  obtain ⟨masques, -, h⟩ := ok_of_bind h
  split_ifs at h
  cases h
  rw [hids, map_map]
  congr 1
  exact (zipIdx_map_fst 0 ids).symm

theorem suite_channelSend {ptr : ℕ} (hn : ∀ ids, u.readHandles 1 (args 3) (args 4) = .ok ids →
      ∀ e, Cite (s.tableFor pid) ids e → nommee e) :
    Suite nommee s.vue (s.rend (s.channelSendAvecMasques pid u args ptr)).2.vue := by
  cases hsend : s.channelSendAvecMasques pid u args ptr with
  | error x => exact .refl
  | ok r =>
    obtain ⟨⟨bytes, demandes⟩, hlis, h⟩ := ok_of_bind hsend
    obtain ⟨endpoint, -, h⟩ := ok_of_bind h
    obtain ⟨es, hes, h⟩ := ok_of_bind h
    split at h
    · obtain ⟨⟨n, k⟩, hk, h⟩ := ok_of_bind h
      cases h
      obtain ⟨xs, hxs, rfl⟩ := exporteMessage_ok hes
      have hcopies := suite_exporte .message (exporteFils_ok hxs) (hn _ (lisEnvoi_ok hlis))
      exact hcopies.trans (Suite.perd (prises_send hk))
    · cases h

/-- A received message goes to the table whole, or stays where it was. -/
theorem suite_livre {k : ChannelInner} {c : ℕ} (h : (s.channel c).recv side = .ok (m, k)) :
    Suite nommee s.vue ((s.setChannel c k).livre pid c side m u args).2.vue := by
  have hrecv := prises_recv h
  -- every refusal puts the message back and leaves the table with the handles it had
  have hremis : ∀ s' : System, s'.prises = (s.setChannel c k).prises → s'.objects = s.objects →
      Suite nommee s.vue (s'.requeueFront c side m).vue := by
    intro s' hp ho
    refine suite_of_le ?_ ho
    rw [← hrecv, ← hp]
    exact prises_requeueFront s' c side m
  have hinsert := ((s.setChannel c k).tableFor pid).insertMany_spec
    (m.handles.map fun e => e.derive (.processus pid) e.rights)
  unfold livre
  split_ifs
  · exact hremis _ rfl rfl
  split
  · exact hremis _ rfl rfl
  split
  · rename_i x t ht
    rw [ht] at hinsert
    exact hremis _ (prises_setTable_eq hinsert) rfl
  · rename_i installed t ht
    rw [ht] at hinsert
    obtain ⟨hentries, htenus⟩ := hinsert
    split
    · refine hremis _ (prises_setTable_eq ?_) rfl
      have := closeAll_entries htenus
      rw [hentries] at this
      exact add_left_cancel this
    · rw [vue_eq (s := (s.setChannel c k).setTable pid t) (prises_setTable_add hentries) rfl]
      exact Suite.recoit pid hrecv.symm

theorem regle_suite (nommee : Entry → Prop) : Regle fun s s' => Suite nommee s.vue s'.vue where
  refl _ := .refl
  trans h h' := h.trans h'
  install h _ := suite_install h
  canal s := by rw [vue_canal]
  close := suite_closeHandle
  dup := suite_dup _
  livre _ _ _ := suite_livre
  mort := suite_releaseProcess
  lache := suite_lache

theorem suite_prepare {ids : List HandleId} (fils : ℕ)
    (h : ∀ x ∈ xs, Cite (s.tableFor pid) ids x.1 ∧ x.1.rights.contains x.2 = true)
    (hn : ∀ e, Cite (s.tableFor pid) ids e → nommee e) :
    Suite nommee s.vue (s.prepare fils xs).2.vue := by
  have hinsert := (s.tableFor fils).insertMany_spec (xs.map fun x => x.1.derive (.processus fils) x.2)
  unfold prepare
  split
  · rename_i x t ht
    rw [ht] at hinsert
    exact suite_of_le (prises_setTable_eq hinsert).le rfl
  · rename_i installed t ht
    rw [ht] at hinsert
    rw [vue_eq (s := s.setTable fils t) (prises_setTable_add hinsert.1) rfl]
    exact suite_exporte (.processus fils) h hn

theorem lisNaissance_ok {path : List UInt8} (h : lisNaissance u args = .ok (path, l)) :
    ∃ ids, u.readHandles 2 (args 2) (args 3) = .ok ids ∧ ∀ y ∈ l, y.1 ∈ ids := by
  unfold lisNaissance at h
  split_ifs at h
  obtain ⟨_, -, h⟩ := ok_of_bind h
  obtain ⟨path', -, h⟩ := ok_of_bind h
  split_ifs at h
  obtain ⟨ids, hids, h⟩ := ok_of_bind h
  obtain ⟨masques, -, h⟩ := ok_of_bind h
  cases h
  exact ⟨ids, hids, fun y hy => (of_mem_zip hy).1⟩

theorem suite_processSpawn {lancement : Lancement} (hn : ∀ ids, u.readHandles 2 (args 2) (args 3) = .ok ids →
      ∀ e, Cite (s.tableFor pid) ids e → nommee e) :
    Suite nommee s.vue (s.processSpawn pid u args lancement).2.vue := by
  refine (regle_suite nommee).processSpawn s pid u args lancement fun path demandes xs fils hlis hxs => ?_
  obtain ⟨ids, hids, hmem⟩ := lisNaissance_ok hlis
  refine suite_prepare fils (exporteFils_ok hxs) ?_
  rintro e ⟨id, hid, hlookup⟩
  obtain ⟨y, hy, rfl⟩ := mem_map.mp hid
  exact hn ids hids e ⟨y.1, hmem y hy, hlookup⟩

/-- The entries a call copies out of its caller: those its handles designate. -/
def Nommee (s : System) : Appel → Entry → Prop
  | .channelSend pid u args, e | .channelSendAttenue pid u args, e =>
    ∃ ids, u.readHandles 1 (args 3) (args 4) = .ok ids ∧ Cite (s.tableFor pid) ids e
  | .processSpawn pid u args _, e =>
    ∃ ids, u.readHandles 2 (args 2) (args 3) = .ok ids ∧ Cite (s.tableFor pid) ids e
  | _, _ => False

theorem suite_execute (s : System) (a : Appel) : Suite (s.Nommee a) s.vue (s.execute a).2.vue := by
  refine (regle_suite (s.Nommee a)).execute s ?_ ?_
  · rintro pid u args ptr (rfl | rfl) <;> exact suite_channelSend fun ids h e he => ⟨ids, h, he⟩
  · rintro pid u args lancement rfl
    exact suite_processSpawn fun ids h e he => ⟨ids, h, he⟩

end System

end BouchaudOS.Natif
