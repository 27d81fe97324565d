import BouchaudOS.Natif.Derivation

/-!
# Rights never grow

In every run of the native calls, each handle comes from the first handle to its object
through a line of handles along which rights are only taken away, and which leaves a
process only from a handle with the right to be transferred.

Copies are another matter: a transfer leaves the handle of the sender in place, so the
number of handles to an object is bounded only where neither duplication nor transfer
is granted.
-/

namespace BouchaudOS.Natif

open List Multiset System

/-- The handle `enfant` was derived from `parent`: same object, no right more, and out of
a process only with the right of transfer. -/
structure Derive (enfant parent : Maillon) : Prop where
  object : enfant.object = parent.object
  rights : parent.rights.contains enfant.rights = true
  transfer : ∀ pid, parent.lieu = .processus pid → enfant.lieu ≠ .processus pid →
    parent.rights.contains .transfer = true

/-- The line of descent of a handle, up to the handle its object was installed with. -/
structure Fondee (premiers : List Rights) (x : Prise) : Prop where
  tete : ∃ anciens, x.2.lignee = ⟨x.1, x.2.object, x.2.rights⟩ :: anciens
  chaine : x.2.lignee.IsChain Derive
  racine : ∃ pid r, x.2.lignee.getLast? = some ⟨.processus pid, x.2.object, r⟩ ∧
    premiers[x.2.object]? = some r

theorem Fondee.derive {premiers : List Rights} {lieu lieu' : Lieu} {e : Entry} {r : Rights}
    (h : Fondee premiers (lieu, e)) (hr : e.rights.contains r = true)
    (ht : ∀ pid, lieu = .processus pid → lieu' ≠ .processus pid →
      e.rights.contains .transfer = true) : Fondee premiers (lieu', e.derive lieu' r) := by
  obtain ⟨anciens, hl⟩ := h.tete
  refine ⟨⟨e.lignee, rfl⟩, ?_, ?_⟩
  · have hc := h.chaine
    simp only [Entry.derive]
    rw [hl] at hc ⊢
    exact .cons_cons ⟨rfl, hr, ht⟩ hc
  · obtain ⟨pid, r0, hlast, hpremier⟩ := h.racine
    refine ⟨pid, r0, ?_, hpremier⟩
    simp only [Entry.derive]
    rw [hl] at hlast ⊢
    simpa [getLast?_cons_cons] using hlast

theorem Fondee.mono {premiers premiers' : List Rights} {x : Prise} (h : Fondee premiers x)
    (hp : premiers <+: premiers') : Fondee premiers' x := by
  obtain ⟨pid, r0, hlast, hpremier⟩ := h.racine
  obtain ⟨suite, rfl⟩ := hp
  have hlt := (List.getElem?_eq_some_iff.mp hpremier).1
  exact ⟨h.tete, h.chaine, pid, r0, hlast, by rwa [List.getElem?_append_left hlt]⟩

variable {nommee : Entry → Prop} {v v' : Vue}

theorem Passe.premiers (h : Passe nommee v v') : v.premiers <+: v'.premiers := by
  cases h with
  | installe pid r => exact prefix_append _ _
  | _ => exact prefix_rfl

/-- Where the handles come from: they were there, are the first of a new object, or are
derived from one that was there. -/
theorem Passe.origine (h : Passe nommee v v') {x : Prise} (hx : x ∈ v'.prises) :
    x ∈ v.prises ∨
    (∃ pid r, x = (.processus pid, .installe (.processus pid) v.premiers.length r) ∧
      v'.premiers = v.premiers ++ [r]) ∨
    ∃ lieu e r, (lieu, e) ∈ v.prises ∧ x.2 = e.derive x.1 r ∧ e.rights.contains r = true ∧
      ∀ pid, lieu = .processus pid → x.1 ≠ .processus pid → e.rights.contains .transfer = true := by
  cases h with
  | perd hp => exact .inl (mem_of_le hp hx)
  | installe pid r =>
    rcases mem_cons.mp hx with rfl | hx
    · exact .inr (.inl ⟨pid, r, rfl, rfl⟩)
    · exact .inl hx
  | duplique he hd hr =>
    rcases mem_cons.mp hx with rfl | hx
    · exact .inr (.inr ⟨_, _, _, he, rfl, hr, fun p hp hp' => absurd hp hp'⟩)
    · exact .inl hx
  | exporte lieu he hn ht hr =>
    rcases mem_cons.mp hx with rfl | hx
    · exact .inr (.inr ⟨_, _, _, he, rfl, hr, fun _ _ _ => ht⟩)
    · exact .inl hx
  | recoit pid hp =>
    rcases mem_cons.mp hx with rfl | hx
    · refine .inr (.inr ⟨.message, _, _, hp ▸ mem_cons_self _ _, rfl, Rights.contains_self _, ?_⟩)
      intro _ hlieu
      cases hlieu
    · exact .inl (hp ▸ mem_cons_of_mem hx)

def Vue.Fondee (v : Vue) : Prop := ∀ x ∈ v.prises, Natif.Fondee v.premiers x

theorem Passe.fondee (h : Passe nommee v v') (hv : v.Fondee) : v'.Fondee := by
  intro x hx
  rcases h.origine hx with hx | ⟨pid, r, rfl, hp⟩ | ⟨lieu, e, r, he, hxe, hr, ht⟩
  · exact (hv x hx).mono h.premiers
  · exact ⟨⟨[], rfl⟩, .singleton _, pid, r, rfl, by simp [hp, Entry.installe]⟩
  · obtain ⟨lieu', e'⟩ := x
    obtain rfl : e' = e.derive lieu' r := hxe
    exact ((hv _ he).derive hr ht).mono h.premiers

theorem Suite.fondee (h : Suite nommee v v') (hv : v.Fondee) : v'.Fondee := by
  induction h with
  | refl => exact hv
  | tail _ hp ih => exact hp.fondee ih

theorem joue_fondee {s : System} (hs : s.vue.Fondee) (appels : List Appel) : (s.joue appels).vue.Fondee := by
  induction appels generalizing s with
  | nil => exact hs
  | cons a appels ih => exact ih ((suite_execute s a).fondee hs)

theorem contains_of_chaine {l : List Maillon} {a b : Maillon} (h : (a :: l).IsChain Derive)
    (hb : (a :: l).getLast? = some b) : b.rights.contains a.rights = true := by
  induction l generalizing a with
  | nil =>
    obtain rfl : a = b := by simpa using hb
    exact Rights.contains_self _
  | cons c l ih =>
    obtain ⟨hac, hc⟩ := isChain_cons_cons.mp h
    exact Rights.contains_trans (ih hc (by simpa [getLast?_cons_cons] using hb)) hac.rights

/-- In every run of native calls, every handle in a table or in a queued message is at
the end of a line of descent along which rights never grow and which leaves a process only
from a handle with `TRANSFER`; so its rights are among those its object was installed
with. -/
theorem droits_jamais_accrus (appels : List Appel) (lieu : Lieu) (e : Entry)
    (h : (lieu, e) ∈ (System.vide.joue appels).prises) :
    (∃ anciens, e.lignee = ⟨lieu, e.object, e.rights⟩ :: anciens) ∧
      e.lignee.IsChain Derive ∧
      ∃ i, (System.vide.joue appels).objects[e.object]? = some i ∧ i.premier.contains e.rights = true := by
  have hfonde := joue_fondee (s := vide) (fun x hx => by cases hx) appels _ h
  obtain ⟨anciens, hl⟩ := hfonde.tete
  refine ⟨⟨anciens, hl⟩, hfonde.chaine, ?_⟩
  obtain ⟨pid, r, hlast, hpremier⟩ := hfonde.racine
  have hchaine := hfonde.chaine
  rw [hl] at hchaine hlast
  rw [vue, getElem?_map, Option.map_eq_some_iff] at hpremier
  obtain ⟨i, hi, rfl⟩ := hpremier
  exact ⟨i, hi, contains_of_chaine hchaine hlast⟩

/-- An event of process 1 and a copy of its handle without `DUP`. -/
theorem droits_jamais_accrus_copie :
    ∃ i, (System.vide.joue [.eventCreate 1, .handleDup 1 (2 ^ 32 + 1) 36]).objects[0]? = some i ∧
      i.premier.contains 36 = true :=
  (droits_jamais_accrus [.eventCreate 1, .handleDup 1 (2 ^ 32 + 1) 36] (.processus 1)
    ⟨0, 36, [⟨.processus 1, 0, 36⟩, ⟨.processus 1, 0, .eventDefault⟩]⟩ (by decide)).2.2

/-- Handles to the object `o`. -/
def Vue.poignees (v : Vue) (o : ℕ) : ℕ := v.prises.countP fun x => x.2.object = o

/-- Handles to the object `o`, in tables and in queued messages. -/
def System.poignees (s : System) (o : ℕ) : ℕ := s.vue.poignees o

/-- No handle to the object `o` carries the right `r`. -/
def Vue.Sans (v : Vue) (r : Rights) (o : ℕ) : Prop :=
  ∀ x ∈ v.prises, x.2.object = o → x.2.rights.contains r = false

variable {o : ℕ}

theorem Passe.sans {r : Rights} (h : Passe nommee v v') (ho : o < v.premiers.length)
    (hv : v.Sans r o) : v'.Sans r o := by
  intro x hx hxo
  rcases h.origine hx with hx | ⟨pid, r, rfl, -⟩ | ⟨lieu, e, r', he, hxe, hr, -⟩
  · exact hv x hx hxo
  · exact absurd hxo ho.ne'
  · rw [hxe] at hxo ⊢
    by_contra hne
    have := Rights.contains_trans hr (Bool.of_not_eq_false hne)
    rw [hv _ he hxo] at this
    cases this

/-- Without `DUP`, only a transfer makes handles more numerous. -/
theorem Passe.poignees_le (h : Passe nommee v v') (ho : o < v.premiers.length)
    (hv : v.Sans .dup o) (hn : ∀ e, nommee e → e.object ≠ o) :
    v'.poignees o ≤ v.poignees o := by
  unfold Vue.poignees
  cases h with
  | perd hp => exact countP_le_of_le _ hp
  | installe pid r =>
    rw [Multiset.countP_cons_of_neg]
    exact ho.ne'
  | duplique he hd hr =>
    rw [Multiset.countP_cons_of_neg]
    intro heo
    rw [hv _ he heo] at hd
    cases hd
  | exporte lieu he hne ht hr =>
    rw [Multiset.countP_cons_of_neg]
    intro heo
    exact hn _ hne heo
  | recoit pid hp =>
    rw [hp, Multiset.countP_cons, Multiset.countP_cons]
    exact le_rfl

theorem Suite.premiers (h : Suite nommee v v') : v.premiers <+: v'.premiers := by
  induction h with
  | refl => exact prefix_rfl
  | tail _ hp ih => exact ih.trans hp.premiers

theorem Suite.sans {r : Rights} (h : Suite nommee v v') (ho : o < v.premiers.length)
    (hv : v.Sans r o) : v'.Sans r o := by
  induction h with
  | refl => exact hv
  | tail hs hp ih => exact hp.sans (ho.trans_le (Suite.premiers hs).length_le) ih

theorem Suite.poignees_le (h : Suite nommee v v') (ho : o < v.premiers.length)
    (hv : v.Sans .dup o) (hn : ∀ e, nommee e → e.object ≠ o) :
    v'.poignees o ≤ v.poignees o := by
  induction h with
  | refl => exact le_rfl
  | tail hs hp ih =>
    exact (hp.poignees_le (ho.trans_le (Suite.premiers hs).length_le) (Suite.sans hs ho hv) hn).trans ih

/-- No call of the run sends a handle to `o` through a channel or to a new process. -/
def Retient (o : ℕ) : System → List Appel → Prop
  | _, [] => True
  | s, a :: appels => (∀ e, s.Nommee a e → e.object ≠ o) ∧ Retient o (s.execute a).2 appels

theorem joue_poignees_le {s : System} {o : ℕ} {appels : List Appel} (ho : o < s.vue.premiers.length)
    (hd : s.vue.Sans .dup o) (h : Retient o s appels) :
    (s.joue appels).poignees o ≤ s.poignees o := by
  induction appels generalizing s with
  | nil => exact le_rfl
  | cons a appels ih =>
    have hs := suite_execute s a
    have hrun := ih (ho.trans_le hs.premiers.length_le) (hs.sans ho hd) h.2
    exact hrun.trans (hs.poignees_le ho hd h.1)

/-- Handles without `TRANSFER` are never sent. -/
theorem retient_of_sans {s : System} {o : ℕ} (ho : o < s.vue.premiers.length)
    (ht : s.vue.Sans .transfer o) (appels : List Appel) : Retient o s appels := by
  induction appels generalizing s with
  | nil => trivial
  | cons a appels ih =>
    have hs := suite_execute s a
    refine ⟨?_, ih (ho.trans_le hs.premiers.length_le) (hs.sans ho ht)⟩
    have hcite : ∀ pid ids e, Cite (s.tableFor pid) ids e → e.object ≠ o := by
      rintro pid ids e ⟨id, -, hlookup⟩ heo
      obtain ⟨hmem, htransfer⟩ := HandleTable.lookup_ok hlookup
      rw [ht _ (mem_prises_tableFor hmem) heo] at htransfer
      cases htransfer
    intro e he
    cases a with
    | channelSend pid u args =>
      obtain ⟨ids, -, hc⟩ := he
      exact hcite pid ids e hc
    | channelSendAttenue pid u args =>
      obtain ⟨ids, -, hc⟩ := he
      exact hcite pid ids e hc
    | processSpawn pid u args lancement =>
      obtain ⟨ids, -, hc⟩ := he
      exact hcite pid ids e hc
    | _ => cases he

/-- The handles to an object none of which carries `DUP` do not become more numerous in a
run whose sends and spawns name none of them; nor in any run if none carries `TRANSFER`
either. -/
theorem sans_dup_sans_transfert (s : System) (o : ℕ) (ho : o < s.objects.length)
    (hd : ∀ x ∈ s.prises, x.2.object = o → x.2.rights.contains .dup = false)
    (appels : List Appel) :
    (Retient o s appels → (s.joue appels).poignees o ≤ s.poignees o) ∧
      ((∀ x ∈ s.prises, x.2.object = o → x.2.rights.contains .transfer = false) →
        (s.joue appels).poignees o ≤ s.poignees o) := by
  have ho' : o < s.vue.premiers.length := by simpa [vue] using ho
  constructor
  · exact joue_poignees_le ho' hd
  · intro ht
    exact joue_poignees_le ho' hd (retient_of_sans ho' ht appels)

/-- Process 1 with an event, one handle with the rights `droits` to it, and a channel. -/
def evenementUnique (droits : ℕ) : System :=
  vide.joue [.eventCreate 1, .handleDup 1 (2 ^ 32 + 1) droits,
    .handleClose 1 (2 ^ 32 + 1),
    .channelCreate 1 ⟨fun _ _ _ => .ok [], fun _ _ _ => .ok (), fun _ _ _ => .ok ()⟩ 8]

def envoiEvenement : Appel :=
  .channelSend 1 ⟨fun k _ _ => .ok (if k = 1 then Bytes.leBytes 8 (2 ^ 32 + 2) else []),
    fun _ _ _ => .ok (), fun _ _ _ => .ok ()⟩ ![2 ^ 33 + 1, 0, 0, 8, 1, 0]

/-- The event with the right `SIGNAL` alone cannot be sent. -/
theorem sans_dup_sans_transfert_evenement :
    ((evenementUnique 4).joue [envoiEvenement]).poignees 0 ≤ (evenementUnique 4).poignees 0 :=
  (sans_dup_sans_transfert (evenementUnique 4) 0 (by decide) (by decide) [envoiEvenement]).2 (by decide)

/-- With `TRANSFER` and without `DUP` it is multiplied by sending it: the sender keeps its
handle. -/
theorem transfert_multiplie :
    (∀ x ∈ (evenementUnique 36).prises, x.2.object = 0 → x.2.rights.contains .dup = false) ∧
      (evenementUnique 36).poignees 0 = 1 ∧
      ((evenementUnique 36).joue [envoiEvenement]).poignees 0 = 2 := by
  decide

end BouchaudOS.Natif
