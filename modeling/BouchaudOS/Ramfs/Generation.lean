import BouchaudOS.Ramfs.Collecte
import BouchaudOS.Ramfs.Deplacement

/-!
# Counting the modifications of the persistent tree

The deferred writer sees a modification only through the counter. An operation
that changes what a synchronisation would collect changes the children of a
directory below the persistent root; the counter moves when the operation touches
that directory, or the node, and finds the root in at most 64 links.
-/

namespace BouchaudOS.Ramfs

open List

/-- The operations that modify the table. -/
inductive Op
  | writeNodeBytes (idx : Idx) (data : List UInt8)
  | appendNode (idx : Idx) (text : List UInt8)
  | mkdirAt (parent : Idx) (name : List UInt8)
  | touchAt (parent : Idx) (name : List UInt8)
  | libereNoeud (idx : Idx)
  | renameat2 (drapeaux : UInt32) (de vers : List UInt8)
  | cp (de vers : List UInt8) (cwd : Idx)
  | mv (de vers : List UInt8) (cwd : Idx)
  | pathRename (fds : List (Option FileSystem.FdEntry)) (oldFd : ℤ) (op : List UInt8) (newFd : ℤ)
      (np : List UInt8)

namespace FileSystem

def apres (fs : FileSystem) : Except Erreur (Idx × FileSystem) → FileSystem
  | .error _ => fs
  | .ok r => r.2

/-- The table after an operation. -/
def execute (ctx : Contexte) (fs : FileSystem) : Op → FileSystem
  | .writeNodeBytes idx data => (fs.writeNodeBytes ctx idx data).2
  | .appendNode idx text => fs.appendNode ctx idx text
  | .mkdirAt parent name => fs.apres (fs.mkdirAt ctx parent name)
  | .touchAt parent name => fs.apres (fs.touchAt ctx parent name)
  | .libereNoeud idx => fs.libereNoeud idx
  | .renameat2 drapeaux de vers => (fs.sysRenameat2 ctx drapeaux de vers).2
  | .cp de vers cwd => (fs.cp ctx de vers cwd).2
  | .mv de vers cwd => (fs.mv ctx de vers cwd).2
  | .pathRename fds oldFd op newFd np => (fs.pathRename ctx fds oldFd op newFd np).2

variable {ctx : Contexte} {fs fs' : FileSystem} {r d i s c p x : Idx} {n : List UInt8}
  {de vers : List UInt8} {fds : List (Option FdEntry)}

/-- The tree has its persistent root at `/persist`. -/
structure Monte (fs : FileSystem) (r : Idx) : Prop where
  bienForme : fs.BienForme
  racine : fs.racine = some r
  nonNulle : r ≠ 0
  dossier : (fs.nodes r).kind = .dir
  place : fs.Porte 0 nomPersist r

def Sous (fs : FileSystem) (r x : Idx) : Prop := ∃ k, Depth fs.parents r k x

/-- If the node is below the root, it is less than 64 levels below. -/
def Proche (fs : FileSystem) (r x : Idx) : Prop := ∀ k, Depth fs.parents r k x → k < 64

theorem Monte.of_sansDate (h : fs.Monte r) (hb : fs'.BienForme) (hr : fs'.racine = fs.racine)
    (he : (fs'.nodes r).sansDate = (fs.nodes r).sansDate) : fs'.Monte r := by
  obtain ⟨hu, hk, hp, hn, -⟩ := Node.sansDate_eq_iff.mp he
  obtain ⟨hu0, hp0, hn0⟩ := h.place
  exact ⟨hb, hr.trans h.racine, h.nonNulle, hk.trans h.dossier, hu.trans hu0, hp.trans hp0,
    (congrArg Nom.octets hn).trans hn0⟩

theorem Monte.findChild_eq (h : fs.Monte r) : fs.findChild 0 nomPersist = some r :=
  h.bienForme.findChild_iff.mpr h.place

theorem Sous.enfant (hd : fs.Sous r d) (hx : fs.parents x = d) : fs.Sous r x := by
  obtain ⟨k, hk⟩ := hd
  refine Depth.exists_of_iterate (k := k + 1) ?_
  rw [Function.iterate_succ_apply, hx]
  exact hk.1

theorem enfants_congr (h : ∀ i, i ∈ fs'.enfants d ↔ i ∈ fs.enfants d) : fs'.enfants d = fs.enfants d := by
  unfold enfants at h ⊢
  refine filter_congr fun i _ => ?_
  have hi := h i
  simp only [mem_filter, mem_finRange, true_and] at hi
  rw [Bool.eq_iff_iff]
  exact hi

/-- Whatever changes a snapshot is a child, before or after, of a directory below
the persistent root. -/
theorem Monte.change_enfant (h : fs.Monte r) (h' : fs'.findChild 0 nomPersist = some r)
    {S : Idx → Prop} (hS : ∀ i, ¬S i → (fs'.nodes i).sansDate = (fs.nodes i).sansDate)
    (hch : fs'.instantane ≠ fs.instantane) :
    ∃ x d, S x ∧ fs.Dans d ∧ fs.Sous r d ∧
      ((fs.nodes x).used = true ∧ fs.parents x = d ∨ (fs'.nodes x).used = true ∧ fs'.parents x = d) := by
  by_contra hno
  push Not at hno
  refine hch (instantane_congr (D := fun d => fs.Dans d ∧ fs.Sous r d) h.findChild_eq h'
    (fun d hd i hi _ => ?_) ⟨?_, 0, .zero⟩ fun d hd => ?_)
  · obtain ⟨hu, hpar, -⟩ := mem_enfants.mp hi
    exact ⟨hd.1.enfant ⟨hu, hpar, rfl⟩, hd.2.enfant hpar⟩
  · exact h.bienForme.dans_racine.enfant h.place
  · have hhors (x : Idx) (hx : S x) : x ∉ fs.enfants d ∧ x ∉ fs'.enfants d := by
      obtain ⟨hav, hap⟩ := hno x d hx hd.1 hd.2
      rw [mem_enfants, mem_enfants]
      exact ⟨fun h => hav h.1 h.2.1, fun h => hap h.1 h.2.1⟩
    refine ⟨enfants_congr fun i => ?_, fun i hi => hS i fun hSi => (hhors i hSi).1 hi⟩
    by_cases hSi : S i
    · exact iff_of_false (hhors i hSi).2 (hhors i hSi).1
    · have hsame := Node.sansDate_eq_iff.mp (hS i hSi)
      rw [mem_enfants, mem_enfants, parents, parents, hsame.1, hsame.2.2.1]

theorem remonte_of_depth {k m : ℕ} (h0 : fs.parents 0 = 0) (hr : r ≠ 0)
    (hk : Depth fs.parents r k x) (hkm : k < m) : fs.remonte r m x = true := by
  induction m generalizing k x with
  | zero => exact absurd hkm (Nat.not_lt_zero k)
  | succ m ih =>
    simp only [FileSystem.remonte]
    by_cases hx : x = r
    · rw [if_pos hx]
    · cases k with
      | zero => exact absurd hk.1 hx
      | succ k =>
        have hx0 : x ≠ 0 := by
          rintro rfl
          have hfix : fs.parents^[k + 1] 0 = 0 := Function.iterate_fixed h0 (k + 1)
          exact hr (hk.1.symm.trans hfix)
        rw [if_neg hx, if_neg hx0]
        exact ih hk.of_succ.2 (Nat.lt_of_succ_lt_succ hkm)

theorem Monte.sousPersistant (h : fs.Monte r) (hs : fs.Sous r x) (hp : fs.Proche r x) :
    fs.sousPersistant x = true := by
  obtain ⟨k, hk⟩ := hs
  unfold FileSystem.sousPersistant
  rw [h.racine]
  exact remonte_of_depth h.bienForme.racineParent h.nonNulle hk (hp k hk)

theorem Monte.generation_lt (h : fs.Monte r) {l : List Idx} (hn : Note fs fs' l)
    (hlen : l.length ≤ 3) (hg : fs.generation.toNat + 3 < 2 ^ 64) (hx : x ∈ l) (hs : fs.Sous r x)
    (hp : fs.Proche r x) : fs.generation < fs'.generation := by
  have hpos : 0 < l.countP fs.sousPersistant :=
    countP_pos_iff.mpr ⟨x, hx, h.sousPersistant hs hp⟩
  have hle : l.countP fs.sousPersistant ≤ 3 := countP_le_length.trans hlen
  rw [hn.generation, UInt64.lt_iff_toNat_lt, UInt64.toNat_add,
    UInt64.toNat_ofNat_of_lt' (by norm_num [UInt64.size]; omega), Nat.mod_eq_of_lt (by omega)]
  omega

theorem MemeArbre.monte (h : MemeArbre fs fs') (hr : fs'.racine = fs.racine) (hm : fs.Monte r) : fs'.Monte r where
  bienForme := h.bienForme hm.bienForme
  racine := hr.trans hm.racine
  nonNulle := hm.nonNulle
  dossier := (h.kind_eq r).trans hm.dossier
  place := h.porte_iff.mpr hm.place

theorem MemeArbre.sous (h : MemeArbre fs fs') (hm : fs.Monte r)
    (hautres : ∀ j, j ≠ i → (fs'.nodes j).sansDate = (fs.nodes j).sansDate)
    (hch : fs'.instantane ≠ fs.instantane) : fs.Sous r (fs.parents i) := by
  have hfind : fs'.findChild 0 nomPersist = some r := by
    rw [← hm.findChild_eq]
    exact findChild_congr fun j => h.porte_iff
  obtain ⟨x, d, rfl, -, hd, ⟨-, hx⟩ | ⟨-, hx⟩⟩ := hm.change_enfant hfind (S := (· = i)) hautres hch
  · exact hx ▸ hd
  · rw [h.parents_eq] at hx
    exact hx ▸ hd

theorem libereNoeud_cases (fs : FileSystem) (i : Idx) : fs.libereNoeud i = fs ∨
    i ≠ 0 ∧ (fs.nodes i).used = true ∧ Meme (fs.libre i) (fs.libereNoeud i) ∧
      Note fs (fs.libereNoeud i) [i] := by
  by_cases hi : i = 0 ∨ (fs.nodes i).used = false
  · exact .inl (if_pos hi)
  · rw [not_or, Bool.not_eq_false] at hi
    exact .inr ⟨hi.1, hi.2, libereNoeud_meme hi.1 hi.2, libereNoeud_note hi.1 hi.2⟩

theorem sous_of_libre (hm : fs.Monte r) (h : Meme (fs.libre i) fs')
    (hch : fs'.instantane ≠ fs.instantane) : fs.Sous r i := by
  by_cases hir : i = r
  · exact hir ▸ ⟨0, .zero⟩
  have hplace : fs'.findChild 0 nomPersist = some r := by
    rw [← hm.findChild_eq]
    refine findChild_congr fun j => ?_
    rw [h.arbre.porte_iff, libre_porte]
    refine ⟨fun hj => hj.2, fun hj => ⟨fun he => hir ?_, hj⟩⟩
    exact he ▸ hm.bienForme.noms _ _ j r hj hm.place
  obtain ⟨x, d, rfl, -, hd, ⟨-, hx⟩ | ⟨hu, -⟩⟩ := hm.change_enfant hplace (S := (· = i))
    (fun j hj => by rw [h j, libre_nodes_of_ne hj]) hch
  · exact hd.enfant hx
  · rw [h.arbre.used_eq, libre_used] at hu
    exact absurd rfl hu.1

/-- What a creation does: the node `i` of name `n` appears in `p`. -/
structure Cree (ctx : Contexte) (fs fs' : FileSystem) (i p : Idx) (n : List UInt8) : Prop where
  nonNul : i ≠ 0
  libre : (fs.nodes i).used = false
  ajout : ∃ (kind : NodeKind) (mode : UInt16) (nom : Nom), nom.octets = n ∧
    MemeArbre (fs.nouveau ctx kind mode i p nom) fs'
  autres : ∀ j, j ≠ i → (fs'.nodes j).sansDate = (fs.nodes j).sansDate
  note : Climbs fs.parents 0 (· ≠ i) p → Note fs fs' [p]

theorem cree_of_eq_ok {kind : NodeKind} {mode : UInt16}
    (h : fs.cree ctx kind mode p n = .ok (i, fs')) : Cree ctx fs fs' i p n := by
  obtain ⟨nom, -, hnom, hi0, hu, rfl⟩ := cree_eq_ok h
  have hm := touche_meme ctx (fs.nouveau ctx kind mode i p nom) p
  refine ⟨hi0, hu, ⟨kind, mode, nom, hnom, hm.arbre⟩, fun j hj => ?_, fun hclimb => ?_⟩
  · rw [hm j, nouveau_nodes_of_ne hj]
  · refine (touche_note ctx (fs.nouveau ctx kind mode i p nom) p).congr rfl rfl fun x hx => ?_
    rw [mem_singleton.mp hx]
    exact sousPersistant_congr_of_climbs rfl hclimb fun j hj => nouveau_parents_of_ne hj

theorem Cree.contenu (h : Cree ctx fs fs' i p n) (f : Node → List UInt8) :
    Cree ctx fs (fs'.modifie i fun m => { m with content := f m }) i p n where
  nonNul := h.nonNul
  libre := h.libre
  ajout := by
    obtain ⟨kind, mode, nom, hnom, harbre⟩ := h.ajout
    exact ⟨kind, mode, nom, hnom, harbre.trans (modifie_content_arbre fs' i f)⟩
  autres j hj := by
    rw [modifie_nodes_of_ne _ hj]
    exact h.autres j hj
  note hclimb := ⟨(h.note hclimb).racine, (h.note hclimb).generation⟩

section

variable (h : Cree ctx fs fs' i p n) (hm : fs.Monte r) (hlibre : fs.findChild p n = none)

include h hm hlibre

theorem Cree.findChild_eq : fs'.findChild 0 nomPersist = some r := by
  obtain ⟨kind, mode, nom, rfl, harbre⟩ := h.ajout
  rw [← hm.findChild_eq]
  refine findChild_congr fun j => ?_
  rw [harbre.porte_iff, nouveau_porte]
  constructor
  · rintro (⟨-, hp, hn⟩ | ⟨-, hj⟩)
    · rw [← hp, ← hn, hm.findChild_eq] at hlibre
      cases hlibre
    · exact hj
  · intro hj
    refine .inr ⟨?_, hj⟩
    rintro rfl
    have hu := hj.1
    rw [h.libre] at hu
    cases hu

theorem Cree.sous (hch : fs'.instantane ≠ fs.instantane) : fs.Dans p ∧ fs.Sous r p := by
  obtain ⟨kind, mode, nom, -, harbre⟩ := h.ajout
  obtain ⟨x, d, rfl, hdans, hd, ⟨hu, -⟩ | ⟨-, hpar⟩⟩ := hm.change_enfant (h.findChild_eq hm hlibre) (S := (· = i))
    h.autres hch
  · rw [h.libre] at hu
    cases hu
  · rw [harbre.parents_eq, parents, nouveau_nodes_self] at hpar
    have hpd : p = d := hpar
    rw [hpd]
    exact ⟨hdans, hd⟩

theorem Cree.monte (hp : fs.Dans p) (hd : (fs.nodes p).kind = .dir) : fs'.Monte r := by
  obtain ⟨kind, mode, nom, rfl, harbre⟩ := h.ajout
  have hri : r ≠ i := by
    rintro rfl
    have hu := hm.place.1
    rw [h.libre] at hu
    cases hu
  exact hm.of_sansDate
    (harbre.bienForme (hm.bienForme.nouveau h.nonNul h.libre hp hd (findChild_eq_none.mp hlibre)))
    (h.note (hm.bienForme.climbs_ne hp h.libre)).racine (h.autres r hri)

end

theorem mkdirAt_cases (ctx : Contexte) (fs : FileSystem) (p : Idx) (n : List UInt8) :
    fs.apres (fs.mkdirAt ctx p n) = fs ∨ (fs.nodes p).kind = .dir ∧ fs.findChild p n = none ∧
      ∃ i, Cree ctx fs (fs.apres (fs.mkdirAt ctx p n)) i p n := by
  unfold mkdirAt
  split
  · exact .inl rfl
  rename_i hd
  rw [not_not] at hd
  split
  · exact .inl rfl
  rename_i hlibre
  rw [Option.not_isSome_iff_eq_none] at hlibre
  cases hc : fs.cree ctx .dir 0o755 p n with
  | error e => exact .inl rfl
  | ok r => exact .inr ⟨hd, hlibre, r.1, cree_of_eq_ok hc⟩

/-- `touch_at` finds a node, or creates it. -/
theorem touchAt_cases (ctx : Contexte) (fs : FileSystem) (p : Idx) (n : List UInt8) :
    (∃ e, fs.touchAt ctx p n = .error e) ∨ (fs.nodes p).kind = .dir ∧
      ((∃ i, fs.findChild p n = some i ∧ fs.touchAt ctx p n = .ok (i, fs)) ∨
        fs.findChild p n = none ∧ ∃ i fs', fs.touchAt ctx p n = .ok (i, fs') ∧ Cree ctx fs fs' i p n) := by
  unfold touchAt
  split
  · exact .inl ⟨_, rfl⟩
  rename_i hd
  rw [not_not] at hd
  cases hf : fs.findChild p n with
  | some i => exact .inr ⟨hd, .inl ⟨i, rfl, rfl⟩⟩
  | none =>
    cases hc : fs.cree ctx .file 0o644 p n with
    | error e => exact .inl ⟨e, rfl⟩
    | ok r => exact .inr ⟨hd, .inr ⟨rfl, r.1, r.2, rfl, cree_of_eq_ok hc⟩⟩

theorem touchAt_cree (h : fs.apres (fs.touchAt ctx p n) ≠ fs) : (fs.nodes p).kind = .dir ∧
    fs.findChild p n = none ∧ ∃ i, Cree ctx fs (fs.apres (fs.touchAt ctx p n)) i p n := by
  rcases touchAt_cases ctx fs p n with ⟨e, he⟩ | ⟨hd, ⟨i, -, he⟩ | ⟨hlibre, i, fs', he, hc⟩⟩
  · exact absurd (congrArg fs.apres he) h
  · exact absurd (congrArg fs.apres he) h
  · exact ⟨hd, hlibre, i, he ▸ hc⟩

/-- A copy fails, overwrites a node, or creates it. -/
theorem cp_cases (ctx : Contexte) (fs : FileSystem) (de vers : List UInt8) (cwd : Idx) :
    (fs.cp ctx de vers cwd).2 = fs ∨
    ∃ p n, fs.resolveParentNameChecked ctx vers cwd = .ok (p, n) ∧ (fs.nodes p).kind = .dir ∧
      ((∃ (i : Idx) (f : Node → List UInt8), fs.findChild p n = some i ∧
          (fs.cp ctx de vers cwd).2 = fs.modifie i fun m => { m with content := f m }) ∨
        fs.findChild p n = none ∧ ∃ i, Cree ctx fs (fs.cp ctx de vers cwd).2 i p n) := by
  unfold cp
  split
  · exact .inl rfl
  split
  · exact .inl rfl
  split
  · exact .inl rfl
  split
  · exact .inl rfl
  rename_i src _ _ _ _ p n hplace
  split
  · exact .inl rfl
  rcases touchAt_cases ctx fs p n with ⟨e, he⟩ | ⟨hd, ⟨i, hf, ht⟩ | ⟨hf, i, fs', ht, hc⟩⟩
  · rw [he]
    exact .inl rfl
  · rw [ht]
    exact .inr ⟨p, n, hplace, hd, .inl ⟨i, fun _ => (fs.nodes src).content, hf, rfl⟩⟩
  · rw [ht]
    exact .inr ⟨p, n, hplace, hd, .inr ⟨hf, i, hc.contenu fun _ => (fs'.nodes src).content⟩⟩

variable {drapeaux : UInt32} {nom : Nom}

/-- A rename touches the directory it takes the node from and the one it puts it in. -/
theorem Effet.note (he : Effet fs drapeaux s p nom fs') (hs : fs.Dans s) (hs0 : s ≠ 0)
    (hp : fs.Dans p) : fs' = fs ∨
      ∃ l : List Idx, l.length ≤ 3 ∧ fs.parents s ∈ l ∧ p ∈ l ∧ Note fs fs' l := by
  cases he with
  | rien _ => exact .inl rfl
  | deplace _ _ _ hn => exact .inr ⟨_, by simp, by simp, by simp, hn⟩
  | remplace _ _ _ _ _ _ _ hn => exact .inr ⟨_, by simp, by simp, by simp, hn⟩
  | @echange _ c hc hcs hc0 _ hclimb hclimb' _ hn =>
    rw [(echange_place hcs.symm s).1, (echange_place hcs.symm c).1, Equiv.swap_apply_left,
      Equiv.swap_apply_right, hc.2.1] at hn
    -- neither directory is below one of the two nodes: the exchange does not change its standing
    have hmeme : ∀ x ∈ [p, fs.parents s], (fs.echange s c).sousPersistant x = fs.sousPersistant x := by
      intro x hx
      have hors : Climbs fs.parents 0 (fun y => y ≠ s ∧ y ≠ c) x := by
        rw [mem_cons, mem_singleton] at hx
        rcases hx with rfl | rfl
        · have habove := ((hp.enfant hc).2.above hc0).mono fun _ hy => hy.2
          rw [hc.2.1] at habove
          exact hclimb.and habove
        · exact ((hs.2.above hs0).mono fun _ hy => hy.2).and hclimb'
      exact sousPersistant_congr_of_climbs rfl hors fun y hy =>
        echange_parents_of_ne hcs.symm hy.1 hy.2
    exact .inr ⟨_, by simp, by simp, by simp, hn.congr rfl rfl hmeme⟩

/-- The nodes a rename changes are, before and after, in one of the two directories. -/
theorem Effet.parents_of_change (he : Effet fs drapeaux s p nom fs') (hx : x = s ∨ fs.Porte p nom.octets x) :
    (fs.parents x = fs.parents s ∨ fs.parents x = p) ∧
      (fs'.parents x = fs.parents s ∨ fs'.parents x = p) := by
  have hfs : fs.parents x = fs.parents s ∨ fs.parents x = p := by
    rcases hx with rfl | hx
    · exact .inl rfl
    · exact .inr hx.2.1
  refine ⟨hfs, ?_⟩
  have hpose : ∀ {fs1 : FileSystem}, fs1.parents = fs.parents →
      (fs1.pose s p nom).parents x = fs.parents s ∨ (fs1.pose s p nom).parents x = p := by
    intro fs1 h1
    by_cases hxs : x = s
    · rw [hxs]
      exact .inr pose_parents_self
    · rwa [pose_parents_of_ne hxs, h1]
  cases he with
  | rien _ => exact hfs
  | deplace _ _ hm _ =>
    rw [hm.arbre.parents_eq]
    exact hpose rfl
  | remplace _ _ _ _ _ _ hm _ =>
    rw [hm.arbre.parents_eq]
    exact hpose libre_parents
  | @echange _ c hc hcs _ _ _ _ hm _ =>
    rw [hm.arbre.parents_eq, (echange_place hcs.symm x).1]
    by_cases hxs : x = s
    · rw [hxs, Equiv.swap_apply_left]
      exact .inr hc.2.1
    · by_cases hxc : x = c
      · rw [hxc, Equiv.swap_apply_right]
        exact .inl rfl
      · rwa [Equiv.swap_apply_of_ne_of_ne hxs hxc]

theorem Monte.effet {drapeaux : UInt32} {nom : Nom} (hm : fs.Monte r)
    (he : Effet fs drapeaux s p nom fs') (hs : fs.Dans s) (hs0 : s ≠ 0) (hp : fs.Dans p)
    (hd : (fs.nodes p).kind = .dir) (hsr : s ≠ r) (hr : ¬fs.Porte p nom.octets r) :
    fs'.Monte r := by
  refine hm.of_sansDate (he.bienForme hm.bienForme hs hs0 hp hd) ?_ (he.autres hsr.symm hr)
  rcases he.note hs hs0 hp with rfl | ⟨l, -, -, -, hn⟩
  · rfl
  · exact hn.racine

/-- What the last step of a move does, when its place is in order: nothing, or the
node has its new parent and name. -/
theorem rattacheOu_cases {e : ℤ} (h : fs.PlaceSaine s p n) :
    (fs.rattacheOu e s p n).2 = fs ∨ ∃ nom : Nom, (fs.rattacheOu e s p n).2 = fs.pose s p nom := by
  by_cases hn : Nom.Acceptable n
  · rw [rattacheOu_of_acceptable hn]
    exact .inr ⟨_, rfl⟩
  · unfold PlaceSaine at h
    rw [if_neg hn] at h
    rw [rattacheOu, rattache_of_refuse hn]
    exact .inl (modifie_parent_eq_iff.mpr h)

theorem Monte.instantane_pose {nom : Nom} (hm : fs.Monte r) (hm' : (fs.pose s p nom).Monte r)
    (hs : ¬fs.Sous r (fs.parents s)) (hp : ¬fs.Sous r p) :
    (fs.pose s p nom).instantane = fs.instantane := by
  by_contra hch
  obtain ⟨x, d, rfl, -, hd, ⟨-, hpar⟩ | ⟨-, hpar⟩⟩ := hm.change_enfant hm'.findChild_eq (S := (· = s))
    (fun j hj => by rw [pose_nodes_of_ne hj]) hch
  · exact hs (hpar ▸ hd)
  · rw [pose_parents_self] at hpar
    exact hp (hpar ▸ hd)

theorem mv_cases (ctx : Contexte) (fs : FileSystem) (de vers : List UInt8) (cwd : Idx) :
    (fs.mv ctx de vers cwd).2 = fs ∨ ∃ s p n, fs.mvPlace ctx de vers cwd = some (s, p, n) ∧
      (fs.mv ctx de vers cwd).2 = (fs.rattacheOu 1 s p n).2 := by
  unfold mv
  cases fs.mvPlace ctx de vers cwd with
  | none => exact .inl rfl
  | some place => exact .inr ⟨place.1, place.2.1, place.2.2, rfl, rfl⟩

theorem pathRename_cases (ctx : Contexte) (fs : FileSystem) (fds : List (Option FdEntry)) (oldFd : ℤ)
    (op : List UInt8) (newFd : ℤ) (np : List UInt8) :
    (fs.pathRename ctx fds oldFd op newFd np).2 = fs ∨
    ∃ s p n, fs.pathRenamePlace ctx fds oldFd op newFd np = .ok (s, p, n) ∧
      (fs.pathRename ctx fds oldFd op newFd np).2 = (fs.pathRenameVers s p n (fs.findChild p n)).2 := by
  unfold pathRename
  cases fs.pathRenamePlace ctx fds oldFd op newFd np with
  | error e => exact .inl rfl
  | ok place => exact .inr ⟨place.1, place.2.1, place.2.2, rfl, rfl⟩

theorem BienForme.remplace_cases (h : fs.BienForme) (hc : fs.findChild p n = some c) (hn : n ≠ [])
    (hk : (fs.nodes c).kind ≠ .dir) (e : ℤ) (s : Idx) : ∃ nom : Nom,
      Meme ((fs.libre c).pose s p nom) ((fs.libereNoeud c).rattacheOu e s p n).2 ∧
      Note fs ((fs.libereNoeud c).rattacheOu e s p n).2 [c] := by
  have hporte := h.findChild_iff.mp hc
  have hc0 : c ≠ 0 := fun he => hk (he ▸ h.racineDossier)
  have hacc : Nom.Acceptable n := ⟨hn, hporte.2.2 ▸ (fs.nodes c).name.borne⟩
  have hnote := libereNoeud_note hc0 hporte.1
  rw [rattacheOu_of_acceptable hacc]
  exact ⟨_, (libereNoeud_meme hc0 hporte.1).pose _, hnote.racine, hnote.generation⟩

/-- The operation is on nodes of the tree, keeps it a tree, and leaves the
persistent root where it is. -/
def Legitime (ctx : Contexte) (fs : FileSystem) (r : Idx) : Op → Prop
  | .writeNodeBytes _ _ | .appendNode _ _ => True
  | .mkdirAt p _ | .touchAt p _ => fs.Dans p
  | .libereNoeud i => i ≠ r ∧ ∀ j, (fs.nodes j).used = true → fs.estAnonyme j = false → fs.parents j ≠ i
  | .renameat2 _ de vers => fs.resolve de 0 ≠ some r ∧
      ∀ p n, fs.resolveParentName vers 0 = some (p, n) → ¬fs.Porte p n r
  | .cp _ _ cwd => fs.Dans cwd
  | .mv de vers cwd => fs.MvSain ctx de vers cwd ∧
      ∀ s p n, fs.mvPlace ctx de vers cwd = some (s, p, n) → s ≠ r
  | .pathRename fds oldFd op newFd np => fs.PathRenameSain ctx fds oldFd op newFd np ∧
      ∀ s p n, fs.pathRenamePlace ctx fds oldFd op newFd np = .ok (s, p, n) → s ≠ r

/-- What is found at the destination of `path_rename` is not changed, or is a file
below the root that is freed and counted, or both directories are elsewhere. -/
def CompteVers (fs : FileSystem) (r s p : Idx) : Option Idx → Prop
  | none => ¬fs.Sous r (fs.parents s) ∧ ¬fs.Sous r p
  | some c => c = s ∨ (fs.nodes c).kind = .dir ∨ fs.Sous r p ∧ fs.Proche r c ∨
      ¬fs.Sous r (fs.parents s) ∧ ¬fs.Sous r p

/-- The operation touches what it changes, less than 64 levels below the root. -/
def Compte (ctx : Contexte) (fs : FileSystem) (r : Idx) : Op → Prop
  | .writeNodeBytes i _ | .appendNode i _ | .libereNoeud i => fs.Proche r i
  | .mkdirAt p _ | .touchAt p _ => fs.Proche r p
  | .renameat2 _ de vers => fs.resolve de 0 ≠ some r ∧
      (∀ s, fs.resolve de 0 = some s → fs.Proche r (fs.parents s)) ∧
      ∀ p n, fs.resolveParentName vers 0 = some (p, n) → ¬fs.Porte p n r ∧ fs.Proche r p
  | .cp _ vers cwd => ∀ p n, fs.resolveParentNameChecked ctx vers cwd = .ok (p, n) →
      fs.findChild p n = none ∧ fs.Proche r p ∨ ¬fs.Sous r p
  | .mv de vers cwd => fs.MvSain ctx de vers cwd ∧
      ∀ s p n, fs.mvPlace ctx de vers cwd = some (s, p, n) → s ≠ r ∧ ¬fs.Sous r (fs.parents s) ∧ ¬fs.Sous r p
  | .pathRename fds oldFd op newFd np => fs.PathRenameSain ctx fds oldFd op newFd np ∧
      ∀ s p n, fs.pathRenamePlace ctx fds oldFd op newFd np = .ok (s, p, n) →
        s ≠ r ∧ fs.CompteVers r s p (fs.findChild p n)

theorem Monte.renameat2 (hm : fs.Monte r) (ctx : Contexte) (drapeaux : UInt32)
    (hl : fs.Legitime ctx r (.renameat2 drapeaux de vers)) :
    (fs.execute ctx (.renameat2 drapeaux de vers)).Monte r := by
  rcases hm.bienForme.sysRenameat2_cases ctx drapeaux de vers with ⟨e, -, he⟩ |
    ⟨s, p, nom, fs', hsource, hplace, hs0, hs, hp, hd, he, heff⟩
  · rw [execute, he]
    exact hm
  · rw [execute, he]
    exact hm.effet heff hs hs0 hp hd (fun hsr => hl.1 (hsr ▸ hsource)) (hl.2 p _ hplace)

theorem Monte.mv (hm : fs.Monte r) {cwd : Idx}
    (hl : fs.Legitime ctx r (.mv de vers cwd)) : (fs.execute ctx (.mv de vers cwd)).Monte r := by
  have hsain := ((hm.bienForme.sain_mv_iff ctx de vers cwd).mpr hl.1).1.1
  rcases mv_cases ctx fs de vers cwd with he | ⟨s, p, n, hplace, he⟩
  · rw [execute, he]
    exact hm
  · rcases rattacheOu_cases (e := 1) (hl.1 s p n hplace) with hr | ⟨nom, hr⟩
    · rw [execute, he, hr]
      exact hm
    · rw [he, hr] at hsain
      rw [execute, he, hr]
      exact hm.of_sansDate hsain rfl (by rw [pose_nodes_of_ne (hl.2 s p n hplace).symm])

/-- What `path_rename` does, when it moves a node to a place in order. -/
theorem Monte.pathRenameVers_cases (hm : fs.Monte r) (hn : n ≠ []) {cible : Option Idx}
    (hc : fs.findChild p n = cible) (hsain : fs.PlaceSaineVers s p n cible) :
    (fs.pathRenameVers s p n cible).2 = fs ∨
    cible = none ∧ (∃ nom : Nom, (fs.pathRenameVers s p n cible).2 = fs.pose s p nom) ∨
    ∃ (c : Idx) (nom : Nom), cible = some c ∧ c ≠ s ∧ (fs.nodes c).kind ≠ .dir ∧
      Meme ((fs.libre c).pose s p nom) (fs.pathRenameVers s p n cible).2 ∧
      Note fs (fs.pathRenameVers s p n cible).2 [c] := by
  cases cible with
  | none => exact (rattacheOu_cases hsain).imp id fun h => .inl ⟨rfl, h⟩
  | some c =>
    simp only [pathRenameVers]
    by_cases hcs : c = s
    · rw [if_pos hcs]
      exact .inl rfl
    · rw [if_neg hcs]
      by_cases hk : (fs.nodes c).kind = .dir
      · rw [if_pos hk]
        exact .inl rfl
      · rw [if_neg hk]
        obtain ⟨nom, hmeme, hnote⟩ :=
          hm.bienForme.remplace_cases hc hn hk Wasi.nametoolong s
        exact .inr (.inr ⟨c, nom, rfl, hcs, hk, hmeme, hnote⟩)

theorem Monte.pathRename (hm : fs.Monte r) {oldFd newFd : ℤ}
    {op np : List UInt8} (hl : fs.Legitime ctx r (.pathRename fds oldFd op newFd np)) :
    (fs.execute ctx (.pathRename fds oldFd op newFd np)).Monte r := by
  have hsain := ((hm.bienForme.sain_pathRename_iff ctx fds oldFd op newFd np).mpr hl.1).1.1
  rcases pathRename_cases ctx fs fds oldFd op newFd np with he | ⟨s, p, n, hplace, he⟩
  · rw [execute, he]
    exact hm
  have hrs : r ≠ s := (hl.2 s p n hplace).symm
  rw [he] at hsain
  rw [execute, he]
  rcases hm.pathRenameVers_cases (pathRenamePlace_ne_nil hplace) rfl (hl.1 s p n hplace) with
    he' | ⟨-, nom, he'⟩ | ⟨c, nom, -, -, hk, hmeme, hnote⟩
  · rw [he']
    exact hm
  · rw [he'] at hsain ⊢
    exact hm.of_sansDate hsain rfl (by rw [pose_nodes_of_ne hrs])
  · refine hm.of_sansDate hsain hnote.racine ?_
    have hrc : r ≠ c := fun hrc => hk (hrc ▸ hm.dossier)
    rw [hmeme r, pose_nodes_of_ne hrs, libre_nodes_of_ne hrc]

theorem Monte.execute (hm : fs.Monte r) {op : Op} (hl : fs.Legitime ctx r op) :
    (fs.execute ctx op).Monte r := by
  by_cases hid : fs.execute ctx op = fs
  · rwa [hid]
  cases op with
  | writeNodeBytes i data =>
    have he := (writeNodeBytes_cases ctx fs i data).resolve_left hid
    exact he.arbre.monte he.note.racine hm
  | appendNode i text =>
    have he := (appendNode_cases ctx fs i text).resolve_left hid
    exact he.arbre.monte he.note.racine hm
  | mkdirAt p n =>
    obtain ⟨hd, hlibre, i, hc⟩ := (mkdirAt_cases ctx fs p n).resolve_left hid
    exact hc.monte hm hlibre hl hd
  | touchAt p n =>
    obtain ⟨hd, hlibre, i, hc⟩ := touchAt_cree hid
    exact hc.monte hm hlibre hl hd
  | libereNoeud i =>
    obtain ⟨hi0, -, hmeme, hnote⟩ := (libereNoeud_cases fs i).resolve_left hid
    refine hm.of_sansDate (hmeme.arbre.bienForme (hm.bienForme.libre hi0 hl.2)) hnote.racine ?_
    rw [FileSystem.execute, hmeme r, libre_nodes_of_ne hl.1.symm]
  | renameat2 drapeaux de vers => exact hm.renameat2 ctx drapeaux hl
  | cp de vers cwd =>
    obtain ⟨p, n, hplace, hd, ⟨i, f, -, he⟩ | ⟨hlibre, i, hc⟩⟩ := (cp_cases ctx fs de vers cwd).resolve_left hid
    · rw [FileSystem.execute, he]
      exact (modifie_content_arbre fs i f).monte rfl hm
    · exact hc.monte hm hlibre (hm.bienForme.dans_resolveParentName hl (resolveParentName_of_checked hplace)) hd
  | mv de vers cwd => exact hm.mv hl
  | pathRename fds oldFd op newFd np => exact hm.pathRename hl

section

variable (hm : fs.Monte r) (hg : fs.generation.toNat + 3 < 2 ^ 64)

include hm hg

theorem Monte.generation_renameat2 {drapeaux : UInt32} (hc : fs.Compte ctx r (.renameat2 drapeaux de vers))
    (hch : (fs.execute ctx (.renameat2 drapeaux de vers)).instantane ≠ fs.instantane) :
    fs.generation < (fs.execute ctx (.renameat2 drapeaux de vers)).generation := by
  obtain ⟨hsource', hproche, hcible⟩ := hc
  have hm' := hm.renameat2 ctx drapeaux ⟨hsource', fun p n hp => (hcible p n hp).1⟩
  revert hch hm'
  rw [FileSystem.execute]
  rcases hm.bienForme.sysRenameat2_cases ctx drapeaux de vers with ⟨e, -, he⟩ |
    ⟨s, p, nom, fs', hsource, hplace, hs0, hs, hp, -, he, heff⟩
  · rw [he]
    exact fun hch _ => absurd rfl hch
  rw [he]
  intro hch hm'
  rcases heff.note hs hs0 hp with rfl | ⟨l, hlen, hls, hlp, hnote⟩
  · exact absurd rfl hch
  obtain ⟨x, d, hx, -, hd, hxd⟩ := hm.change_enfant hm'.findChild_eq
    (S := fun x => x = s ∨ fs.Porte p nom.octets x)
    (fun j hj => heff.autres (fun h => hj (.inl h)) fun h => hj (.inr h)) hch
  obtain ⟨hav, hap⟩ := heff.parents_of_change hx
  have hdir : d = fs.parents s ∨ d = p := by
    rcases hxd with ⟨-, rfl⟩ | ⟨-, rfl⟩
    · exact hav
    · exact hap
  rcases hdir with rfl | rfl
  · exact hm.generation_lt hnote hlen hg hls hd (hproche s hsource)
  · exact hm.generation_lt hnote hlen hg hlp hd (hcible _ _ hplace).2

omit hg in
theorem Monte.instantane_mv {cwd : Idx} (hc : fs.Compte ctx r (.mv de vers cwd)) :
    (fs.execute ctx (.mv de vers cwd)).instantane = fs.instantane := by
  have hm' : (fs.execute ctx (.mv de vers cwd)).Monte r :=
    hm.mv ⟨hc.1, fun s p n hplace => (hc.2 s p n hplace).1⟩
  revert hm'
  rw [FileSystem.execute]
  rcases mv_cases ctx fs de vers cwd with he | ⟨s, p, n, hplace, he⟩
  · rw [he]
    exact fun _ => rfl
  rw [he]
  obtain ⟨-, hs, hp⟩ := hc.2 s p n hplace
  rcases rattacheOu_cases (e := 1) (hc.1 s p n hplace) with hr | ⟨nom, hr⟩
  · rw [hr]
    exact fun _ => rfl
  · rw [hr]
    exact fun hm' => hm.instantane_pose hm' hs hp

theorem Monte.generation_pathRename {oldFd newFd : ℤ}
    {op np : List UInt8} (hc : fs.Compte ctx r (.pathRename fds oldFd op newFd np))
    (hch : (fs.execute ctx (.pathRename fds oldFd op newFd np)).instantane ≠ fs.instantane) :
    fs.generation < (fs.execute ctx (.pathRename fds oldFd op newFd np)).generation := by
  have hm' : (fs.execute ctx (.pathRename fds oldFd op newFd np)).Monte r :=
    hm.pathRename ⟨hc.1, fun s p n hplace => (hc.2 s p n hplace).1⟩
  revert hch hm'
  rw [FileSystem.execute]
  rcases pathRename_cases ctx fs fds oldFd op newFd np with he | ⟨s, p, n, hplace, he⟩
  · rw [he]
    exact fun hch _ => absurd rfl hch
  rw [he]
  have hvers := (hc.2 s p n hplace).2
  rcases hm.pathRenameVers_cases (pathRenamePlace_ne_nil hplace) rfl (hc.1 s p n hplace) with
    he' | ⟨hnone, nom, he'⟩ | ⟨c, nom, hsome, hcs, hk, hmeme, hnote⟩
  · rw [he']
    exact fun hch _ => absurd rfl hch
  · rw [hnone] at hvers
    rw [he']
    exact fun hch hm' => absurd (hm.instantane_pose hm' hvers.1 hvers.2) hch
  · intro hch hm'
    have hporte := hm.bienForme.findChild_iff.mp hsome
    obtain ⟨x, d, hx, -, hd, hxd⟩ := hm.change_enfant hm'.findChild_eq (S := fun x => x = s ∨ x = c)
      (fun j hj => by
        rw [not_or] at hj
        rw [hmeme j, pose_nodes_of_ne hj.1, libre_nodes_of_ne hj.2]) hch
    have hdir : d = fs.parents s ∨ d = p := by
      rcases hxd with ⟨-, rfl⟩ | ⟨-, rfl⟩
      · rcases hx with rfl | rfl
        · exact .inl rfl
        · exact .inr hporte.2.1
      · rw [hmeme.arbre.parents_eq]
        rcases hx with rfl | rfl
        · exact .inr pose_parents_self
        · rw [pose_parents_of_ne hcs, libre_parents]
          exact .inr hporte.2.1
    rw [hsome] at hvers
    rcases hvers with hvers | hvers | ⟨hsous, hproche⟩ | ⟨hns, hnp⟩
    · exact absurd hvers hcs
    · exact absurd hvers hk
    · exact hm.generation_lt hnote (by simp) hg (mem_singleton_self c) (hsous.enfant hporte.2.1) hproche
    · rcases hdir with rfl | rfl
      · exact absurd hd hns
      · exact absurd hd hnp

theorem Monte.generation_cree (hc : Cree ctx fs fs' i p n) (hlibre : fs.findChild p n = none)
    (hp : fs.Proche r p) (hch : fs'.instantane ≠ fs.instantane) : fs.generation < fs'.generation := by
  obtain ⟨hdans, hsous⟩ := hc.sous hm hlibre hch
  exact hm.generation_lt (hc.note (hm.bienForme.climbs_ne hdans hc.libre)) (by simp) hg
    (mem_singleton_self p) hsous hp

theorem Monte.generation_reecrit (he : Reecrit fs fs' i) (hp : fs.Proche r i)
    (hch : fs'.instantane ≠ fs.instantane) : fs.generation < fs'.generation :=
  hm.generation_lt he.note (by simp) hg (mem_singleton_self i)
    ((he.arbre.sous hm he.autres hch).enfant rfl) hp

theorem Monte.generation_execute {op : Op} (hc : fs.Compte ctx r op)
    (hch : (fs.execute ctx op).instantane ≠ fs.instantane) :
    fs.generation < (fs.execute ctx op).generation := by
  have hid : fs.execute ctx op ≠ fs := fun he => hch (congrArg instantane he)
  cases op with
  | writeNodeBytes i data =>
    exact hm.generation_reecrit hg ((writeNodeBytes_cases ctx fs i data).resolve_left hid) hc hch
  | appendNode i text =>
    exact hm.generation_reecrit hg ((appendNode_cases ctx fs i text).resolve_left hid) hc hch
  | mkdirAt p n =>
    obtain ⟨-, hlibre, i, hcree⟩ := (mkdirAt_cases ctx fs p n).resolve_left hid
    exact hm.generation_cree hg hcree hlibre hc hch
  | touchAt p n =>
    obtain ⟨-, hlibre, i, hcree⟩ := touchAt_cree hid
    exact hm.generation_cree hg hcree hlibre hc hch
  | libereNoeud i =>
    obtain ⟨-, -, hmeme, hnote⟩ := (libereNoeud_cases fs i).resolve_left hid
    exact hm.generation_lt hnote (by simp) hg (mem_singleton_self i) (sous_of_libre hm hmeme hch) hc
  | renameat2 drapeaux de vers => exact hm.generation_renameat2 hg hc hch
  | cp de vers cwd =>
    obtain ⟨p, n, hplace, -, ⟨i, f, hfind, he⟩ | ⟨hlibre, i, hcree⟩⟩ := (cp_cases ctx fs de vers cwd).resolve_left hid
    · rw [FileSystem.execute, he] at hch
      rcases hc p n hplace with ⟨hnone, -⟩ | hp
      · rw [hnone] at hfind
        cases hfind
      · have hporte := hm.bienForme.findChild_iff.mp hfind
        have hsous := (modifie_content_arbre fs i f).sous hm (fun j hj => by rw [modifie_nodes_of_ne _ hj]) hch
        exact absurd (hporte.2.1 ▸ hsous) hp
    · rcases hc p n hplace with ⟨-, hp⟩ | hp
      · exact hm.generation_cree hg hcree hlibre hp hch
      · exact absurd (hcree.sous hm hlibre hch).2 hp
  | mv de vers cwd => exact absurd (hm.instantane_mv hc) hch
  | pathRename fds oldFd op newFd np => exact hm.generation_pathRename hg hc hch

end

/-- The states reached from a mounted tree. -/
inductive Course (r : Idx) (fs₀ : FileSystem) : FileSystem → Prop
  | debut : Course r fs₀ fs₀
  | pas {fs : FileSystem} (ctx : Contexte) (op : Op) : Course r fs₀ fs → fs.Legitime ctx r op →
      Course r fs₀ (fs.execute ctx op)

theorem Course.monte {fs0 : FileSystem} (h : Course r fs0 fs) (h0 : fs0.Monte r) : fs.Monte r := by
  induction h with
  | debut => exact h0
  | pas _ _ _ hl ih => exact ih.execute hl

/-- In every state reached from a mounted tree: an operation that is counted, and
that changes what a synchronisation would collect, leaves a larger counter. -/
theorem modification_comptee {fs₀ : FileSystem} (h₀ : fs₀.Monte r) (h : Course r fs₀ fs)
    (ctx : Contexte) (op : Op) (hc : fs.Compte ctx r op) (hg : fs.generation.toNat + 3 < 2 ^ 64)
    (hch : (fs.execute ctx op).instantane ≠ fs.instantane) :
    fs.generation < (fs.execute ctx op).generation :=
  (h.monte h₀).generation_execute hg hc hch

def persistVide : FileSystem := vierge.nouveau ⟨0, 0⟩ .dir 0o755 1 0 ⟨nomPersist, by decide⟩

def persistNom (nom : Nom) : FileSystem := persistVide.nouveau ⟨0, 0⟩ .file 0o644 2 1 nom

theorem persistVide_bienForme : persistVide.BienForme :=
  vierge_nouveau_bienForme _ _ _ (by decide) (by decide)

theorem persistVide_porte {q : Idx} : persistVide.Porte q n i ↔
    i = 1 ∧ q = 0 ∧ n = nomPersist ∨ i ≠ 1 ∧ i = 0 ∧ q = 0 ∧ n = [] := by
  rw [persistVide, nouveau_porte, vierge_porte]

theorem persistNom_porte {q : Idx} : (persistNom nom).Porte q n i ↔ i = 2 ∧ q = 1 ∧ n = nom.octets ∨
    i ≠ 2 ∧ (i = 1 ∧ q = 0 ∧ n = nomPersist ∨ i ≠ 1 ∧ i = 0 ∧ q = 0 ∧ n = []) := by
  rw [persistNom, nouveau_porte, persistVide_porte]

theorem persistNom_bienForme (nom : Nom) : (persistNom nom).BienForme := by
  have hdans : persistVide.Dans 1 :=
    persistVide_bienForme.dans_racine.enfant (persistVide_porte.mpr (.inl ⟨rfl, rfl, rfl⟩))
  refine persistVide_bienForme.nouveau (by decide) rfl hdans rfl fun j hj => ?_
  rcases persistVide_porte.mp hj with ⟨-, h, -⟩ | ⟨-, -, h, -⟩
  · exact absurd h (by decide)
  · exact absurd h (by decide)

theorem nomA_borne : [(97 : UInt8)].length ≤ nameLen := by decide

def persistA : FileSystem :=
  (persistVide.nouveau ⟨0, 0⟩ .file 0o644 2 1 ⟨[97], nomA_borne⟩).noteRacinePersistante 1

theorem persistA_porte {q : Idx} : persistA.Porte q n i ↔ (persistNom ⟨[97], by decide⟩).Porte q n i := .rfl

theorem persistA_monte : persistA.Monte 1 :=
  ⟨(noteRacinePersistante_meme _ _).arbre.bienForme (persistNom_bienForme _), rfl, by decide, rfl,
    persistA_porte.mpr (persistNom_porte.mpr (.inr ⟨by decide, .inl ⟨rfl, rfl, rfl⟩⟩))⟩

theorem persistA_proche : persistA.Proche 1 2 := by
  intro k hk
  by_contra hlt
  exact hk.2 1 (by omega) rfl

set_option maxRecDepth 100000 in
/-- Removing "/persist/a". -/
theorem modification_comptee_suppression : persistA.Monte 1 ∧
    persistA.generation < (persistA.execute ⟨0, 0⟩ (.libereNoeud 2)).generation :=
  ⟨persistA_monte, modification_comptee persistA_monte .debut ⟨0, 0⟩ (.libereNoeud 2)
    persistA_proche (by decide) (by decide +kernel)⟩

def cheminA : List UInt8 := cheminPersist ++ [47, 97]

set_option maxRecDepth 100000 in
/-- "mv /persist/a /b" removes the file from the next snapshot and counts nothing. -/
theorem deplacement_oublie : persistA.Monte 1 ∧
    (persistA.execute ⟨0, 0⟩ (.mv cheminA [47, 98] 0)).instantane ≠ persistA.instantane ∧
    (persistA.execute ⟨0, 0⟩ (.mv cheminA [47, 98] 0)).generation = persistA.generation := by
  refine ⟨persistA_monte, ?_, ?_⟩
  · decide +kernel
  · decide +kernel

end FileSystem

end BouchaudOS.Ramfs
