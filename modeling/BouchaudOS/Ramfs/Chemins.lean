import BouchaudOS.Ramfs.Collecte

/-!
# Paths below a node

A path is the list of the names from a node down to another. In a tree a path
leads to one node, and a node below the start has one path. What a tree shows at
each path is what a snapshot of it must bring back.
-/

namespace BouchaudOS.Ramfs

open List

open Persist (Meta cheminMax)

/-- A name that a snapshot keeps: it is not empty and has no separator and no NUL. -/
def NomSain (n : List UInt8) : Prop := n ≠ [] ∧ FileSystem.barre ∉ n ∧ 0 ∉ n

def texte (pre : List UInt8) (cs : List (List UInt8)) : List UInt8 := cs.foldl joint pre

namespace FileSystem

theorem composants_append_barre (a b : List UInt8) :
    composants (a ++ barre :: b) = composants a ++ composants b := by
  unfold composants
  rw [splitOn_append_cons_self, filter_append]

theorem composants_of_sain {n : List UInt8} (h : NomSain n) : composants n = [n] := by
  unfold composants
  rw [splitOn_eq_singleton h.2.1]
  simp [h.1]

theorem composants_nil : composants [] = [] := by decide

theorem composants_joint {pre n : List UInt8} (h : NomSain n) :
    composants (joint pre n) = composants pre ++ [n] := by
  unfold joint
  split
  · rename_i hpre
    rw [hpre, composants_nil, composants_of_sain h, nil_append]
  · rw [composants_append_barre, composants_of_sain h]

theorem composants_texte {pre : List UInt8} {cs : List (List UInt8)} (h : ∀ n ∈ cs, NomSain n) :
    composants (texte pre cs) = composants pre ++ cs := by
  induction cs generalizing pre with
  | nil => exact (append_nil _).symm
  | cons n cs ih =>
    have hn : composants (joint pre n) = composants pre ++ [n] :=
      composants_joint (h n mem_cons_self)
    rw [texte, foldl_cons, ← texte, ih fun m hm => h m (mem_cons_of_mem _ hm), hn,
      append_assoc, singleton_append]

theorem mem_composants {o c : List UInt8} (h : c ∈ composants o) : c ≠ [] ∧ barre ∉ c ∧ ∀ b ∈ c, b ∈ o := by
  have hsplit : ∀ (o : List UInt8), ∀ c ∈ o.splitOn barre, barre ∉ c ∧ ∀ b ∈ c, b ∈ o := by
    intro o
    induction o with
    | nil =>
      intro c hc
      rw [splitOn_nil, mem_singleton] at hc
      simp [hc]
    | cons a o ih =>
      intro c hc
      rw [splitOn_cons_eq_if_modifyHead] at hc
      split at hc
      · rcases mem_cons.mp hc with rfl | hc
        · simp
        · exact ⟨(ih c hc).1, fun b hb => mem_cons_of_mem _ ((ih c hc).2 b hb)⟩
      · rename_i ha
        rw [beq_iff_eq] at ha
        cases hs : o.splitOn barre with
        | nil =>
          rw [hs] at hc
          cases hc
        | cons d ds =>
          rw [hs, modifyHead_cons] at hc
          rcases mem_cons.mp hc with rfl | hc
          · obtain ⟨h1, h2⟩ := ih d (hs ▸ mem_cons_self)
            refine ⟨fun hm => ?_, fun b hb => ?_⟩
            · rcases mem_cons.mp hm with he | hm
              · exact ha he.symm
              · exact h1 hm
            · rcases mem_cons.mp hb with rfl | hb
              · exact mem_cons_self
              · exact mem_cons_of_mem _ (h2 b hb)
          · obtain ⟨h1, h2⟩ := ih c (hs ▸ mem_cons_of_mem _ hc)
            exact ⟨h1, fun b hb => mem_cons_of_mem _ (h2 b hb)⟩
  unfold composants at h
  rw [mem_filter] at h
  exact ⟨by simpa using h.2, hsplit o c h.1⟩

variable {ctx : Contexte} {fs fs' : FileSystem} {r d i x y : Idx} {n : List UInt8}
  {cs cs' : List (List UInt8)}

def suit (fs : FileSystem) (r : Idx) (cs : List (List UInt8)) : Option Idx :=
  cs.foldlM fs.findChild r

theorem suit_nil : fs.suit r [] = some r := rfl

theorem suit_cons : fs.suit r (n :: cs) = (fs.findChild r n).bind fun i => fs.suit i cs :=
  foldlM_cons ..

theorem suit_append : fs.suit r (cs ++ cs') = (fs.suit r cs).bind fun i => fs.suit i cs' :=
  foldlM_append ..

theorem suit_singleton : fs.suit r [n] = fs.findChild r n := by
  rw [suit_cons]
  cases fs.findChild r n <;> rfl

theorem suit_concat : fs.suit r (cs ++ [n]) = (fs.suit r cs).bind fun i => fs.findChild i n := by
  rw [suit_append]
  exact congrArg _ (funext fun i => suit_singleton)

theorem suit_cons_eq_some : fs.suit r (n :: cs) = some x ↔
    ∃ i, fs.findChild r n = some i ∧ fs.suit i cs = some x := by
  rw [suit_cons, Option.bind_eq_some_iff]

theorem suit_concat_eq_some : fs.suit r (cs ++ [n]) = some x ↔
    ∃ i, fs.suit r cs = some i ∧ fs.findChild i n = some x := by
  rw [suit_concat, Option.bind_eq_some_iff]

theorem suit_congr (h : MemeArbre fs fs') : fs'.suit r cs = fs.suit r cs := by
  have hfind : fs'.findChild = fs.findChild :=
    funext fun p => funext fun n => findChild_congr fun i => h.porte_iff
  unfold suit
  rw [hfind]

section

variable (h : fs.BienForme) (hr : fs.Dans r)

include h hr

theorem BienForme.dans_suit (hx : fs.suit r cs = some x) : fs.Dans x := by
  induction cs generalizing r with
  | nil =>
    cases hx
    exact hr
  | cons n cs ih =>
    obtain ⟨i, hi, hx⟩ := suit_cons_eq_some.mp hx
    exact ih (hr.enfant (h.findChild_iff.mp hi)) hx

omit hr in
theorem BienForme.depth_suit {k : ℕ} (hk : Depth fs.parents 0 k r) (hr0 : r ≠ 0)
    (hx : fs.suit r cs = some x) : Depth fs.parents 0 (k + cs.length) x ∧ x ≠ 0 := by
  induction cs generalizing r k with
  | nil =>
    cases hx
    exact ⟨hk, hr0⟩
  | cons n cs ih =>
    obtain ⟨i, hi, hx⟩ := suit_cons_eq_some.mp hx
    obtain ⟨-, hp, -⟩ := h.findChild_iff.mp hi
    have hi0 : i ≠ 0 := by
      rintro rfl
      exact hr0 (hp.symm.trans h.racineParent)
    have hsucc := ih (hk.child hp hi0) hi0 hx
    rwa [Nat.add_right_comm, Nat.add_assoc, ← length_cons] at hsucc

theorem BienForme.suit_inj (hr0 : r ≠ 0) (hx : fs.suit r cs = some x)
    (hx' : fs.suit r cs' = some x) : cs = cs' := by
  obtain ⟨k, hk⟩ := hr.2.exists_depth
  have hlen : cs.length = cs'.length := by
    have h1 := (h.depth_suit hk hr0 hx).1
    have h2 := (h.depth_suit hk hr0 hx').1
    have := h1.unique h2
    omega
  induction cs using List.reverseRecOn generalizing cs' x with
  | nil => exact (length_eq_zero_iff.mp hlen.symm).symm
  | append_singleton cs n ih =>
    cases cs' using List.reverseRecOn with
    | nil => simp at hlen
    | append_singleton cs' n' =>
      obtain ⟨i, hi, hxi⟩ := suit_concat_eq_some.mp hx
      obtain ⟨j, hj, hxj⟩ := suit_concat_eq_some.mp hx'
      obtain ⟨-, hp, hn⟩ := h.findChild_iff.mp hxi
      obtain ⟨-, hp', hn'⟩ := h.findChild_iff.mp hxj
      have hij : i = j := hp.symm.trans hp'
      rw [ih hi (hij ▸ hj) (by simpa using hlen), ← hn, ← hn']

theorem BienForme.dossier_of_suit (hx : fs.suit r cs = some x) (hk : (fs.nodes x).kind = .dir) :
    (fs.nodes r).kind = .dir := by
  cases cs with
  | nil =>
    cases hx
    exact hk
  | cons n cs =>
    obtain ⟨i, hi, -⟩ := suit_cons_eq_some.mp hx
    have hporte := h.findChild_iff.mp hi
    have hd := h.parentDossier i hporte.1 (hr.enfant hporte).2.nonAnonyme
    rwa [hporte.2.1] at hd

end

/-- What a snapshot keeps of a node. -/
structure Fiche where
  metadonnees : Meta
  contenu : List UInt8

/-- The metadata of a node, with twelve bits of its mode, and the content of a file. -/
def fiche (fs : FileSystem) (i : Idx) : Fiche :=
  ⟨(fs.nodes i).metadonnees.douzeBits, if (fs.nodes i).kind = .dir then [] else (fs.nodes i).content⟩

def montre (fs : FileSystem) (r : Idx) (cs : List (List UInt8)) : Option Fiche :=
  (fs.suit r cs).map fs.fiche

end FileSystem

end BouchaudOS.Ramfs
