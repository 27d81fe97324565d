import Mathlib

/-!
# Command lines of the remote debugger

`Decoupeur` of `net/diag_distant/brdp.rs` cuts the bytes that TCP delivers into lines, and `avale` of
`session.rs` puts every line in `FileCommandes`, a ring of eight rows. What reaches the queue depends
on the bytes and not on the segments they came in, and the ring is a bounded first-in first-out queue.
-/

namespace BouchaudOS.Diagnostic

open List Function

abbrev Octets := List UInt8

def LIGNE_MAX : ℕ := 512

def COMMANDES_EN_ATTENTE : ℕ := 8

/-- A zero byte, then "trop-longue". -/
def LIGNE_TROP_LONGUE : Octets := [0, 116, 114, 111, 112, 45, 108, 111, 110, 103, 117, 101]

inductive Morceau
  | ligne (octets : Octets)
  | tropLongue

/-- What `avale` gives to the queue. -/
def Morceau.octets : Morceau → Octets
  | ligne octets => octets
  | tropLongue => LIGNE_TROP_LONGUE

/-- The bytes of the line that is not finished, and whether it is already too long. -/
structure Decoupeur where
  tampon : Octets
  enPurge : Bool

namespace Decoupeur

def neuf : Decoupeur := ⟨[], false⟩

/-- `pousse` on one byte. -/
def octet (d : Decoupeur) (o : UInt8) : Option Morceau × Decoupeur :=
  if o = 10 then
    if d.enPurge then (some .tropLongue, neuf)
    else (some (.ligne (if d.tampon.getLast? = some 13 then d.tampon.dropLast else d.tampon)),
      { d with tampon := [] })
  else if d.enPurge then (none, d)
  else if d.tampon.length = LIGNE_MAX then (none, { d with enPurge := true })
  else (none, { d with tampon := d.tampon ++ [o] })

def pousse (d : Decoupeur) : Octets → List Morceau × Decoupeur
  | [] => ([], d)
  | o :: octets =>
    let r := d.octet o
    let s := r.2.pousse octets
    (r.1.toList ++ s.1, s.2)

/-- The bytes since the last newline are `p`. -/
def Tient (d : Decoupeur) (p : Octets) : Prop :=
  d.tampon = p.take LIGNE_MAX ∧ (d.enPurge = true ↔ LIGNE_MAX < p.length)

end Decoupeur

/-- A row keeps what a longer line left behind the one written over it. -/
structure FileCommandes where
  lignes : ℕ → Octets
  longueurs : ℕ → ℕ
  tete : ℕ
  occupation : ℕ
  refusees : ℕ

inductive Operation
  | pousse (ligne : Octets)
  | retire
  | purge

inductive Reponse
  | rangee (ok : Bool)
  | retiree (ligne : Option Octets)
  | purgee
  deriving DecidableEq

namespace FileCommandes

def neuve : FileCommandes := ⟨fun _ => replicate LIGNE_MAX 0, fun _ => 0, 0, 0, 0⟩

variable (f : FileCommandes)

def pousse (ligne : Octets) : Bool × FileCommandes :=
  if LIGNE_MAX < ligne.length then (false, f)
  else if f.occupation = COMMANDES_EN_ATTENTE then
    (false, { f with refusees := min (f.refusees + 1) (2 ^ 64 - 1) })
  else
    let place := (f.tete + f.occupation) % COMMANDES_EN_ATTENTE
    (true, { f with
      lignes := update f.lignes place (ligne ++ (f.lignes place).drop ligne.length)
      longueurs := update f.longueurs place ligne.length
      occupation := f.occupation + 1 })

/-- The oldest line, as it is copied out. -/
def retire : Option Octets × FileCommandes :=
  if f.occupation = 0 then (none, f)
  else (some ((f.lignes f.tete).take (f.longueurs f.tete)),
    { f with tete := (f.tete + 1) % COMMANDES_EN_ATTENTE, occupation := f.occupation - 1 })

def purge : FileCommandes := { f with tete := 0, occupation := 0 }

def execute : Operation → Reponse × FileCommandes
  | .pousse ligne => (.rangee (f.pousse ligne).1, (f.pousse ligne).2)
  | .retire => (.retiree f.retire.1, f.retire.2)
  | .purge => (.purgee, f.purge)

/-- The lines of the queue, the oldest first. -/
def contenu : List Octets :=
  (range f.occupation).map fun k =>
    let place := (f.tete + k) % COMMANDES_EN_ATTENTE
    (f.lignes place).take (f.longueurs place)

end FileCommandes

/-- The queue as it is meant: a line that does not fit is refused, and the others stay. -/
def fifo (q : List Octets) : Operation → Reponse × List Octets
  | .pousse ligne =>
    if LIGNE_MAX < ligne.length ∨ q.length = COMMANDES_EN_ATTENTE then (.rangee false, q)
    else (.rangee true, q ++ [ligne])
  | .retire => (.retiree q.head?, q.tail)
  | .purge => (.purgee, [])

/-- The answers to a sequence of operations. -/
def joue {σ : Type} (execute : σ → Operation → Reponse × σ) (s : σ) : List Operation → List Reponse × σ
  | [] => ([], s)
  | op :: ops =>
    let r := joue execute (execute s op).2 ops
    ((execute s op).1 :: r.1, r.2)

def insertions (d : Decoupeur) (octets : Octets) : List Operation :=
  (d.pousse octets).1.map fun m => .pousse m.octets

/-- Whether a line was refused, then the splitter and the queue. -/
def avale (d : Decoupeur) (file : FileCommandes) (octets : Octets) : Bool × Decoupeur × FileCommandes :=
  let r := joue FileCommandes.execute file (insertions d octets)
  (r.1.any (· = .rangee false), (d.pousse octets).2, r.2)

/-- One segment after the other; the list is of the insertions so far. -/
def avaleTout (d : Decoupeur) (file : FileCommandes) : List Octets → List Operation × Decoupeur × FileCommandes
  | [] => ([], d, file)
  | octets :: segments =>
    let r := avale d file octets
    let s := avaleTout r.2.1 r.2.2 segments
    (insertions d octets ++ s.1, s.2)

/-- What the queue is given for the bytes between two newlines. -/
def ligneDe (p : Octets) : Octets :=
  if p.length ≤ LIGNE_MAX then if p.getLast? = some 13 then p.dropLast else p else LIGNE_TROP_LONGUE

variable {d : Decoupeur} {p octets : Octets} {o : UInt8} {f : FileCommandes}

theorem pousse_append (d : Decoupeur) (a b : Octets) : d.pousse (a ++ b) =
    ((d.pousse a).1 ++ ((d.pousse a).2.pousse b).1, ((d.pousse a).2.pousse b).2) := by
  induction a generalizing d with
  | nil => rfl
  | cons o a ih => simp [Decoupeur.pousse, ih]

theorem avaleTout_insertions (d : Decoupeur) (f : FileCommandes) (segments : List Octets) :
    (avaleTout d f segments).1 = insertions d segments.flatten := by
  induction segments generalizing d f with
  | nil => rfl
  | cons a segments ih =>
    rw [avaleTout, ih, flatten_cons, insertions, insertions, insertions, pousse_append, map_append]
    rfl

theorem octet_finDeLigne (h : d.Tient p) : ∃ m, d.octet 10 = (some m, .neuf) ∧ m.octets = ligneDe p := by
  obtain ⟨ht, hp⟩ := h
  cases hd : d.enPurge with
  | true =>
    have hlt := hp.mp hd
    refine ⟨.tropLongue, by simp [Decoupeur.octet, hd], ?_⟩
    rw [ligneDe, if_neg (by omega)]
    rfl
  | false =>
    have hle : p.length ≤ LIGNE_MAX := by simpa [hd] using hp
    rw [take_of_length_le hle] at ht
    refine ⟨.ligne (ligneDe p), ?_, rfl⟩
    simp [Decoupeur.octet, Decoupeur.neuf, ligneDe, hd, hle, ht]

theorem octet_autre (h : d.Tient p) (ho : o ≠ 10) :
    (d.octet o).1 = none ∧ (d.octet o).2.Tient (p ++ [o]) := by
  obtain ⟨ht, hp⟩ := h
  have hlen : d.tampon.length = min LIGNE_MAX p.length := by rw [ht, length_take]
  unfold Decoupeur.octet
  rw [if_neg ho]
  split_ifs with h1 h2
  · have := hp.mp h1
    refine ⟨rfl, ?_, ?_⟩
    · rw [ht, take_append_of_le_length (by omega)]
    · simp [h1]
      omega
  · refine ⟨rfl, ?_, ?_⟩
    · rw [ht, take_append_of_le_length (by omega)]
    · simp
      omega
  · rw [hp] at h1
    refine ⟨rfl, ?_, ?_⟩
    · rw [ht, take_of_length_le (by omega), take_of_length_le (by simp; omega)]
    · simp [hp]
      omega

/-- One insertion for every newline. -/
theorem insertions_lignes (h : d.Tient p) (hp : 10 ∉ p) :
    insertions d octets = ((p ++ octets).splitOn 10).dropLast.map (.pousse <| ligneDe ·) := by
  induction octets generalizing d p with
  | nil => simp [insertions, Decoupeur.pousse, splitOn_eq_singleton hp]
  | cons o octets ih =>
    by_cases ho : o = 10
    · subst ho
      obtain ⟨m, hm, hl⟩ := octet_finDeLigne h
      have hsuite := ih (d := .neuf) (p := []) ⟨rfl, by simp [Decoupeur.neuf]⟩ (by simp)
      rw [splitOn_append_cons_self_of_not_mem hp, dropLast_cons_of_ne_nil (splitOn_ne_nil _ _), map_cons, ← hl]
      simpa [insertions, Decoupeur.pousse, hm] using hsuite
    · obtain ⟨hnone, hsuite⟩ := octet_autre h ho
      have := ih hsuite (by simp [hp, Ne.symm ho])
      simpa [insertions, Decoupeur.pousse, hnone] using this

namespace FileCommandes

theorem length_contenu : f.contenu.length = f.occupation := by
  simp [contenu]

def Saine (f : FileCommandes) : Prop := f.tete < COMMANDES_EN_ATTENTE ∧ f.occupation ≤ COMMANDES_EN_ATTENTE

theorem pousse_fifo (h : f.Saine) (ligne : Octets) :
    (.rangee (f.pousse ligne).1, (f.pousse ligne).2.contenu) = fifo f.contenu (.pousse ligne) ∧
      (f.pousse ligne).2.Saine := by
  by_cases hl : LIGNE_MAX < ligne.length
  · rw [pousse, if_pos hl, fifo, if_pos (.inl hl)]
    exact ⟨rfl, h⟩
  by_cases hn : f.occupation = COMMANDES_EN_ATTENTE
  · rw [pousse, if_neg hl, if_pos hn, fifo, if_pos (.inr (length_contenu.trans hn))]
    exact ⟨rfl, h⟩
  rw [pousse, if_neg hl, if_neg hn, fifo, if_neg (by rw [length_contenu]; exact not_or.mpr ⟨hl, hn⟩)]
  obtain ⟨ht, hle⟩ := h
  refine ⟨congrArg _ ?_, ht, Nat.lt_of_le_of_ne hle hn⟩
  simp only [contenu, range_succ, map_append, map_singleton, update_self, take_left]
  congr 1
  refine map_congr_left fun k hk => ?_
  have hne : (f.tete + k) % COMMANDES_EN_ATTENTE ≠ (f.tete + f.occupation) % COMMANDES_EN_ATTENTE := by
    have := mem_range.mp hk
    unfold COMMANDES_EN_ATTENTE at *
    omega
  rw [update_of_ne hne, update_of_ne hne]

theorem retire_fifo (h : f.Saine) :
    (.retiree f.retire.1, f.retire.2.contenu) = fifo f.contenu .retire ∧ f.retire.2.Saine := by
  obtain ⟨ht, hn⟩ := h
  unfold retire
  split_ifs with h0
  · have hc : f.contenu = [] := by simp [contenu, h0]
    rw [hc]
    exact ⟨rfl, ht, hn⟩
  · obtain ⟨n, hn'⟩ := Nat.exists_eq_succ_of_ne_zero h0
    have hc : f.contenu = (f.lignes f.tete).take (f.longueurs f.tete) ::
        contenu { f with tete := (f.tete + 1) % COMMANDES_EN_ATTENTE, occupation := n } := by
      simp only [contenu, hn', range_succ_eq_map, map_cons, map_map, Nat.add_zero, Nat.mod_eq_of_lt ht]
      congr 1
      refine map_congr_left fun k _ => ?_
      have hk : (f.tete + (k + 1)) % COMMANDES_EN_ATTENTE =
          ((f.tete + 1) % COMMANDES_EN_ATTENTE + k) % COMMANDES_EN_ATTENTE := by
        unfold COMMANDES_EN_ATTENTE
        omega
      simp [hk]
    rw [hc, hn']
    exact ⟨rfl, Nat.mod_lt _ (by decide), by dsimp only [Nat.succ_sub_one]; omega⟩

/-- The ring answers as the queue does. -/
theorem execute_fifo (h : f.Saine) (op : Operation) :
    ((f.execute op).1, (f.execute op).2.contenu) = fifo f.contenu op ∧ (f.execute op).2.Saine := by
  cases op with
  | pousse ligne => exact pousse_fifo h ligne
  | retire => exact retire_fifo h
  | purge => exact ⟨rfl, Nat.succ_pos 7, Nat.zero_le _⟩

theorem joue_fifo (h : f.Saine) (ops : List Operation) :
    ((joue execute f ops).1, (joue execute f ops).2.contenu) = joue fifo f.contenu ops ∧
      (joue execute f ops).2.Saine := by
  induction ops generalizing f with
  | nil => exact ⟨rfl, h⟩
  | cons op ops ih =>
    obtain ⟨h1, h2⟩ := execute_fifo h op
    obtain ⟨h3, h4⟩ := ih h2
    refine ⟨?_, h4⟩
    rw [joue, joue, ← h1, ← h3]

end FileCommandes

open FileCommandes in
/-- The lines given to the queue are those of the stream, however it was cut; and every sequence of
operations is answered as by a queue of at most eight lines. -/
theorem commandes_dans_l_ordre (segments : List Octets) (file : FileCommandes) (ops : List Operation) :
    (avaleTout .neuf file segments).1 =
        (segments.flatten.splitOn 10).dropLast.map (.pousse <| ligneDe ·) ∧
      ((joue execute neuve ops).1, (joue execute neuve ops).2.contenu) = joue fifo [] ops ∧
      (joue execute neuve ops).2.contenu.length ≤ COMMANDES_EN_ATTENTE := by
  constructor
  · rw [avaleTout_insertions]
    exact insertions_lignes (p := []) ⟨rfl, by simp [Decoupeur.neuf]⟩ (by simp)
  · rw [length_contenu]
    obtain ⟨h1, -, h2⟩ := joue_fifo (f := neuve) ⟨by decide, by decide⟩ ops
    exact ⟨h1, h2⟩

end BouchaudOS.Diagnostic
