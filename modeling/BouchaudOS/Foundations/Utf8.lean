import Mathlib

/-!
# UTF-8 byte strings and lossy decoding

A text is a byte string made of whole UTF-8 characters. `lossy` turns any byte
string into a text: it keeps the characters and replaces every maximal prefix
of a character that is not completed by U+FFFD.
-/
namespace BouchaudOS.Utf8

open List

def isTail (b : UInt8) : Bool := 0x80 ≤ b && b ≤ 0xbf

/-- The second byte that may follow the leading byte `a` of three or four bytes. -/
def isSecond (a b : UInt8) : Bool :=
  if a = 0xe0 then 0xa0 ≤ b && b ≤ 0xbf
  else if a = 0xed then 0x80 ≤ b && b ≤ 0x9f
  else if a = 0xf0 then 0x90 ≤ b && b ≤ 0xbf
  else if a = 0xf4 then 0x80 ≤ b && b ≤ 0x8f
  else isTail b

/-- Length of the character a byte starts; zero for a byte that starts none. -/
def width (a : UInt8) : ℕ :=
  if a < 0x80 then 1
  else if a < 0xc2 then 0
  else if a < 0xe0 then 2
  else if a < 0xf0 then 3
  else if a < 0xf5 then 4
  else 0

/-- The bytes taken from the front of `a :: l`, and whether they are a character. -/
def scan (a : UInt8) (l : List UInt8) : ℕ × Bool :=
  match width a with
  | 1 => (1, true)
  | 2 => if isTail (l.getD 0 0) then (2, true) else (1, false)
  | 3 =>
    if isSecond a (l.getD 0 0) then
      if isTail (l.getD 1 0) then (3, true) else (2, false)
    else (1, false)
  | 4 =>
    if isSecond a (l.getD 0 0) then
      if isTail (l.getD 1 0) then
        if isTail (l.getD 2 0) then (4, true) else (3, false)
      else (2, false)
    else (1, false)
  | _ => (1, false)

def replacement : List UInt8 := [0xef, 0xbf, 0xbd]

def lossyAux : ℕ → List UInt8 → List UInt8
  | 0, _ => []
  | _ + 1, [] => []
  | n + 1, a :: l =>
    (if (scan a l).2 then (a :: l).take (scan a l).1 else replacement) ++
      lossyAux n ((a :: l).drop (scan a l).1)

def lossy (l : List UInt8) : List UInt8 := lossyAux l.length l

def IsChar : List UInt8 → Prop
  | [] => False
  | a :: l => scan a l = (l.length + 1, true)

instance : DecidablePred IsChar
  | [] => inferInstanceAs (Decidable False)
  | a :: l => inferInstanceAs (Decidable (scan a l = (l.length + 1, true)))

/-- A text: whole characters only. -/
inductive Valid : List UInt8 → Prop
  | nil : Valid []
  | char {c l : List UInt8} : IsChar c → Valid l → Valid (c ++ l)

variable {b a : UInt8} {l : List UInt8}

theorem isTail_ascii (h : b < 0x80) : isTail b = false := by
  simp [isTail, UInt8.not_le.mpr h]

theorem isSecond_ascii (a : UInt8) (h : b < 0x80) : isSecond a b = false := by
  have h1 : ¬(0xa0 : UInt8) ≤ b := UInt8.not_le.mpr (UInt8.lt_trans h (by decide))
  have h2 : ¬(0x90 : UInt8) ≤ b := UInt8.not_le.mpr (UInt8.lt_trans h (by decide))
  have h3 : ¬(0x80 : UInt8) ≤ b := UInt8.not_le.mpr h
  unfold isSecond
  split_ifs <;> simp [h1, h2, h3, isTail]

theorem isTail_getD {i : ℕ} (h : isTail (l.getD i 0) = true) : i < l.length := by
  by_contra hi
  rw [getD_eq_default _ _ (not_lt.mp hi)] at h
  cases h

/-- How a character is scanned: an ASCII byte, or a byte followed by one to
three bytes that are not ASCII. -/
theorem scan_cases {k : ℕ} (h : scan a l = (k, true)) : k ≤ l.length + 1 ∧ ((k = 1 ∧ a < 0x80) ∨
      (¬a < 0x80 ∧ 1 < k ∧ ∀ i, i + 1 < k → ¬l.getD i 0 < 0x80)) ∧
      ∀ m, (∀ i, i + 1 < k → m.getD i 0 = l.getD i 0) → scan a m = (k, true) := by
  have hw : width a = 1 → a < 0x80 := by
    intro h1
    unfold width at h1
    split_ifs at h1 <;> omega
  have hw' : width a ≠ 1 → ¬a < 0x80 := fun h1 h2 => h1 (by simp [width, h2])
  have ht : ∀ {b : UInt8}, isTail b = true → ¬b < 0x80 := fun hb hlt => by
    rw [isTail_ascii hlt] at hb
    cases hb
  have hs : ∀ {b : UInt8}, isSecond a b = true → ¬b < 0x80 := fun hb hlt => by
    rw [isSecond_ascii a hlt] at hb
    cases hb
  unfold scan at h
  split at h
  next hwa =>
    cases h
    refine ⟨by omega, .inl ⟨rfl, hw hwa⟩, fun m _ => by simp [scan, hwa]⟩
  next hwa =>
    split at h <;> cases h
    next h0 =>
    have := isTail_getD h0
    refine ⟨by omega, .inr ⟨hw' (by omega), by omega, fun i hi => ?_⟩, fun m hm => ?_⟩
    · obtain rfl : i = 0 := by omega
      exact ht h0
    · simp only [scan, hwa, hm 0 (by omega), h0, if_true]
  next hwa =>
    split at h
    · split at h <;> cases h
      next h0 h1 =>
      have := isTail_getD h1
      refine ⟨by omega, .inr ⟨hw' (by omega), by omega, fun i hi => ?_⟩, fun m hm => ?_⟩
      · obtain rfl | rfl : i = 0 ∨ i = 1 := by omega
        · exact hs h0
        · exact ht h1
      · simp only [scan, hwa, hm 0 (by omega), hm 1 (by omega), h0, h1, if_true]
    · cases h
  next hwa =>
    split at h
    · split at h
      · split at h <;> cases h
        next h0 h1 h2 =>
        have := isTail_getD h2
        refine ⟨by omega, .inr ⟨hw' (by omega), by omega, fun i hi => ?_⟩, fun m hm => ?_⟩
        · obtain rfl | rfl | rfl : i = 0 ∨ i = 1 ∨ i = 2 := by omega
          · exact hs h0
          · exact ht h1
          · exact ht h2
        · simp only [scan, hwa, hm 0 (by omega), hm 1 (by omega), hm 2 (by omega), h0, h1, h2,
            if_true]
      · cases h
    · cases h
  next => cases h

theorem isChar_ascii (h : b < 0x80) : IsChar [b] := by
  simp [IsChar, scan, width, h]

theorem scan_append (h : IsChar (a :: l)) (m : List UInt8) : scan a (l ++ m) = (l.length + 1, true) := by
  refine (scan_cases h).2.2 _ fun i hi => ?_
  rw [getD_append _ _ _ _ (by omega)]

theorem isChar_take (h : (scan a l).2 = true) : IsChar ((a :: l).take (scan a l).1) := by
  obtain ⟨k, hk⟩ : ∃ k, scan a l = (k, true) := ⟨_, Prod.ext rfl h⟩
  obtain ⟨hle, hcases, hscan⟩ := scan_cases hk
  rw [hk]
  obtain ⟨j, rfl⟩ : ∃ j, k = j + 1 := ⟨k - 1, by omega⟩
  have hlen : (l.take j).length = j := by simp; omega
  show scan a (l.take j) = ((l.take j).length + 1, true)
  rw [hlen]
  refine hscan _ fun i hi => ?_
  rw [getD_eq_getElem?_getD, getElem?_take_of_lt (by omega), getD_eq_getElem?_getD]

theorem Valid.append {a b : List UInt8} (ha : Valid a) (hb : Valid b) : Valid (a ++ b) := by
  induction ha with
  | nil => exact hb
  | char hc _ ih =>
    rw [append_assoc]
    exact .char hc ih

theorem valid_of_ascii (h : ∀ b ∈ l, b < 0x80) : Valid l := by
  induction l with
  | nil => exact .nil
  | cons b l ih =>
    exact .char (c := [b]) (isChar_ascii (h b (by simp))) (ih fun c hc => h c (by simp [hc]))

theorem lossyAux_of_valid (h : Valid l) {n : ℕ} (hn : l.length ≤ n) : lossyAux n l = l := by
  induction h generalizing n with
  | nil => cases n <;> rfl
  | @char c l hc _ ih =>
    match c, hc with
    | a :: c, hc =>
      obtain ⟨n, rfl⟩ : ∃ m, n = m + 1 := ⟨n - 1, by simp at hn; omega⟩
      have hs := scan_append hc l
      rw [cons_append, lossyAux, hs]
      simp only [length_cons, length_append] at hn
      simp [ih (show l.length ≤ n by omega)]

theorem lossy_of_valid (h : Valid l) : lossy l = l :=
  lossyAux_of_valid h le_rfl

theorem valid_lossy (l : List UInt8) : Valid (lossy l) := by
  suffices ∀ n l, Valid (lossyAux n l) from this _ _
  intro n
  induction n with
  | zero => exact fun _ => .nil
  | succ n ih =>
    intro l
    cases l with
    | nil => exact .nil
    | cons a l =>
      rw [lossyAux]
      split
      next h => exact .char (isChar_take h) (ih _)
      next => exact .char (by decide) (ih _)

theorem isChar_ascii_or {c : List UInt8} (h : IsChar c) : (∃ b, c = [b] ∧ b < 0x80) ∨ ∀ b ∈ c, ¬b < 0x80 := by
  match c, h with
  | a :: l, h =>
    obtain ⟨-, hcases, -⟩ := scan_cases h
    rcases hcases with ⟨hk, ha⟩ | ⟨ha, hk, hl⟩
    · exact .inl ⟨a, by simpa using hk, ha⟩
    · right
      intro b hb
      rcases mem_cons.mp hb with rfl | hb
      · exact ha
      · obtain ⟨i, hi, rfl⟩ := mem_iff_getElem.mp hb
        have := hl i (by omega)
        rwa [getD_eq_getElem _ _ hi] at this

theorem Valid.cut (h : Valid l) {z : UInt8} (hz : z < 0x80) :
    Valid (l.takeWhile (· ≠ z)) ∧ Valid (l.dropWhile (· ≠ z)) := by
  induction h with
  | nil => exact ⟨.nil, .nil⟩
  | @char c l hc hl ih =>
    by_cases hzc : z ∈ c
    · obtain ⟨b, rfl, -⟩ | hb := isChar_ascii_or hc
      · obtain rfl : z = b := by simpa using hzc
        simpa using ⟨Valid.nil, Valid.char hc hl⟩
      · exact absurd hz (hb z hzc)
    · have hall : ∀ b ∈ c, decide (b ≠ z) = true := by
        intro b hb
        simpa using fun he : b = z => hzc (he ▸ hb)
      rw [takeWhile_append_of_pos hall, dropWhile_append_of_pos hall]
      exact ⟨.char hc ih.1, ih.2⟩

end BouchaudOS.Utf8

namespace BouchaudOS

/-- A text, as a Rust string. -/
structure Chaine where
  octets : List UInt8
  valide : Utf8.Valid octets

namespace Chaine

theorem ext' {a b : Chaine} (h : a.octets = b.octets) : a = b := by
  cases a
  cases b
  cases h
  rfl

instance : DecidableEq Chaine := fun a b =>
  decidable_of_iff (a.octets = b.octets) ⟨ext', fun h => h ▸ rfl⟩

def lossy (o : List UInt8) : Chaine := ⟨Utf8.lossy o, Utf8.valid_lossy o⟩

def jusquaNul (c : Chaine) : Chaine :=
  ⟨c.octets.takeWhile (· ≠ 0), (c.valide.cut (by decide)).1⟩

end Chaine

end BouchaudOS
