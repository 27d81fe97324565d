import BouchaudOS.Reseau.Segments

/-!
# Texts

A text is a list of characters; its length in memory is that of its UTF-8 bytes. These are
the operations of the standard library that the network code applies to texts.
-/

namespace BouchaudOS.Reseau

abbrev Texte := List Char

/-- `as_bytes`. -/
def octets (t : Texte) : Octets := t.flatMap String.utf8EncodeChar

/-- `char::is_whitespace`. -/
def estBlanc (c : Char) : Bool :=
  let n := c.toNat
  (9 ≤ n && n ≤ 13) || n == 0x20 || n == 0x85 || n == 0xA0 || n == 0x1680 || (0x2000 ≤ n && n ≤ 0x200A) ||
    n == 0x2028 || n == 0x2029 || n == 0x202F || n == 0x205F || n == 0x3000

def trim (t : Texte) : Texte := (t.dropWhile estBlanc).rdropWhile estBlanc

/-- `to_ascii_lowercase`. -/
def minuscules (t : Texte) : Texte := t.map Char.toLower

def minuscule (b : UInt8) : UInt8 := if 0x41 ≤ b ∧ b ≤ 0x5A then b + 0x20 else b

/-- What comes before and after the first occurrence of a character. -/
def coupeA (c : Char) : Texte → Option (Texte × Texte)
  | [] => none
  | x :: t => if x = c then some ([], t) else (coupeA c t).map fun p => (x :: p.1, p.2)

/-- `eq_ignore_ascii_case`, on bytes. -/
def egalSansCasse (a b : Octets) : Bool :=
  a.length = b.length && (a.zip b).all fun p => minuscule p.1 = minuscule p.2

@[simp] theorem octets_nil : octets [] = [] := rfl

@[simp] theorem octets_cons (c : Char) (t : Texte) : octets (c :: t) = String.utf8EncodeChar c ++ octets t := rfl

theorem length_utf8EncodeChar_pos (c : Char) : 0 < (String.utf8EncodeChar c).length := by
  rw [String.length_utf8EncodeChar]
  exact Char.utf8Size_pos c

theorem length_octets_le {t u : Texte} (h : t.Sublist u) : (octets t).length ≤ (octets u).length := by
  induction h with
  | slnil => rfl
  | cons c _ ih => simp only [octets_cons, List.length_append]; omega
  | cons_cons c _ ih => simp only [octets_cons, List.length_append]; omega

theorem length_le_octets (t : Texte) : t.length ≤ (octets t).length := by
  induction t with
  | nil => rfl
  | cons c t ih =>
    have hc := length_utf8EncodeChar_pos c
    simp only [octets_cons, List.length_cons, List.length_append]
    omega

end BouchaudOS.Reseau
