import BouchaudOS.Foundations.Checked
import BouchaudOS.Reseau.Segments

/-!
# The DER reader

An element is a tag, a length and that many bytes. The reader checks the length against what
it was given before it cuts, and what it leaves is shorter than what it read.
-/

namespace BouchaudOS.Reseau.Tls

open Checked

def TAG_BOOLEAN : UInt8 := 0x01
def TAG_UTCTIME : UInt8 := 0x17
def TAG_SEQUENCE : UInt8 := 0x30

/-- A decoded element: its tag, its content, and its bytes from the tag on. -/
structure Der where
  tag : UInt8
  content : Octets
  full : Octets
  deriving DecidableEq, Repr

/-- `for i in 0..num { l = (l << 8) | data[2 + i] }`. -/
def longueur (data : Octets) : ℕ → Guarded ℕ
  | 0 => .ok 0
  | n + 1 => do
    let l ← longueur data n
    let b ← get data (2 + n)
    fit 64 (l * 256 + b.toNat)

/-- Length of the content and of what comes before it. -/
def tete (data : Octets) (first : UInt8) : Guarded (Option (ℕ × ℕ)) :=
  if first &&& 0x80 = 0 then .ok (some (first.toNat, 2))
  else
    let num := (first &&& 0x7f).toNat
    if num = 0 ∨ 4 < num ∨ data.length < 2 + num then .ok none
    else do
      let l ← longueur data num
      return some (l, 2 + num)

def read (data : Octets) : Guarded (Option (Der × Octets)) :=
  if data.length < 2 then .ok none
  else do
    let tag ← get data 0
    let first ← get data 1
    match ← tete data first with
    | none => return none
    | some (len, header) =>
      let fin ← fit 64 (header + len)
      if data.length < fin then return none
      let content ← range data header fin
      let full ← range data 0 fin
      let rest ← range data fin data.length
      return some (⟨tag, content, full⟩, rest)

def readTag (data : Octets) (tag : UInt8) : Guarded (Option (Der × Octets)) := do
  match ← read data with
  | none => return none
  | some (e, rest) => return if e.tag ≠ tag then none else some (e, rest)

/-- The elements of a content, up to the first that cannot be read. -/
def lesEnfants : ℕ → Octets → Guarded (List Der)
  | 0, _ => .ok []
  | n + 1, data => do
    if data.isEmpty then return []
    match ← read data with
    | none => return []
    | some (e, rest) => return e :: (← lesEnfants n rest)

/-- `for c in d.children()`. Each element takes at least two bytes. -/
def Der.children (d : Der) : Guarded (List Der) := lesEnfants d.content.length d.content

def Der.firstChild (d : Der) : Guarded (Option Der) := do
  return (← d.children).head?

end BouchaudOS.Reseau.Tls
