import BouchaudOS.Reseau.Textes

/-!
# The cookie jar

What `Set-Cookie` headers leave behind and what is sent back to a host. The jar holds at most
two hundred cookies, each with a name and a value of at most 4096 bytes together.
-/

namespace BouchaudOS.Reseau

structure Cookie where
  domain : Texte
  hostOnly : Bool
  name : Texte
  value : Texte
  deriving DecidableEq, Repr

/-- `parse::<i64>`: an optional sign, then digits. -/
def parseI64 (t : Texte) : Option ℤ :=
  let (signe, chiffres) : ℤ × Texte :=
    match t with
    | '-' :: r => (-1, r)
    | '+' :: r => (1, r)
    | r => (1, r)
  if chiffres.isEmpty || !chiffres.all Char.isDigit then none
  else
    let n := signe * chiffres.foldl (fun (v : ℤ) c => v * 10 + (c.toNat - 48 : ℕ)) 0
    if -(2 ^ 63) ≤ n ∧ n < 2 ^ 63 then some n else none

/-- What the attributes of a cookie decide. -/
structure Attributs where
  domain : Texte
  hostOnly : Bool := true
  delete : Bool := false

def couvre (domain host : Texte) : Bool := host = domain || decide (('.' :: domain) <:+ host)

def Attributs.lit (host : Texte) (a : Attributs) (attr : Texte) : Attributs :=
  let (k, v) :=
    match coupeA '=' (trim attr) with
    | some (k, v) => (minuscules (trim k), trim v)
    | none => (minuscules (trim attr), [])
  if k = "domain".toList then
    let d := minuscules (v.dropWhile (· == '.'))
    if !d.isEmpty && couvre d host then { a with domain := d, hostOnly := false } else a
  else if k = "max-age".toList then
    if (parseI64 (trim v)).any (· ≤ 0) then { a with delete := true } else a
  else if k = "expires".toList then
    if "1970".toList <:+: v ∨ "1969".toList <:+: v then { a with delete := true } else a
  else a

abbrev Pot := List Cookie

namespace Pot

def MAX_COOKIES : ℕ := 200

/-- What `store_one` does once the header is read. -/
def range (pot : Pot) (a : Attributs) (name val : Texte) : Pot :=
  match pot.findIdx? fun c => c.name = name && c.domain = a.domain with
  | some i => if a.delete then pot.eraseIdx i else pot.modify i fun c => { c with value := val }
  | none =>
    if a.delete then pot
    else (if MAX_COOKIES ≤ pot.length then pot.eraseIdx 0 else pot) ++ [⟨a.domain, a.hostOnly, name, val⟩]

def storeOne (pot : Pot) (host value : Texte) : Pot :=
  let host := minuscules host
  match value.splitOn ';' with
  | [] => pot
  | nv :: parts =>
    match coupeA '=' (trim nv) with
    | none => pot
    | some (n, v) =>
      let name := trim n
      let val := trim v
      if name.isEmpty ∨ 4096 < (octets name).length + (octets val).length then pot
      else pot.range (parts.foldl (Attributs.lit host) { domain := host }) name val

def apres (recus : List (Texte × Texte)) : Pot := recus.foldl (fun pot r => storeOne pot r.1 r.2) []

def headerFor (pot : Pot) (host : Texte) : Option Texte :=
  let host := minuscules host
  let out := pot.foldl (fun (out : Texte) c =>
    if (if c.hostOnly then host = c.domain else couvre c.domain host) then
      (if out.isEmpty then out else out ++ "; ".toList) ++ c.name ++ '=' :: c.value
    else out) []
  if out.isEmpty then none else some out

end Pot

end BouchaudOS.Reseau
