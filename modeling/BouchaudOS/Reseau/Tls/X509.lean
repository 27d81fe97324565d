import BouchaudOS.Reseau.Tls.Asn1
import BouchaudOS.Reseau.Textes

/-!
# X.509 certificates

A certificate is read from its DER bytes. Everything in it is chosen by the peer. The reader
checks every length before it cuts; the one thing it does not check is that the characters of
a date are digits.
-/

namespace BouchaudOS.Reseau.Tls

open Checked

def OID_RSA_ENCRYPTION : Octets := [0x2a, 0x86, 0x48, 0x86, 0xf7, 0x0d, 0x01, 0x01, 0x01]
def OID_SHA256_RSA : Octets := [0x2a, 0x86, 0x48, 0x86, 0xf7, 0x0d, 0x01, 0x01, 0x0b]
def OID_RSA_PSS : Octets := [0x2a, 0x86, 0x48, 0x86, 0xf7, 0x0d, 0x01, 0x01, 0x0a]
def OID_EC_PUBKEY : Octets := [0x2a, 0x86, 0x48, 0xce, 0x3d, 0x02, 0x01]
def OID_P256 : Octets := [0x2a, 0x86, 0x48, 0xce, 0x3d, 0x03, 0x01, 0x07]
def OID_P384 : Octets := [0x2b, 0x81, 0x04, 0x00, 0x22]
def OID_ECDSA_SHA256 : Octets := [0x2a, 0x86, 0x48, 0xce, 0x3d, 0x04, 0x03, 0x02]
def OID_ECDSA_SHA384 : Octets := [0x2a, 0x86, 0x48, 0xce, 0x3d, 0x04, 0x03, 0x03]
def OID_SAN : Octets := [0x55, 0x1d, 0x11]
def OID_BASIC_CONSTRAINTS : Octets := [0x55, 0x1d, 0x13]

inductive SigAlg
  | rsaPkcs1Sha256
  | rsaPss
  | ecdsaP256Sha256
  | ecdsaP384Sha384
  | unknown
  deriving DecidableEq, Repr

inductive PubKey
  | rsa (n e : Octets)
  | ecP256 (point : Octets)
  | ecP384 (point : Octets)
  | unknown
  deriving DecidableEq, Repr

/-- A certificate as it is parsed. -/
structure Certificate where
  tbs : Octets
  sigAlg : SigAlg
  signature : Octets
  subject : Octets
  issuer : Octets
  pubkey : PubKey
  notBefore : ℕ
  notAfter : ℕ
  sanDns : List Texte
  isCa : Bool
  deriving DecidableEq, Repr

def algFromOid (oid : Octets) : SigAlg :=
  if oid = OID_SHA256_RSA then .rsaPkcs1Sha256
  else if oid = OID_RSA_PSS then .rsaPss
  else if oid = OID_ECDSA_SHA256 then .ecdsaP256Sha256
  else if oid = OID_ECDSA_SHA384 then .ecdsaP384Sha384
  else .unknown

/-- `digit(s[i]) * 10 + digit(s[i + 1])`, where a digit is `c - b'0'` on bytes. -/
def two (s : Octets) (i : ℕ) : Guarded ℕ :=
  if i + 1 < s.length then do
    let d ← sub (← get s i).toNat 0x30
    let u ← sub (← get s (i + 1)).toNat 0x30
    fit 64 (d * 10 + u)
  else .ok 0

/-- `AAAAMMJJhhmmss`. The partial sums are below the whole one. -/
def estampille (year month day hour minute second : ℕ) : Guarded ℕ :=
  fit 64 (year * 10000000000 + month * 100000000 + day * 1000000 + hour * 10000 + minute * 100 + second)

def parseTime (d : Der) : Guarded ℕ :=
  let s := d.content
  if d.tag = TAG_UTCTIME ∧ 12 ≤ s.length then do
    let yy ← two s 0
    let year := if 50 ≤ yy then 1900 + yy else 2000 + yy
    estampille year (← two s 2) (← two s 4) (← two s 6) (← two s 8) (← two s 10)
  else if 14 ≤ s.length then do
    let year := (← two s 0) * 100 + (← two s 2)
    estampille year (← two s 4) (← two s 6) (← two s 8) (← two s 10) (← two s 12)
  else .ok 0

def parsePubkey (spki : Der) : Guarded PubKey := do
  match ← spki.children with
  | alg :: keyBs :: _ =>
    match ← alg.firstChild with
    | none => return .unknown
    | some algOid =>
      if keyBs.content.isEmpty then return .unknown
      let keyBytes ← range keyBs.content 1 keyBs.content.length
      if algOid.content = OID_RSA_ENCRYPTION then
        match ← readTag keyBytes TAG_SEQUENCE with
        | none => return .unknown
        | some (seq, _) =>
          match ← seq.children with
          | n :: e :: _ => return .rsa n.content e.content
          | _ => return .unknown
      else if algOid.content = OID_EC_PUBKEY then
        match ← alg.children with
        | _ :: curve :: _ =>
          if curve.content = OID_P256 then return .ecP256 keyBytes
          else if curve.content = OID_P384 then return .ecP384 keyBytes
          else return .unknown
        | _ => return .unknown
      else return .unknown
  | _ => return .unknown

/-- `b as char` for every byte. -/
def enLatin1 (b : Octets) : Texte := b.map fun x => Char.ofNat x.toNat

/-- The names of a subjectAltName extension. -/
def parseSan (octetContent : Octets) : Guarded (List Texte) := do
  match ← readTag octetContent TAG_SEQUENCE with
  | none => return []
  | some (seq, _) => return ((← seq.children).filter fun name => name.tag = 0x82).map fun name => enLatin1 name.content

def parseBasicConstraints (octetContent : Octets) (isCa : Bool) : Guarded Bool := do
  match ← readTag octetContent TAG_SEQUENCE with
  | none => return isCa
  | some (seq, _) =>
    match ← seq.firstChild with
    | none => return isCa
    | some first =>
      if first.tag = TAG_BOOLEAN ∧ ¬ first.content.isEmpty then
        return (← get first.content 0) ≠ 0
      else return isCa

/-- The boolean `critical` is skipped when it is there. -/
def sansCritique : List Der → List Der
  | [] => []
  | n :: r => if n.tag = TAG_BOOLEAN then r else n :: r

/-- One extension: its names are added, its basic constraints replace what was known. -/
def parseExtension (acc : List Texte × Bool) (ext : Der) : Guarded (List Texte × Bool) := do
  match ← ext.children with
  | [] => return acc
  | oid :: reste =>
    match sansCritique reste with
    | [] => return acc
    | val :: _ =>
      if oid.content = OID_SAN then return (acc.1 ++ (← parseSan val.content), acc.2)
      else if oid.content = OID_BASIC_CONSTRAINTS then return (acc.1, ← parseBasicConstraints val.content acc.2)
      else return acc

def parseExtensions (tbsChildren : List Der) : Guarded (List Texte × Bool) :=
  tbsChildren.foldlM (fun acc c => do
    if c.tag = 0xa3 then
      match ← c.firstChild with
      | none => return acc
      | some exts => (← exts.children).foldlM parseExtension acc
    else return acc) ([], false)

/-- The parts of a certificate, before any of them is interpreted. -/
structure Champs where
  tbs : Der
  sigOid : Der
  signature : Octets
  issuer : Der
  validity : Der
  subject : Der
  spki : Der
  suite : List Der

/-- The walk through the certificate; `none` when a part is missing. -/
def champs (der : Octets) : Guarded (Option Champs) := do
  match ← readTag der TAG_SEQUENCE with
  | none => return none
  | some (certSeq, _) =>
    match ← certSeq.children with
    | tbs :: sigAlgId :: sigBs :: _ =>
      match ← sigAlgId.firstChild with
      | none => return none
      | some sigOid =>
        if sigBs.content.isEmpty then return none
        let signature ← range sigBs.content 1 sigBs.content.length
        match ← tbs.children with
        | [] => return none
        | first :: tc =>
          -- with a version, the serial number is the element after it
          let tc := if first.tag = 0xa0 then tc.tail? else some tc
          match tc with
          | some (_ :: issuer :: validity :: subject :: spki :: suite) =>
            return some ⟨tbs, sigOid, signature, issuer, validity, subject, spki, suite⟩
          | _ => return none
    | _ => return none

/-- The dates of a validity, or those of a certificate that has none. -/
def parseValidity (validity : Der) : Guarded (ℕ × ℕ) := do
  match ← validity.children with
  | nb :: na :: _ => return (← parseTime nb, ← parseTime na)
  | _ => return (0, 2 ^ 64 - 1)

def X509.parse (der : Octets) : Guarded (Option Certificate) := do
  match ← champs der with
  | none => return none
  | some f =>
    let dates ← parseValidity f.validity
    let pubkey ← parsePubkey f.spki
    let ext ← parseExtensions f.suite
    return some
      { tbs := f.tbs.full
        sigAlg := algFromOid f.sigOid.content
        signature := f.signature
        subject := f.subject.full
        issuer := f.issuer.full
        pubkey := pubkey
        notBefore := dates.1
        notAfter := dates.2
        sanDns := ext.1
        isCa := ext.2 }

def eqCi (a b : Texte) : Bool := egalSansCasse (octets a) (octets b)

def sanMatch (pattern host : Texte) : Bool :=
  match pattern with
  | '*' :: '.' :: rest =>
    match coupeA '.' host with
    | some (_, apres) => eqCi apres rest
    | none => false
  | _ => eqCi pattern host

def matchesHostname (cert : Certificate) (host : Texte) : Bool :=
  cert.sanDns.any fun san => sanMatch san host

end BouchaudOS.Reseau.Tls
