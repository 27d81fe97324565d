import BouchaudOS.Reseau.Tls.Canal
import BouchaudOS.Reseau.Tls.Validate

/-!
# The client handshake

`connect` reads the ServerHello, derives the handshake keys and processes the encrypted messages
of the server until Finished. A CertificateVerify that is processed carries a signature of the
leaf over the transcript; nothing asks for one to be there, nor for the messages to come in order.
-/

namespace BouchaudOS.Reseau.Tls

open Checked Outcome List

def HS_SERVER_HELLO : UInt8 := 2
def HS_ENCRYPTED_EXTENSIONS : UInt8 := 8
def HS_CERTIFICATE : UInt8 := 11
def HS_CERTIFICATE_VERIFY : UInt8 := 15
def HS_FINISHED : UInt8 := 20

inductive KxGroup
  | x25519
  | secp256r1
  deriving DecidableEq, Repr

def KxGroup.id : KxGroup → UInt16
  | x25519 => 0x001d
  | secp256r1 => 0x0017

def KxGroup.fromId (id : UInt16) : Option KxGroup :=
  if id = 0x001d then some x25519 else if id = 0x0017 then some secp256r1 else none

/-- Why a handshake stops. -/
inductive Refus
  | texte (s : String)
  | alerte (code : UInt8)
  deriving DecidableEq, Repr

abbrev Essai := Outcome Refus Fault

/-- What the handshake is run with: the ClientHello for a group and a cookie, the shared secret
for the key of the server, the verification of signatures, the store, the host and the time. -/
structure Contexte where
  clientHello : KxGroup → Option Octets → Octets
  shared : KxGroup → Octets → Option Octets
  verifyPssSha256 : Octets → Octets → Octets → Octets → Guarded Bool
  verifyPkcs1Sha256 : Octets → Octets → Octets → Octets → Guarded Bool
  verifyEcdsaP256 : Octets → Octets → Octets → Octets → Guarded Bool
  verifyEcdsaP384 : Octets → Octets → Octets → Octets → Guarded Bool
  verifySignedBy : Certificate → PubKey → Guarded Bool
  magasin : List Certificate
  hostname : Texte
  now : ℕ

def HRR_RANDOM : Octets :=
  [0xcf, 0x21, 0xad, 0x74, 0xe5, 0x9a, 0x61, 0x11, 0xbe, 0x1d, 0x8c, 0x02, 0x1e, 0x65, 0xb8, 0x91,
    0xc2, 0xa2, 0x11, 0x16, 0x7a, 0xbb, 0x8c, 0x5e, 0x07, 0x9e, 0x09, 0xe2, 0xc8, 0xa8, 0x33, 0x9c]

inductive ServerHelloKind
  | hello (group : UInt16) (serverPub : Octets) (cipher : UInt16)
  | retry (cipher group : UInt16) (cookie : Option Octets)

structure Extensions where
  serverPub : Option Octets := none
  selGroup : Option UInt16 := none
  cookie : Option Octets := none

def seize (b : Octets) : UInt16 := seizeDe (b.getD 0 0) (b.getD 1 0)

def Extensions.lit (a : Extensions) (isHrr : Bool) (etype : UInt16) (edata : Octets) : Extensions :=
  if etype = 51 then
    if isHrr then
      if 2 ≤ edata.length then { a with selGroup := some (seize edata) } else a
    else
      let klen := (seize (edata.drop 2)).toNat
      if 4 ≤ edata.length ∧ 4 + klen ≤ edata.length then
        { a with selGroup := some (seize edata), serverPub := some ((edata.drop 4).take klen) }
      else a
  else if etype = 44 then { a with cookie := some edata }
  else a

/-- The loop over the extensions; each takes at least four bytes. -/
def lesExtensions (isHrr : Bool) : ℕ → Octets → Extensions → Essai Extensions
  | 0, _, a => .ok a
  | n + 1, b, a =>
    if b.length < 4 then .ok a
    else
      let elen := (seize (b.drop 2)).toNat
      if b.length < 4 + elen then .err (.texte "extension SH tronquee")
      else lesExtensions isHrr n (b.drop (4 + elen)) (a.lit isHrr (seize b) ((b.drop 4).take elen))

def parseServerHello (msg : Octets) : Essai ServerHelloKind := do
  refuse (msg.length < 4 ∨ msg.getD 0 0 ≠ HS_SERVER_HELLO) (.texte "pas un ServerHello")
  let tronque := Refus.texte "ServerHello tronque"
  let body := msg.drop 4
  refuse (body.length < 35) tronque
  let isHrr := (body.drop 2).take 32 = HRR_RANDOM
  let sidLen := (body.getD 34 0).toNat
  refuse (body.length < 35 + (sidLen + 3)) tronque
  let cipher := seize (body.drop (35 + sidLen))
  let b := body.drop (35 + sidLen + 3)
  refuse (b.length < 2) tronque
  let extLen := (seize b).toNat
  refuse (b.length < 2 + extLen) tronque
  let a ← lesExtensions isHrr extLen ((b.drop 2).take extLen) {}
  if isHrr then
    let group ← ofOption (.texte "HelloRetryRequest sans groupe") a.selGroup
    return .retry cipher group a.cookie
  else
    let group ← ofOption (.texte "ServerHello sans key_share") a.selGroup
    let serverPub ← ofOption (.texte "ServerHello sans cle publique") a.serverPub
    return .hello group serverPub cipher

def readServerHello : List (Octets × Octets) → Essai (Octets × List (Octets × Octets))
  | [] => .err (.texte "pas de ServerHello (timeout)")
  | (hdr, body) :: rs =>
    let t := hdr.getD 0 0
    if t = CT_CHANGE_CIPHER_SPEC then readServerHello rs
    else if t = CT_ALERT then .err (.alerte (body.getD 1 0))
    else if t = CT_HANDSHAKE then .ok (body, rs)
    else .err (.texte "record inattendu avant ServerHello")

def transcriptHash (suite : CipherSuite) (transcript : Octets) : Octets := digest suite.hashAlg transcript

/-- The handshake keys with the transcript they come from. -/
structure Depart where
  transcript : Octets
  ks : KeySchedule

def Contexte.echange (c : Contexte) (group : KxGroup) (serverPub : Octets) (cipher : UInt16) (transcript : Octets) :
    Essai Depart := do
  let suite ← ofOption (.texte "suite TLS 1.3 non implementee") (CipherSuite.fromId cipher)
  let shared ← ofOption (.texte "echange ECDHE invalide") (c.shared group serverPub)
  return ⟨transcript, .deriveHandshake suite shared (transcriptHash suite transcript)⟩

/-- `connect` up to the handshake keys. -/
def Contexte.negocie (c : Contexte) (rs : List (Octets × Octets)) : Essai (Depart × List (Octets × Octets)) := do
  let ch := c.clientHello .x25519 none
  let (sh1, rs) ← readServerHello rs
  match ← parseServerHello sh1 with
  | .retry cipher group cookie =>
    let suite ← ofOption (.texte "suite TLS 1.3 non implementee (HRR)") (CipherSuite.fromId cipher)
    let newGroup ← ofOption (.texte "HelloRetryRequest: groupe ECDHE non supporte") (KxGroup.fromId group)
    let ch1Hash := transcriptHash suite ch
    let ch2 := c.clientHello newGroup cookie
    let (sh2, rs) ← readServerHello rs
    match ← parseServerHello sh2 with
    | .hello group serverPub cipher =>
      refuse (group ≠ newGroup.id) (.texte "ServerHello apres HRR : groupe inattendu")
      let transcript := [254, 0] ++ octetsDe16 (UInt16.ofNat ch1Hash.length) ++ ch1Hash ++ sh1 ++ ch2 ++ sh2
      return (← c.echange newGroup serverPub cipher transcript, rs)
    | .retry .. => .err (.texte "deux HelloRetryRequest (interdit)")
  | .hello group serverPub cipher =>
    refuse (group ≠ KxGroup.x25519.id) (.texte "ServerHello : groupe key_share non offert")
    return (← c.echange .x25519 serverPub cipher (ch ++ sh1), rs)

def longueur24 (b : Octets) : ℕ := 2 ^ 16 * (b.getD 0 0).toNat + mot (b.getD 1 0) (b.getD 2 0)

def typeDe (m : Octets) : UInt8 := m.getD 0 0

/-- The certificates of a list, each followed by its extensions. -/
def lesCertificats : ℕ → Octets → List Octets
  | 0, _ => []
  | n + 1, b =>
    let clen := longueur24 b
    if b.length < 3 ∨ b.length < 3 + clen then []
    else
      let suite := b.drop (3 + clen)
      (b.drop 3).take clen ::
        if suite.length < 2 then [] else lesCertificats n (suite.drop (2 + (seize suite).toNat))

def parseCertificateMsg (body : Octets) : List Octets :=
  let b := body.drop (1 + (body.getD 0 0).toNat)
  if body.isEmpty ∨ b.length < 3 then [] else lesCertificats b.length ((b.drop 3).take (longueur24 b))

/-- `TLS 1.3, server CertificateVerify` behind 64 spaces, and the hash of the transcript. -/
def certVerifyContent (th : Octets) : Octets :=
  List.replicate 64 0x20 ++ octets "TLS 1.3, server CertificateVerify".toList ++ [0x00] ++ th

def strip0 : Octets → Octets
  | 0 :: x :: b => strip0 (x :: b)
  | b => b

def verifyEcdsaDer (sig : Octets) (f : Octets → Octets → Guarded Bool) : Guarded Bool := do
  match ← readTag sig TAG_SEQUENCE with
  | none => return false
  | some (seq, _) =>
    match ← seq.children with
    | r :: s :: _ => f (strip0 r.content) (strip0 s.content)
    | _ => return false

def Contexte.verifyCertVerify (c : Contexte) (body : Octets) (leaf : Certificate) (th : Octets) :
    Guarded Bool :=
  let sigLen := (seize (body.drop 2)).toNat
  if body.length < 4 ∨ body.length < 4 + sigLen then .ok false
  else
    let scheme := seize body
    let sig := (body.drop 4).take sigLen
    let content := certVerifyContent th
    match leaf.pubkey with
    | .rsa n e =>
      if scheme = 0x0804 then c.verifyPssSha256 n e content sig
      else if scheme = 0x0401 then c.verifyPkcs1Sha256 n e content sig
      else .ok false
    | .ecP256 point => if scheme = 0x0403 then verifyEcdsaDer sig (c.verifyEcdsaP256 point content) else .ok false
    | .ecP384 point => if scheme = 0x0503 then verifyEcdsaDer sig (c.verifyEcdsaP384 point content) else .ok false
    | .unknown => .ok false

/-- The state of the loop, with the messages it has processed. -/
structure Vol where
  transcript : Octets
  certsDer : List Octets := []
  leaf : Option Certificate := none
  thThroughCert : Option Octets := none
  fini : Bool := false
  traites : List Octets := []

open Vol

namespace Vol

def suit (v : Vol) (full : Octets) : Vol :=
  { v with transcript := v.transcript ++ full, traites := v.traites ++ [full] }

def feuille (v : Vol) : List Octets → Essai (Option Certificate)
  | [] => .ok v.leaf
  | d :: _ => liftM (X509.parse d)

/-- One message. -/
def pas (c : Contexte) (ks : KeySchedule) (v : Vol) (full : Octets) : Essai Vol :=
  let hash := transcriptHash ks.suite
  let body := full.drop 4
  if typeDe full = HS_CERTIFICATE then do
    let certsDer := v.certsDer ++ parseCertificateMsg body
    let leaf ← v.feuille certsDer
    return { v.suit full with certsDer := certsDer, leaf := leaf, thThroughCert := some (hash (v.transcript ++ full)) }
  else if typeDe full = HS_CERTIFICATE_VERIFY then do
    let th ← ofOption (.texte "CertificateVerify sans Certificate") v.thThroughCert
    let leaf ← ofOption (.texte "certificat feuille manquant") v.leaf
    let valide ← liftM (c.verifyCertVerify body leaf th)
    refuse (valide = false) (.texte "CertificateVerify invalide (signature serveur)")
    return v.suit full
  else if typeDe full = HS_FINISHED then do
    refuse (body ≠ finishedVerify ks.suite ks.serverHs (hash v.transcript))
      (.texte "Finished serveur invalide (verify_data)")
    return { v.suit full with fini := true }
  else .ok (v.suit full)

/-- The complete messages of the buffer, up to Finished. -/
def traite (c : Contexte) (ks : KeySchedule) : ℕ → Octets → Vol → Essai (Octets × Vol)
  | 0, buf, v => .ok (buf, v)
  | n + 1, buf, v =>
    let fin := 4 + longueur24 (buf.drop 1)
    if v.fini ∨ buf.length < 4 ∨ buf.length < fin then .ok (buf, v)
    else do
      let v ← v.pas c ks (buf.take fin)
      traite c ks n (buf.drop fin) v

/-- The loop, record after record. -/
def lit (c : Contexte) (ks : KeySchedule) : List (Octets × Octets) → DirKeys → Octets → Vol → Essai Vol
  | [], _, _, _ => .err (.texte "flight serveur incomplet")
  | (hdr, body) :: rs, k, buf, v =>
    let t := hdr.getD 0 0
    if t = CT_CHANGE_CIPHER_SPEC then lit c ks rs k buf v
    else if t = CT_ALERT then .err (.alerte (body.getD 1 0))
    else if t = CT_APPLICATION_DATA then do
      match ← liftM (k.decrypt hdr body) with
      | (none, _) => .err (.texte "dechiffrement handshake echoue")
      | (some (t, pt), k) =>
        if t = CT_HANDSHAKE then do
          let r ← traite c ks (buf ++ pt).length (buf ++ pt) v
          if r.2.fini then .ok r.2 else lit c ks rs k r.1 r.2
        else if t = CT_ALERT then .err (.alerte (pt.getD 1 0))
        else lit c ks rs k buf v
    else .err (.texte "record inattendu dans le flight serveur")

end Vol

def parseChain : List Octets → Guarded (List Certificate)
  | [] => .ok []
  | d :: ds => do
    let o ← X509.parse d
    return o.toList ++ (← parseChain ds)

/-- A handshake that succeeded. -/
structure Connexion where
  depart : Depart
  traites : List Octets
  chain : List Certificate
  report : ChainResult

/-- `connect` on what the peer sends. -/
def connect (c : Contexte) (flux : Octets) : Essai Connexion := do
  let (d, rs) ← c.negocie (enregistrements flux)
  let v ← lit c d.ks rs (.new d.ks.suite d.ks.serverHs) [] { transcript := d.transcript }
  let chain ← liftM (parseChain v.certsDer)
  let report ← liftM (validate c.verifySignedBy c.magasin chain c.hostname c.now)
  return ⟨d, v.traites, chain, report⟩

/-- Among the messages there is a CertificateVerify with a signature of `leaf` over the
transcript up to the Certificate message before it. -/
def Signe (c : Contexte) (d : Depart) (traites : List Octets) (leaf : Certificate) : Prop :=
  ∃ avant cert entre cv apres, traites = avant ++ cert :: entre ++ cv :: apres ∧ typeDe cert = HS_CERTIFICATE ∧
    (∀ m ∈ entre, typeDe m ≠ HS_CERTIFICATE) ∧ typeDe cv = HS_CERTIFICATE_VERIFY ∧
    c.verifyCertVerify (cv.drop 4) leaf (transcriptHash d.ks.suite (d.transcript ++ (avant ++ [cert]).flatten)) = .ok true

variable {c : Contexte} {d : Depart} {v v' : Vol} {full : Octets} {leaf : Certificate}

theorem Signe.suit {traites : List Octets} (h : Signe c d traites leaf) (full : Octets) :
    Signe c d (traites ++ [full]) leaf := by
  obtain ⟨avant, cert, entre, cv, apres, rfl, hsuite⟩ := h
  exact ⟨avant, cert, entre, cv, apres ++ [full], by simp, hsuite⟩

/-- What the loop knows of the messages it has processed. -/
structure Vol.Inv (c : Contexte) (d : Depart) (v : Vol) : Prop where
  transcript : v.transcript = d.transcript ++ v.traites.flatten
  leaf : ∀ leaf, v.leaf = some leaf → ∃ der ders, v.certsDer = der :: ders ∧ X509.parse der = .ok (some leaf)
  certificat : ∀ th, v.thThroughCert = some th → ∃ avant cert entre, v.traites = avant ++ cert :: entre ∧
    typeDe cert = HS_CERTIFICATE ∧ (∀ m ∈ entre, typeDe m ≠ HS_CERTIFICATE) ∧
    th = transcriptHash d.ks.suite (d.transcript ++ (avant ++ [cert]).flatten)
  signature : HS_CERTIFICATE_VERIFY ∈ v.traites.map typeDe → ∃ leaf, v.leaf = some leaf ∧ Signe c d v.traites leaf

namespace Vol

/-- A message that is neither a Certificate nor a new signature. -/
theorem Inv.suit (h : v.Inv c d) (hcert : typeDe full ≠ HS_CERTIFICATE)
    (hsig : typeDe full = HS_CERTIFICATE_VERIFY → ∃ leaf, v.leaf = some leaf ∧ Signe c d (v.traites ++ [full]) leaf) :
    (v.suit full).Inv c d where
  transcript := by simp [Vol.suit, h.transcript]
  leaf := h.leaf
  certificat th hth := by
    obtain ⟨avant, cert, entre, htraites, htype, hentre, rfl⟩ := h.certificat th hth
    refine ⟨avant, cert, entre ++ [full], by simp [Vol.suit, htraites], htype, fun m hm => ?_, rfl⟩
    rcases mem_append.mp hm with hm | hm
    · exact hentre m hm
    · rwa [mem_singleton.mp hm]
  signature hmem := by
    rw [Vol.suit, map_append, mem_append] at hmem
    rcases hmem with hmem | hmem
    · obtain ⟨leaf, hleaf, hs⟩ := h.signature hmem
      exact ⟨leaf, hleaf, hs.suit full⟩
    · exact hsig (mem_singleton.mp hmem).symm

theorem Inv.certificate (h : v.Inv c d) (hcert : typeDe full = HS_CERTIFICATE) {nouveaux : List Octets}
    {o : Option Certificate} (ho : v.feuille (v.certsDer ++ nouveaux) = .ok o) :
    Inv c d { v.suit full with
      certsDer := v.certsDer ++ nouveaux
      leaf := o
      thThroughCert := some (transcriptHash d.ks.suite (v.transcript ++ full)) } where
  transcript := by simp [Vol.suit, h.transcript]
  leaf leaf hleaf := by
    subst hleaf
    cases hders : v.certsDer ++ nouveaux with
    | nil =>
      rw [hders] at ho
      obtain ⟨der, ders, hder, -⟩ := h.leaf leaf (Outcome.ok.inj ho)
      simp [hder] at hders
    | cons der ders =>
      rw [hders] at ho
      exact ⟨der, ders, rfl, Guarded.liftM_eq_ok.mp ho⟩
  certificat th hth := by
    cases hth
    exact ⟨v.traites, full, [], rfl, hcert, nofun, by simp [h.transcript]⟩
  signature hmem := by
    have hne : HS_CERTIFICATE_VERIFY ≠ typeDe full := by rw [hcert]; decide
    simp only [Vol.suit, map_append, mem_append, map_cons, map_nil, mem_singleton, hne, or_false] at hmem
    obtain ⟨leaf, hleaf, hs⟩ := h.signature hmem
    obtain ⟨der, ders, hders, hparse⟩ := h.leaf leaf hleaf
    -- The first certificate is still the first one, so it is read as before.
    rw [hders, cons_append] at ho
    rw [Guarded.liftM_eq_ok.mp ho] at hparse
    exact ⟨leaf, Outcome.ok.inj hparse, hs.suit full⟩

theorem Inv.pas (h : v.Inv c d) (hv' : v.pas c d.ks full = .ok v') : v'.Inv c d := by
  unfold Vol.pas at hv'
  split_ifs at hv' with hcert hcv hfin
  · obtain ⟨o, ho, hv'⟩ := bind_eq_ok.mp hv'
    cases hv'
    exact h.certificate hcert ho
  · obtain ⟨th, hth, hv'⟩ := bind_eq_ok.mp hv'
    obtain ⟨leaf, hleaf, hv'⟩ := bind_eq_ok.mp hv'
    obtain ⟨valide, hvalide, hv'⟩ := bind_eq_ok.mp hv'
    obtain ⟨_, hrefus, hv'⟩ := bind_eq_ok.mp hv'
    cases hv'
    refine h.suit hcert fun _ => ⟨leaf, ofOption_eq_ok.mp hleaf, ?_⟩
    obtain ⟨avant, cert, entre, htraites, htype, hentre, rfl⟩ := h.certificat th (ofOption_eq_ok.mp hth)
    have hvrai : valide = true := by simpa using refuse_eq_ok.mp hrefus
    exact ⟨avant, cert, entre, full, [], by rw [htraites], htype, hentre, hcv,
      hvrai ▸ Guarded.liftM_eq_ok.mp hvalide⟩
  · obtain ⟨_, -, hv'⟩ := bind_eq_ok.mp hv'
    cases hv'
    have hs : (v.suit full).Inv c d := h.suit hcert fun hcv' => absurd hcv' hcv
    exact ⟨hs.transcript, hs.leaf, hs.certificat, hs.signature⟩
  · cases hv'
    exact h.suit hcert fun hcv' => absurd hcv' hcv

theorem Inv.traite (n : ℕ) {buf : Octets} {r : Octets × Vol} (h : v.Inv c d)
    (hr : traite c d.ks n buf v = .ok r) : r.2.Inv c d := by
  induction n generalizing buf v with
  | zero =>
    cases hr
    exact h
  | succ n ih =>
    unfold traite at hr
    dsimp only at hr
    split_ifs at hr
    · cases hr
      exact h
    · obtain ⟨v1, hv1, hr⟩ := bind_eq_ok.mp hr
      exact ih (h.pas hv1) hr

theorem Inv.lit (rs : List (Octets × Octets)) {k : DirKeys} {buf : Octets} (h : v.Inv c d)
    (hv' : lit c d.ks rs k buf v = .ok v') : v'.Inv c d := by
  induction rs generalizing k buf v with
  | nil => cases hv'
  | cons r rs ih =>
    unfold lit at hv'
    dsimp only at hv'
    split_ifs at hv'
    · exact ih h hv'
    · obtain ⟨⟨o, k'⟩, -, hv'⟩ := bind_eq_ok.mp hv'
      cases o with
      | none => cases hv'
      | some p =>
        dsimp only at hv'
        split_ifs at hv'
        · obtain ⟨r, hr, hv'⟩ := bind_eq_ok.mp hv'
          split at hv'
          · cases hv'
            exact h.traite _ hr
          · exact ih (h.traite _ hr) hv'
        · exact ih h hv'

theorem traite_append (c : Contexte) (ks : KeySchedule) (n : ℕ) (rest : Octets)
    (hlen : full.length = 4 + longueur24 (full.drop 1)) (hv : v.fini = false) :
    traite c ks (n + 1) (full ++ rest) v = v.pas c ks full >>= traite c ks n rest := by
  have hfin : 4 + longueur24 ((full ++ rest).drop 1) = full.length := by
    have hsuite : 3 ≤ (full.drop 1).length := by rw [length_drop]; omega
    rw [hlen, drop_append_of_le_length (by omega), longueur24, getD_append _ _ _ _ (by omega),
      getD_append _ _ _ _ (by omega), getD_append _ _ _ _ (by omega)]
    rfl
  rw [traite, hfin, if_neg (by simp only [hv, length_append]; simp; omega), take_left, drop_left]

theorem pas_finished (c : Contexte) (ks : KeySchedule) (v : Vol) (ht : typeDe full = HS_FINISHED)
    (h : full.drop 4 = finishedVerify ks.suite ks.serverHs (transcriptHash ks.suite v.transcript)) :
    v.pas c ks full = .ok { v.suit full with fini := true } := by
  rw [pas, if_neg (by rw [ht]; decide), if_neg (by rw [ht]; decide), if_pos ht, refuse, if_neg (not_not.mpr h)]
  rfl

theorem pas_certificate (c : Contexte) (ks : KeySchedule) (v : Vol) {ders : List Octets} {o : Option Certificate}
    (ht : typeDe full = HS_CERTIFICATE) (hders : v.certsDer ++ parseCertificateMsg (full.drop 4) = ders)
    (ho : v.feuille ders = .ok o) :
    v.pas c ks full = .ok { v.suit full with
      certsDer := ders, leaf := o, thThroughCert := some (transcriptHash ks.suite (v.transcript ++ full)) } := by
  rw [pas, if_pos ht, hders]
  dsimp only
  rw [ho]
  rfl

end Vol

def ORDRE : List UInt8 := [HS_ENCRYPTED_EXTENSIONS, HS_CERTIFICATE, HS_CERTIFICATE_VERIFY, HS_FINISHED]

namespace Connexion

variable {s : Connexion} {flux : Octets}

theorem connect_eq_ok {rs : List (Octets × Octets)} {chain : List Certificate} {report : ChainResult}
    (hd : c.negocie (enregistrements flux) = .ok (d, rs))
    (hv : lit c d.ks rs (.new d.ks.suite d.ks.serverHs) [] { transcript := d.transcript } = .ok v)
    (hchain : parseChain v.certsDer = .ok chain)
    (hreport : validate c.verifySignedBy c.magasin chain c.hostname c.now = .ok report) :
    connect c flux = .ok ⟨d, v.traites, chain, report⟩ := by
  rw [connect, hd, ok_bind]
  dsimp only
  rw [hv, ok_bind, hchain, Guarded.monadLift_ok, ok_bind, hreport]
  rfl

def Accepte (s : Connexion) : Prop := s.report.trusted ∧ s.report.hostnameOk ∧ ¬ s.report.expired

/-- The key of the certificate whose names were matched signed the transcript. -/
def Signee (c : Contexte) (s : Connexion) : Prop :=
  ∃ leaf, s.chain.head? = some leaf ∧ Signe c s.depart s.traites leaf

def Authentifiee (c : Contexte) (s : Connexion) : Prop := s.Signee c ∧ s.traites.map typeDe = ORDRE

theorem signee_iff (h : connect c flux = .ok s) :
    s.Signee c ↔ HS_CERTIFICATE_VERIFY ∈ s.traites.map typeDe := by
  constructor
  · rintro ⟨_, -, avant, cert, entre, cv, apres, htraites, -, -, hcv, -⟩
    rw [htraites, map_append, map_cons, hcv]
    exact mem_append_right _ mem_cons_self
  · intro hmem
    obtain ⟨⟨d, rs⟩, -, h⟩ := bind_eq_ok.mp h
    obtain ⟨v, hv, h⟩ := bind_eq_ok.mp h
    obtain ⟨chain, hchain, h⟩ := bind_eq_ok.mp h
    obtain ⟨report, -, h⟩ := bind_eq_ok.mp h
    cases h
    have hinit : Inv c d { transcript := d.transcript } := ⟨by simp, nofun, nofun, nofun⟩
    have hinv := Inv.lit rs hinit hv
    obtain ⟨leaf, hleaf, hs⟩ := hinv.signature hmem
    obtain ⟨der, ders, hders, hparse⟩ := hinv.leaf leaf hleaf
    rw [hders] at hchain
    obtain ⟨o, ho, hchain⟩ := bind_eq_ok.mp (Guarded.liftM_eq_ok.mp hchain)
    obtain ⟨reste, -, hchain⟩ := bind_eq_ok.mp hchain
    rw [hparse] at ho
    cases ho
    cases hchain
    exact ⟨leaf, rfl, hs⟩

/-- A certificate for the name `a` that names itself as issuer. -/
def der : Octets :=
  [0x30, 0x29, 0x30, 0x1f, 0x02, 0x01, 0x01, 0x30, 0x00, 0x30, 0x00, 0x30, 0x00, 0x30, 0x00, 0x30, 0x00, 0xa3, 0x10,
    0x30, 0x0e, 0x30, 0x0c, 0x06, 0x03, 0x55, 0x1d, 0x11, 0x04, 0x05, 0x30, 0x03, 0x82, 0x01, 0x61,
    0x30, 0x02, 0x06, 0x00, 0x03, 0x02, 0x00, 0x00]

/-- What `der` is read as. -/
def ancre : Certificate :=
  ⟨(der.drop 2).take 33, .unknown, [0], [0x30, 0], [0x30, 0], .unknown, 0, 2 ^ 64 - 1, ["a".toList], false⟩

/-- A client that trusts that certificate and accepts its signature of itself. -/
def client : Contexte where
  clientHello _ _ := []
  shared _ _ := some []
  verifyPssSha256 _ _ _ _ := .ok false
  verifyPkcs1Sha256 _ _ _ _ := .ok false
  verifyEcdsaP256 _ _ _ _ := .ok false
  verifyEcdsaP384 _ _ _ _ := .ok false
  verifySignedBy _ _ := .ok true
  magasin := [ancre]
  hostname := "a".toList
  now := 1

def serverHello : Octets :=
  [2, 0, 0, 48, 3, 3] ++ List.replicate 32 0 ++ [0, 0x13, 0x01, 0, 0, 8, 0, 51, 0, 4, 0, 0x1d, 0, 0]

def certificateMsg : Octets := [11, 0, 0, 52, 0, 0, 0, 48, 0, 0, 43] ++ der ++ [0, 0]

def departServeur : Depart :=
  ⟨serverHello, .deriveHandshake .tlsAes128GcmSha256 [] (transcriptHash .tlsAes128GcmSha256 serverHello)⟩

def verifyServeur : Octets :=
  finishedVerify departServeur.ks.suite departServeur.ks.serverHs
    (transcriptHash departServeur.ks.suite (serverHello ++ certificateMsg))

def finishedMsg : Octets := HS_FINISHED :: 0 :: 0 :: 32 :: verifyServeur

def cles : DirKeys := .new departServeur.ks.suite departServeur.ks.serverHs

def messageServeur : Message := ⟨CT_HANDSHAKE, certificateMsg ++ finishedMsg, 0, by decide⟩

def recordServeur : Octets := cles.enregistrement messageServeur.inner

def fluxServeur : Octets := [[22, 3, 3, 0, 52] ++ serverHello, recordServeur].flatten

theorem length_verifyServeur : verifyServeur.length = 32 := by
  rw [verifyServeur, finishedVerify, length_hmac]
  rfl

theorem enregistrements_fluxServeur : enregistrements fluxServeur =
    [([22, 3, 3, 0, 52], serverHello), (recordServeur.take 5, recordServeur.drop 5)] := by
  have hcert : certificateMsg.length = 56 := by decide
  rw [fluxServeur, enregistrements_flatten]
  · rfl
  · intro r hr
    rcases mem_pair.mp hr with rfl | rfl
    · decide
    · rw [recordServeur]
      refine ⟨by rw [DirKeys.length_enregistrement]; omega, longueurCorps_enregistrement _ ?_⟩
      simp [messageServeur, Message.inner, hcert, finishedMsg, length_verifyServeur]

/-- The state once the certificate is read. -/
def volCertificat : Vol :=
  ⟨serverHello ++ certificateMsg, [der], some ancre,
    some (transcriptHash departServeur.ks.suite (serverHello ++ certificateMsg)), false, [certificateMsg]⟩

def volServeur : Vol := { volCertificat.suit finishedMsg with fini := true }

theorem traite_serveur (n : ℕ) :
    traite client departServeur.ks (n + 3) (certificateMsg ++ finishedMsg) { transcript := serverHello } =
      .ok ([], volServeur) := by
  have hmsg : parseCertificateMsg (certificateMsg.drop 4) = [der] := by decide +kernel
  have hparse : X509.parse der = .ok (some ancre) := by decide +kernel
  have hcert : pas client departServeur.ks { transcript := serverHello } certificateMsg = .ok volCertificat :=
    pas_certificate client departServeur.ks _ (by decide) hmsg (by rw [feuille, hparse]; rfl)
  have hfin : pas client departServeur.ks volCertificat finishedMsg = .ok volServeur :=
    pas_finished client departServeur.ks volCertificat rfl
      (by simp only [finishedMsg, drop_succ_cons, drop_zero, verifyServeur, volCertificat])
  have hlen : finishedMsg.length = 4 + longueur24 (finishedMsg.drop 1) := by
    simp [finishedMsg, length_verifyServeur, longueur24, mot]
  rw [traite_append client departServeur.ks (n + 2) finishedMsg (by decide) rfl, hcert, ok_bind,
    ← append_nil finishedMsg, traite_append client departServeur.ks (n + 1) [] hlen rfl, hfin]
  rfl

theorem lit_serveur : lit client departServeur.ks [(recordServeur.take 5, recordServeur.drop 5)] cles []
    { transcript := serverHello } = .ok volServeur := by
  have htype : (recordServeur.take 5).getD 0 0 = CT_APPLICATION_DATA := by
    rfl
  have hlen : ([] ++ (certificateMsg ++ finishedMsg)).length = 89 + 3 := by
    simp [finishedMsg, length_verifyServeur, show certificateMsg.length = 56 by decide]
  rw [lit, htype, if_neg (by decide), if_neg (by decide), if_pos rfl, recordServeur,
    DirKeys.decrypt_enregistrement messageServeur (show cles.seq + 1 < 2 ^ 64 by decide), Guarded.monadLift_ok, ok_bind]
  dsimp only [messageServeur]
  rw [if_pos rfl, hlen, nil_append, traite_serveur, ok_bind]
  rfl

theorem connect_serveur : connect client fluxServeur = .ok ⟨departServeur, [certificateMsg, finishedMsg], [ancre],
    ⟨true, true, false, some "magasin:issuer", "chaine de confiance complete"⟩⟩ := by
  have hnegocie : client.negocie (enregistrements fluxServeur) =
      .ok (departServeur, [(recordServeur.take 5, recordServeur.drop 5)]) := by
    rw [enregistrements_fluxServeur]
    rfl
  have hchain : parseChain volServeur.certsDer = .ok [ancre] := by decide +kernel
  have hvalide : validate client.verifySignedBy client.magasin [ancre] client.hostname client.now =
    .ok ⟨true, true, false, some "magasin:issuer", "chaine de confiance complete"⟩ := by decide +kernel
  exact connect_eq_ok hnegocie lit_serveur hchain hvalide

end Connexion

end BouchaudOS.Reseau.Tls
