import BouchaudOS.Foundations.Checked
import BouchaudOS.Reseau.Tls.Aead

/-!
# The record layer

A direction of the flow has a key, an initialisation vector and the number of the next record.
Each record is sealed under a nonce made from that number, so no nonce serves twice before the
numbers run out; the type of the content and the padding are inside.
-/

namespace BouchaudOS.Reseau.Tls

open Checked StreamCipher List

def CT_CHANGE_CIPHER_SPEC : UInt8 := 20
def CT_ALERT : UInt8 := 21
def CT_HANDSHAKE : UInt8 := 22
def CT_APPLICATION_DATA : UInt8 := 23

inductive CipherSuite
  | tlsAes128GcmSha256
  | tlsAes256GcmSha384
  | tlsChacha20Poly1305Sha256
  deriving DecidableEq, Repr

namespace CipherSuite

def fromId (id : UInt16) : Option CipherSuite :=
  if id = 0x1301 then some tlsAes128GcmSha256
  else if id = 0x1302 then some tlsAes256GcmSha384
  else if id = 0x1303 then some tlsChacha20Poly1305Sha256
  else none

def hashAlg : CipherSuite → HashAlg
  | tlsAes128GcmSha256 => .sha256
  | tlsAes256GcmSha384 => .sha384
  | tlsChacha20Poly1305Sha256 => .sha256

def keyLen : CipherSuite → ℕ
  | tlsAes128GcmSha256 => 16
  | tlsAes256GcmSha384 => 32
  | tlsChacha20Poly1305Sha256 => 32

def scelle : CipherSuite → Octets → Octets → Octets → Octets → Octets × Octets
  | tlsAes128GcmSha256 | tlsAes256GcmSha384 => Gcm.scelle
  | tlsChacha20Poly1305Sha256 => Chacha.scelle

def ouvre : CipherSuite → Octets → Octets → Octets → Octets → Octets → Option Octets
  | tlsAes128GcmSha256 | tlsAes256GcmSha384 => Gcm.ouvre
  | tlsChacha20Poly1305Sha256 => Chacha.ouvre

variable (c : CipherSuite) (key iv aad clair : Octets)

theorem ouvre_scelle :
    c.ouvre key iv aad (c.scelle key iv aad clair).1 (c.scelle key iv aad clair).2 = some clair := by
  cases c with
  | tlsAes128GcmSha256 => exact Gcm.ouvre_scelle key iv aad clair
  | tlsAes256GcmSha384 => exact Gcm.ouvre_scelle key iv aad clair
  | tlsChacha20Poly1305Sha256 => exact Chacha.ouvre_scelle key iv aad clair

theorem length_tag : (c.scelle key iv aad clair).2.length = 16 := by
  cases c with
  | tlsAes128GcmSha256 => exact Gcm.length_scelle key iv aad clair
  | tlsAes256GcmSha384 => exact Gcm.length_scelle key iv aad clair
  | tlsChacha20Poly1305Sha256 => simp [scelle, Chacha.scelle, Chacha.tag, Chacha.poly1305Mac, Chacha.bigToLe16]

theorem length_cipher : (c.scelle key iv aad clair).1.length = clair.length := by
  cases c with
  | tlsAes128GcmSha256 => exact Gcm.length_gctr _ _ clair
  | tlsAes256GcmSha384 => exact Gcm.length_gctr _ _ clair
  | tlsChacha20Poly1305Sha256 => exact Chacha.length_chacha20Xor _ _ _ clair

end CipherSuite

/-- The keys of one direction, and the number of the next record. -/
structure DirKeys where
  suite : CipherSuite
  key : Octets
  iv : Octets
  seq : ℕ := 0
  taille : iv.length = 12

namespace DirKeys

def new (suite : CipherSuite) (secret : Octets) : DirKeys where
  suite := suite
  key := hkdfExpandLabel suite.hashAlg secret [0x6b, 0x65, 0x79] [] suite.keyLen
  iv := hkdfExpandLabel suite.hashAlg secret [0x69, 0x76] [] 12
  taille := length_hkdfExpandLabel _ _ _ _ _

def au (k : DirKeys) (n : ℕ) : DirKeys := { k with seq := n }

def nonce (k : DirKeys) : Octets := k.iv.take 4 ++ xorBytes (k.iv.drop 4) (octetsBe 8 k.seq)

/-- The header of a record; two bytes of its length are kept. -/
def entete (total : ℕ) : Octets := [CT_APPLICATION_DATA, 0x03, 0x03, UInt8.ofNat (total / 256), UInt8.ofNat total]

/-- The record of an inner plaintext. -/
def enregistrement (k : DirKeys) (inner : Octets) : Octets :=
  let header := entete (inner.length + 16)
  let r := k.suite.scelle k.key k.nonce header inner
  header ++ (r.1 ++ r.2)

/-- The inner plaintext is sealed and the number goes up; past 64 bits it stops the kernel. -/
def scelle (k : DirKeys) (inner : Octets) : Guarded (Octets × DirKeys) := do
  let seq ← fit 64 (k.seq + 1)
  return (k.enregistrement inner, k.au seq)

def encrypt (k : DirKeys) (innerType : UInt8) (data : Octets) : Guarded (Octets × DirKeys) :=
  k.scelle (data ++ [innerType])

/-- The padding is dropped; the last byte that is not zero is the type. -/
def depouille (buf : Octets) : Option (UInt8 × Octets) :=
  let buf := buf.rdropWhile (· == 0)
  buf.getLast?.map fun t => (t, buf.dropLast)

/-- The AEAD on the body of a record: the ciphertext and the tag of sixteen bytes. -/
def ouvre (k : DirKeys) (header body : Octets) : Option Octets :=
  if body.length < 16 then none
  else k.suite.ouvre k.key k.nonce header (body.take (body.length - 16)) (body.drop (body.length - 16))

/-- A record that is refused leaves the number as it is. -/
def decrypt (k : DirKeys) (header body : Octets) : Guarded (Option (UInt8 × Octets) × DirKeys) :=
  match k.ouvre header body with
  | none => .ok (none, k)
  | some buf => do
    let seq ← fit 64 (k.seq + 1)
    return (depouille buf, k.au seq)

variable (k : DirKeys) (inner : Octets)

@[simp] theorem au_seq (n : ℕ) : (k.au n).seq = n := rfl

@[simp] theorem au_au (n m : ℕ) : (k.au n).au m = k.au m := rfl

@[simp] theorem au_self : k.au k.seq = k := rfl

theorem take_enregistrement : (k.enregistrement inner).take 5 = entete (inner.length + 16) := by
  simp [enregistrement, entete]

@[simp] theorem length_enregistrement : (k.enregistrement inner).length = inner.length + 21 := by
  simp [enregistrement, entete, CipherSuite.length_cipher, CipherSuite.length_tag]

theorem ouvre_enregistrement :
    k.ouvre ((k.enregistrement inner).take 5) ((k.enregistrement inner).drop 5) = some inner := by
  have htag := k.suite.length_tag k.key k.nonce (entete (inner.length + 16)) inner
  have hdrop : (k.enregistrement inner).drop 5 =
      (k.suite.scelle k.key k.nonce (entete (inner.length + 16)) inner).1 ++
        (k.suite.scelle k.key k.nonce (entete (inner.length + 16)) inner).2 := by
    simp [enregistrement, entete]
  rw [take_enregistrement, hdrop, ouvre, if_neg (by simp [htag]), length_append, htag, Nat.add_sub_cancel,
    take_left, drop_left]
  exact k.suite.ouvre_scelle k.key k.nonce _ inner

theorem depouille_eq {t : UInt8} (ht : t ≠ 0) (data : Octets) (n : ℕ) :
    depouille (data ++ t :: List.replicate n 0) = some (t, data) := by
  have hdrop : (data ++ t :: List.replicate n 0).rdropWhile (· == 0) = data ++ [t] := by
    induction n with
    | zero => simp [ht]
    | succ n ih =>
      rw [replicate_succ', ← cons_append, ← append_assoc, rdropWhile_concat_pos _ _ _ (by simp)]
      exact ih
  simp [depouille, hdrop]

theorem nonce_inj {i j : ℕ} (hi : i < 2 ^ 64) (hj : j < 2 ^ 64)
    (h : (k.au i).nonce = (k.au j).nonce) : i = j := by
  have hlen (n : ℕ) : (octetsBe 8 n).length = (k.iv.drop 4).length := by simp [k.taille]
  have hbytes := xorBytes_left_inj (hlen i) (hlen j) (append_cancel_left h)
  have hmod := octetsBe_inj hbytes
  rwa [Nat.mod_eq_of_lt (by omega), Nat.mod_eq_of_lt (by omega)] at hmod

end DirKeys

/-- The secrets of the handshake. -/
structure KeySchedule where
  suite : CipherSuite
  handshakeSecret : Octets
  clientHs : Octets
  serverHs : Octets

namespace KeySchedule

/-- `derived`, `c hs traffic`, `s hs traffic`, `c ap traffic`, `s ap traffic`. -/
def derived : Octets := [0x64, 0x65, 0x72, 0x69, 0x76, 0x65, 0x64]
def cHsTraffic : Octets := [0x63, 0x20, 0x68, 0x73, 0x20, 0x74, 0x72, 0x61, 0x66, 0x66, 0x69, 0x63]
def sHsTraffic : Octets := [0x73, 0x20, 0x68, 0x73, 0x20, 0x74, 0x72, 0x61, 0x66, 0x66, 0x69, 0x63]

def deriveHandshake (suite : CipherSuite) (shared transcriptChSh : Octets) : KeySchedule :=
  let alg := suite.hashAlg
  let early := hkdfExtract alg (zeros alg) (zeros alg)
  let secret := hkdfExtract alg (deriveSecret alg early derived (emptyHash alg)) shared
  { suite := suite
    handshakeSecret := secret
    clientHs := deriveSecret alg secret cHsTraffic transcriptChSh
    serverHs := deriveSecret alg secret sHsTraffic transcriptChSh }

end KeySchedule

def finishedKey (suite : CipherSuite) (trafficSecret : Octets) : Octets :=
  hkdfExpandLabel suite.hashAlg trafficSecret [0x66, 0x69, 0x6e, 0x69, 0x73, 0x68, 0x65, 0x64] [] suite.hashAlg.len

def finishedVerify (suite : CipherSuite) (trafficSecret transcriptHash : Octets) : Octets :=
  hmac suite.hashAlg (finishedKey suite trafficSecret) transcriptHash

end BouchaudOS.Reseau.Tls
