import BouchaudOS.Foundations.StreamCipher
import BouchaudOS.Reseau.Tls.Hachage

/-!
# AES-GCM and ChaCha20-Poly1305

The two authenticated ciphers of the record layer. Each combines the plaintext with a
keystream and computes a tag over the header and the ciphertext; what one side seals the other
opens.
-/

namespace BouchaudOS.Reseau.Tls

open StreamCipher List

namespace Aes

def SBOX : List UInt8 :=
  [0x63, 0x7c, 0x77, 0x7b, 0xf2, 0x6b, 0x6f, 0xc5, 0x30, 0x01, 0x67, 0x2b, 0xfe, 0xd7, 0xab, 0x76,
   0xca, 0x82, 0xc9, 0x7d, 0xfa, 0x59, 0x47, 0xf0, 0xad, 0xd4, 0xa2, 0xaf, 0x9c, 0xa4, 0x72, 0xc0,
   0xb7, 0xfd, 0x93, 0x26, 0x36, 0x3f, 0xf7, 0xcc, 0x34, 0xa5, 0xe5, 0xf1, 0x71, 0xd8, 0x31, 0x15,
   0x04, 0xc7, 0x23, 0xc3, 0x18, 0x96, 0x05, 0x9a, 0x07, 0x12, 0x80, 0xe2, 0xeb, 0x27, 0xb2, 0x75,
   0x09, 0x83, 0x2c, 0x1a, 0x1b, 0x6e, 0x5a, 0xa0, 0x52, 0x3b, 0xd6, 0xb3, 0x29, 0xe3, 0x2f, 0x84,
   0x53, 0xd1, 0x00, 0xed, 0x20, 0xfc, 0xb1, 0x5b, 0x6a, 0xcb, 0xbe, 0x39, 0x4a, 0x4c, 0x58, 0xcf,
   0xd0, 0xef, 0xaa, 0xfb, 0x43, 0x4d, 0x33, 0x85, 0x45, 0xf9, 0x02, 0x7f, 0x50, 0x3c, 0x9f, 0xa8,
   0x51, 0xa3, 0x40, 0x8f, 0x92, 0x9d, 0x38, 0xf5, 0xbc, 0xb6, 0xda, 0x21, 0x10, 0xff, 0xf3, 0xd2,
   0xcd, 0x0c, 0x13, 0xec, 0x5f, 0x97, 0x44, 0x17, 0xc4, 0xa7, 0x7e, 0x3d, 0x64, 0x5d, 0x19, 0x73,
   0x60, 0x81, 0x4f, 0xdc, 0x22, 0x2a, 0x90, 0x88, 0x46, 0xee, 0xb8, 0x14, 0xde, 0x5e, 0x0b, 0xdb,
   0xe0, 0x32, 0x3a, 0x0a, 0x49, 0x06, 0x24, 0x5c, 0xc2, 0xd3, 0xac, 0x62, 0x91, 0x95, 0xe4, 0x79,
   0xe7, 0xc8, 0x37, 0x6d, 0x8d, 0xd5, 0x4e, 0xa9, 0x6c, 0x56, 0xf4, 0xea, 0x65, 0x7a, 0xae, 0x08,
   0xba, 0x78, 0x25, 0x2e, 0x1c, 0xa6, 0xb4, 0xc6, 0xe8, 0xdd, 0x74, 0x1f, 0x4b, 0xbd, 0x8b, 0x8a,
   0x70, 0x3e, 0xb5, 0x66, 0x48, 0x03, 0xf6, 0x0e, 0x61, 0x35, 0x57, 0xb9, 0x86, 0xc1, 0x1d, 0x9e,
   0xe1, 0xf8, 0x98, 0x11, 0x69, 0xd9, 0x8e, 0x94, 0x9b, 0x1e, 0x87, 0xe9, 0xce, 0x55, 0x28, 0xdf,
   0x8c, 0xa1, 0x89, 0x0d, 0xbf, 0xe6, 0x42, 0x68, 0x41, 0x99, 0x2d, 0x0f, 0xb0, 0x54, 0xbb, 0x16]

def RCON : List UInt8 := [0x00, 0x01, 0x02, 0x04, 0x08, 0x10, 0x20, 0x40, 0x80, 0x1b, 0x36]

def sbox (x : UInt8) : UInt8 := SBOX.getD x.toNat 0

def xtime (a : UInt8) : UInt8 := if a &&& 0x80 ≠ 0 then (a <<< 1) ^^^ 0x1b else a <<< 1

/-- The eight turns of `gmul`. -/
def gmulTours : ℕ → UInt8 → UInt8 → UInt8 → UInt8
  | 0, _, _, p => p
  | n + 1, a, b, p => gmulTours n (xtime a) (b >>> 1) (if b &&& 1 ≠ 0 then p ^^^ a else p)

def gmul (a b : UInt8) : UInt8 := gmulTours 8 a b 0

/-- The expanded key: the round keys, and the number of rounds. -/
structure Cle where
  roundKeys : List Octets
  rounds : ℕ

/-- `RotWord`, `SubWord` and the round constant. -/
def noyau (temp : Octets) (rcon : UInt8) : Octets :=
  xorBytes ((temp.drop 1 ++ temp.take 1).map sbox) [rcon, 0, 0, 0]

/-- The words `i`, `i + 1`, … of the schedule; the latest word comes first. -/
def etend (nk : ℕ) : ℕ → ℕ → List Octets → List Octets
  | 0, _, w => w
  | n + 1, i, w =>
    let temp := w.getD 0 []
    let temp :=
      if i % nk = 0 then noyau temp (RCON.getD (i / nk) 0)
      else if 6 < nk ∧ i % nk = 4 then temp.map sbox
      else temp
    etend nk n (i + 1) (xorBytes (w.getD (nk - 1) []) temp :: w)

def new (key : Octets) : Cle :=
  let (nk, rounds) := if key.length = 32 then (8, 14) else (4, 10)
  let w := (range nk).map fun i => Bytes.slice key (4 * i) 4
  let w := (etend nk (4 * (rounds + 1) - nk) nk w.reverse).reverse
  { roundKeys := (range (rounds + 1)).map fun r => ((w.drop (4 * r)).take 4).flatten
    rounds := rounds }

def addRoundKey (s rk : Octets) : Octets := (range 16).map fun i => s.getD i 0 ^^^ rk.getD i 0

def subBytes (s : Octets) : Octets := s.map sbox

/-- Row `r` of the columns moves by `r` columns. -/
def shiftRows (s : Octets) : Octets :=
  [0, 5, 10, 15, 4, 9, 14, 3, 8, 13, 2, 7, 12, 1, 6, 11].map fun i => s.getD i 0

def mixColumns (s : Octets) : Octets :=
  (range 4).flatMap fun c =>
    let a0 := s.getD (4 * c) 0
    let a1 := s.getD (4 * c + 1) 0
    let a2 := s.getD (4 * c + 2) 0
    let a3 := s.getD (4 * c + 3) 0
    [gmul a0 2 ^^^ gmul a1 3 ^^^ a2 ^^^ a3, a0 ^^^ gmul a1 2 ^^^ gmul a2 3 ^^^ a3,
      a0 ^^^ a1 ^^^ gmul a2 2 ^^^ gmul a3 3, gmul a0 3 ^^^ a1 ^^^ a2 ^^^ gmul a3 2]

def encryptBlock (c : Cle) (block : Octets) : Octets :=
  let s := addRoundKey block (c.roundKeys.getD 0 [])
  let s := (range' 1 (c.rounds - 1)).foldl
    (fun s r => addRoundKey (mixColumns (shiftRows (subBytes s))) (c.roundKeys.getD r [])) s
  addRoundKey (shiftRows (subBytes s)) (c.roundKeys.getD c.rounds [])

@[simp] theorem length_encryptBlock (c : Cle) (block : Octets) : (encryptBlock c block).length = 16 := by
  simp [encryptBlock, addRoundKey]

end Aes

open Aes

namespace Gcm

/-- A turn of `ghash_mul`: the accumulator and the shifted key. -/
def ghashTour (y : Octets) (zv : Octets × Octets) (i : ℕ) : Octets × Octets :=
  let (z, v) := zv
  let bit := (y.getD (i / 8) 0 >>> UInt8.ofNat (7 - i % 8)) &&& 1
  let z := if bit = 1 then xorBytes z v else z
  let lsb := v.getD 15 0 &&& 1
  let v' := (range 16).map fun j =>
    if j = 0 then v.getD 0 0 >>> 1 else (v.getD j 0 >>> 1) ||| (v.getD (j - 1) 0 <<< 7)
  (z, if lsb = 1 then xorBytes v' (0xe1 :: replicate 15 0) else v')

def ghashMul (y h : Octets) : Octets := ((range 128).foldl (ghashTour y) (replicate 16 0, h)).1

/-- `feed`: the data by blocks of sixteen, the last one filled with zeros. -/
def feed (h : Octets) : ℕ → Octets → Octets → Octets
  | 0, _, y => y
  | n + 1, data, y =>
    if data.isEmpty then y
    else feed h n (data.drop 16) (ghashMul (xorBytes y (data.takeD 16 0)) h)

def ghash (h aad cipher : Octets) : Octets :=
  let y := feed h aad.length aad (replicate 16 0)
  let y := feed h cipher.length cipher y
  ghashMul (xorBytes y (octetsBe 8 (aad.length * 8) ++ octetsBe 8 (cipher.length * 8))) h

def inc32 (counter : Octets) : Octets := counter.take 12 ++ octetsDe32 (motBe32 counter 12 + 1)

def gctr (aes : Cle) (counter data : Octets) : Octets :=
  crypt 16 (encryptBlock aes) inc32 data.length counter data

def j0 (iv : Octets) : Octets := iv ++ [0, 0, 0, 1]

def tag (aes : Cle) (iv aad cipher : Octets) : Octets :=
  let h := encryptBlock aes (replicate 16 0)
  xorBytes (ghash h aad cipher) (encryptBlock aes (j0 iv))

/-- The ciphertext and its tag. -/
def scelle (key iv aad clair : Octets) : Octets × Octets :=
  let aes := new key
  let cipher := gctr aes (inc32 (j0 iv)) clair
  (cipher, tag aes iv aad cipher)

def ouvre (key iv aad cipher t : Octets) : Option Octets :=
  let aes := new key
  if sameTag (tag aes iv aad cipher) t then some (gctr aes (inc32 (j0 iv)) cipher) else none

theorem length_gctr (aes : Cle) (counter data : Octets) : (gctr aes counter data).length = data.length :=
  length_crypt (by norm_num) (fun k => by simp) _ _ _ le_rfl

theorem gctr_gctr (aes : Cle) (counter data : Octets) : gctr aes counter (gctr aes counter data) = data := by
  rw [gctr, length_gctr]
  exact crypt_crypt (by norm_num) (fun k => by simp) _ _ _ le_rfl

theorem ouvre_scelle (key iv aad clair : Octets) :
    ouvre key iv aad (scelle key iv aad clair).1 (scelle key iv aad clair).2 = some clair := by
  simp [ouvre, scelle, sameTag_self, gctr_gctr]

theorem length_ghashTour (y : Octets) (i : ℕ) {zv : Octets × Octets} (hz : zv.1.length = 16)
    (hv : zv.2.length = 16) : (ghashTour y zv i).1.length = 16 ∧ (ghashTour y zv i).2.length = 16 := by
  constructor
  · simp only [ghashTour]
    split
    · rw [length_xorBytes (by rw [hz, hv])]
      exact hz
    · exact hz
  · simp only [ghashTour]
    split
    · rw [length_xorBytes (by simp)]
      simp
    · simp

theorem length_ghashMul (y : Octets) {h : Octets} (hh : h.length = 16) : (ghashMul y h).length = 16 := by
  have hrun : ∀ (l : List ℕ) (zv : Octets × Octets), zv.1.length = 16 → zv.2.length = 16 →
      (l.foldl (ghashTour y) zv).1.length = 16 := by
    intro l
    induction l with
    | nil => exact fun zv hz _ => hz
    | cons i l ih =>
      intro zv hz hv
      obtain ⟨hz', hv'⟩ := length_ghashTour y i hz hv
      exact ih _ hz' hv'
  exact hrun _ _ (by simp) hh

theorem length_tag (aes : Cle) (iv aad cipher : Octets) : (tag aes iv aad cipher).length = 16 := by
  have hh := length_encryptBlock aes (replicate 16 0)
  have hg : (ghash (encryptBlock aes (replicate 16 0)) aad cipher).length = 16 := length_ghashMul _ hh
  rw [tag, length_xorBytes (by rw [hg, length_encryptBlock]), hg]

theorem length_scelle (key iv aad clair : Octets) : (scelle key iv aad clair).2.length = 16 := by
  simp only [scelle, length_tag]

end Gcm

namespace Chacha

def tourneGauche (x n : UInt32) : UInt32 := (x <<< n) ||| (x >>> (32 - n))

def quarterRound (s : List UInt32) (a b c d : ℕ) : List UInt32 :=
  let s := demi s a b d 16
  let s := demi s c d b 12
  let s := demi s a b d 8
  demi s c d b 7
where
  /-- `s[a] += s[b]; s[d] ^= s[a]; s[d] = rotate_left(n)`. -/
  demi (s : List UInt32) (a b d : ℕ) (n : UInt32) : List UInt32 :=
    let s := s.set a (s.getD a 0 + s.getD b 0)
    s.set d (tourneGauche (s.getD d 0 ^^^ s.getD a 0) n)

def motLe32 (b : Octets) (i : ℕ) : UInt32 :=
  trenteDeuxDe (b.getD (i + 3) 0) (b.getD (i + 2) 0) (b.getD (i + 1) 0) (b.getD i 0)

def doubleRound (w : List UInt32) : List UInt32 :=
  let w := quarterRound w 0 4 8 12
  let w := quarterRound w 1 5 9 13
  let w := quarterRound w 2 6 10 14
  let w := quarterRound w 3 7 11 15
  let w := quarterRound w 0 5 10 15
  let w := quarterRound w 1 6 11 12
  let w := quarterRound w 2 7 8 13
  quarterRound w 3 4 9 14

def chacha20Block (key : Octets) (counter : UInt32) (nonce : Octets) : Octets :=
  let s := [0x61707865, 0x3320646e, 0x79622d32, 0x6b206574] ++
    ((range 8).map fun i => motLe32 key (4 * i)) ++ [counter] ++
    (range 3).map fun i => motLe32 nonce (4 * i)
  let w := (range 10).foldl (fun w _ => doubleRound w) s
  (range 16).flatMap fun i => (octetsDe32 (w.getD i 0 + s.getD i 0)).reverse

theorem length_chacha20Block (key : Octets) (counter : UInt32) (nonce : Octets) :
    (chacha20Block key counter nonce).length = 64 := by
  simp [chacha20Block, octetsDe32, length_flatMap]

def chacha20Xor (key : Octets) (counter : UInt32) (nonce data : Octets) : Octets :=
  crypt 64 (fun c => chacha20Block key c nonce) (· + 1) data.length counter data

/-- The number that little-endian bytes denote; the big numbers of the source are natural numbers here. -/
def leToBig (b : Octets) : ℕ := Nat.ofDigits 256 (b.map UInt8.toNat)

def bigToLe16 (v : ℕ) : Octets := (octetsBe 16 v).reverse

def clamp (r : Octets) : Octets :=
  zipWith (· &&& ·) r [255, 255, 255, 15, 252, 255, 255, 15, 252, 255, 255, 15, 252, 255, 255, 15]

/-- The loop over the blocks of the message, modulo `2 ^ 130 - 5`. -/
def poly1305Blocs (r : ℕ) : ℕ → Octets → ℕ → ℕ
  | 0, _, acc => acc
  | n + 1, msg, acc =>
    if msg.isEmpty then acc
    else poly1305Blocs r n (msg.drop 16) ((acc + leToBig (msg.take 16 ++ [0x01])) * r % (2 ^ 130 - 5))

def poly1305Mac (msg key : Octets) : Octets :=
  let r := leToBig (clamp (key.take 16))
  let s := leToBig (Bytes.slice key 16 16)
  bigToLe16 (poly1305Blocs r msg.length msg 0 + s)

def pad16 (len : ℕ) : ℕ := (16 - len % 16) % 16

def polyKey (key nonce : Octets) : Octets := (chacha20Block key 0 nonce).take 32

def macData (aad cipher : Octets) : Octets :=
  aad ++ replicate (pad16 aad.length) 0 ++ cipher ++ replicate (pad16 cipher.length) 0 ++
    (octetsBe 8 aad.length).reverse ++ (octetsBe 8 cipher.length).reverse

def tag (key iv aad cipher : Octets) : Octets := poly1305Mac (macData aad cipher) (polyKey key iv)

def scelle (key iv aad clair : Octets) : Octets × Octets :=
  let cipher := chacha20Xor (key.take 32) 1 iv clair
  (cipher, tag (key.take 32) iv aad cipher)

def ouvre (key iv aad cipher t : Octets) : Option Octets :=
  if sameTag (tag (key.take 32) iv aad cipher) t then some (chacha20Xor (key.take 32) 1 iv cipher) else none

theorem length_chacha20Xor (key : Octets) (counter : UInt32) (nonce data : Octets) :
    (chacha20Xor key counter nonce data).length = data.length :=
  length_crypt (by norm_num) (fun k => (length_chacha20Block key k nonce).ge) _ _ _ le_rfl

theorem chacha20Xor_chacha20Xor (key : Octets) (counter : UInt32) (nonce data : Octets) :
    chacha20Xor key counter nonce (chacha20Xor key counter nonce data) = data := by
  rw [chacha20Xor, length_chacha20Xor]
  exact crypt_crypt (by norm_num) (fun k => (length_chacha20Block key k nonce).ge) _ _ _ le_rfl

theorem ouvre_scelle (key iv aad clair : Octets) :
    ouvre key iv aad (scelle key iv aad clair).1 (scelle key iv aad clair).2 = some clair := by
  simp [ouvre, scelle, sameTag_self, chacha20Xor_chacha20Xor]

end Chacha

end BouchaudOS.Reseau.Tls
