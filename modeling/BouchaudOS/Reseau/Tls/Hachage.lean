import BouchaudOS.Reseau.Segments

/-!
# SHA-256, SHA-384, HMAC and HKDF

The hash functions of the TLS code. SHA-256 works on a buffer of one block that `update` fills
and empties; SHA-384 pads the whole message first. However a message is cut, SHA-256 gives the
digest of the standard. A digest, and what is derived from one, has the length that is asked for.
-/

namespace BouchaudOS.Reseau.Tls

open List

def motBe32 (b : Octets) (i : ℕ) : UInt32 :=
  trenteDeuxDe (b.getD i 0) (b.getD (i + 1) 0) (b.getD (i + 2) 0) (b.getD (i + 3) 0)

def octetsBe : ℕ → ℕ → Octets
  | 0, _ => []
  | n + 1, v => octetsBe n (v / 256) ++ [UInt8.ofNat v]

@[simp] theorem length_octetsBe (n v : ℕ) : (octetsBe n v).length = n := by
  induction n generalizing v with
  | zero => rfl
  | succ n ih => simp [octetsBe, ih]

theorem octetsBe_inj {n a b : ℕ} (h : octetsBe n a = octetsBe n b) : a % 256 ^ n = b % 256 ^ n := by
  induction n generalizing a b with
  | zero => simp [Nat.mod_one]
  | succ n ih =>
    obtain ⟨hinit, hlast⟩ := append_inj h (by simp)
    have hbyte : a % 256 = b % 256 := by
      have := congrArg UInt8.toNat (singleton_inj.mp hlast)
      simpa [UInt8.toNat_ofNat'] using this
    rw [pow_succ', Nat.mod_mul, Nat.mod_mul, hbyte, ih hinit]

def tourneDroite32 (x n : UInt32) : UInt32 := (x >>> n) ||| (x <<< (32 - n))

def tourneDroite64 (x n : UInt64) : UInt64 := (x >>> n) ||| (x <<< (64 - n))

namespace Sha256

def H0 : List UInt32 :=
  [0x6a09e667, 0xbb67ae85, 0x3c6ef372, 0xa54ff53a, 0x510e527f, 0x9b05688c, 0x1f83d9ab, 0x5be0cd19]

def K : List UInt32 :=
  [0x428a2f98, 0x71374491, 0xb5c0fbcf, 0xe9b5dba5, 0x3956c25b, 0x59f111f1, 0x923f82a4, 0xab1c5ed5,
   0xd807aa98, 0x12835b01, 0x243185be, 0x550c7dc3, 0x72be5d74, 0x80deb1fe, 0x9bdc06a7, 0xc19bf174,
   0xe49b69c1, 0xefbe4786, 0x0fc19dc6, 0x240ca1cc, 0x2de92c6f, 0x4a7484aa, 0x5cb0a9dc, 0x76f988da,
   0x983e5152, 0xa831c66d, 0xb00327c8, 0xbf597fc7, 0xc6e00bf3, 0xd5a79147, 0x06ca6351, 0x14292967,
   0x27b70a85, 0x2e1b2138, 0x4d2c6dfc, 0x53380d13, 0x650a7354, 0x766a0abb, 0x81c2c92e, 0x92722c85,
   0xa2bfe8a1, 0xa81a664b, 0xc24b8b70, 0xc76c51a3, 0xd192e819, 0xd6990624, 0xf40e3585, 0x106aa070,
   0x19a4c116, 0x1e376c08, 0x2748774c, 0x34b0bcb5, 0x391c0cb3, 0x4ed8aa4a, 0x5b9cca4f, 0x682e6ff3,
   0x748f82ee, 0x78a5636f, 0x84c87814, 0x8cc70208, 0x90befffa, 0xa4506ceb, 0xbef9a3f7, 0xc67178f2]

/-- The message schedule, latest word first. -/
def horaire : ℕ → List UInt32 → List UInt32
  | 0, w => w
  | n + 1, w =>
    let a := w.getD 14 0
    let b := w.getD 1 0
    let s0 := tourneDroite32 a 7 ^^^ tourneDroite32 a 18 ^^^ (a >>> 3)
    let s1 := tourneDroite32 b 17 ^^^ tourneDroite32 b 19 ^^^ (b >>> 10)
    horaire n ((w.getD 15 0 + s0 + w.getD 6 0 + s1) :: w)

/-- One round on the eight working words. -/
def tour : List UInt32 → UInt32 × UInt32 → List UInt32
  | [a, b, c, d, e, f, g, h], (k, w) =>
    let s1 := tourneDroite32 e 6 ^^^ tourneDroite32 e 11 ^^^ tourneDroite32 e 25
    let ch := (e &&& f) ^^^ (~~~e &&& g)
    let t1 := h + s1 + ch + k + w
    let s0 := tourneDroite32 a 2 ^^^ tourneDroite32 a 13 ^^^ tourneDroite32 a 22
    let maj := (a &&& b) ^^^ (a &&& c) ^^^ (b &&& c)
    let t2 := s0 + maj
    [t1 + t2, a, b, c, d + t1, e, f, g]
  | s, _ => s

def compress (h : List UInt32) (block : Octets) : List UInt32 :=
  let w := horaire 48 ((List.range 16).map fun i => motBe32 block (4 * i)).reverse
  List.zipWith (· + ·) h ((K.zip w.reverse).foldl tour h)

/-- The state; the buffer holds what does not fill a block yet. -/
structure Etat where
  h : List UInt32 := H0
  buf : Octets := []
  total : UInt64 := 0

/-- `while data.len() >= BLOCK_LEN`. -/
def absorbe : ℕ → List UInt32 → Octets → List UInt32 × Octets
  | 0, h, data => (h, data)
  | n + 1, h, data =>
    if 64 ≤ data.length then absorbe n (compress h (data.take 64)) (data.drop 64) else (h, data)

/-- The part of `update` that completes the buffer. -/
def complete (s : Etat) (data : Octets) : Etat × Octets :=
  if 0 < s.buf.length then
    let take := min (64 - s.buf.length) data.length
    let buf := s.buf ++ data.take take
    if buf.length = 64 then ({ s with h := compress s.h buf, buf := [] }, data.drop take)
    else ({ s with buf := buf }, data.drop take)
  else (s, data)

def updateNoCount (s : Etat) (data : Octets) : Etat :=
  let (s, data) := complete s data
  let (h, data) := absorbe data.length s.h data
  if data.isEmpty then { s with h := h } else { s with h := h, buf := data }

def update (s : Etat) (data : Octets) : Etat :=
  updateNoCount { s with total := s.total + UInt64.ofNat data.length } data

def finalize (s : Etat) : Octets :=
  let rem := (s.buf.length + 1) % 64
  let zeros := if rem ≤ 56 then 56 - rem else 56 + 64 - rem
  let s' := updateNoCount s (0x80 :: List.replicate zeros 0)
  let s' := updateNoCount s' (octetsBe 8 (s.total * 8).toNat)
  s'.h.flatMap octetsDe32

theorem length_foldl_tour (kws : List (UInt32 × UInt32)) (s : List UInt32) :
    (kws.foldl tour s).length = s.length := by
  induction kws generalizing s with
  | nil => rfl
  | cons kw kws ih =>
    rw [foldl_cons, ih]
    unfold tour
    split <;> rfl

theorem length_compress (h : List UInt32) (block : Octets) : (compress h block).length = h.length := by
  simp [compress, length_foldl_tour]

theorem length_absorbe (n : ℕ) (h : List UInt32) (data : Octets) : (absorbe n h data).1.length = h.length := by
  induction n generalizing h data with
  | zero => rfl
  | succ n ih =>
    rw [absorbe]
    split
    · rw [ih, length_compress]
    · rfl

theorem length_updateNoCount (s : Etat) (data : Octets) : (updateNoCount s data).h.length = s.h.length := by
  have hcomplete : (complete s data).1.h.length = s.h.length := by
    simp only [complete]
    split_ifs <;> simp [length_compress]
  simp only [updateNoCount]
  split <;> rw [length_absorbe, hcomplete]

theorem length_finalize (s : Etat) : (finalize s).length = 4 * s.h.length := by
  have hwords (l : List UInt32) : (l.flatMap octetsDe32).length = 4 * l.length := by
    simp [length_flatMap, octetsDe32, Nat.mul_comm]
  simp only [finalize, hwords, length_updateNoCount]

/-- The message padded as the standard has it: `0x80`, zeros, and the length in bits. -/
def rembourre (m : Octets) : Octets :=
  m ++ 0x80 :: (replicate ((55 + 64 - m.length % 64) % 64) 0 ++ octetsBe 8 (8 * m.length))

def blocs : ℕ → Octets → List Octets
  | 0, _ => []
  | n + 1, m => m.take 64 :: blocs n (m.drop 64)

def merkleDamgard (m : Octets) : Octets :=
  ((blocs ((rembourre m).length / 64) (rembourre m)).foldl compress H0).flatMap octetsDe32

/-- The bounds of the slices `update` takes: `buf[buf_len..buf_len + take]`, then `buf[..data.len()]`. -/
def Borne (s : Etat) (data : Octets) : Prop :=
  s.buf.length ≤ 64 ∧ s.buf.length + min (64 - s.buf.length) data.length ≤ 64 ∧
    (absorbe (complete s data).2.length (complete s data).1.h (complete s data).2).2.length ≤ 64

/-- The bounds of `finalize`: `pad[..pad_len]`, and those of its two calls. -/
def FinBornee (s : Etat) : Prop :=
  let rem := (s.buf.length + 1) % 64
  let zeros := if rem ≤ 56 then 56 - rem else 56 + 64 - rem
  let pad := 0x80 :: List.replicate zeros 0
  pad.length ≤ 64 + 8 ∧ Borne s pad ∧ Borne (updateNoCount s pad) (octetsBe 8 (s.total * 8).toNat)

/-- Whole blocks take `h` to `h'`. -/
inductive Condense : List UInt32 → Octets → List UInt32 → Prop
  | nil (h : List UInt32) : Condense h [] h
  | bloc {h h' : List UInt32} {b m : Octets} : b.length = 64 → Condense (compress h b) m h' → Condense h (b ++ m) h'

theorem Condense.append {h h' h'' : List UInt32} {a b : Octets} (ha : Condense h a h') (hb : Condense h' b h'') :
    Condense h (a ++ b) h'' := by
  induction ha with
  | nil h => exact hb
  | bloc hlen _ ih =>
    rw [append_assoc]
    exact .bloc hlen (ih hb)

theorem Condense.un {b : Octets} (h : List UInt32) (hb : b.length = 64) : Condense h b (compress h b) := by
  simpa using Condense.bloc hb (.nil (compress h b))

variable {m : Octets} {s : Etat}

theorem Condense.length_mod {h h' : List UInt32} (hm : Condense h m h') : m.length % 64 = 0 := by
  induction hm with
  | nil h => rfl
  | bloc hlen _ ih => simp [hlen, ih]

theorem Condense.foldl_blocs {h h' : List UInt32} (hm : Condense h m h') :
    (blocs (m.length / 64) m).foldl compress h = h' := by
  induction hm with
  | nil h => rfl
  | @bloc h h' b m hlen _ ih =>
    have hdiv : (b ++ m).length / 64 = m.length / 64 + 1 := by
      rw [length_append, hlen]
      omega
    rw [hdiv, blocs, foldl_cons, take_left' hlen, drop_left' hlen, ih]

theorem condense_absorbe (n : ℕ) (h : List UInt32) (data : Octets) (hn : data.length ≤ n) :
    ∃ m, Condense h m (absorbe n h data).1 ∧ m ++ (absorbe n h data).2 = data ∧
      (absorbe n h data).2.length < 64 := by
  induction n generalizing h data with
  | zero =>
    have hdata : data = [] := length_eq_zero_iff.mp (Nat.le_zero.mp hn)
    exact ⟨[], .nil h, rfl, by simp [absorbe, hdata]⟩
  | succ n ih =>
    rw [absorbe]
    split
    · next hlong =>
      obtain ⟨m, hm, happ, hshort⟩ := ih (compress h (data.take 64)) (data.drop 64) (by rw [length_drop]; omega)
      have hlen : (data.take 64).length = 64 := by simpa using hlong
      exact ⟨data.take 64 ++ m, .bloc hlen hm, by rw [append_assoc, happ, take_append_drop], hshort⟩
    · next hshort => exact ⟨[], .nil h, rfl, Nat.not_le.mp hshort⟩

/-- The state after the bytes `m`: the whole blocks are condensed and the rest is in the buffer. -/
def Suit (s : Etat) (m : Octets) : Prop :=
  s.buf.length < 64 ∧ ∃ p, Condense H0 p s.h ∧ p ++ s.buf = m

theorem Suit.complete (hs : Suit s m) (data : Octets) :
    ((complete s data).1.buf = [] ∨ (complete s data).2 = []) ∧
      ∃ fait, Suit (complete s data).1 (m ++ fait) ∧ fait ++ (complete s data).2 = data := by
  obtain ⟨hbuf, p, hp, rfl⟩ := hs
  simp only [Sha256.complete]
  split_ifs with hpos hfull
  · rw [length_append, length_take] at hfull
    exact ⟨.inl rfl, _, ⟨by simp, p ++ _, hp.append (.un s.h (by simpa using hfull)), by simp⟩, take_append_drop _ data⟩
  · rw [length_append, length_take] at hfull
    exact ⟨.inr (drop_eq_nil_of_le (by omega)), _, ⟨by simp; omega, p, hp, by simp⟩, take_append_drop _ data⟩
  · exact ⟨.inl (length_eq_zero_iff.mp (Nat.le_zero.mp (Nat.not_lt.mp hpos))), [], ⟨hbuf, p, hp, by simp⟩, rfl⟩

/-- One call takes in all its data, and no slice of it leaves the block. -/
theorem Suit.updateNoCount (hs : Suit s m) (data : Octets) :
    Borne s data ∧ Suit (updateNoCount s data) (m ++ data) := by
  obtain ⟨hvide, fait, ⟨hbuf, p, hp, happ⟩, hdata⟩ := hs.complete data
  obtain ⟨q, hq, hreste, hlt⟩ := condense_absorbe _ (Sha256.complete s data).1.h (Sha256.complete s data).2 le_rfl
  have hcourt := hs.1
  refine ⟨⟨hcourt.le, by omega, hlt.le⟩, ?_⟩
  simp only [Sha256.updateNoCount]
  split
  · next hnil =>
    have hq' : q = (Sha256.complete s data).2 := by
      rw [← hreste, isEmpty_iff.mp hnil, append_nil]
    refine ⟨hbuf, p ++ q, hp.append hq, ?_⟩
    rcases hvide with hb | hd
    · rw [hb, append_nil] at happ ⊢
      rw [happ, hq', append_assoc, hdata]
    · rw [hq', hd, append_nil, happ, ← hdata, hd, append_nil]
  · next hne =>
    have hb := hvide.resolve_right fun hd => hne (by simp_all)
    refine ⟨hlt, p ++ q, hp.append hq, ?_⟩
    rw [hb, append_nil] at happ
    rw [append_assoc, hreste, happ, append_assoc, hdata]

theorem total_updateNoCount (s : Etat) (data : Octets) : (updateNoCount s data).total = s.total := by
  simp only [updateNoCount, complete]
  split_ifs <;> rfl

theorem Suit.foldl_update (hs : Suit s m) (ht : s.total = UInt64.ofNat m.length)
    (chunks : List Octets) :
    Suit (chunks.foldl update s) (m ++ chunks.flatten) ∧
      (chunks.foldl update s).total = UInt64.ofNat (m ++ chunks.flatten).length := by
  induction chunks generalizing s m with
  | nil => simpa using ⟨hs, ht⟩
  | cons c chunks ih =>
    have hcompte : Suit { s with total := s.total + UInt64.ofNat c.length } m := hs
    have hc : Suit (update s c) (m ++ c) := (hcompte.updateNoCount c).2
    have hct : (update s c).total = UInt64.ofNat (m ++ c).length := by
      rw [update, total_updateNoCount, length_append, UInt64.ofNat_add, ht]
    simpa using ih hc hct

/-- When the bytes fill their blocks, nothing is left in the buffer. -/
theorem Suit.foldl_blocs (hs : Suit s m) (hmod : m.length % 64 = 0) :
    (blocs (m.length / 64) m).foldl compress H0 = s.h := by
  obtain ⟨hbuf, p, hp, rfl⟩ := hs
  have hp0 := hp.length_mod
  rw [length_append] at hmod
  have hvide : s.buf = [] := length_eq_zero_iff.mp (by omega)
  rw [hvide, append_nil, hp.foldl_blocs]

theorem Suit.finalize (hs : Suit s m) (ht : s.total = UInt64.ofNat m.length)
    (hlen : m.length < 2 ^ 61) : finalize s = merkleDamgard m ∧ FinBornee s := by
  obtain ⟨hbuf, p, hp, hm⟩ := id hs
  have hzeros : (if (s.buf.length + 1) % 64 ≤ 56 then 56 - (s.buf.length + 1) % 64
      else 56 + 64 - (s.buf.length + 1) % 64) = (55 + 64 - m.length % 64) % 64 := by
    have hmod := hp.length_mod
    rw [← hm, length_append]
    split <;> omega
  have hbits : (s.total * 8).toNat = 8 * m.length := by
    have hword : m.length < UInt64.size := hlen.trans (by decide)
    rw [ht, UInt64.toNat_mul, UInt64.toNat_ofNat_of_lt' hword]
    simp
    omega
  obtain ⟨hpad, hs'⟩ := hs.updateNoCount (0x80 :: replicate ((55 + 64 - m.length % 64) % 64) 0)
  obtain ⟨hlong, hs''⟩ := hs'.updateNoCount (octetsBe 8 (8 * m.length))
  simp only [FinBornee, Sha256.finalize, hzeros, hbits]
  refine ⟨?_, by simp; omega, hpad, hlong⟩
  rw [append_assoc, cons_append] at hs''
  rw [← hs''.foldl_blocs (by simp; omega)]
  rfl

theorem suit_vide : Suit {} [] := ⟨by simp, [], .nil H0, rfl⟩

/-- The digest does not depend on how the message is cut, and no slice leaves its array. -/
theorem finalize_morceaux (chunks : List Octets) (hlen : chunks.flatten.length < 2 ^ 61) :
    finalize (chunks.foldl update {}) = merkleDamgard chunks.flatten ∧
      (∀ before c after, chunks = before ++ c :: after → Borne (before.foldl update {}) c) ∧
      FinBornee (chunks.foldl update {}) := by
  obtain ⟨hs, ht⟩ := suit_vide.foldl_update rfl chunks
  obtain ⟨hfin, hborne⟩ := hs.finalize ht hlen
  exact ⟨hfin, fun before c _ _ => ((suit_vide.foldl_update rfl before).1.updateNoCount c).1, hborne⟩

theorem finalize_abc :
    finalize ([[0x61, 0x62], [0x63]].foldl update {}) = merkleDamgard [0x61, 0x62, 0x63] :=
  (finalize_morceaux [[0x61, 0x62], [0x63]] (by decide)).1

end Sha256

def sha256 (data : Octets) : Octets := Sha256.finalize (Sha256.update {} data)

theorem length_sha256 (data : Octets) : (sha256 data).length = 32 := by
  rw [sha256, Sha256.length_finalize, Sha256.update, Sha256.length_updateNoCount]
  rfl

namespace Sha512

def K : List UInt64 :=
  [0x428a2f98d728ae22, 0x7137449123ef65cd, 0xb5c0fbcfec4d3b2f, 0xe9b5dba58189dbbc,
   0x3956c25bf348b538, 0x59f111f1b605d019, 0x923f82a4af194f9b, 0xab1c5ed5da6d8118,
   0xd807aa98a3030242, 0x12835b0145706fbe, 0x243185be4ee4b28c, 0x550c7dc3d5ffb4e2,
   0x72be5d74f27b896f, 0x80deb1fe3b1696b1, 0x9bdc06a725c71235, 0xc19bf174cf692694,
   0xe49b69c19ef14ad2, 0xefbe4786384f25e3, 0x0fc19dc68b8cd5b5, 0x240ca1cc77ac9c65,
   0x2de92c6f592b0275, 0x4a7484aa6ea6e483, 0x5cb0a9dcbd41fbd4, 0x76f988da831153b5,
   0x983e5152ee66dfab, 0xa831c66d2db43210, 0xb00327c898fb213f, 0xbf597fc7beef0ee4,
   0xc6e00bf33da88fc2, 0xd5a79147930aa725, 0x06ca6351e003826f, 0x142929670a0e6e70,
   0x27b70a8546d22ffc, 0x2e1b21385c26c926, 0x4d2c6dfc5ac42aed, 0x53380d139d95b3df,
   0x650a73548baf63de, 0x766a0abb3c77b2a8, 0x81c2c92e47edaee6, 0x92722c851482353b,
   0xa2bfe8a14cf10364, 0xa81a664bbc423001, 0xc24b8b70d0f89791, 0xc76c51a30654be30,
   0xd192e819d6ef5218, 0xd69906245565a910, 0xf40e35855771202a, 0x106aa07032bbd1b8,
   0x19a4c116b8d2d0c8, 0x1e376c085141ab53, 0x2748774cdf8eeb99, 0x34b0bcb5e19b48a8,
   0x391c0cb3c5c95a63, 0x4ed8aa4ae3418acb, 0x5b9cca4f7763e373, 0x682e6ff3d6b2b8a3,
   0x748f82ee5defb2fc, 0x78a5636f43172f60, 0x84c87814a1f0ab72, 0x8cc702081a6439ec,
   0x90befffa23631e28, 0xa4506cebde82bde9, 0xbef9a3f7b2c67915, 0xc67178f2e372532b,
   0xca273eceea26619c, 0xd186b8c721c0c207, 0xeada7dd6cde0eb1e, 0xf57d4f7fee6ed178,
   0x06f067aa72176fba, 0x0a637dc5a2c898a6, 0x113f9804bef90dae, 0x1b710b35131c471b,
   0x28db77f523047d84, 0x32caab7b40c72493, 0x3c9ebe0a15c9bebc, 0x431d67c49c100d4c,
   0x4cc5d4becb3e42b6, 0x597f299cfc657e2a, 0x5fcb6fab3ad6faec, 0x6c44198c4a475817]

def H384 : List UInt64 :=
  [0xcbbb9d5dc1059ed8, 0x629a292a367cd507, 0x9159015a3070dd17, 0x152fecd8f70e5939,
   0x67332667ffc00b31, 0x8eb44a8768581511, 0xdb0c2e0d64f98fa7, 0x47b5481dbefa4fa4]

def motBe64 (b : Octets) (i : ℕ) : UInt64 := UInt64.ofNat (((Bytes.slice b i 8).foldl (fun v x => v * 256 + x.toNat) 0))

def horaire : ℕ → List UInt64 → List UInt64
  | 0, w => w
  | n + 1, w =>
    let a := w.getD 14 0
    let b := w.getD 1 0
    let s0 := tourneDroite64 a 1 ^^^ tourneDroite64 a 8 ^^^ (a >>> 7)
    let s1 := tourneDroite64 b 19 ^^^ tourneDroite64 b 61 ^^^ (b >>> 6)
    horaire n ((w.getD 15 0 + s0 + w.getD 6 0 + s1) :: w)

def tour : List UInt64 → UInt64 × UInt64 → List UInt64
  | [a, b, c, d, e, f, g, h], (k, w) =>
    let s1 := tourneDroite64 e 14 ^^^ tourneDroite64 e 18 ^^^ tourneDroite64 e 41
    let ch := (e &&& f) ^^^ (~~~e &&& g)
    let t1 := h + s1 + ch + k + w
    let s0 := tourneDroite64 a 28 ^^^ tourneDroite64 a 34 ^^^ tourneDroite64 a 39
    let maj := (a &&& b) ^^^ (a &&& c) ^^^ (b &&& c)
    let t2 := s0 + maj
    [t1 + t2, a, b, c, d + t1, e, f, g]
  | s, _ => s

def compress (h : List UInt64) (block : Octets) : List UInt64 :=
  let w := horaire 64 ((List.range 16).map fun i => motBe64 block (8 * i)).reverse
  List.zipWith (· + ·) h ((K.zip w.reverse).foldl tour h)

def rembourre (data : Octets) : Octets :=
  data ++ 0x80 :: (List.replicate ((111 + 128 - data.length % 128) % 128) 0 ++ octetsBe 16 (data.length * 8))

/-- `for block in msg.chunks(128)`. -/
def absorbe : ℕ → List UInt64 → Octets → List UInt64
  | 0, h, _ => h
  | n + 1, h, data =>
    if data.isEmpty then h else absorbe n (compress h (data.take 128)) (data.drop 128)

def digest (data : Octets) (h : List UInt64) : Octets :=
  (absorbe (rembourre data).length h (rembourre data)).flatMap fun x => octetsBe 8 x.toNat

theorem length_foldl_tour (kws : List (UInt64 × UInt64)) (s : List UInt64) :
    (kws.foldl tour s).length = s.length := by
  induction kws generalizing s with
  | nil => rfl
  | cons kw kws ih =>
    rw [foldl_cons, ih]
    unfold tour
    split <;> rfl

theorem length_absorbe (n : ℕ) (h : List UInt64) (data : Octets) : (absorbe n h data).length = h.length := by
  induction n generalizing h data with
  | zero => rfl
  | succ n ih =>
    rw [absorbe]
    split
    · rfl
    · simp [ih, compress, length_foldl_tour]

end Sha512

def sha384 (data : Octets) : Octets := (Sha512.digest data Sha512.H384).take 48

theorem length_sha384 (data : Octets) : (sha384 data).length = 48 := by
  simp [sha384, Sha512.digest, length_flatMap, Sha512.length_absorbe, Sha512.H384]

inductive HashAlg
  | sha256
  | sha384
  deriving DecidableEq, Repr

namespace HashAlg

def len : HashAlg → ℕ
  | .sha256 => 32
  | .sha384 => 48

def blockLen : HashAlg → ℕ
  | .sha256 => 64
  | .sha384 => 128

end HashAlg

def digest : HashAlg → Octets → Octets
  | .sha256 => Tls.sha256
  | .sha384 => Tls.sha384

def hmac (alg : HashAlg) (key msg : Octets) : Octets :=
  let k := if alg.blockLen < key.length then (digest alg key).take alg.len else key
  let k := k.takeD alg.blockLen 0
  let ipad := k.map (0x36 ^^^ ·)
  let opad := k.map (0x5c ^^^ ·)
  digest alg (opad ++ digest alg (ipad ++ msg))

variable (alg : HashAlg)

theorem length_digest (data : Octets) : (digest alg data).length = alg.len := by
  cases alg with
  | sha256 => exact length_sha256 data
  | sha384 => exact length_sha384 data

theorem length_hmac (key msg : Octets) : (hmac alg key msg).length = alg.len :=
  length_digest alg _

def hkdfExtract (alg : HashAlg) (salt ikm : Octets) : Octets := hmac alg salt ikm

/-- The loop of `hkdf_expand`; each turn adds one digest. -/
def hkdfBlocs (alg : HashAlg) (prk info : Octets) : ℕ → Octets → UInt8 → Octets
  | 0, _, _ => []
  | n + 1, t, counter =>
    let t := hmac alg prk (t ++ info ++ [counter])
    t ++ hkdfBlocs alg prk info n t (counter + 1)

def hkdfExpand (alg : HashAlg) (prk info : Octets) (length : ℕ) : Octets :=
  (hkdfBlocs alg prk info ((length + alg.len - 1) / alg.len) [] 1).take length

theorem length_hkdfBlocs (prk info : Octets) (n : ℕ) (t : Octets) (counter : UInt8) :
    (hkdfBlocs alg prk info n t counter).length = n * alg.len := by
  induction n generalizing t counter with
  | zero => simp [hkdfBlocs]
  | succ n ih =>
    rw [hkdfBlocs, length_append, length_hmac, ih]
    ring

theorem length_hkdfExpand (prk info : Octets) (length : ℕ) :
    (hkdfExpand alg prk info length).length = length := by
  rw [hkdfExpand, length_take, length_hkdfBlocs]
  apply Nat.min_eq_left
  cases alg with
  | sha256 => simp only [HashAlg.len]; omega
  | sha384 => simp only [HashAlg.len]; omega

def hkdfExpandLabel (alg : HashAlg) (secret label context : Octets) (length : ℕ) : Octets :=
  -- `tls13 ` and the label
  let full := [0x74, 0x6c, 0x73, 0x31, 0x33, 0x20] ++ label
  let info := octetsBe 2 length ++ [UInt8.ofNat full.length] ++ full ++ [UInt8.ofNat context.length] ++ context
  hkdfExpand alg secret info length

theorem length_hkdfExpandLabel (secret label context : Octets) (length : ℕ) :
    (hkdfExpandLabel alg secret label context length).length = length :=
  length_hkdfExpand alg secret _ length

def deriveSecret (secret label transcriptHash : Octets) : Octets :=
  hkdfExpandLabel alg secret label transcriptHash alg.len

def emptyHash : Octets := digest alg []

def zeros : Octets := List.replicate alg.len 0

end BouchaudOS.Reseau.Tls
