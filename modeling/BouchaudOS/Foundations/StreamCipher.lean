import Mathlib

/-!
# Stream ciphers with a tag

Data is combined with blocks of a keystream, one for each value of a counter. Doing it twice
gives the data back, so a message that is sealed under a tag of its ciphertext is opened again
to what it was.
-/

namespace BouchaudOS.StreamCipher

open List

variable {κ : Type}

/-- Byte-wise exclusive or, on the bytes of the first list. -/
def xorBytes (a b : List UInt8) : List UInt8 := List.zipWith (· ^^^ ·) a b

theorem length_xorBytes {a b : List UInt8} (h : a.length ≤ b.length) : (xorBytes a b).length = a.length := by
  simp [xorBytes, h]

theorem xorBytes_xorBytes {a b : List UInt8} (h : a.length ≤ b.length) : xorBytes (xorBytes a b) b = a := by
  induction a generalizing b with
  | nil => rfl
  | cons x a ih =>
    cases b with
    | nil => simp at h
    | cons y b =>
      have hrec := ih (b := b) (by simpa using h)
      simp only [xorBytes, zipWith_cons_cons] at hrec ⊢
      rw [hrec, UInt8.xor_assoc, UInt8.xor_self, UInt8.xor_zero]

theorem xorBytes_left_inj {a b c : List UInt8} (hb : b.length = a.length) (hc : c.length = a.length)
    (h : xorBytes a b = xorBytes a c) : b = c := by
  have hcomm (d : List UInt8) : xorBytes a d = xorBytes d a := by
    simp only [xorBytes]
    rw [zipWith_comm]
    congr 1
    funext x y
    exact UInt8.xor_comm y x
  rw [hcomm, hcomm] at h
  rw [← xorBytes_xorBytes hb.le, h, xorBytes_xorBytes hc.le]

section

variable (size : ℕ) (block : κ → List UInt8) (next : κ → κ)

/-- The data combined block by block with the keystream that starts at a counter. -/
def crypt : ℕ → κ → List UInt8 → List UInt8
  | 0, _, _ => []
  | n + 1, k, data =>
    if data.isEmpty then []
    else xorBytes (data.take size) (block k) ++ crypt n (next k) (data.drop size)

variable {size block next}

theorem crypt_nil (n : ℕ) (k : κ) : crypt size block next n k [] = [] := by
  cases n <;> simp [crypt]

theorem crypt_succ (n : ℕ) (k : κ) {data : List UInt8} (h : data ≠ []) : crypt size block next (n + 1) k data =
    xorBytes (data.take size) (block k) ++ crypt size block next n (next k) (data.drop size) := by
  rw [crypt, if_neg (by simpa using h)]

variable (hsize : 0 < size) (hblock : ∀ k, size ≤ (block k).length)
include hblock

theorem take_le_block (k : κ) (data : List UInt8) : (data.take size).length ≤ (block k).length :=
  (length_take_le _ _).trans (hblock k)

include hsize

theorem length_crypt (n : ℕ) (k : κ) (data : List UInt8) (hn : data.length ≤ n) :
    (crypt size block next n k data).length = data.length := by
  induction n generalizing k data with
  | zero =>
    obtain rfl := length_eq_zero_iff.mp (Nat.le_zero.mp hn)
    rfl
  | succ n ih =>
    by_cases hne : data = []
    · rw [hne, crypt_nil]
    · rw [crypt_succ n k hne, length_append, length_xorBytes (take_le_block hblock k data),
        ih _ _ (by simp; omega), length_take, length_drop]
      omega

theorem crypt_crypt (n : ℕ) (k : κ) (data : List UInt8) (hn : data.length ≤ n) :
    crypt size block next n k (crypt size block next n k data) = data := by
  induction n generalizing k data with
  | zero =>
    obtain rfl := length_eq_zero_iff.mp (Nat.le_zero.mp hn)
    rfl
  | succ n ih =>
    by_cases hne : data = []
    · rw [hne, crypt_nil, crypt_nil]
    · have htake := take_le_block hblock k data
      have hne' : crypt size block next (n + 1) k data ≠ [] := by
        have hlen : (crypt size block next (n + 1) k data).length = data.length :=
          length_crypt hsize hblock _ _ _ hn
        exact length_pos_iff.mp (by rw [hlen]; exact length_pos_iff.mpr hne)
      -- The first block of the ciphertext is as long as the first block of the data.
      have hcut : (xorBytes (data.take size) (block k)).length = min size data.length := by
        rw [length_xorBytes htake, length_take]
      rw [crypt_succ n k hne', crypt_succ n k hne]
      rcases Nat.le_total size data.length with hle | hle
      · rw [Nat.min_eq_left hle] at hcut
        rw [take_left' hcut, drop_left' hcut, xorBytes_xorBytes htake, ih _ _ (by simp; omega),
          take_append_drop]
      · rw [drop_eq_nil_of_le hle, crypt_nil, append_nil, take_of_length_le (by omega), xorBytes_xorBytes htake,
          drop_eq_nil_of_le (by omega), crypt_nil, append_nil, take_of_length_le hle]

end

def sameTag (expected tag : List UInt8) : Bool := (xorBytes expected tag).foldl (· ||| ·) 0 = 0

theorem sameTag_self (tag : List UInt8) : sameTag tag tag = true := by
  have h : ∀ l : List UInt8, (xorBytes l l).foldl (· ||| ·) 0 = 0 := by
    intro l
    induction l with
    | nil => rfl
    | cons x l ih => simpa [xorBytes] using ih
  simp [sameTag, h]

end BouchaudOS.StreamCipher
