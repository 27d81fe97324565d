import Mathlib

/-!
# Byte strings with fixed offsets

On-disk records are written by copying fields into a zeroed buffer at fixed
offsets and read back by slicing at the same offsets. `splice` is the copy,
`slice` the read; the lemmas say when a read sees the bytes just copied and
when it sees what was there before. Little-endian integers are lists of bytes
of a fixed width.
-/
namespace BouchaudOS.Bytes

variable {α : Type*}

/-- The window of `n` elements that starts at offset `k`. -/
def slice (o : List α) (k n : ℕ) : List α := (o.drop k).take n

/-- Overwrite the elements from offset `k` on by `b`; the rest is unchanged. -/
def splice (o : List α) (k : ℕ) (b : List α) : List α :=
  o.take k ++ b ++ o.drop (k + b.length)

@[simp] theorem length_slice (o : List α) (k n : ℕ) : (slice o k n).length = min n (o.length - k) := by
  simp [slice]

theorem length_splice_eq (o : List α) (k : ℕ) (b : List α) :
    (splice o k b).length = min k o.length + b.length + (o.length - (k + b.length)) := by
  simp [splice, Nat.add_assoc]

variable {o b p : List α} {k n m : ℕ}

theorem length_splice (h : k + b.length ≤ o.length) : (splice o k b).length = o.length := by
  simp [splice]
  omega

theorem getElem?_splice (h : k + b.length ≤ o.length) (j : ℕ) :
    (splice o k b)[j]? = if k ≤ j ∧ j < k + b.length then b[j - k]? else o[j]? := by
  have hk : (o.take k).length = k := by simp; omega
  unfold splice
  rcases lt_or_ge j k with hj | hj
  · rw [List.append_assoc, List.getElem?_append_left (by omega), List.getElem?_take_of_lt hj,
      if_neg (by omega)]
  · rcases lt_or_ge j (k + b.length) with hj' | hj'
    · rw [List.getElem?_append_left (by simp; omega), List.getElem?_append_right (by omega), hk,
        if_pos ⟨hj, hj'⟩]
    · rw [List.getElem?_append_right (by simp; omega), List.getElem?_drop, if_neg (by omega)]
      congr 1
      simp
      omega

theorem getElem?_slice (o : List α) (k n j : ℕ) : (slice o k n)[j]? = if j < n then o[k + j]? else none := by
  unfold slice
  split_ifs with h
  · rw [List.getElem?_take_of_lt h, List.getElem?_drop]
  · rw [List.getElem?_eq_none]
    simp
    omega

theorem slice_splice_self (hn : n = b.length) (h : k + b.length ≤ o.length) : slice (splice o k b) k n = b := by
  subst hn
  apply List.ext_getElem?
  intro j
  rw [getElem?_slice, getElem?_splice h]
  rcases lt_or_ge j b.length with hj | hj
  · rw [if_pos hj, if_pos (by omega)]
    congr 1
    omega
  · rw [if_neg (by omega), List.getElem?_eq_none hj]

theorem slice_splice_disjoint {k' : ℕ} (h : k + b.length ≤ o.length) (hd : k' + n ≤ k ∨ k + b.length ≤ k') :
    slice (splice o k b) k' n = slice o k' n := by
  apply List.ext_getElem?
  intro j
  rw [getElem?_slice, getElem?_slice]
  split_ifs with hj
  · rw [getElem?_splice h, if_neg (by omega)]
  · rfl

theorem getD_eq_slice (o : List α) (k : ℕ) (a : α) : o.getD k a = (slice o k 1).headD a := by
  rw [List.getD_eq_getElem?_getD, List.headD_eq_head?_getD, List.head?_eq_getElem?,
    getElem?_slice, if_pos one_pos, Nat.add_zero]

theorem slice_slice {k' n' : ℕ} (h : k' + n' ≤ n) : slice (slice o k n) k' n' = slice o (k + k') n' := by
  apply List.ext_getElem?
  intro j
  rw [getElem?_slice (slice o k n), getElem?_slice o (k + k')]
  split_ifs with hj
  · rw [getElem?_slice, if_pos (by omega), Nat.add_assoc]
  · rfl

theorem slice_zero (o : List α) (n : ℕ) : slice o 0 n = o.take n := by
  simp [slice]

theorem slice_take (h : k + n ≤ m) : slice (o.take m) k n = slice o k n := by
  rw [← slice_zero o m, slice_slice h, Nat.zero_add]

theorem slice_append_left (h : k + n ≤ o.length) : slice (o ++ p) k n = slice o k n := by
  apply List.ext_getElem?
  intro j
  rw [getElem?_slice, getElem?_slice]
  split_ifs with hj
  · rw [List.getElem?_append_left (by omega)]
  · rfl

theorem slice_append_right (h : o.length ≤ k) : slice (o ++ p) k n = slice p (k - o.length) n := by
  simp [slice, List.drop_append, List.drop_of_length_le h]

theorem length_flatten_of_length {w : ℕ} {l : List (List α)} (hw : ∀ b ∈ l, b.length = w) :
    l.flatten.length = l.length * w := by
  induction l with
  | nil => simp
  | cons b l ih =>
    rw [List.flatten_cons, List.length_append, hw b List.mem_cons_self,
      ih fun c hc => hw c (List.mem_cons_of_mem _ hc), List.length_cons, Nat.succ_mul, Nat.add_comm]

theorem getElem?_takeD (o : List α) (a : α) (h : k < n) : (o.takeD n a)[k]? = some (o.getD k a) := by
  induction n generalizing o k with
  | zero => omega
  | succ n ih =>
    cases o with
    | nil =>
      cases k with
      | zero => rfl
      | succ k => simpa using ih [] (Nat.lt_of_succ_lt_succ h)
    | cons b o =>
      cases k with
      | zero => rfl
      | succ k => exact ih o (Nat.lt_of_succ_lt_succ h)

theorem slice_takeD_congr {o' : List α} (a : α) {l : ℕ} (h : o.take m = o'.take m)
    (hk : k + l ≤ m) (hn : m ≤ n) : slice (o.takeD n a) k l = slice (o'.takeD n a) k l := by
  apply List.ext_getElem?
  intro j
  rw [getElem?_slice, getElem?_slice]
  split_ifs with hj
  · have hget : o[k + j]? = o'[k + j]? := by
      rw [← List.getElem?_take_of_lt (show k + j < m by omega), h, List.getElem?_take_of_lt (by omega)]
    rw [getElem?_takeD _ _ (by omega), getElem?_takeD _ _ (by omega), List.getD_eq_getElem?_getD,
      List.getD_eq_getElem?_getD, hget]
  · rfl

def toVector (n : ℕ) (b : List UInt8) : Vector UInt8 n := Vector.ofFn fun i => b.getD i 0

@[simp] theorem toVector_toList (v : Vector UInt8 n) : toVector n v.toList = v := by
  simp [toVector]

theorem toList_toVector {n : ℕ} {l : List UInt8} (h : l.length = n) : (toVector n l).toList = l := by
  apply List.ext_getElem
  · simp [h]
  · intro i hi hl
    simp [toVector, hl]

/-- The `n` low-order bytes of `v`, least significant first. -/
def leBytes : ℕ → ℕ → List UInt8
  | 0, _ => []
  | n + 1, v => UInt8.ofNat v :: leBytes n (v / 256)

def ofLeBytes : List UInt8 → ℕ
  | [] => 0
  | b :: bs => b.toNat + 256 * ofLeBytes bs

@[simp] theorem length_leBytes (n v : ℕ) : (leBytes n v).length = n := by
  induction n generalizing v with
  | zero => rfl
  | succ n ih => simp [leBytes, ih]

theorem ofLeBytes_leBytes (n v : ℕ) : ofLeBytes (leBytes n v) = v % 256 ^ n := by
  induction n generalizing v with
  | zero => simp [leBytes, ofLeBytes, Nat.mod_one]
  | succ n ih =>
    have hb : (UInt8.ofNat v).toNat = v % 256 := by simp [UInt8.toNat_ofNat']
    rw [leBytes, ofLeBytes, ih, hb, pow_succ', Nat.mod_mul]

theorem ofLeBytes_lt (b : List UInt8) : ofLeBytes b < 256 ^ b.length := by
  induction b with
  | nil => simp [ofLeBytes]
  | cons x b ih =>
    have hx := x.toNat_lt
    rw [ofLeBytes, List.length_cons, pow_succ]
    omega

@[simp] theorem uint64_ofLeBytes_leBytes (x : UInt64) : UInt64.ofNat (ofLeBytes (leBytes 8 x.toNat)) = x := by
  rw [ofLeBytes_leBytes, Nat.mod_eq_of_lt (by simpa using x.toNat_lt), UInt64.ofNat_toNat]

@[simp] theorem uint32_ofLeBytes_leBytes (x : UInt32) : UInt32.ofNat (ofLeBytes (leBytes 4 x.toNat)) = x := by
  rw [ofLeBytes_leBytes, Nat.mod_eq_of_lt (by simpa using x.toNat_lt), UInt32.ofNat_toNat]

@[simp] theorem uint16_ofLeBytes_leBytes (x : UInt16) : UInt16.ofNat (ofLeBytes (leBytes 2 x.toNat)) = x := by
  rw [ofLeBytes_leBytes, Nat.mod_eq_of_lt (by simpa using x.toNat_lt), UInt16.ofNat_toNat]

end BouchaudOS.Bytes
