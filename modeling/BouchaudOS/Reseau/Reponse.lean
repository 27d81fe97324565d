import BouchaudOS.Foundations.Checked
import BouchaudOS.Reseau.Cookies

/-!
# The HTTP response

`is_complete`, `parse_response` and `store_from_raw` on the bytes of a server. Slices and sums
are checked. The size of a chunk is read without a limit, and a header line is cut at its
eleventh byte before anything is known of it; nothing else can stop the kernel.
-/

namespace BouchaudOS.Reseau

open Checked Outcome List

/-- A slice in memory: no more than half the addresses. -/
structure Tampon where
  octets : Octets
  borne : octets.length < 2 ^ 63

namespace Reponse

/-- `core::str::from_utf8`. -/
def fromUtf8 (b : Octets) : Option Texte := (ByteArray.mk b.toArray).utf8Decode?.map Array.toList

/-- An unsigned integer below a limit, as `parse` reads it. -/
def parseEntier (limite : ℕ) (t : Texte) : Option ℕ :=
  let chiffres := match t with
    | '+' :: r => r
    | r => r
  let n := chiffres.foldl (fun v c => v * 10 + (c.toNat - 48)) 0
  if chiffres.isEmpty || !chiffres.all Char.isDigit || limite ≤ n then none else some n

def bodyOffset : Octets → Option ℕ
  | 13 :: 10 :: 13 :: 10 :: _ => some 4
  | _ :: r => (bodyOffset r).map (· + 1)
  | [] => none

/-- The loop of `header_value` over the lines. -/
def chercheLigne (name : Octets) : List Octets → Guarded (Option Texte)
  | [] => .ok none
  | line :: suite =>
    match line.findIdx? (· == 0x3a) with
    | none => chercheLigne name suite
    | some colon =>
      if egalSansCasse (line.take colon) name then do
        let v ← range line colon line.length
        let val ← range v 1 v.length
        return (fromUtf8 val).map trim
      else chercheLigne name suite

def headerValue (head : Octets) (name : String) : Guarded (Option Texte) :=
  chercheLigne (octets name.toList) (head.splitOn 0x0a)

def isChunked (head : Octets) : Guarded Bool := do
  return (← headerValue head "Transfer-Encoding").any fun v => "chunked".toList <:+: minuscules v

def contentLength (head : Octets) : Guarded (Option ℕ) := do
  return (← headerValue head "Content-Length").bind fun v => parseEntier (2 ^ 64) (trim v)

inductive Chiffre
  | valeur (d : ℕ)
  | blanc
  | autre

def chiffre (c : UInt8) : Chiffre :=
  if 0x30 ≤ c ∧ c ≤ 0x39 then .valeur (c.toNat - 0x30)
  else if 0x61 ≤ c ∧ c ≤ 0x66 then .valeur (c.toNat - 0x61 + 10)
  else if 0x41 ≤ c ∧ c ≤ 0x46 then .valeur (c.toNat - 0x41 + 10)
  else if c = 0x20 ∨ c = 0x0d ∨ c = 0x09 then .blanc
  else .autre

def parseHex : Octets → ℕ → Guarded ℕ
  | [], v => .ok v
  | c :: s, v =>
    match chiffre c with
    | .valeur d => do parseHex s (← fit 64 (v * 16 + d))
    | .blanc => parseHex s v
    | .autre => .ok v

/-- The number a size line stands for. -/
def hexa : Octets → ℕ → ℕ
  | [], v => v
  | c :: s, v =>
    match chiffre c with
    | .valeur d => hexa s (v * 16 + d)
    | .blanc => hexa s v
    | .autre => v

variable (body : Octets) (i : ℕ)

/-- The end of the line that starts at `i`. -/
def finLigne : ℕ := i + (body.drop i).findIdx (· == 0x0a)

/-- Past the CR and the LF at `i`, when they are there. -/
def sauteFin : ℕ :=
  let i := if body[i]? = some 0x0d then i + 1 else i
  if body[i]? = some 0x0a then i + 1 else i

theorem le_sauteFin : i ≤ sauteFin body i := by
  unfold sauteFin
  dsimp only
  split <;> split <;> omega

theorem le_finLigne : i ≤ finLigne body i := Nat.le_add_right _ _

/-- The size without the extensions behind a semicolon. -/
def hexpart (line : Octets) : Guarded Octets :=
  match line.findIdx? (· == 0x3b) with
  | some p => range line 0 p
  | none => .ok line

def dechunk (body : Octets) (i : ℕ) (out : Octets) : Guarded (Octets × Bool) :=
  let j := finLigne body i
  if body.length ≤ j then .ok (out, false)
  else do
    let line ← range body i j
    let hex ← hexpart line
    let size ← parseHex hex 0
    let _ ← fit 64 (j + 1)
    if size = 0 then return (out, true)
    let _ ← fit 64 (j + 1 + size)
    if body.length < j + 1 + size then return (out, false)
    let chunk ← range body (j + 1) (j + 1 + size)
    dechunk body (sauteFin body (j + 1 + size)) (out ++ chunk)
termination_by body.length - i
decreasing_by
  have := le_sauteFin body (finLigne body i + 1 + size)
  have := le_finLigne body i
  omega

def isComplete (raw : Octets) : Guarded Bool :=
  match bodyOffset raw with
  | none => .ok false
  | some off => do
    let head ← range raw 0 off
    let body ← range raw off raw.length
    if ← isChunked head then return (← dechunk body 0 []).2
    match ← contentLength head with
    | some len => return len ≤ body.length
    | none => return false

structure Response where
  statusLine : Texte
  statusCode : ℕ
  location : Option Texte
  contentType : Option Texte
  body : Octets

def corps (head body : Octets) : Guarded Octets := do
  if ← isChunked head then return (← dechunk body 0 []).1
  match ← contentLength head with
  | some len => range body 0 (min len body.length)
  | none => return body

/-- `parse_response`, with the content decoders. -/
def parseResponse (decodeContent : Texte → Octets → Option Octets) (raw : Octets) : Guarded (Option Response) :=
  match bodyOffset raw with
  | none => .ok none
  | some off => do
    let head ← range raw 0 off
    let rawBody ← range raw off raw.length
    let line ← range head 0 (head.findIdx fun c => c == 0x0d || c == 0x0a)
    let statusLine : Texte := line.map fun b => Char.ofNat b.toNat
    let location ← headerValue head "Location"
    let contentType ← headerValue head "Content-Type"
    let body ← corps head rawBody
    let body := match ← headerValue head "Content-Encoding" with
      | some enc => if egalSansCasse (octets enc) (octets "identity".toList) then body else (decodeContent enc body).getD body
      | none => body
    return some
      { statusLine := statusLine
        statusCode := ((statusLine.splitOn ' ')[1]?.bind (parseEntier (2 ^ 16))).getD 0
        location := location
        contentType := contentType
        body := body }

/-- A text cut at a byte, which must be a boundary between characters. -/
def coupeOctet : ℕ → Texte → Guarded (Texte × Texte)
  | 0, t => .ok ([], t)
  | _ + 1, [] => .fault .bounds
  | n + 1, c :: t =>
    if c.utf8Size ≤ n + 1 then do
      let r ← coupeOctet (n + 1 - c.utf8Size) t
      return (c :: r.1, r.2)
    else .fault .boundary

/-- A line as `store_from_raw` reads it. -/
def ligne (line : Octets) : Texte := ((fromUtf8 line).getD []).rdropWhile (· == '\r')

def headEnd (raw : Octets) : ℕ := (bodyOffset raw).elim raw.length (· - 4)

def storeLigne (host : Texte) (pot : Pot) (line : Octets) : Guarded Pot := do
  let line := ligne line
  if 11 < (octets line).length then
    let (k, v) ← coupeOctet 11 line
    if egalSansCasse (octets k) (octets "set-cookie:".toList) then return pot.storeOne host (trim v) else return pot
  else return pot

def storeFromRaw (host : Texte) (pot : Pot) (raw : Octets) : Guarded Pot := do
  let head ← range raw 0 (headEnd raw)
  (head.splitOn 0x0a).foldlM (storeLigne host) pot

variable {body raw : Octets} {i : ℕ} (head : Octets) (s : Octets)

theorem le_hexa (v : ℕ) : v ≤ hexa s v := by
  induction s generalizing v with
  | nil => exact le_rfl
  | cons c s ih =>
    rw [hexa]
    split
    · exact le_trans (by omega) (ih _)
    · exact ih v
    · exact le_rfl

theorem parseHex_eq (v : ℕ) (h : hexa s v < 2 ^ 64) : parseHex s v = .ok (hexa s v) := by
  induction s generalizing v with
  | nil => rfl
  | cons c s ih =>
    rw [hexa] at h ⊢
    rw [parseHex]
    split
    · rename_i d hd
      rw [hd] at h
      rw [fit_of_lt ((le_hexa s _).trans_lt h), ok_bind]
      exact ih _ h
    · rename_i hd
      rw [hd] at h
      exact ih _ h
    · rfl

theorem hexa_of_parseHex {v n : ℕ} (hv : v < 2 ^ 64) (h : parseHex s v = .ok n) : hexa s v < 2 ^ 64 := by
  induction s generalizing v with
  | nil => exact hv
  | cons c s ih =>
    rw [parseHex] at h
    rw [hexa]
    split at h
    · obtain ⟨w, hw, h⟩ := bind_eq_ok.mp h
      obtain ⟨hlt, rfl⟩ := fit_eq_ok.mp hw
      exact ih hlt h
    · exact ih hv h
    · exact hv

def partie (line : Octets) : Octets := line.take ((line.findIdx? (· == 0x3b)).getD line.length)

theorem hexpart_eq (line : Octets) : hexpart line = .ok (partie line) := by
  unfold hexpart partie
  split
  · rename_i p hp
    obtain ⟨hlt, -⟩ := findIdx?_eq_some_iff_getElem.mp hp
    rw [range_of_le (Nat.zero_le p) (by omega), hp]
    rfl
  · rename_i hp
    rw [hp, Option.getD_none, take_length]

/-- The size on the line that starts at `i`. -/
def taille (body : Octets) (i : ℕ) : ℕ := hexa (partie ((body.drop i).take (finLigne body i - i))) 0

/-- From `i` on, `dechunk` comes to a line that ends at `j` with the size `n`. -/
inductive Atteint (body : Octets) : ℕ → ℕ → ℕ → Prop
  | ici {i : ℕ} (h : finLigne body i < body.length) : Atteint body i (finLigne body i) (taille body i)
  | suite {i j n : ℕ} (h : finLigne body i < body.length) (hnul : taille body i ≠ 0)
      (hfin : finLigne body i + 1 + taille body i ≤ body.length)
      (hsuite : Atteint body (sauteFin body (finLigne body i + 1 + taille body i)) j n) : Atteint body i j n

/-- Every size that is read ends below the last address. -/
def Bornes (body : Octets) (i : ℕ) : Prop := ∀ j n, Atteint body i j n → j + 1 + n < 2 ^ 64

theorem bornes_iff (h : finLigne body i < body.length) :
    Bornes body i ↔ finLigne body i + 1 + taille body i < 2 ^ 64 ∧
      (taille body i ≠ 0 → finLigne body i + 1 + taille body i ≤ body.length →
        Bornes body (sauteFin body (finLigne body i + 1 + taille body i))) := by
  constructor
  · exact fun hb => ⟨hb _ _ (.ici h), fun h0 hfin j n hn => hb j n (.suite h h0 hfin hn)⟩
  · rintro ⟨hici, hsuite⟩ j n hn
    cases hn with
    | ici => exact hici
    | suite _ h0 hfin hn => exact hsuite h0 hfin j n hn

/-- One turn of `dechunk`, when the end of its chunk is below the last address. -/
theorem dechunk_pas (hb : body.length < 2 ^ 63) (hfin : finLigne body i < body.length)
    (hlt : finLigne body i + 1 + taille body i < 2 ^ 64) (out : Octets) : dechunk body i out =
      if taille body i = 0 then .ok (out, true)
      else if body.length < finLigne body i + 1 + taille body i then .ok (out, false)
      else dechunk body (sauteFin body (finLigne body i + 1 + taille body i))
        (out ++ (body.drop (finLigne body i + 1)).take (taille body i)) := by
  have hle := le_finLigne body i
  have hsize : parseHex _ 0 = .ok (taille body i) := parseHex_eq _ 0 (show taille body i < 2 ^ 64 by omega)
  rw [dechunk, if_neg (by omega), range_of_le hle (by omega), ok_bind, hexpart_eq, ok_bind, hsize, ok_bind,
    fit_of_lt (by omega), ok_bind, fit_of_lt hlt, ok_bind]
  split_ifs
  · rfl
  · rfl
  · rw [range_of_le (by omega) (by omega), ok_bind, Nat.add_sub_cancel_left]

theorem dechunk_safe (hb : body.length < 2 ^ 63) (i : ℕ) (out : Octets) :
    (dechunk body i out).Safe ↔ Bornes body i := by
  induction hm : body.length - i using Nat.strong_induction_on generalizing i out with
  | _ m ih =>
    have hle := le_finLigne body i
    by_cases hfin : body.length ≤ finLigne body i
    · rw [dechunk, if_pos hfin]
      refine iff_of_true safe_ok fun j n hn => ?_
      cases hn <;> omega
    · rw [bornes_iff (by omega)]
      by_cases hlt : finLigne body i + 1 + taille body i < 2 ^ 64
      · rw [dechunk_pas hb (by omega) hlt]
        split_ifs with h0 hlong
        · exact iff_of_true safe_ok ⟨hlt, fun h => absurd h0 h⟩
        · exact iff_of_true safe_ok ⟨hlt, fun _ h => absurd h (by omega)⟩
        · have hsaute := le_sauteFin body (finLigne body i + 1 + taille body i)
          refine (ih _ ?_ _ _ rfl).trans ⟨fun h => ⟨hlt, fun _ _ => h⟩, fun h => h.2 h0 (by omega)⟩
          omega
      · refine iff_of_false ?_ fun h => hlt h.1
        rw [dechunk, if_neg hfin, range_of_le hle (by omega), ok_bind, hexpart_eq, ok_bind, Guarded.safe_bind]
        rintro ⟨size, hsize, hsafe⟩
        have hsz : taille body i < 2 ^ 64 := hexa_of_parseHex _ (by norm_num) hsize
        obtain rfl : taille body i = size := Outcome.ok.inj ((parseHex_eq _ 0 hsz).symm.trans hsize)
        rw [fit_of_lt (by omega), ok_bind, if_neg (by omega), fit, if_neg hlt] at hsafe
        exact not_safe_fault hsafe

theorem bodyOffset_bounds {o : ℕ} (h : bodyOffset raw = some o) : 4 ≤ o ∧ o ≤ raw.length := by
  fun_induction bodyOffset raw generalizing o with
  | case1 r =>
    cases h
    simp
  | case2 b r _ ih =>
    obtain ⟨n, hn, rfl⟩ := Option.map_eq_some_iff.mp h
    have := ih hn
    simp only [length_cons]
    omega
  | case3 => cases h

theorem chercheLigne_safe (name : Octets) (lines : List Octets) : (chercheLigne name lines).Safe := by
  induction lines with
  | nil => exact safe_ok
  | cons line lines ih =>
    rw [chercheLigne]
    split
    · exact ih
    · rename_i colon hcolon
      obtain ⟨hlt, -⟩ := findIdx?_eq_some_iff_getElem.mp hcolon
      split
      · rw [range_of_le (by omega) le_rfl, ok_bind, range_of_le (by simp; omega) le_rfl]
        exact safe_ok
      · exact ih

theorem headerValue_eq (name : String) : ∃ o, headerValue head name = .ok o :=
  Guarded.safe_iff.mp (chercheLigne_safe _ _)

theorem isChunked_eq : ∃ b, isChunked head = .ok b := by
  obtain ⟨o, ho⟩ := headerValue_eq head "Transfer-Encoding"
  exact ⟨_, by rw [isChunked, ho]; rfl⟩

theorem contentLength_eq : ∃ o, contentLength head = .ok o := by
  obtain ⟨o, ho⟩ := headerValue_eq head "Content-Length"
  exact ⟨_, by rw [contentLength, ho]; rfl⟩

/-- The sizes of the chunks, when there are any, stay below the last address. -/
def MorceauxBornes (raw : Octets) : Prop :=
  ∀ off, bodyOffset raw = some off → isChunked (raw.take off) = .ok true → Bornes (raw.drop off) 0

theorem coupe_eq {off : ℕ} (h : bodyOffset raw = some off) :
    (range raw 0 off : Guarded Octets) = .ok (raw.take off) ∧
      (range raw off raw.length : Guarded Octets) = .ok (raw.drop off) := by
  have hle := (bodyOffset_bounds h).2
  have htake : (raw.drop off).take (raw.length - off) = raw.drop off := take_of_length_le (by simp)
  rw [range_of_le (Nat.zero_le _) hle, range_of_le hle le_rfl, htake]
  exact ⟨rfl, rfl⟩

/-- A body that comes in chunks is put together, another one never faults. -/
theorem morceaux_safe {α : Type} {head : Octets} (f : Octets × Bool → α) {reste : Guarded α} (hreste : reste.Safe)
    (hbody : body.length < 2 ^ 63) :
    (isChunked head >>= fun b => if b = true then dechunk body 0 [] >>= fun r => pure (f r) else reste).Safe ↔
      (isChunked head = .ok true → Bornes body 0) := by
  obtain ⟨b, hb⟩ := isChunked_eq head
  rw [hb, ok_bind]
  cases b with
  | true =>
    have hpure : ∀ r, dechunk body 0 [] = .ok r → (pure (f r) : Guarded α).Safe := fun _ _ => safe_ok
    rw [if_pos rfl, Outcome.safe_bind, and_iff_left hpure, dechunk_safe hbody]
    exact ⟨fun h _ => h, fun h => h rfl⟩
  | false => exact iff_of_true hreste nofun

theorem isComplete_safe (hraw : raw.length < 2 ^ 63) : (isComplete raw).Safe ↔ MorceauxBornes raw := by
  unfold isComplete MorceauxBornes
  cases hoff : bodyOffset raw with
  | none => exact iff_of_true safe_ok nofun
  | some off =>
    obtain ⟨hhead, hbody⟩ := coupe_eq hoff
    obtain ⟨len, hlen⟩ := contentLength_eq (raw.take off)
    dsimp only
    rw [hhead, ok_bind, hbody, ok_bind, hlen, ok_bind]
    refine (morceaux_safe Prod.snd (by cases len <;> exact safe_ok) (by rw [length_drop]; omega)).trans ?_
    simp

theorem corps_safe {head : Octets} (hbody : body.length < 2 ^ 63) :
    (corps head body).Safe ↔ (isChunked head = .ok true → Bornes body 0) := by
  obtain ⟨len, hlen⟩ := contentLength_eq head
  unfold corps
  rw [hlen, ok_bind]
  refine morceaux_safe Prod.fst ?_ hbody
  cases len with
  | none => exact safe_ok
  | some len =>
    dsimp only
    rw [range_of_le (Nat.zero_le _) (Nat.min_le_right _ _)]
    exact safe_ok

theorem parseResponse_safe (decodeContent : Texte → Octets → Option Octets) (hraw : raw.length < 2 ^ 63) :
    (parseResponse decodeContent raw).Safe ↔ MorceauxBornes raw := by
  unfold parseResponse MorceauxBornes
  cases hoff : bodyOffset raw with
  | none => exact iff_of_true safe_ok nofun
  | some off =>
    obtain ⟨hhead, hbody⟩ := coupe_eq hoff
    obtain ⟨location, hlocation⟩ := headerValue_eq (raw.take off) "Location"
    obtain ⟨type, htype⟩ := headerValue_eq (raw.take off) "Content-Type"
    obtain ⟨enc, henc⟩ := headerValue_eq (raw.take off) "Content-Encoding"
    dsimp only
    rw [hhead, ok_bind, hbody, ok_bind, range_of_le (Nat.zero_le _) findIdx_le_length, ok_bind, hlocation, ok_bind,
      htype, ok_bind, Outcome.safe_bind, corps_safe (by rw [length_drop]; omega), henc]
    simp

/-- A line longer than eleven bytes has a boundary between characters there. -/
def Entiere (t : Texte) : Prop := 11 < (octets t).length → ∃ k, (octets (t.take k)).length = 11

theorem coupeOctet_safe (t : Texte) {n : ℕ} (h : n ≤ (octets t).length) :
    (coupeOctet n t).Safe ↔ ∃ k, (octets (t.take k)).length = n := by
  induction t generalizing n with
  | nil =>
    obtain rfl := Nat.le_zero.mp h
    exact iff_of_true safe_ok ⟨0, rfl⟩
  | cons c t ih =>
    cases n with
    | zero => exact iff_of_true (by rw [coupeOctet]; exact safe_ok) ⟨0, rfl⟩
    | succ n =>
      simp only [octets_cons, length_append, String.length_utf8EncodeChar] at h
      rw [coupeOctet]
      split
      · rename_i hc
        have hpure : ∀ r, coupeOctet (n + 1 - c.utf8Size) t = .ok r →
          (pure (c :: r.1, r.2) : Guarded (Texte × Texte)).Safe := fun _ _ => safe_ok
        rw [Outcome.safe_bind, and_iff_left hpure, ih (by omega)]
        constructor
        · rintro ⟨k, hk⟩
          exact ⟨k + 1, by simp [hk]; omega⟩
        · rintro ⟨k, hk⟩
          cases k with
          | zero => cases hk
          | succ k => exact ⟨k, by simp at hk; omega⟩
      · rename_i hc
        refine iff_of_false not_safe_fault ?_
        rintro ⟨k, hk⟩
        cases k with
        | zero => cases hk
        | succ k => simp at hk; omega

theorem storeLigne_safe (host : Texte) (pot : Pot) (line : Octets) :
    (storeLigne host pot line).Safe ↔ Entiere (ligne line) := by
  unfold storeLigne Entiere
  dsimp only
  split
  · rename_i hlen
    rw [Outcome.safe_bind, coupeOctet_safe _ hlen.le]
    refine ⟨fun h _ => h.1, fun h => ⟨h hlen, fun r _ => ?_⟩⟩
    split <;> exact safe_ok
  · rename_i hlen
    exact iff_of_true safe_ok fun h => absurd h hlen

theorem storeFromRaw_safe (host : Texte) (pot : Pot) (raw : Octets) :
    (storeFromRaw host pot raw).Safe ↔ ∀ line ∈ (raw.take (headEnd raw)).splitOn 0x0a, Entiere (ligne line) := by
  have hend : headEnd raw ≤ raw.length := by
    unfold headEnd
    cases hoff : bodyOffset raw with
    | none => exact le_rfl
    | some off => exact (Nat.sub_le _ _).trans (bodyOffset_bounds hoff).2
  have hrun (lines : List Octets) (pot : Pot) :
      (lines.foldlM (storeLigne host) pot).Safe ↔ ∀ line ∈ lines, Entiere (ligne line) := by
    induction lines generalizing pot with
    | nil => exact iff_of_true safe_ok nofun
    | cons line lines ih =>
      rw [foldlM_cons, Guarded.safe_bind, forall_mem_cons, ← storeLigne_safe host pot, Guarded.safe_iff]
      simp only [ih, exists_and_right]
  rw [storeFromRaw, range_of_le (Nat.zero_le _) hend, ok_bind]
  exact hrun _ pot

/-- For every response: the three readers end without a fault if and only if the sizes of its
chunks stay below the last address and each of its header lines longer than eleven bytes can
be cut there. -/
theorem reponse_safe_iff (raw : Tampon) (host : Texte) (pot : Pot) (decodeContent : Texte → Octets → Option Octets) :
    ((isComplete raw.octets).Safe ∧ (parseResponse decodeContent raw.octets).Safe ∧
      (storeFromRaw host pot raw.octets).Safe) ↔
      MorceauxBornes raw.octets ∧
        ∀ line ∈ (raw.octets.take (headEnd raw.octets)).splitOn 0x0a, Entiere (ligne line) := by
  rw [isComplete_safe raw.borne, parseResponse_safe decodeContent raw.borne, storeFromRaw_safe, ← and_assoc, and_self]

/-- Ten letters and an accented one: the eleventh byte is inside a character. -/
theorem ligne_coupee_dans_un_caractere :
    storeFromRaw "a".toList [] (List.replicate 10 0x61 ++ [0xc3, 0xa9, 0x0d, 0x0a, 0x0d, 0x0a]) = .fault .boundary := by
  decide

/-- A hexadecimal digit, in capitals or not. -/
def octetHex (d : Fin 16 × Bool) : UInt8 :=
  .ofNat (if d.1.val < 10 then 0x30 + d.1 else if d.2 then 0x37 + d.1 else 0x57 + d.1)

/-- A size line, with what may follow its digits. -/
structure LigneTaille where
  chiffres : List (Fin 16 × Bool)
  extension : Octets
  debut : ∀ c ∈ extension.head?, c = 0x3b
  fin : 0x0a ∉ extension

def LigneTaille.valeur (l : LigneTaille) : ℕ := l.chiffres.foldl (fun v d => v * 16 + d.1) 0

/-- The line up to its newline. -/
def LigneTaille.texte (l : LigneTaille) : Octets := l.chiffres.map octetHex ++ (l.extension ++ [0x0d])

structure Morceau extends LigneTaille where
  donnees : Octets
  plein : donnees ≠ []
  longueur : donnees.length = toLigneTaille.valeur

/-- A body in chunks up to the newline of its last size line. -/
def avantFin (zero : LigneTaille) : List Morceau → Octets
  | [] => zero.texte
  | m :: ms => m.texte ++ 0x0a :: (m.donnees ++ 0x0d :: 0x0a :: avantFin zero ms)

variable {suite raw : Octets} {l zero : LigneTaille} {fin : ℕ}

theorem octetHex_ne : ∀ d, octetHex d ≠ 0x0a ∧ octetHex d ≠ 0x3b := by decide

theorem chiffre_octetHex (d : Fin 16 × Bool) : chiffre (octetHex d) = .valeur d.1 := by
  obtain ⟨d, maj⟩ := d
  fin_cases d <;> cases maj <;> rfl

theorem hexa_chiffres (ds : List (Fin 16 × Bool)) (v : ℕ) :
    hexa (ds.map octetHex ++ s) v = hexa s (ds.foldl (fun v d => v * 16 + d.1) v) := by
  induction ds generalizing v with
  | nil => rfl
  | cons d ds ih =>
    rw [map_cons, cons_append, hexa, chiffre_octetHex]
    exact ih _

theorem hexa_partie (l : LigneTaille) : hexa (partie l.texte) 0 = l.valeur := by
  have hchiffres : (l.chiffres.map octetHex).findIdx? (· == 0x3b) = none := by
    simp [octetHex_ne]
  rw [partie, LigneTaille.texte, findIdx?_append, hchiffres, Option.none_or]
  rcases hext : l.extension with _ | ⟨c, ext⟩
  · rw [take_of_length_le (by simp)]
    exact hexa_chiffres [0x0d] l.chiffres 0
  · obtain rfl := l.debut c (by rw [hext]; rfl)
    rw [cons_append, findIdx?_cons, if_pos (beq_self_eq_true _), Option.map_some, Option.getD_some, Nat.zero_add, take_left,
      ← append_nil (map ..)]
    exact hexa_chiffres [] l.chiffres 0

theorem findIdx_newline {t : Octets} (h : t <+: l.texte) : t.findIdx (· == 0x0a) = t.length := by
  have hno : 0x0a ∉ l.texte := by
    simp [LigneTaille.texte, l.fin, octetHex_ne]
  rw [findIdx_eq_length]
  exact fun c hc => beq_eq_false_iff_ne.mpr fun heq => hno (heq ▸ h.subset hc)

theorem dechunk_coupe (h : body.drop i <+: l.texte) (out : Octets) : dechunk body i out = .ok (out, false) := by
  rw [dechunk, if_pos]
  rw [finLigne, findIdx_newline h, length_drop]
  omega

/-- One turn of `dechunk` on a line that is whole, whatever follows it. -/
theorem dechunk_ligne {reste : Octets} (h : body.drop i = l.texte ++ 0x0a :: reste) (hb : body.length < 2 ^ 63)
    (hl : l.valeur < 2 ^ 60) (out : Octets) : dechunk body i out =
      if l.valeur = 0 then .ok (out, true)
      else if reste.length < l.valeur then .ok (out, false)
      else dechunk body (sauteFin body (i + l.texte.length + 1 + l.valeur)) (out ++ reste.take l.valeur) := by
  have hlen := congrArg length h
  simp only [length_drop, length_append, length_cons] at hlen
  have hfin : finLigne body i = i + l.texte.length := by
    rw [finLigne, h, findIdx_append, findIdx_newline prefix_rfl, if_neg (lt_irrefl _), findIdx_cons]
    simp
  have htaille : taille body i = l.valeur := by
    rw [taille, hfin, h, Nat.add_sub_cancel_left, take_left, hexa_partie]
  have hreste : body.drop (i + l.texte.length + 1) = reste := by
    rw [Nat.add_assoc, ← drop_drop, h, drop_append]
    simp
  rw [dechunk_pas hb (by omega) (by omega), htaille, hfin, hreste]
  exact if_congr Iff.rfl rfl (if_congr (by omega) rfl rfl)

theorem drop_sauteFin (h : body.drop i <+: 0x0d :: 0x0a :: suite) :
    body.drop (sauteFin body i) = (body.drop i).drop 2 := by
  have hget : ∀ n, body[i + n]? = (body.drop i)[n]? := by simp
  have hdrop : ∀ n, body.drop (i + n) = (body.drop i).drop n := by simp
  have h0 := hget 0
  have h1 := hget 1
  generalize body.drop i = t at *
  match t with
  | [] => simp_all [sauteFin]
  | [a] => simp_all [sauteFin, prefix_cons_iff]
  | a :: b :: t => simp_all [sauteFin, prefix_cons_iff, Nat.add_assoc]

theorem coupe_newline {t a : Octets} (h : t <+: a ++ 0x0a :: suite) :
    t <+: a ∨ ∃ u, t = a ++ 0x0a :: u ∧ u <+: suite := by
  rcases prefix_or_prefix_of_prefix h (prefix_append a _) with ht | ⟨u, rfl⟩
  · exact .inl ht
  · rcases prefix_cons_iff.mp ((prefix_append_right_inj a).mp h) with rfl | ⟨u, rfl, hu⟩
    · exact .inl (by simp)
    · exact .inr ⟨u, rfl, hu⟩

/-- Wherever a body in chunks is cut, `dechunk` knows whether it saw the last size line, and then
it has the data. -/
theorem dechunk_morceaux {ms : List Morceau} (hzero : zero.valeur = 0)
    (htotal : (ms.flatMap Morceau.donnees).length < 2 ^ 60) (hb : body.length < 2 ^ 63)
    (h : body.drop i <+: avantFin zero ms ++ 0x0a :: suite) (out : Octets) :
    ((body.drop i).length ≤ (avantFin zero ms).length → ∃ o, dechunk body i out = .ok (o, false)) ∧
      ((avantFin zero ms).length < (body.drop i).length →
        dechunk body i out = .ok (out ++ ms.flatMap Morceau.donnees, true)) := by
  induction ms generalizing i out with
  | nil =>
    rcases coupe_newline h with h | ⟨u, hu, -⟩
    · exact ⟨fun _ => ⟨out, dechunk_coupe h out⟩, fun hlt => absurd h.length_le (not_le.mpr hlt)⟩
    · rw [dechunk_ligne hu hb (by omega), if_pos hzero, hu]
      simp [avantFin]
  | cons m ms ih =>
    have hpos := length_pos_iff.mpr m.plein
    have hm := m.longueur
    rw [flatMap_cons, length_append] at htotal
    simp only [avantFin, append_assoc, cons_append, length_append, length_cons] at h ⊢
    rcases coupe_newline h with h | ⟨u, hu, h⟩
    · have hle := h.length_le
      exact ⟨fun _ => ⟨out, dechunk_coupe h out⟩, fun hlt => by omega⟩
    · have hlen := congrArg length hu
      rw [length_append, length_cons] at hlen
      rw [dechunk_ligne hu hb (by omega), if_neg (by omega)]
      split_ifs with hcourt
      · exact ⟨fun _ => ⟨out, rfl⟩, fun hlt => by omega⟩
      · obtain ⟨v, rfl⟩ := prefix_of_prefix_length_le (prefix_append _ _) h (by omega)
        have hv := (prefix_append_right_inj _).mp h
        have hdrop : body.drop (i + m.texte.length + 1 + m.valeur) = v := by
          rw [Nat.add_assoc, Nat.add_assoc, ← drop_drop, hu, ← hm, ← Nat.add_assoc, ← drop_drop]
          simp
        have hsaute := drop_sauteFin (hdrop ▸ hv)
        rw [hdrop] at hsaute
        obtain ⟨hnon, houi⟩ := ih (by omega) (by rw [hsaute]; exact hv.drop 2) (out ++ m.donnees)
        rw [hsaute, length_drop] at hnon houi
        rw [length_append] at hlen
        rw [take_left' hm]
        refine ⟨fun hle => hnon (by omega), fun hlt => ?_⟩
        rw [houi (by omega), flatMap_cons, append_assoc]

/-- A header block without a content encoding. -/
structure EnTete where
  octets : Octets
  fini : bodyOffset octets = some octets.length
  clair : headerValue octets "Content-Encoding" = .ok none

variable (tete : EnTete) (decodeContent : Texte → Octets → Option Octets)

/-- The response is complete from `fin` on, and not before, and then its body is parsed. -/
def FinitA (raw : Octets) (fin : ℕ) (body : Octets) : Prop :=
  isComplete raw = .ok (decide (fin ≤ raw.length)) ∧
    (fin ≤ raw.length → ∃ r, parseResponse decodeContent raw = .ok (some r) ∧ r.body = body)

theorem bodyOffset_append {a : Octets} {o : ℕ} (h : bodyOffset a = some o) (b : Octets) :
    bodyOffset (a ++ b) = some o := by
  fun_induction bodyOffset a generalizing o with
  | case1 r => exact h
  | case2 c r hne ih =>
    obtain ⟨n, hn, rfl⟩ := Option.map_eq_some_iff.mp h
    have hr := bodyOffset_bounds hn
    rw [cons_append, bodyOffset, ih hn]
    · rfl
    · intro w hc hw
      match r, hr with
      | [], hr | [_], hr | [_, _], hr =>
        simp only [length_cons, length_nil] at hr
        omega
      | _ :: _ :: _ :: r, _ => exact hne r hc (by simp_all)
  | case3 => cases h

theorem EnTete.coupe (body : Octets) : bodyOffset (tete.octets ++ body) = some tete.octets.length ∧
    (range (tete.octets ++ body) 0 tete.octets.length : Guarded Octets) = .ok tete.octets ∧
    (range (tete.octets ++ body) tete.octets.length (tete.octets ++ body).length : Guarded Octets) = .ok body := by
  have hoff := bodyOffset_append tete.fini body
  have hcoupe := coupe_eq hoff
  rw [take_left, drop_left] at hcoupe
  exact ⟨hoff, hcoupe⟩

theorem parseResponse_append {b : Octets} (h : corps tete.octets body = .ok b) :
    ∃ r, parseResponse decodeContent (tete.octets ++ body) = .ok (some r) ∧ r.body = b := by
  obtain ⟨hoff, hhead, hbody⟩ := tete.coupe body
  obtain ⟨location, hlocation⟩ := headerValue_eq tete.octets "Location"
  obtain ⟨type, htype⟩ := headerValue_eq tete.octets "Content-Type"
  unfold parseResponse
  rw [hoff]
  dsimp only
  rw [hhead, ok_bind, hbody, ok_bind, range_of_le (Nat.zero_le _) findIdx_le_length, ok_bind, hlocation, ok_bind,
    htype, ok_bind, h, ok_bind, tete.clair, ok_bind]
  exact ⟨_, rfl, rfl⟩

/-- Nothing is decided before the end of the header block. -/
theorem finitA_of_corps {b : Octets} (hfin : tete.octets.length ≤ fin) (hraw : raw <+: tete.octets ++ suite)
    (h : ∀ body, raw = tete.octets ++ body → isComplete raw = .ok (decide (fin ≤ raw.length)) ∧
      (fin ≤ raw.length → corps tete.octets body = .ok b)) : FinitA decodeContent raw fin b := by
  by_cases hlen : tete.octets.length ≤ raw.length
  · obtain ⟨body, rfl⟩ := prefix_of_prefix_length_le (prefix_append _ _) hraw hlen
    obtain ⟨hcomplete, hcorps⟩ := h body rfl
    exact ⟨hcomplete, fun hle => parseResponse_append tete decodeContent (hcorps hle)⟩
  · obtain ⟨y, hy⟩ := prefix_of_prefix_length_le hraw (prefix_append _ _) (by omega)
    have hnone : bodyOffset raw = none := by
      rw [Option.eq_none_iff_forall_ne_some]
      intro o ho
      have htete := bodyOffset_append ho y
      rw [hy, tete.fini] at htete
      have hle := (bodyOffset_bounds ho).2
      cases htete
      omega
    refine ⟨?_, fun hle => by omega⟩
    rw [isComplete, hnone, decide_eq_false (by omega)]

/-- However a body is cut into chunks, and wherever the message is cut: it is complete from the
newline of the last size line on, and what is parsed is the data. With a length and no chunks, it
is complete from that length on. -/
theorem reponse_finit (raw : Tampon) :
    (∀ ms zero suite, isChunked tete.octets = .ok true → zero.valeur = 0 →
      (ms.flatMap Morceau.donnees).length < 2 ^ 60 →
      raw.octets <+: tete.octets ++ (avantFin zero ms ++ 0x0a :: suite) →
      FinitA decodeContent raw.octets ((tete.octets ++ avantFin zero ms).length + 1) (ms.flatMap Morceau.donnees)) ∧
    ∀ n suite, isChunked tete.octets = .ok false → contentLength tete.octets = .ok (some n) →
      raw.octets <+: tete.octets ++ suite →
      FinitA decodeContent raw.octets (tete.octets.length + n) (suite.take n) := by
  obtain ⟨raw, hborne⟩ := raw
  constructor
  · intro ms zero suite hchunked hzero htotal hraw
    refine finitA_of_corps tete decodeContent (by rw [length_append]; omega) hraw ?_
    rintro body rfl
    obtain ⟨hoff, hhead, hbody⟩ := tete.coupe body
    rw [length_append] at hborne
    obtain ⟨hnon, houi⟩ := dechunk_morceaux (i := 0) hzero htotal (by omega : body.length < 2 ^ 63)
      ((prefix_append_right_inj _).mp hraw) []
    rw [drop_zero] at hnon houi
    rw [isComplete, hoff]
    simp only [corps, hhead, hbody, hchunked, ok_bind, if_true]
    rw [length_append, length_append]
    rcases lt_or_ge (avantFin zero ms).length body.length with hlt | hle
    · rw [houi hlt, decide_eq_true (by omega)]
      exact ⟨rfl, fun _ => rfl⟩
    · obtain ⟨o, ho⟩ := hnon hle
      rw [ho, decide_eq_false (by omega)]
      exact ⟨rfl, fun h => by omega⟩
  · intro n suite hchunked hlength hraw
    refine finitA_of_corps tete decodeContent (by omega) hraw ?_
    rintro body rfl
    obtain ⟨hoff, hhead, hbody⟩ := tete.coupe body
    obtain ⟨x, rfl⟩ := (prefix_append_right_inj _).mp hraw
    rw [isComplete, hoff]
    simp only [corps, hhead, hbody, hchunked, hlength, ok_bind, Bool.false_eq_true, if_false]
    rw [length_append]
    refine ⟨congrArg Outcome.ok (decide_eq_decide.mpr (by omega)), fun hle => ?_⟩
    have hn : n ≤ body.length := by omega
    rw [min_eq_left hn, range_of_le (Nat.zero_le _) hn, take_append_of_le_length hn]
    rfl

/-- One chunk of two bytes, and the message is whole. -/
theorem reponse_ab : ∃ r, parseResponse (fun _ _ => none) (octets
    "HTTP/1.1 200 OK\r\nTransfer-Encoding: chunked\r\n\r\n02;x\r\nab\r\n0\r\n\r\n".toList) = .ok (some r) ∧
      r.body = [0x61, 0x62] :=
  ((reponse_finit ⟨octets "HTTP/1.1 200 OK\r\nTransfer-Encoding: chunked\r\n\r\n".toList, by decide, by decide⟩
    (fun _ _ => none) ⟨_, by decide⟩).1 [⟨⟨[(0, false), (2, false)], [0x3b, 0x78], by simp, by decide⟩,
      [0x61, 0x62], by decide, by decide⟩] ⟨[(0, false)], [], by simp, by decide⟩ [0x0d, 0x0a]
    (by decide) (by decide) (by decide) ⟨[], rfl⟩).2 (by decide)

end Reponse

end BouchaudOS.Reseau
