import BouchaudOS.Foundations.Bytes
import BouchaudOS.Update.Enregistrement

/-!
# The signed release manifest

`system/update-core/src/manifeste.rs`: five lines in a fixed order name an
image by its digest and its length. A manifest is trusted when one of the
configured keys verifies the signature over its exact bytes; the signature
check itself is a parameter.
-/
namespace BouchaudOS.Update

open Bytes

structure CleDeConfiance where
  nom : String
  publique : Vector UInt8 32
  /-- A development key, always reported as such. -/
  developpement : Bool

structure Manifeste where
  version : List UInt8
  empreinte : Image
  octets : UInt64
  essais : UInt8
  deriving DecidableEq, Repr

inductive RefusManifeste
  /-- Not the canonical form. -/
  | format
  /-- No trusted key is configured in this system. -/
  | aucuneCleDeConfiance
  /-- No trusted key verifies this signature over these bytes. -/
  | signatureNonFiable
  deriving DecidableEq, Repr

namespace Manifeste

set_option maxRecDepth 4000

/-- The value of the next line, which must start with `cle`, and what follows it. -/
def ligne (t cle : List UInt8) : Except RefusManifeste (List UInt8 × List UInt8) :=
  match t.findIdx? (· = 0x0a) with
  | none => .error .format
  | some fin =>
    let l := t.take fin
    if l.length < cle.length ∨ l.take cle.length ≠ cle then .error .format
    else .ok (l.drop cle.length, t.drop (fin + 1))

def hexval (c : UInt8) : Option UInt8 :=
  if 0x30 ≤ c ∧ c ≤ 0x39 then some (c - 0x30)
  else if 0x61 ≤ c ∧ c ≤ 0x66 then some (c - 0x61 + 10)
  else none

def estChiffre (c : UInt8) : Bool := 0x30 ≤ c && c ≤ 0x39

/-- `[A-Za-z0-9._+-]`. -/
def estVersion (c : UInt8) : Bool :=
  estChiffre c || (0x41 ≤ c && c ≤ 0x5a) || (0x61 ≤ c && c ≤ 0x7a) ||
    c = 0x2e || c = 0x5f || c = 0x2b || c = 0x2d

/-- Two hexadecimal digits a byte. -/
def hexDecode : List UInt8 → Option (List UInt8)
  | [] => some []
  | [_] => none
  | a :: b :: reste => do
    let x ← hexval a
    let y ← hexval b
    let suite ← hexDecode reste
    some ((x <<< 4 ||| y) :: suite)

/-- The keys of the lines, in order. -/
def cleEntete : List UInt8 := "bouchaud-manifeste-v1".toUTF8.toList
def cleVersion : List UInt8 := "version=".toUTF8.toList
def cleImage : List UInt8 := "image_sha256=".toUTF8.toList
def cleOctets : List UInt8 := "image_octets=".toUTF8.toList
def cleEssais : List UInt8 := "essais=".toUTF8.toList

/-- Parse the canonical form; refuse anything else. -/
def analyse (t : List UInt8) : Except RefusManifeste Manifeste := do
  let (entete, t) ← ligne t cleEntete
  if entete.length ≠ 0 then throw .format
  let (v, t) ← ligne t cleVersion
  if v = [] ∨ v.length > 64 ∨ ¬v.all estVersion then throw .format
  let (h, t) ← ligne t cleImage
  if h.length ≠ 64 then throw .format
  let some empreinte := hexDecode h | throw .format
  let (o, t) ← ligne t cleOctets
  if o = [] ∨ o.length > 19 ∨ o.head? = some 0x30 ∨ ¬o.all estChiffre then throw .format
  let octets := o.foldl (fun n c => n * 10 + UInt64.ofNat (c - 0x30).toNat) 0
  let (e, t) ← ligne t cleEssais
  let [essais] := e | throw .format
  if ¬(0x31 ≤ essais ∧ essais ≤ 0x39) then throw .format
  if t ≠ [] then throw .format
  return { version := v, empreinte := toVector 32 empreinte, octets := octets, essais := essais - 0x30 }

/-- The first trusted key that verifies the signature over these exact bytes,
then the canonical parse. -/
def verifieSigne (ed25519 : Vector UInt8 32 → List UInt8 → List UInt8 → Bool)
    (t signature : List UInt8) (cles : List CleDeConfiance) :
    Except RefusManifeste (Manifeste × CleDeConfiance) :=
  if cles.isEmpty then .error .aucuneCleDeConfiance
  else match cles.find? fun c => ed25519 c.publique t signature with
    | none => .error .signatureNonFiable
    | some cle => (analyse t).map fun m => (m, cle)

/-- What the fields of a manifest may be. -/
structure Canonique (m : Manifeste) : Prop where
  version : m.version ≠ [] ∧ m.version.length ≤ 64 ∧ m.version.all estVersion
  octets : 0 < m.octets ∧ m.octets.toNat < 10 ^ 19
  essais : 1 ≤ m.essais ∧ m.essais ≤ 9

def chiffreHex (x : UInt8) : UInt8 := if x < 10 then 0x30 + x else 0x57 + x

def hexEncode (l : List UInt8) : List UInt8 :=
  l.flatMap fun b : UInt8 => [chiffreHex (b >>> 4), chiffreHex (b &&& 15)]

/-- Decimal digits, without leading zero. -/
def decimal (n : ℕ) : List UInt8 := (Nat.digits 10 n).reverse.map fun d => 0x30 + UInt8.ofNat d

/-- The one spelling of a manifest: five lines, nothing after them. -/
def rendu (m : Manifeste) : List UInt8 :=
  cleEntete ++ 0x0a :: (cleVersion ++ (m.version ++ 0x0a :: (cleImage ++
    (hexEncode m.empreinte.toList ++ 0x0a :: (cleOctets ++ (decimal m.octets.toNat ++ 0x0a ::
      (cleEssais ++ ([0x30 + m.essais] ++ 0x0a :: []))))))))

theorem ligne_eq_ok {t cle v r : List UInt8} (hc : 0x0a ∉ cle) :
    ligne t cle = .ok (v, r) ↔ 0x0a ∉ v ∧ t = cle ++ (v ++ 0x0a :: r) := by
  unfold ligne
  constructor
  · intro h
    split at h
    · cases h
    · rename_i fin hf
      obtain ⟨hlt, hfin, havant⟩ := List.findIdx?_eq_some_iff_getElem.mp hf
      have hcoupe : t = t.take fin ++ 0x0a :: t.drop (fin + 1) := by
        rw [← of_decide_eq_true hfin, ← List.drop_eq_getElem_cons, List.take_append_drop]
      have hligne : 0x0a ∉ t.take fin := by
        intro hm
        obtain ⟨i, hi, he⟩ := List.mem_take_iff_getElem.mp hm
        exact havant i (by omega) (by simpa using he)
      dsimp only at h
      split_ifs at h with hcle
      rw [not_or, not_not] at hcle
      cases h
      refine ⟨fun hm => hligne (List.mem_of_mem_drop hm), ?_⟩
      conv_rhs => rw [← List.append_assoc]; enter [1, 1]; rw [← hcle.2]
      rwa [List.take_append_drop]
  · rintro ⟨hv, rfl⟩
    have hf : (cle ++ (v ++ 0x0a :: r)).findIdx? (· = 0x0a) = some (cle ++ v).length := by
      rw [← List.append_assoc, List.findIdx?_append, List.findIdx?_eq_none_iff.mpr]
      · simp [List.findIdx?_cons]
      · intro x hx
        rcases List.mem_append.mp hx with hx | hx
        · exact decide_eq_false (ne_of_mem_of_not_mem hx hc)
        · exact decide_eq_false (ne_of_mem_of_not_mem hx hv)
    have hsuite : (cle ++ (v ++ 0x0a :: r)).drop ((cle ++ v).length + 1) = r := by
      rw [← List.append_assoc, List.drop_append]
      simp
    rw [hf]
    simp only [hsuite]
    rw [← List.append_assoc, List.take_left]
    simp

theorem hexval_eq_some {a x : UInt8} (h : hexval a = some x) : x < 16 ∧ a = chiffreHex x := by
  have ha : ∀ a : UInt8, (hexval a).all fun x => x < 16 && a = chiffreHex x := by decide
  simpa [h] using ha a

theorem hexval_chiffreHex : ∀ x : UInt8, x < 16 → hexval (chiffreHex x) = some x := by decide

theorem quartets : ∀ b : UInt8, b >>> 4 < 16 ∧ b &&& 15 < 16 ∧ (b >>> 4) <<< 4 ||| b &&& 15 = b := by
  decide

theorem quartets_or {x y : UInt8} (hx : x < 16) (hy : y < 16) :
    (x <<< 4 ||| y) >>> 4 = x ∧ (x <<< 4 ||| y) &&& 15 = y := by
  have h : ∀ i j : Fin 16, (UInt8.ofNat i <<< 4 ||| UInt8.ofNat j) >>> 4 = UInt8.ofNat i ∧
      (UInt8.ofNat i <<< 4 ||| UInt8.ofNat j) &&& 15 = UInt8.ofNat j := by
    decide
  simpa using h ⟨x.toNat, hx⟩ ⟨y.toNat, hy⟩

theorem bind_ok_iff {α β : Type} {x : Except RefusManifeste α} {f : α → Except RefusManifeste β} {b : β} :
    (x >>= f) = .ok b ↔ ∃ a, x = .ok a ∧ f a = .ok b := by
  cases x <;> simp [bind, Except.bind]

theorem ite_throw_iff {α β : Type} {c : Prop} [Decidable c] {e : RefusManifeste}
    {f : α → Except RefusManifeste β} {k : Except RefusManifeste β} {b : β} :
    (if c then throw e >>= f else k) = .ok b ↔ ¬c ∧ k = .ok b := by
  split_ifs with h
  · simp [h, bind, Except.bind, throw, throwThe, MonadExceptOf.throw]
  · simp [h]

theorem hexDecode_eq_some : ∀ {h l : List UInt8}, hexDecode h = some l → h = hexEncode l
  | [], l, h => by cases h; rfl
  | [_], l, h => by cases h
  | a :: b :: reste, l, h => by
    simp only [hexDecode, Option.bind_eq_bind, Option.bind_eq_some_iff, Option.some.injEq] at h
    obtain ⟨x, hx, y, hy, suite, hs, rfl⟩ := h
    obtain ⟨hx16, rfl⟩ := hexval_eq_some hx
    obtain ⟨hy16, rfl⟩ := hexval_eq_some hy
    obtain ⟨h1, h2⟩ := quartets_or hx16 hy16
    rw [hexDecode_eq_some hs]
    simp only [hexEncode, List.flatMap_cons, h1, h2, List.cons_append, List.nil_append]

theorem hexDecode_hexEncode (l : List UInt8) : hexDecode (hexEncode l) = some l := by
  induction l with
  | nil => rfl
  | cons b l ih =>
    obtain ⟨h1, h2, h3⟩ := quartets b
    rw [hexEncode, List.flatMap_cons, ← hexEncode]
    simp [hexDecode, hexval_chiffreHex, h1, h2, h3, ih]

/-- The sum that `analyse` computes over the digits of the length. -/
def valeur (o : List UInt8) : ℕ := o.foldl (fun n c => n * 10 + (c - 0x30).toNat) 0

theorem valeur_eq (o : List UInt8) :
    valeur o = Nat.ofDigits 10 (o.reverse.map fun c => (c - 0x30).toNat) := by
  rw [Nat.ofDigits_eq_foldr, List.foldr_map, List.foldr_reverse, valeur]
  congr 1
  funext n c
  simp [Nat.mul_comm, Nat.add_comm]

theorem chiffre_lt : ∀ c : UInt8, estChiffre c →
    (c - 0x30).toNat < 10 ∧ 0x30 + UInt8.ofNat (c - 0x30).toNat = c := by
  decide

theorem estChiffre_ofNat {d : ℕ} (h : d < 10) :
    estChiffre (0x30 + UInt8.ofNat d) ∧ (0x30 + UInt8.ofNat d - 0x30).toNat = d := by
  interval_cases d <;> decide

theorem valeur_lt {o : List UInt8} (h : o.all estChiffre) : valeur o < 10 ^ o.length := by
  rw [valeur_eq, ← List.length_reverse, ← List.length_map fun c : UInt8 => (c - 0x30).toNat]
  refine Nat.ofDigits_lt_base_pow_length (by omega) fun d hd => ?_
  obtain ⟨c, hc, rfl⟩ := List.mem_map.mp hd
  exact (chiffre_lt c (List.all_eq_true.mp h c (List.mem_reverse.mp hc))).1

theorem toNat_octets {o : List UInt8} (h : o.all estChiffre) (hl : o.length ≤ 19) :
    (o.foldl (fun n c => n * 10 + UInt64.ofNat (c - 0x30).toNat) (0 : UInt64)).toNat = valeur o := by
  induction o using List.reverseRecOn with
  | nil => rfl
  | append_singleton o c ih =>
    have hlt := valeur_lt h
    have hp : 10 ^ (o ++ [c]).length ≤ 10 ^ 19 := Nat.pow_le_pow_right (by omega) hl
    simp only [List.all_append, Bool.and_eq_true] at h
    simp only [List.length_append, List.length_singleton] at hl
    simp only [valeur, List.foldl_append, List.foldl_cons, List.foldl_nil] at *
    rw [UInt64.toNat_add, UInt64.toNat_mul, ih h.1 (by omega)]
    rw [UInt64.toNat_ofNat_of_lt' (by have := (c - 0x30).toNat_lt; simp only [UInt64.size]; omega)]
    change (_ * 10 % 2 ^ 64 + _) % 2 ^ 64 = _
    omega

theorem valeur_decimal (n : ℕ) : valeur (decimal n) = n := by
  rw [valeur_eq, decimal]
  simp only [List.map_reverse, List.reverse_reverse, List.map_map]
  rw [List.map_congr_left (g := id), List.map_id, Nat.ofDigits_digits]
  intro d hd
  exact (estChiffre_ofNat (Nat.digits_lt_base (by omega) hd)).2

theorem decimal_valeur {o : List UInt8} (h : o.all estChiffre) (hz : o.head? ≠ some 0x30) :
    decimal (valeur o) = o := by
  have hc : ∀ c ∈ o, _ := fun c hc => chiffre_lt c (List.all_eq_true.mp h c hc)
  rw [valeur_eq, decimal, Nat.digits_ofDigits 10 (by omega)]
  · rw [← List.map_reverse, List.reverse_reverse, List.map_map]
    exact (List.map_congr_left fun c h => (hc c h).2).trans (List.map_id o)
  · intro d hd
    obtain ⟨c, hm, rfl⟩ := List.mem_map.mp hd
    exact (hc c (List.mem_reverse.mp hm)).1
  · intro hne he
    cases o with
    | nil => exact hne rfl
    | cons c o =>
      refine hz ?_
      have := (hc c List.mem_cons_self).2
      rw [List.getLast_map, List.getLast_reverse, List.head_cons] at he
      rw [he] at this
      exact congrArg some this.symm

theorem decimal_chiffres (n : ℕ) : (decimal n).all estChiffre := by
  rw [List.all_eq_true]
  intro c hc
  obtain ⟨d, hd, rfl⟩ := List.mem_map.mp hc
  exact (estChiffre_ofNat (Nat.digits_lt_base (by omega) (List.mem_reverse.mp hd))).1

theorem decimal_head {n : ℕ} (h : 0 < n) : decimal n ≠ [] ∧ (decimal n).head? ≠ some 0x30 := by
  have hd := Nat.getLast_digit_ne_zero 10 h.ne'
  have hne : Nat.digits 10 n ≠ [] := Nat.digits_ne_nil_iff_ne_zero.mpr h.ne'
  have hlt := Nat.digits_lt_base (by omega) (List.getLast_mem hne)
  refine ⟨by simpa [decimal] using hne, fun hz => ?_⟩
  rw [decimal, List.head?_map, List.head?_reverse, List.getLast?_eq_getLast_of_ne_nil hne] at hz
  have hz : 0x30 + UInt8.ofNat ((Nat.digits 10 n).getLast hne) = 0x30 := Option.some.inj hz
  rw [← (estChiffre_ofNat hlt).2, hz] at hd
  exact hd rfl

theorem length_decimal_le {n : ℕ} : (decimal n).length ≤ 19 ↔ n < 10 ^ 19 := by
  rw [decimal, List.length_map, List.length_reverse]
  exact Nat.digits_length_le_iff (by omega) n

theorem length_hexEncode (l : List UInt8) : (hexEncode l).length = 2 * l.length := by
  simp [hexEncode, List.length_flatMap, Nat.mul_comm]

theorem not_mem_of_all {p : UInt8 → Bool} {l : List UInt8} (h : l.all p) (hp : p 0x0a = false) :
    0x0a ∉ l := by
  intro hm
  have := List.all_eq_true.mp h _ hm
  simp [hp] at this

theorem not_mem_hexEncode (l : List UInt8) : 0x0a ∉ hexEncode l := by
  have hc : ∀ b : UInt8, 0x0a ∉ [chiffreHex (b >>> 4), chiffreHex (b &&& 15)] := by decide
  intro hm
  obtain ⟨b, -, hb⟩ := List.mem_flatMap.mp hm
  exact hc b hb

theorem essais_iff : ∀ e : UInt8, (1 ≤ e ∧ e ≤ 9 → 0x0a ∉ [0x30 + e] ∧ 0x31 ≤ 0x30 + e ∧ 0x30 + e ≤ 0x39) ∧
      (0x31 ≤ e ∧ e ≤ 0x39 → 1 ≤ e - 0x30 ∧ e - 0x30 ≤ 9) ∧
      0x30 + (e - 0x30) = e ∧ 0x30 + e - 0x30 = e := by
  decide

theorem analyse_eq_ok {t : List UInt8} {m : Manifeste} : analyse t = .ok m ↔ m.Canonique ∧ t = m.rendu := by
  have h1 : 0x0a ∉ cleEntete := by decide +kernel
  have h2 : 0x0a ∉ cleVersion := by decide +kernel
  have h3 : 0x0a ∉ cleImage := by decide +kernel
  have h4 : 0x0a ∉ cleOctets := by decide +kernel
  have h5 : 0x0a ∉ cleEssais := by decide +kernel
  constructor
  · intro h
    simp only [analyse, bind_ok_iff, Prod.exists, ite_throw_iff] at h
    obtain ⟨entete, t1, ht, hentete, v, t2, ht1, hv, e, t3, ht2, he, h⟩ := h
    split at h
    · rename_i empreinte hemp
      simp only [bind_ok_iff, Prod.exists, ite_throw_iff] at h
      obtain ⟨o, t4, ht3, ho, n, t5, ht4, h⟩ := h
      split at h
      · rename_i essais
        simp only [ite_throw_iff] at h
        obtain ⟨hessais, hfin, h⟩ := h
        cases h
        push Not at hv ho he hentete hfin
        obtain ⟨hne, hlen, hzero, hchiffres⟩ := ho
        have hemp := hexDecode_eq_some hemp
        obtain ⟨-, ht⟩ := (ligne_eq_ok h1).mp ht
        obtain ⟨-, rfl⟩ := (ligne_eq_ok h2).mp ht1
        obtain ⟨-, rfl⟩ := (ligne_eq_ok h3).mp ht2
        obtain ⟨-, rfl⟩ := (ligne_eq_ok h4).mp ht3
        obtain ⟨-, rfl⟩ := (ligne_eq_ok h5).mp ht4
        have hn := toNat_octets hchiffres hlen
        have hd := decimal_valeur hchiffres hzero
        have hpos : 0 < valeur o := by
          rw [Nat.pos_iff_ne_zero]
          intro hz
          rw [hz] at hd
          exact hne hd.symm
        have hlt := (valeur_lt hchiffres).trans_le (Nat.pow_le_pow_right (by omega) hlen)
        obtain ⟨-, hess, hretour, -⟩ := essais_iff essais
        have hlong : empreinte.length = 32 := by
          rw [hemp, length_hexEncode] at he
          omega
        refine ⟨⟨hv, ⟨UInt64.lt_iff_toNat_lt.mpr (hn ▸ hpos), hn ▸ hlt⟩, hess (not_not.mp hessais)⟩, ?_⟩
        rw [ht, List.length_eq_zero_iff.mp hentete, hfin, rendu, hn, hd, toList_toVector hlong,
          ← hemp, hretour]
        rfl
      · cases h
    · cases h
  · rintro ⟨⟨hv, ho, hessais⟩, rfl⟩
    have hpos := decimal_head (UInt64.lt_iff_toNat_lt.mp ho.1)
    have hchiffres := decimal_chiffres m.octets.toNat
    have hlen := length_decimal_le.mpr ho.2
    obtain ⟨he, -, -, hretour⟩ := essais_iff m.essais
    obtain ⟨he1, he2⟩ := he hessais
    simp only [analyse, bind_ok_iff, Prod.exists, ite_throw_iff]
    refine ⟨[], _, (ligne_eq_ok h1).mpr ⟨by simp, rfl⟩, by simp,
      m.version, _, (ligne_eq_ok h2).mpr ⟨not_mem_of_all hv.2.2 (by decide), rfl⟩, by simpa using hv,
      hexEncode m.empreinte.toList, _, (ligne_eq_ok h3).mpr ⟨not_mem_hexEncode _, rfl⟩,
      by simp [length_hexEncode], ?_⟩
    rw [hexDecode_hexEncode]
    simp only [bind_ok_iff, Prod.exists, ite_throw_iff]
    refine ⟨decimal m.octets.toNat, _,
      (ligne_eq_ok h4).mpr ⟨not_mem_of_all hchiffres (by decide), rfl⟩,
      by simpa using ⟨hpos.1, hlen, hpos.2, List.all_eq_true.mp hchiffres⟩,
      [0x30 + m.essais], _, (ligne_eq_ok h5).mpr ⟨he1, rfl⟩, ?_⟩
    have hn := toNat_octets hchiffres hlen
    rw [valeur_decimal] at hn
    simp only [ite_throw_iff]
    refine ⟨not_not.mpr he2, by simp, ?_⟩
    rw [UInt64.toNat_inj.mp hn]
    simp [hretour, pure, Except.pure]

/-- `analyse` accepts the one spelling of each value and nothing else, and its sum of digits
stays below 64 bits at every digit. -/
theorem analyse_canonique :
    (∀ (t : List UInt8) (m : Manifeste), analyse t = .ok m ↔ m.Canonique ∧ t = m.rendu) ∧
    (∀ (t t' : List UInt8) (m : Manifeste), analyse t = .ok m → analyse t' = .ok m → t = t') ∧
    ∀ o : List UInt8, o.length ≤ 19 → o.all estChiffre → ∀ k, valeur (o.take k) < 2 ^ 64 ∧
      ((o.take k).foldl (fun n c => n * 10 + UInt64.ofNat (c - 0x30).toNat) (0 : UInt64)).toNat =
        valeur (o.take k) := by
  refine ⟨fun t m => analyse_eq_ok, fun t t' m h h' => ?_, fun o hl ho k => ?_⟩
  · rw [(analyse_eq_ok.mp h).2, (analyse_eq_ok.mp h').2]
  · have hk : (o.take k).all estChiffre :=
      List.all_eq_true.mpr fun c hc => List.all_eq_true.mp ho c (List.mem_of_mem_take hc)
    have hlen : (o.take k).length ≤ 19 := (List.length_take_le' _ _).trans hl
    have hlt := (valeur_lt hk).trans_le (Nat.pow_le_pow_right (by omega) hlen)
    exact ⟨by omega, toNat_octets hk hlen⟩

end Manifeste

end BouchaudOS.Update
