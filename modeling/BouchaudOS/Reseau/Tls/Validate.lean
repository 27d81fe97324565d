import BouchaudOS.Reseau.Tls.X509

/-!
# Validation of a certificate chain

The path starts at the leaf and stops at the first certificate that an anchor of the store
signs or that has the subject and the key of an anchor. The second way of stopping is meant
for a root that was signed again by another one; nothing keeps it from the leaf. A trusted
verdict is backed by signatures exactly when it does not come from there.
-/

namespace BouchaudOS.Reseau.Tls

open Checked Outcome List

/-- What the validation reports. -/
structure ChainResult where
  trusted : Bool := false
  hostnameOk : Bool := false
  expired : Bool := false
  anchor : Option String := none
  detail : String := ""
  deriving DecidableEq, Repr

/-- The keys are of the same known kind and equal. -/
def memeClePublique : PubKey → PubKey → Bool
  | .rsa an ae, .rsa bn be => an = bn ∧ ae = be
  | .ecP256 ap, .ecP256 bp => ap = bp
  | .ecP384 ap, .ecP384 bp => ap = bp
  | _, _ => false

/-- `find_equivalent_anchor`, in the store `magasin`. -/
def findEquivalentAnchor (magasin : List Certificate) (cert : Certificate) : Option Certificate :=
  magasin.find? fun root => root.subject = cert.subject && memeClePublique root.pubkey cert.pubkey

/-- The validity period of a certificate of the path counts when the time is known. -/
def date (now : ℕ) (c : Certificate) (res : ChainResult) : ChainResult :=
  if now ≠ 0 ∧ (now < c.notBefore ∨ c.notAfter < now) then { res with expired := true } else res

section

variable (verifie : Certificate → PubKey → Guarded Bool)

/-- `find_issuer_for`: an anchor whose subject is the issuer and whose key verifies. -/
def findIssuerFor (child : Certificate) : List Certificate → Guarded (Option Certificate)
  | [] => .ok none
  | root :: suite =>
    if root.subject = child.issuer then do
      if ← verifie child root.pubkey then return some root
      findIssuerFor child suite
    else findIssuerFor child suite

/-- The walk from a certificate on. -/
def chemin (magasin : List Certificate) (now : ℕ) : List Certificate → ChainResult → Guarded ChainResult
  | [], res => .ok res
  | courant :: suite, res =>
    if (findEquivalentAnchor magasin courant).isSome then
      .ok { res with
        trusted := true
        anchor := some "magasin:subject+spki"
        detail := if !res.hostnameOk then "chaine valide mais nom d'hote non couvert par le certificat"
          else "chaine de confiance complete (ancre equivalente cross-signee)" }
    else do
      let res := date now courant res
      if (← findIssuerFor verifie courant magasin).isSome then
        return { res with
          trusted := true
          anchor := some "magasin:issuer"
          detail := if res.expired then "chaine cryptographiquement valide mais expiree"
            else if !res.hostnameOk then "chaine valide mais nom d'hote non couvert par le certificat"
            else "chaine de confiance complete" }
      match suite with
      | [] => return { res with detail := "ancre de confiance inconnue (racine absente du magasin)" }
      | suivant :: _ =>
        if courant.issuer ≠ suivant.subject then
          return { res with detail := "issuer/subject incoherents dans la chaine" }
        else if !suivant.isCa then
          return { res with detail := "signataire sans basicConstraints CA dans la chaine" }
        else if ← verifie courant suivant.pubkey then
          chemin magasin now suite res
        else return { res with detail := "signature de chaine invalide" }

def validate (magasin certs : List Certificate) (hostname : Texte) (now : ℕ) : Guarded ChainResult :=
  match certs with
  | [] => .ok { detail := "aucun certificat" }
  | feuille :: _ => chemin verifie magasin now certs { hostnameOk := matchesHostname feuille hostname }

end

/-- How a path ends: a root of the store signs its last certificate, or that certificate
stands for a root. -/
inductive Ancrage
  | racine
  | equivalente
  deriving DecidableEq, Repr

section

variable (signe : Certificate → PubKey → Bool) (magasin certs : List Certificate) (now k : ℕ) (fin : Ancrage)

/-- The certificates up to the index `k` are a path: each is signed by a certificate
authority that comes next, and the last one is signed by a root of the store or, if it is
not the leaf, stands for one. -/
structure CheminSigne : Prop where
  maillon : ∀ i < k, ∃ c s, certs[i]? = some c ∧ certs[i + 1]? = some s ∧ c.issuer = s.subject ∧ s.isCa = true ∧
    signe c s.pubkey = true
  ancre : ∃ c, certs[k]? = some c ∧
    match fin with
    | .racine => ∃ r ∈ magasin, r.subject = c.issuer ∧ signe c r.pubkey = true
    | .equivalente => 1 ≤ k ∧ ∃ r ∈ magasin, r.subject = c.subject ∧ r.pubkey = c.pubkey

/-- Every certificate of the path but a replaced anchor is inside its validity period. -/
def DansPeriode : Prop :=
  ∀ i, i < k ∨ i = k ∧ fin = .racine → ∃ c, certs[i]? = some c ∧ c.notBefore ≤ now ∧ now ≤ c.notAfter

/-- A trusted verdict is backed by signatures: there is a signed path, its certificates are
valid now if the verdict says so, and a signature covers the leaf. -/
def Fondee (res : ChainResult) : Prop :=
  res.trusted = true →
    (∃ k fin, CheminSigne signe magasin certs k fin ∧ (res.expired = false → DansPeriode certs now k fin)) ∧
    ∃ feuille cle, certs[0]? = some feuille ∧ cle ∈ certs.map Certificate.pubkey ++ magasin.map Certificate.pubkey ∧
      signe feuille cle = true

end

section

variable {verifie : Certificate → PubKey → Guarded Bool} {signe : Certificate → PubKey → Bool}
  {magasin certs suite : List Certificate} {now k : ℕ} {fin : Ancrage} {c s : Certificate}
  {hostname : Texte} {res r : ChainResult} {expire : Bool}

theorem eq_of_memeClePublique {a b : PubKey} (h : memeClePublique a b = true) : a = b := by
  unfold memeClePublique at h
  split at h <;> simp_all

theorem exists_of_findEquivalentAnchor (h : (findEquivalentAnchor magasin c).isSome) :
    ∃ r ∈ magasin, r.subject = c.subject ∧ r.pubkey = c.pubkey := by
  obtain ⟨r, hr⟩ := Option.isSome_iff_exists.mp h
  have hp := find?_some hr
  rw [Bool.and_eq_true, decide_eq_true_iff] at hp
  exact ⟨r, mem_of_find?_eq_some hr, hp.1, eq_of_memeClePublique hp.2⟩

theorem CheminSigne.couvre (h : CheminSigne signe magasin certs k fin) :
    ∃ feuille cle, certs[0]? = some feuille ∧
      cle ∈ certs.map Certificate.pubkey ++ magasin.map Certificate.pubkey ∧ signe feuille cle = true := by
  rcases Nat.eq_zero_or_pos k with rfl | hk
  · obtain ⟨c, hc, hfin⟩ := h.ancre
    cases fin with
    | racine =>
      obtain ⟨r, hr, -, hs⟩ := hfin
      exact ⟨c, r.pubkey, hc, mem_append_right _ (mem_map_of_mem hr), hs⟩
    | equivalente => exact absurd hfin.1 (by omega)
  · obtain ⟨c, s, hc, hs, -, -, hsigne⟩ := h.maillon 0 hk
    exact ⟨c, s.pubkey, hc, mem_append_left _ (mem_map_of_mem (mem_of_getElem? hs)), hsigne⟩

/-- A path as the walk finds it: it may stop at any certificate that stands for an anchor,
the first one included. -/
inductive Trouve (signe : Certificate → PubKey → Bool) (magasin : List Certificate) (now : ℕ) (expire : Bool) :
    List Certificate → ℕ → Ancrage → Prop
  | equivalente {c : Certificate} {suite : List Certificate} (h : (findEquivalentAnchor magasin c).isSome) :
      Trouve signe magasin now expire (c :: suite) 0 .equivalente
  | racine {c r : Certificate} {suite : List Certificate} (hr : r ∈ magasin) (hsujet : r.subject = c.issuer)
      (hsigne : signe c r.pubkey = true) (hperiode : expire = false → c.notBefore ≤ now ∧ now ≤ c.notAfter) :
      Trouve signe magasin now expire (c :: suite) 0 .racine
  | suivi {c s : Certificate} {suite : List Certificate} {k : ℕ} {fin : Ancrage} (hnom : c.issuer = s.subject)
      (hca : s.isCa = true) (hsigne : signe c s.pubkey = true)
      (hperiode : expire = false → c.notBefore ≤ now ∧ now ≤ c.notAfter)
      (h : Trouve signe magasin now expire (s :: suite) k fin) :
      Trouve signe magasin now expire (c :: s :: suite) (k + 1) fin

theorem findIssuerFor_eq (hex : ∀ c k, verifie c k = .ok (signe c k)) (c : Certificate) (l : List Certificate) :
    findIssuerFor verifie c l = .ok (l.find? fun root => root.subject = c.issuer && signe c root.pubkey) := by
  induction l with
  | nil => rfl
  | cons root l ih =>
    rw [findIssuerFor, find?_cons, hex, ok_bind, ih]
    by_cases hs : root.subject = c.issuer
    · cases hsig : signe c root.pubkey <;> simp [hs]
    · simp [hs]

theorem periode_of_date (hnow : now ≠ 0) (h : (date now c res).expired = false) :
    c.notBefore ≤ now ∧ now ≤ c.notAfter := by
  unfold date at h
  split at h
  · cases h
  · omega

theorem date_trusted : (date now c res).trusted = res.trusted := by
  unfold date
  split <;> rfl

theorem expired_of_date (now : ℕ) (c : Certificate) (h : res.expired = true) : (date now c res).expired = true := by
  unfold date
  split
  · rfl
  · exact h

section

variable (hex : ∀ c k, verifie c k = .ok (signe c k))

include hex

/-- What the walk does at one certificate. -/
theorem chemin_cons (h : chemin verifie magasin now (c :: suite) res = .ok r) :
    (findEquivalentAnchor magasin c).isSome ∧ r.expired = res.expired ∨
    (∃ root ∈ magasin, root.subject = c.issuer ∧ signe c root.pubkey = true) ∧
      r.expired = (date now c res).expired ∨
    (∃ s suite', suite = s :: suite' ∧ c.issuer = s.subject ∧ s.isCa = true ∧ signe c s.pubkey = true ∧
      chemin verifie magasin now suite (date now c res) = .ok r) ∨
    r.trusted = res.trusted ∧ r.expired = (date now c res).expired := by
  rw [chemin] at h
  split at h
  · rename_i heq
    cases h
    exact .inl ⟨heq, rfl⟩
  · rw [findIssuerFor_eq hex, ok_bind] at h
    split at h
    · rename_i hroot
      obtain ⟨root, hroot⟩ := Option.isSome_iff_exists.mp hroot
      have hp := find?_some hroot
      rw [Bool.and_eq_true, decide_eq_true_iff] at hp
      cases h
      exact .inr (.inl ⟨⟨root, mem_of_find?_eq_some hroot, hp⟩, rfl⟩)
    · cases suite with
      | nil =>
        cases h
        exact .inr (.inr (.inr ⟨date_trusted, rfl⟩))
      | cons s suite' =>
        dsimp only at h
        rw [hex, ok_bind] at h
        split_ifs at h with hnom hca hsigne
        · cases h
          exact .inr (.inr (.inr ⟨date_trusted, rfl⟩))
        · cases h
          exact .inr (.inr (.inr ⟨date_trusted, rfl⟩))
        · exact .inr (.inr (.inl ⟨s, suite', rfl, not_not.mp hnom, by simpa using hca, hsigne, h⟩))
        · cases h
          exact .inr (.inr (.inr ⟨date_trusted, rfl⟩))

theorem chemin_expired
    (h : chemin verifie magasin now certs res = .ok r) (he : res.expired = true) : r.expired = true := by
  induction certs generalizing res with
  | nil =>
    cases h
    exact he
  | cons c suite ih =>
    have hd := expired_of_date now c he
    rcases chemin_cons hex h with ⟨-, hr⟩ | ⟨-, hr⟩ | ⟨s, suite', -, -, -, -, hs⟩ | ⟨-, hr⟩
    · exact hr.trans he
    · exact hr.trans hd
    · exact ih hs hd
    · exact hr.trans hd

/-- A trusted verdict comes from a path that the walk has found. -/
theorem chemin_trouve (hnow : now ≠ 0)
    (h : chemin verifie magasin now certs res = .ok r) (hres : res.trusted = false) (hr : r.trusted = true) :
    ∃ k fin, Trouve signe magasin now r.expired certs k fin := by
  induction certs generalizing res with
  | nil =>
    cases h
    rw [hres] at hr
    cases hr
  | cons c suite ih =>
    have hperiode : (r.expired = false → (date now c res).expired = false) →
        r.expired = false → c.notBefore ≤ now ∧ now ≤ c.notAfter :=
      fun himp hexp => periode_of_date hnow (himp hexp)
    rcases chemin_cons hex h with ⟨heq, -⟩ | ⟨⟨root, hm, hs, hsig⟩, hexp⟩ | ⟨s, suite', rfl, hnom, hca, hsig, hs⟩ |
      ⟨ht, -⟩
    · exact ⟨0, .equivalente, .equivalente heq⟩
    · exact ⟨0, .racine, .racine hm hs hsig (hperiode fun h => hexp.symm.trans h)⟩
    · obtain ⟨k, fin, htrouve⟩ := ih hs (date_trusted.trans hres)
      refine ⟨k + 1, fin, .suivi hnom hca hsig (hperiode fun hf => ?_) htrouve⟩
      by_contra hne
      rw [chemin_expired hex hs (by simpa using hne)] at hf
      cases hf
    · rw [ht, hres] at hr
      cases hr

end

theorem Trouve.periode (h : Trouve signe magasin now expire certs k fin) (he : expire = false) :
    DansPeriode certs now k fin := by
  induction h with
  | equivalente _ =>
    intro i hi
    simp at hi
  | @racine c _ _ _ _ _ hp =>
    intro i hi
    obtain rfl : i = 0 := by omega
    exact ⟨c, rfl, hp he⟩
  | @suivi c _ _ _ _ _ _ _ hp _ ih =>
    intro i hi
    cases i with
    | zero => exact ⟨c, rfl, hp he⟩
    | succ i =>
      obtain ⟨c', hc', hd⟩ := ih i (hi.imp (by omega) fun h => ⟨by omega, h.2⟩)
      exact ⟨c', by simpa using hc', hd⟩

theorem Trouve.maillon (h : Trouve signe magasin now expire certs k fin) :
    ∀ i < k, ∃ c s, certs[i]? = some c ∧ certs[i + 1]? = some s ∧ c.issuer = s.subject ∧ s.isCa = true ∧
      signe c s.pubkey = true := by
  induction h with
  | equivalente _ => exact fun i hi => absurd hi (Nat.not_lt_zero i)
  | racine _ _ _ _ => exact fun i hi => absurd hi (Nat.not_lt_zero i)
  | @suivi c s _ _ _ hnom hca hsigne _ _ ih =>
    intro i hi
    cases i with
    | zero => exact ⟨c, s, rfl, rfl, hnom, hca, hsigne⟩
    | succ i =>
      obtain ⟨c', s', hc', hs', h'⟩ := ih i (by omega)
      exact ⟨c', s', by simpa using hc', by simpa using hs', h'⟩

theorem Trouve.ancre (h : Trouve signe magasin now expire certs k fin) :
    ∃ c, certs[k]? = some c ∧
      (fin = .racine → ∃ r ∈ magasin, r.subject = c.issuer ∧ signe c r.pubkey = true) ∧
      (fin = .equivalente → (findEquivalentAnchor magasin c).isSome) := by
  induction h with
  | @equivalente c _ heq => exact ⟨c, rfl, nofun, fun _ => heq⟩
  | @racine c r _ hr hs hsig _ => exact ⟨c, rfl, fun _ => ⟨r, hr, hs, hsig⟩, nofun⟩
  | suivi _ _ _ _ _ ih =>
    obtain ⟨c, hc, hfin⟩ := ih
    exact ⟨c, by simpa using hc, hfin⟩

theorem Trouve.cheminSigne (h : Trouve signe magasin now expire certs k fin)
    (hfeuille : ∀ f, certs[0]? = some f → findEquivalentAnchor magasin f = none) :
    CheminSigne signe magasin certs k fin := by
  obtain ⟨c, hc, hracine, hequiv⟩ := h.ancre
  refine ⟨h.maillon, c, hc, ?_⟩
  cases fin with
  | racine => exact hracine rfl
  | equivalente =>
    have hanchor := hequiv rfl
    refine ⟨Nat.one_le_iff_ne_zero.mpr ?_, exists_of_findEquivalentAnchor hanchor⟩
    rintro rfl
    rw [hfeuille c hc] at hanchor
    cases hanchor

/-- A trusted verdict is backed by signatures exactly when the leaf does not stand for an
anchor, or has a signed path of certificates that are all valid now anyway. -/
theorem validate_fondee_iff (hex : ∀ c k, verifie c k = .ok (signe c k)) (hnow : now ≠ 0)
    (h : validate verifie magasin certs hostname now = .ok r) :
    Fondee signe magasin certs now r ↔
      (∀ f, certs[0]? = some f → findEquivalentAnchor magasin f = none) ∨
        ∃ k fin, CheminSigne signe magasin certs k fin ∧ DansPeriode certs now k fin := by
  cases certs with
  | nil =>
    cases h
    exact iff_of_true nofun (.inl nofun)
  | cons f suite =>
    constructor
    · intro hfond
      cases heq : findEquivalentAnchor magasin f with
      | none =>
        left
        rintro f' ⟨⟩
        exact heq
      | some root =>
        right
        rw [validate, chemin, heq] at h
        cases h
        obtain ⟨⟨k, fin, hchemin, hperiode⟩, -⟩ := hfond rfl
        exact ⟨k, fin, hchemin, hperiode rfl⟩
    · rintro (hfeuille | ⟨k, fin, hchemin, hperiode⟩) htrusted
      · obtain ⟨k, fin, htrouve⟩ := chemin_trouve hex hnow h rfl htrusted
        have hchemin := htrouve.cheminSigne hfeuille
        exact ⟨⟨k, fin, hchemin, htrouve.periode⟩, hchemin.couvre⟩
      · exact ⟨⟨k, fin, hchemin, fun _ => hperiode⟩, hchemin.couvre⟩

end

def racineExemple : Certificate :=
  ⟨[1], .rsaPkcs1Sha256, [2], [0x30, 0], [0x30, 0], .rsa [0xC1] [3], 20200101000000, 20400101000000, [], true⟩

/-- A leaf with the subject and the key of that root, another issuer, a name of its choice
and a period that is long over. -/
def feuilleForgee : Certificate :=
  ⟨[9], .unknown, [], [0x30, 0], [0x30, 1, 0], .rsa [0xC1] [3], 0, 1, [['a']], false⟩

/-- No signature verifies, and the leaf is trusted. -/
theorem feuille_sans_signature :
    validate (fun _ _ => .ok false) [racineExemple] [feuilleForgee] ['a'] 20260101000000 = .ok
        { trusted := true
          hostnameOk := true
          expired := false
          anchor := some "magasin:subject+spki"
          detail := "chaine de confiance complete (ancre equivalente cross-signee)" } ∧
      ¬ Fondee (fun _ _ => false) [racineExemple] [feuilleForgee] 20260101000000
        { trusted := true
          hostnameOk := true
          expired := false
          anchor := some "magasin:subject+spki"
          detail := "chaine de confiance complete (ancre equivalente cross-signee)" } := by
  refine ⟨by decide, fun h => ?_⟩
  obtain ⟨-, f, cle, -, -, hsigne⟩ := h rfl
  cases hsigne

def feuilleSignee : Certificate :=
  ⟨[9], .rsaPkcs1Sha256, [7], [0x30, 1, 0], [0x30, 0], .rsa [0xC3] [3], 20250101000000, 20270101000000, [['a']], false⟩

theorem feuilleSignee_fondee :
    validate (fun c _ => .ok (c.signature = [7])) [racineExemple] [feuilleSignee] ['a'] 20260101000000 = .ok
        { trusted := true
          hostnameOk := true
          anchor := some "magasin:issuer"
          detail := "chaine de confiance complete" } ∧
      (Fondee (fun c _ => c.signature = [7]) [racineExemple] [feuilleSignee] 20260101000000
        { trusted := true
          hostnameOk := true
          anchor := some "magasin:issuer"
          detail := "chaine de confiance complete" } ↔
      (∀ f, [feuilleSignee][0]? = some f → findEquivalentAnchor [racineExemple] f = none) ∨
        ∃ k fin, CheminSigne (fun c _ => c.signature = [7]) [racineExemple] [feuilleSignee] k fin ∧
          DansPeriode [feuilleSignee] 20260101000000 k fin) := by
  have h : validate (fun c _ => .ok (c.signature = [7])) [racineExemple] [feuilleSignee] ['a'] 20260101000000 =
      .ok { trusted := true
            hostnameOk := true
            anchor := some "magasin:issuer"
            detail := "chaine de confiance complete" } := by decide
  exact ⟨h, validate_fondee_iff (fun _ _ => rfl) (by decide) h⟩

end BouchaudOS.Reseau.Tls
