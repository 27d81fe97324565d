import BouchaudOS.Foundations.LastMatch
import BouchaudOS.Reseau.Cookies

/-!
# Which hosts a cookie is sent to

The jar keeps one entry for each name and domain. A `Set-Cookie` header for an entry that
exists replaces its value and leaves its scope as the first header fixed it. The entries are
followed along any sequence of headers, each with the last header about it.
-/

namespace BouchaudOS.Reseau.Pot

open List

/-- What `store_one` reads in a header: attributes, name and value. -/
def lecture (r : Texte × Texte) : Option (Attributs × Texte × Texte) :=
  match r.2.splitOn ';' with
  | [] => none
  | nv :: parts =>
    match coupeA '=' (trim nv) with
    | none => none
    | some (n, v) =>
      if (trim n).isEmpty ∨ 4096 < (octets (trim n)).length + (octets (trim v)).length then none
      else some (parts.foldl (Attributs.lit (minuscules r.1)) { domain := minuscules r.1 }, trim n, trim v)

theorem storeOne_eq (pot : Pot) (r : Texte × Texte) : pot.storeOne r.1 r.2 =
    (lecture r).elim pot fun l => pot.range l.1 l.2.1 l.2.2 := by
  unfold storeOne lecture
  cases r.2.splitOn ';' with
  | nil => rfl
  | cons nv parts =>
    dsimp only
    cases coupeA '=' (trim nv) with
    | none => rfl
    | some p =>
      dsimp only
      split_ifs <;> rfl

/-- The entry a header is about. -/
def concerne (name domain : Texte) (r : Texte × Texte) : Bool :=
  (lecture r).any fun l => l.2.1 = name && l.1.domain = domain

/-- The last header about an entry. -/
def dernier (recus : List (Texte × Texte)) (name domain : Texte) : Option (Texte × Texte) :=
  lastMatch (concerne name domain) recus

/-- The cookies of `header_for`. -/
def envoyes (pot : Pot) (host : Texte) : Pot :=
  pot.filter fun c => if c.hostOnly then minuscules host = c.domain else couvre c.domain (minuscules host)

/-- `header_for` once it holds a pair. -/
theorem foldl_paires {out : Texte} (l : Pot) (h : out ≠ []) :
    l.foldl (fun (out : Texte) c =>
      (if out.isEmpty then out else out ++ "; ".toList) ++ c.name ++ '=' :: c.value) out =
      out ++ l.flatMap fun c => "; ".toList ++ (c.name ++ '=' :: c.value) := by
  induction l generalizing out with
  | nil => simp
  | cons c l ih =>
    rw [foldl_cons, ih (by simp)]
    simp [h]

/-- The header holds the pairs of the cookies sent, in their order. -/
theorem headerFor_eq (pot : Pot) (host : Texte) : pot.headerFor host =
    match pot.envoyes host with
    | [] => none
    | c :: cs => some (c.name ++ '=' :: c.value ++
        cs.flatMap fun c => "; ".toList ++ (c.name ++ '=' :: c.value)) := by
  have hfold : ∀ (l : Pot) (out : Texte), l.foldl (fun (out : Texte) c =>
      if (if c.hostOnly then minuscules host = c.domain else couvre c.domain (minuscules host)) then
        (if out.isEmpty then out else out ++ "; ".toList) ++ c.name ++ '=' :: c.value
      else out) out = (l.envoyes host).foldl (fun (out : Texte) c =>
        (if out.isEmpty then out else out ++ "; ".toList) ++ c.name ++ '=' :: c.value) out := by
    intro l out
    rw [envoyes, foldl_filter]
    congr 1
    funext out c
    cases c.hostOnly <;> simp
  unfold headerFor
  dsimp only
  rw [hfold]
  cases pot.envoyes host with
  | nil => rfl
  | cons c cs =>
    rw [foldl_cons, foldl_paires cs (by simp)]
    simp

/-- Without an accepted `Domain` the domain is the host, with one it covers the host. -/
def Portee (host : Texte) (a : Attributs) : Prop :=
  if a.hostOnly then a.domain = host else couvre a.domain host = true

variable {a : Attributs} {recus : List (Texte × Texte)} {r : Texte × Texte} {name val : Texte}

theorem portee_lit {host : Texte} (attr : Texte) (h : Portee host a) : Portee host (a.lit host attr) := by
  simp only [Attributs.lit]
  cases coupeA '=' (trim attr) <;> dsimp only <;> split_ifs <;> simp_all [Portee]

theorem attributs_lecture (h : lecture r = some (a, name, val)) : a =
    (r.2.splitOn ';').tail.foldl (Attributs.lit (minuscules r.1)) { domain := minuscules r.1 } := by
  unfold lecture at h
  split at h
  · cases h
  · rename_i nv parts hs
    split at h
    · cases h
    · split_ifs at h
      cases h
      rw [hs, tail_cons]

theorem portee_lecture (h : lecture r = some (a, name, val)) : Portee (minuscules r.1) a := by
  rw [attributs_lecture h]
  exact List.foldlRecOn (motive := Portee (minuscules r.1)) _ _ (by simp [Portee])
    fun a ha attr _ => portee_lit attr ha

theorem evince_sublist (pot : Pot) :
    (if MAX_COOKIES ≤ pot.length then pot.eraseIdx 0 else pot).Sublist pot := by
  split_ifs
  · exact eraseIdx_sublist _ _
  · exact .refl _

/-- What one header leaves: the other entries, and its own entry where it does not delete. -/
theorem mem_range {pot : Pot} {c : Cookie}
    (hn : (pot.map fun c => (c.name, c.domain)).Nodup) (hc : c ∈ pot.range a name val) :
    (c ∈ pot ∧ ¬(c.name = name ∧ c.domain = a.domain)) ∨
      (a.delete = false ∧ c.name = name ∧ c.domain = a.domain ∧ c.value = val ∧
        (c.hostOnly = a.hostOnly ∨ ∃ c0 ∈ pot, c0.name = name ∧ c0.domain = a.domain ∧
          c.hostOnly = c0.hostOnly)) := by
  unfold Pot.range at hc
  split at hc
  · rename_i i hi
    obtain ⟨hi, hcle, -⟩ := findIdx?_eq_some_iff_getElem.mp hi
    simp only [Bool.and_eq_true, decide_eq_true_eq] at hcle
    have hautre : ∀ j (hj : j < pot.length), j ≠ i → ¬(pot[j].name = name ∧ pot[j].domain = a.domain) := by
      rintro j hj hji ⟨h1, h2⟩
      refine hji ((@List.Nodup.getElem_inj_iff _ _ hn j (by simpa) i (by simpa)).mp ?_)
      simp [h1, h2, hcle]
    split_ifs at hc with hd
    · obtain ⟨j, hj, hji, rfl⟩ := mem_eraseIdx_iff_getElem.mp hc
      exact .inl ⟨getElem_mem _, hautre j _ hji⟩
    · obtain ⟨j, hj, rfl⟩ := mem_iff_getElem.mp hc
      rw [length_modify] at hj
      rw [getElem_modify]
      by_cases hij : i = j
      · subst hij
        rw [if_pos rfl]
        exact .inr ⟨by simpa using hd, hcle.1, hcle.2, rfl, .inr ⟨_, getElem_mem hi, hcle.1, hcle.2, rfl⟩⟩
      · rw [if_neg hij]
        exact .inl ⟨getElem_mem _, hautre j hj (Ne.symm hij)⟩
  · rename_i hi
    have hautre : ∀ c ∈ pot, ¬(c.name = name ∧ c.domain = a.domain) := by
      intro c hc
      simpa using findIdx?_eq_none_iff.mp hi c hc
    split at hc
    · exact .inl ⟨hc, hautre c hc⟩
    · rename_i hd
      rcases mem_append.mp hc with hc | hc
      · have hc := (evince_sublist pot).mem hc
        exact .inl ⟨hc, hautre c hc⟩
      · obtain rfl := mem_singleton.mp hc
        exact .inr ⟨by simpa using hd, rfl, rfl, rfl, .inl rfl⟩

theorem nodup_range {pot : Pot} (a : Attributs) (name val : Texte)
    (hn : (pot.map fun c => (c.name, c.domain)).Nodup) :
    ((pot.range a name val).map fun c => (c.name, c.domain)).Nodup := by
  unfold Pot.range
  split
  · rename_i i hi
    split_ifs
    · exact hn.sublist ((eraseIdx_sublist _ _).map _)
    · refine Eq.mpr (congrArg List.Nodup ?_) hn
      apply ext_getElem (by simp)
      intro j hj hj'
      simp only [getElem_map, getElem_modify]
      split <;> rfl
  · rename_i hi
    split
    · exact hn
    · rw [map_append, map_singleton, nodup_append]
      refine ⟨hn.sublist ((evince_sublist pot).map _), nodup_singleton _, ?_⟩
      rintro k hk _ hk' rfl
      obtain ⟨c, hc, rfl⟩ := mem_map.mp ((evince_sublist pot).map _ |>.mem hk)
      have := findIdx?_eq_none_iff.mp hi c hc
      simp_all

/-- A header without accepted `Domain` does not meet an entry that is sent to subdomains. -/
def Admet (pot : Pot) (r : Texte × Texte) : Prop :=
  ∀ a name val, lecture r = some (a, name, val) → a.hostOnly = true → a.delete = false →
    ∀ c ∈ pot, c.name = name → c.domain = a.domain → c.hostOnly = true

/-- Every entry comes from the last header about it; under `strict` its scope does, too. -/
structure Suivi (strict : Prop) (recus : List (Texte × Texte)) (pot : Pot) : Prop where
  cles : (pot.map fun c => (c.name, c.domain)).Nodup
  origine : ∀ c ∈ pot, ∃ r a, dernier recus c.name c.domain = some r ∧
    lecture r = some (a, c.name, c.value) ∧ a.delete = false ∧ a.domain = c.domain ∧
    (strict → a.hostOnly = true → c.hostOnly = true)

theorem Suivi.storeOne {strict : Prop} {pot : Pot} (h : Suivi strict recus pot) (hr : strict → pot.Admet r) :
    Suivi strict (recus ++ [r]) (pot.storeOne r.1 r.2) := by
  rw [storeOne_eq]
  cases hl : lecture r with
  | none =>
    refine ⟨h.cles, fun c hc => ?_⟩
    have hne : concerne c.name c.domain r = false := by simp [concerne, hl]
    rw [dernier, lastMatch_concat, hne]
    exact h.origine c hc
  | some l =>
    obtain ⟨a, name, val⟩ := l
    refine ⟨nodup_range a name val h.cles, fun c hc => ?_⟩
    rw [dernier, lastMatch_concat]
    rcases mem_range h.cles hc with ⟨hc, hne⟩ | ⟨hd, rfl, hdom, rfl, hportee⟩
    · have hne : concerne c.name c.domain r = false := by
        simp only [concerne, hl, Option.any_some, Bool.and_eq_false_iff, decide_eq_false_iff_not]
        tauto
      rw [hne]
      exact h.origine c hc
    · rw [if_pos (by simp [concerne, hl, hdom])]
      refine ⟨r, a, rfl, hl, hd, hdom.symm, fun hs ha => ?_⟩
      rcases hportee with hp | ⟨c0, hc0, hn0, hd0, hp⟩
      · rw [hp, ha]
      · rw [hp]
        exact hr hs a _ _ hl ha hd c0 hc0 hn0 hd0

theorem suivi_apres {strict : Prop}
    (h : strict → ∀ pre r post, recus = pre ++ r :: post → (apres pre).Admet r) :
    Suivi strict recus (apres recus) := by
  induction recus using List.reverseRecOn with
  | nil => exact ⟨nodup_nil, nofun⟩
  | append_singleton recus r ih =>
    have hpas : apres (recus ++ [r]) = (apres recus).storeOne r.1 r.2 := by
      simp [apres, foldl_append]
    rw [hpas]
    refine Suivi.storeOne (ih fun hs pre r' post he => ?_) fun hs => h hs recus r [] rfl
    exact h hs pre r' (post ++ [r]) (by simp [he])

/-- The pairs sent to `g` were last stored by a host that may reach it. -/
def Isole (recus : List (Texte × Texte)) (g : Texte) : Prop :=
  ∀ c ∈ (apres recus).envoyes g, ∃ r a, dernier recus c.name c.domain = some r ∧
    lecture r = some (a, c.name, c.value) ∧ a.delete = false ∧ a.domain = c.domain ∧
    if a.hostOnly then minuscules g = minuscules r.1
    else couvre a.domain (minuscules r.1) = true ∧ couvre a.domain (minuscules g) = true

/-- The header has a `Max-Age` that is accepted and not positive. -/
def maxAgePasse (r : Texte × Texte) : Prop :=
  ∃ attr ∈ (r.2.splitOn ';').tail, ∃ k v, coupeA '=' (trim attr) = some (k, v) ∧
    minuscules (trim k) = "max-age".toList ∧ ∃ n ∈ parseI64 (trim (trim v)), n ≤ 0

theorem delete_lit {host : Texte} {attr : Texte} (h : a.delete = true) : (a.lit host attr).delete = true := by
  unfold Attributs.lit
  dsimp only
  split_ifs <;> simp [h]

theorem delete_of_maxAgePasse
    (h : lecture r = some (a, name, val)) (hm : maxAgePasse r) : a.delete = true := by
  obtain ⟨attr, hattr, k, v, hcoupe, hk, n, hn, hle⟩ := hm
  have hlit : ∀ a : Attributs, (a.lit (minuscules r.1) attr).delete = true := by
    intro a
    have hne : "max-age".toList ≠ "domain".toList := by decide
    unfold Attributs.lit
    simp only [hcoupe, hk, hne, if_false, if_true]
    rw [if_pos (by simp [Option.mem_def.mp hn, hle])]
  -- the attribute sets the mark, which the ones after it keep
  obtain ⟨avant, apres, he⟩ := append_of_mem hattr
  rw [attributs_lecture h, he, foldl_append, foldl_cons]
  exact List.foldlRecOn (motive := fun a : Attributs => a.delete = true) apres _ (hlit _)
    fun a ha attr _ => delete_lit ha

theorem isole_of_suivi (h : Suivi True recus (apres recus)) (g : Texte) : Isole recus g := by
  intro c hc
  obtain ⟨hc, hg⟩ := mem_filter.mp hc
  obtain ⟨r, a, hr, hl, hd, hdom, hp⟩ := h.origine c hc
  refine ⟨r, a, hr, hl, hd, hdom, ?_⟩
  have hportee := portee_lecture hl
  unfold Portee at hportee
  split_ifs with ha
  · rw [if_pos (hp trivial ha), decide_eq_true_eq] at hg
    rw [if_pos ha] at hportee
    rw [hg, ← hdom, hportee]
  · rw [if_neg ha] at hportee
    refine ⟨hportee, ?_⟩
    rw [hdom]
    split_ifs at hg
    · simp [couvre, of_decide_eq_true hg]
    · exact hg

/-- In every run whose headers all meet the condition, cookies are isolated; and in every
run a past `Max-Age` removes its entry until it is stored again. -/
theorem cookies_isoles (recus : List (Texte × Texte)) :
    ((∀ pre r post, recus = pre ++ r :: post → (apres pre).Admet r) →
      ∀ pre post g, recus = pre ++ post → Isole pre g) ∧
    ∀ pre r post a name val, recus = pre ++ r :: post → lecture r = some (a, name, val) →
      maxAgePasse r → (∀ r' ∈ post, ∀ a' val', lecture r' = some (a', name, val') →
        a'.domain = a.domain → a'.delete = true) →
      ∀ c ∈ apres recus, ¬(c.name = name ∧ c.domain = a.domain) := by
  refine ⟨?_, ?_⟩
  · rintro h pre post g rfl
    refine isole_of_suivi (suivi_apres fun _ p r q hp => ?_) g
    exact h p r (q ++ post) (by simp [hp])
  · rintro pre r post a name val rfl hl hm hpost c hc ⟨rfl, hdom⟩
    have hsuivi : Suivi False (pre ++ r :: post) (apres (pre ++ r :: post)) := suivi_apres nofun
    obtain ⟨r', a', hr', hl', hd', hdom', -⟩ := hsuivi.origine c hc
    have hconcerne : concerne c.name c.domain r = true := by simp [concerne, hl, hdom]
    rw [dernier, lastMatch_append, ← singleton_append, lastMatch_append,
      lastMatch_singleton, if_pos hconcerne] at hr'
    have hsupprime : a'.delete = true := by
      cases hp : lastMatch (concerne c.name c.domain) post with
      | none =>
        rw [hp] at hr'
        cases hr'
        rw [hl] at hl'
        cases hl'
        exact delete_of_maxAgePasse hl hm
      | some r'' =>
        rw [hp] at hr'
        cases hr'
        exact hpost r' (mem_of_lastMatch hp).1 a' c.value hl' (hdom'.trans hdom)
    rw [hd'] at hsupprime
    cases hsupprime

/-- A host stores a cookie for its whole domain, then the same cookie for itself alone. -/
def recusExemple : List (Texte × Texte) :=
  [("a.com".toList, "s=1; Domain=a.com".toList), ("a.com".toList, "s=2".toList)]

/-- The second value goes to a subdomain, which did not get it from its own host. -/
theorem valeur_privee_envoyee : ¬Isole recusExemple "b.a.com".toList := by
  have hdernier : dernier recusExemple "s".toList "a.com".toList =
      some ("a.com".toList, "s=2".toList) := by
    decide
  intro h
  obtain ⟨r, a, hr, hl, -, -, hg⟩ := h ⟨"a.com".toList, false, "s".toList, "2".toList⟩ (by
    decide)
  cases hdernier.symm.trans hr
  cases hl
  revert hg
  decide

end BouchaudOS.Reseau.Pot
