import BouchaudOS.Processus.Elf

/-!
# Reading headers and walking over them

When reading the headers goes wrong, and when the two walks do: a loader is described
by what it needs of a header so as not to go wrong and by what it accepts, and a file
is sober if every header that the walks reach meets the needs. The loader does not go
wrong on a sober file, and where nothing but the file can stop it, only on one.
-/

namespace BouchaudOS.Elf

open Bytes Espace Outcome

variable {data : List UInt8} {n offset phoff phentsize phnum index kind : ℕ}

def champ (data : List UInt8) (offset n : ℕ) : ℕ := ofLeBytes (slice data offset n)

@[simp] theorem safe_readLe : (readLe n data offset).Safe ↔ offset + n ≤ data.length := by
  unfold readLe
  split <;> simp_all

@[simp] theorem readLe_eq_ok {v : ℕ} :
    readLe n data offset = .ok v ↔ v = champ data offset n ∧ offset + n ≤ data.length := by
  unfold readLe
  split <;> simp_all [champ, eq_comm]

theorem champ_lt (data : List UInt8) (offset n : ℕ) : champ data offset n < 256 ^ n := by
  refine (ofLeBytes_lt _).trans_le (Nat.pow_le_pow_right (by decide) ?_)
  simp [slice]

theorem exists_lisProgramHeader : (∃ ph, lisProgramHeader data phoff phentsize index = .ok ph) ↔
    phoff + index * phentsize + 56 ≤ data.length ∧ phoff + index * phentsize + 56 < 2 ^ 64 := by
  simp [lisProgramHeader, bind_eq_ok]
  omega

theorem safe_lisProgramHeader :
    (lisProgramHeader data phoff phentsize index).Safe ↔ phoff + index * phentsize + 56 < 2 ^ 64 := by
  simp [lisProgramHeader, safe_bind]
  omega

theorem safe_lisProgramHeaders (hlen : data.length < 2 ^ 63) (hsize : phentsize < 2 ^ 16) :
    (lisProgramHeaders data phoff phentsize phnum).Safe ↔ (phnum ≠ 0 → phoff + 56 < 2 ^ 64) := by
  let A : ℕ → Prop := fun i => phoff + i * phentsize + 56 ≤ data.length
  let C : ℕ → Prop := fun i => phoff + i * phentsize + 56 < 2 ^ 64
  constructor
  · intro h hne
    have hreached : Reached A (List.range phnum) 0 := by
      obtain ⟨m, rfl⟩ := Nat.exists_eq_succ_of_ne_zero hne
      rw [List.range_succ_eq_map]
      exact reached_cons.mpr (.inl rfl)
    have hC := of_safe_foldlM (I := fun _ => True) (C := C) (fun s i _ _ hs => ?_) (fun s i _ _ hC hA => ?_)
      trivial h 0 hreached
    · simpa [C] using hC
    · exact safe_lisProgramHeader.mp (safe_bind.mp hs).1
    · obtain ⟨ph, hph⟩ := exists_lisProgramHeader.mpr ⟨hA, hC⟩
      exact ⟨s ++ [ph], by rw [hph]; rfl, trivial⟩
  · intro h
    refine safe_foldlM (A := A) (C := C) (fun s i _ hC => ?_) (fun s i s' _ hs => ?_) fun i hi => ?_
    · exact safe_bind.mpr ⟨safe_lisProgramHeader.mpr hC, fun _ _ => safe_ok⟩
    · obtain ⟨ph, hph, -⟩ := bind_eq_ok.mp hs
      exact (exists_lisProgramHeader.mp ⟨ph, hph⟩).1
    · cases i with
      | zero =>
        have hlt := List.mem_range.mp hi.mem
        omega
      | succ j =>
        have hj : A j := hi.of_range (Nat.lt_succ_self j)
        have hmul : (j + 1) * phentsize = j * phentsize + phentsize := Nat.succ_mul j phentsize
        omega

theorem le_of_verifieEntete (h : verifieEntete data = .ok kind) : 64 ≤ data.length := by
  obtain ⟨_, hlen, -⟩ := bind_eq_ok.mp h
  exact not_lt.mp (refuse_eq_ok.mp hlen)

theorem safe_verifieEntete : (verifieEntete data).Safe := by
  simp [verifieEntete, safe_bind]
  omega

/-- A file that passes the first tests and has program headers of a valid size says
where the first one is, without overflow. -/
def TableSaine (data : List UInt8) : Prop :=
  (∃ kind, verifieEntete data = .ok kind) → 56 ≤ champ data 54 2 → champ data 56 2 ≠ 0 →
    champ data 32 8 + 56 < 2 ^ 64

theorem safe_parse (hlen : data.length < 2 ^ 63) : (parse data).Safe ↔ TableSaine data := by
  have hsize : champ data 54 2 < 2 ^ 16 := champ_lt data 54 2
  simp [parse, safe_bind, safe_verifieEntete, safe_lisProgramHeaders hlen hsize, TableSaine]
  refine forall_congr' fun kind => imp_congr_right fun hkind => ?_
  have h64 := le_of_verifieEntete hkind
  omega

theorem readAt_eq_some {f : Fichier} {panne : ℕ → ℕ → Bool} {offset n : ℕ} {raw : List UInt8}
    (h : f.readAt panne offset n = some raw) :
    raw = slice f.octets offset n ∧ (n = 0 ∨ offset + n ≤ f.taille) := by
  unfold Fichier.readAt at h
  split_ifs at h with hn hle
  · cases h
    exact ⟨by simp [hn, slice], .inl hn⟩
  · cases h
    exact ⟨rfl, .inr hle.1⟩

theorem readAt_of_le {f : Fichier} {offset n : ℕ} (h : n = 0 ∨ offset + n ≤ f.taille) :
    f.readAt (fun _ _ => false) offset n = some (slice f.octets offset n) := by
  unfold Fichier.readAt
  split
  · rename_i h0
    simp [h0, slice]
  · rename_i h0
    rw [if_pos ⟨h.resolve_left h0, rfl⟩]

theorem champ_slice {data : List UInt8} {offset n m : ℕ} (h : offset + n ≤ m) :
    champ (slice data 0 m) offset n = champ data offset n := by
  rw [champ, slice_slice h, Nat.zero_add]
  rfl

theorem safe_parseNode (panne : ℕ → ℕ → Bool) (f : Fichier) : (parseNode panne f).Safe := by
  have hborne : f.taille < 2 ^ 63 := f.borne
  simp only [parseNode, safe_bind, safe_ofOption, ofOption_eq_ok, safe_refuse, refuse_eq_ok, safe_readLe, readLe_eq_ok,
    tampon, safe_require, and_imp, forall_eq, true_and, forall_const]
  intro ehdr hehdr _
  obtain ⟨rfl, hle⟩ := readAt_eq_some hehdr
  have h64 : (slice f.octets 0 64).length = 64 := by
    simp only [slice, List.length_take, List.drop_zero]
    unfold Fichier.taille at hle
    omega
  rw [champ_slice (by omega), champ_slice (by omega), champ_slice (by omega), h64]
  refine ⟨by omega, fun _ => ⟨by omega, fun _ => ⟨by omega, fun _ hsize _ hneed => ⟨by omega, ?_⟩⟩⟩⟩
  intro _ _ metadata hmeta
  obtain ⟨rfl, -⟩ := readAt_eq_some hmeta
  rw [safe_parse]
  · rintro - - hnum
    rw [champ_slice (by omega)] at hnum ⊢
    omega
  · have hlen : ∀ n, (slice f.octets 0 n).length ≤ f.octets.length := by simp [slice]
    exact (hlen _).trans_lt f.borne

/-- What a loader needs of a header so as not to go wrong, and what it accepts, when it
checks a segment, reads the interpreter's name and installs a segment. -/
structure Regles where
  sain : ProgramHeader → Prop
  admis : ProgramHeader → Prop
  sainInterp : ProgramHeader → Prop
  admisInterp : ProgramHeader → Prop
  sainSegment : ProgramHeader → Prop
  admisSegment : ProgramHeader → Prop

def EstCharge (ph : ProgramHeader) : Prop := ph.kind = PT_LOAD ∧ ph.memsz ≠ 0

instance : DecidablePred EstCharge := fun _ => inferInstanceAs (Decidable (_ ∧ _))

namespace Regles

variable (r : Regles) (base : ℕ) (ph : ProgramHeader)

def SainInstalle : Prop :=
  (ph.kind = PT_INTERP → r.sainInterp ph) ∧
    (ph.kind = PT_TLS ∨ ph.kind = PT_PHDR → base + ph.vaddr < 2 ^ 64) ∧
    (EstCharge ph → r.sainSegment ph)

def AdmisInstalle : Prop :=
  (ph.kind = PT_INTERP → r.admisInterp ph) ∧ (EstCharge ph → r.admisSegment ph)

end Regles

/-- The address of the headers that the file gives itself, zero without one. -/
def phdrDe (base a : ℕ) (ph : ProgramHeader) : ℕ := if ph.kind = PT_PHDR then base + ph.vaddr else a

/-- The fields of every header that the walks reach are harmless, and so are the last
sums once every header was accepted. -/
structure Sobre (r : Regles) (base : ℕ) (h : ElfHeader) : Prop where
  verifie : ∀ ph, Reached r.admis (charges h) ph → r.sain ph
  installe : (∀ ph ∈ charges h, r.admis ph) →
    ∀ ph, Reached r.AdmisInstalle h.headers ph → r.SainInstalle base ph
  conclut : (∀ ph ∈ charges h, r.admis ph) → (∀ ph ∈ h.headers, r.AdmisInstalle ph) →
    (∃ ph ∈ h.headers, EstCharge ph) →
      (h.headers.foldl (phdrDe base) 0 = 0 → base + h.phoff < 2 ^ 64) ∧ base + h.entry < 2 ^ 64

variable {σ : Type} {ch : Chargeur σ} {r : Regles} {base : ℕ} {h : ElfHeader} {ph : ProgramHeader}
  {e e' : Avancee σ} {s s' : σ} {I : σ → Prop}

/-- The loader does not go wrong on headers that meet the rules. -/
structure Surete (ch : Chargeur σ) (r : Regles) : Prop where
  verifie : ∀ ph, r.sain ph → (ch.verifie ph).Safe
  admis : ∀ ph, ch.verifie ph = .ok () → r.sain ph ∧ r.admis ph
  interp : ∀ ph, r.sainInterp ph → (ch.interp ph).Safe
  admisInterp : ∀ ph nom, ch.interp ph = .ok nom → r.admisInterp ph
  segment : ∀ ph s, r.sain ph → r.admis ph → r.sainSegment ph → (ch.segment s ph).Safe
  admisSegment : ∀ ph s s' fin, r.sain ph → r.admis ph → ph.memsz ≠ 0 → ch.segment s ph = .ok (s', fin) →
    r.admisSegment ph ∧ 0 < fin

/-- From the states of `I` on, the rules are exact. -/
structure Exact (ch : Chargeur σ) (r : Regles) (I : σ → Prop) : Prop where
  sain : ∀ ph, (ch.verifie ph).Safe → r.sain ph
  verifie : ∀ ph, r.sain ph → r.admis ph → ch.verifie ph = .ok ()
  sainInterp : ∀ ph, (ch.interp ph).Safe → r.sainInterp ph
  interp : ∀ ph, r.sainInterp ph → r.admisInterp ph → ∃ nom, ch.interp ph = .ok nom
  sainSegment : ∀ ph s, I s → r.sain ph → r.admis ph → (ch.segment s ph).Safe → r.sainSegment ph
  segment : ∀ ph s, I s → r.sain ph → r.admis ph → r.sainSegment ph → r.admisSegment ph →
    ∃ s' fin, ch.segment s ph = .ok (s', fin) ∧ I s'

/-- When one step of the second walk goes wrong. -/
theorem safe_installe_iff : (installe ch base e ph).Safe ↔ (ph.kind = PT_INTERP → (ch.interp ph).Safe) ∧
    (ph.kind = PT_TLS ∨ ph.kind = PT_PHDR → base + ph.vaddr < 2 ^ 64) ∧
    (EstCharge ph → (ch.segment e.cible ph).Safe) := by
  unfold installe
  split_ifs with h1 h2 h3 h4
  · simp +decide [safe_bind, EstCharge, h1]
  · simp +decide [safe_bind, EstCharge, h2]
  · simp +decide [safe_bind, EstCharge, h3]
  · simp +decide [safe_bind, EstCharge, h4]
  · simp [h1, h2, h3, EstCharge, h4]

theorem safe_installe (S : Surete ch r) (hv : ph.kind = PT_LOAD → r.sain ph ∧ r.admis ph)
    (hs : r.SainInstalle base ph) : (installe ch base e ph).Safe := by
  obtain ⟨hinterp, hsum, hsegment⟩ := hs
  refine safe_installe_iff.mpr ⟨fun hk => S.interp ph (hinterp hk), hsum, fun hk => ?_⟩
  obtain ⟨hsain, hadmis⟩ := hv hk.1
  exact S.segment ph _ hsain hadmis (hsegment hk)

/-- What a step that succeeds has accepted and has noted. -/
theorem installe_ok (S : Surete ch r) (hv : ph.kind = PT_LOAD → r.sain ph ∧ r.admis ph)
    (h : installe ch base e ph = .ok e') :
    r.AdmisInstalle ph ∧ e'.phdrAddr = phdrDe base e.phdrAddr ph ∧
      ((e'.imageEnd != 0) = (e.imageEnd != 0 || decide (EstCharge ph))) ∧
      (e'.cible = e.cible ∨ EstCharge ph ∧ ∃ fin, ch.segment e.cible ph = .ok (e'.cible, fin)) := by
  unfold installe at h
  split_ifs at h with h1 h2 h3 h4
  · obtain ⟨nom, hnom, h⟩ := bind_eq_ok.mp h
    cases h
    simp +decide [Regles.AdmisInstalle, EstCharge, phdrDe, h1, S.admisInterp ph nom hnom]
  · obtain ⟨a, -, h⟩ := bind_eq_ok.mp h
    cases h
    simp +decide [Regles.AdmisInstalle, EstCharge, phdrDe, h2]
  · obtain ⟨a, ha, h⟩ := bind_eq_ok.mp h
    cases h
    simp +decide [Regles.AdmisInstalle, EstCharge, phdrDe, h3, (ajoute_eq_ok.mp ha).1]
  · obtain ⟨⟨s', fin⟩, hseg, h⟩ := bind_eq_ok.mp h
    cases h
    obtain ⟨hsain, hadmis⟩ := hv h4.1
    obtain ⟨hacc, hfin⟩ := S.admisSegment ph _ _ _ hsain hadmis h4.2 hseg
    have hmax : max e.imageEnd fin ≠ 0 := by omega
    simp +decide [Regles.AdmisInstalle, EstCharge, phdrDe, h4, hacc, hmax, hseg]
  · cases h
    simp [Regles.AdmisInstalle, EstCharge, phdrDe, h1, h3, h4]

theorem sain_of_charges (hall : ∀ ph ∈ charges h, r.sain ph ∧ r.admis ph) (hmem : ph ∈ h.headers) :
    ph.kind = PT_LOAD → r.sain ph ∧ r.admis ph :=
  fun hk => hall ph (List.mem_filter.mpr ⟨hmem, by simpa using hk⟩)

theorem charges_of_ok (S : Surete ch r) {u : Unit}
    (hok : (charges h).foldlM (fun _ ph => ch.verifie ph) () = .ok u) :
    ∀ ph ∈ charges h, r.sain ph ∧ r.admis ph :=
  forall_of_foldlM (fun _ ph _ _ hph => S.admis ph hph) hok

theorem foldl_or_any (b : Bool) (l : List ProgramHeader) :
    l.foldl (fun b ph => b || decide (EstCharge ph)) b = (b || l.any fun ph => decide (EstCharge ph)) := by
  induction l generalizing b with
  | nil => simp
  | cons ph l ih => rw [List.foldl_cons, ih, List.any_cons, Bool.or_assoc]

theorem parcours_ok (S : Surete ch r) (hall : ∀ ph ∈ charges h, r.sain ph ∧ r.admis ph)
    (hok : h.headers.foldlM (installe ch base) ⟨s, none, none, 0, 0⟩ = .ok e) :
    (∀ ph ∈ h.headers, r.AdmisInstalle ph) ∧ e.phdrAddr = h.headers.foldl (phdrDe base) 0 ∧
      (e.imageEnd ≠ 0 ↔ ∃ ph ∈ h.headers, EstCharge ph) := by
  refine ⟨forall_of_foldlM (fun e ph e' hmem hph => ?_) hok, ?_, ?_⟩
  · exact (installe_ok S (sain_of_charges hall hmem) hph).1
  · exact foldl_of_foldlM Avancee.phdrAddr (phdrDe base)
      (fun e ph e' hmem hph => (installe_ok S (sain_of_charges hall hmem) hph).2.1) hok
  · have hend := foldl_of_foldlM (fun e : Avancee σ => e.imageEnd != 0)
      (fun b ph => b || decide (EstCharge ph)) (fun e ph e' hmem hph => (installe_ok S (sain_of_charges hall hmem) hph).2.2.1) hok
    rw [foldl_or_any] at hend
    rw [← bne_iff_ne, hend]
    simp

theorem safe_conclut : (conclut base h e).Safe ↔
    (e.imageEnd ≠ 0 → (e.phdrAddr = 0 → base + h.phoff < 2 ^ 64) ∧ base + h.entry < 2 ^ 64) := by
  by_cases h0 : e.phdrAddr = 0
  · simp [conclut, adressePhdr, safe_bind, h0]
    tauto
  · simp [conclut, adressePhdr, safe_bind, h0]

theorem safe_charge (S : Surete ch r) (hs : Sobre r base h) : (charge ch base h s).Safe := by
  rw [charge, safe_bind]
  refine ⟨safe_foldlM (fun _ ph _ => S.verifie ph) (fun _ ph _ _ hph => (S.admis ph hph).2) hs.verifie,
    fun u hok => ?_⟩
  have hall := charges_of_ok S hok
  have hadmis : ∀ ph ∈ charges h, r.admis ph := fun ph hph => (hall ph hph).2
  rw [safe_bind]
  refine ⟨safe_foldlM (fun e ph hmem => safe_installe S (sain_of_charges hall hmem))
    (fun e ph e' hmem hph => (installe_ok S (sain_of_charges hall hmem) hph).1) (hs.installe hadmis),
    fun e hok => ?_⟩
  obtain ⟨hacc, hphdr, hend⟩ := parcours_ok S hall hok
  rw [safe_conclut, hphdr, hend]
  exact hs.conclut hadmis hacc

theorem exists_installe (E : Exact ch r I) (hv : ph.kind = PT_LOAD → r.sain ph ∧ r.admis ph)
    (hI : I e.cible) (hs : r.SainInstalle base ph) (ha : r.AdmisInstalle ph) :
    ∃ e', installe ch base e ph = .ok e' ∧ I e'.cible := by
  obtain ⟨hinterp, hsum, hsegment⟩ := hs
  unfold installe
  split_ifs with h1 h2 h3 h4
  · obtain ⟨nom, hnom⟩ := E.interp ph (hinterp h1) (ha.1 h1)
    rw [hnom]
    exact ⟨_, rfl, hI⟩
  · rw [ajoute_of_lt (hsum (.inl h2))]
    exact ⟨_, rfl, hI⟩
  · rw [ajoute_of_lt (hsum (.inr h3))]
    exact ⟨_, rfl, hI⟩
  · obtain ⟨hsain, hadmis⟩ := hv h4.1
    obtain ⟨s', fin, hseg, hI'⟩ := E.segment ph _ hI hsain hadmis (hsegment h4) (ha.2 h4)
    rw [hseg]
    exact ⟨_, rfl, hI'⟩
  · exact ⟨e, rfl, hI⟩

theorem sain_of_safe_installe (E : Exact ch r I) (hv : ph.kind = PT_LOAD → r.sain ph ∧ r.admis ph)
    (hI : I e.cible) (hs : (installe ch base e ph).Safe) : r.SainInstalle base ph := by
  obtain ⟨hinterp, hsum, hsegment⟩ := safe_installe_iff.mp hs
  refine ⟨fun hk => E.sainInterp ph (hinterp hk), hsum, fun hk => ?_⟩
  obtain ⟨hsain, hadmis⟩ := hv hk.1
  exact E.sainSegment ph _ hI hsain hadmis (hsegment hk)

theorem sobre_of_safe (S : Surete ch r) (E : Exact ch r I) (hI : I s) (hs : (charge ch base h s).Safe) :
    Sobre r base h := by
  rw [charge, safe_bind] at hs
  obtain ⟨hs1, hs⟩ := hs
  have hverifie : ∀ ph, Reached r.admis (charges h) ph → r.sain ph :=
    of_safe_foldlM (I := fun _ => True) (fun _ ph _ _ => E.sain ph)
      (fun _ ph _ _ hsain hadmis => ⟨(), E.verifie ph hsain hadmis, trivial⟩) trivial hs1
  have hsain : (∀ ph ∈ charges h, r.admis ph) → ∀ ph ∈ charges h, r.sain ph ∧ r.admis ph :=
    fun hadmis ph hph => ⟨hverifie ph (reached_of_forall hadmis hph), hadmis ph hph⟩
  have hpremier : (∀ ph ∈ charges h, r.admis ph) →
      (h.headers.foldlM (installe ch base) ⟨s, none, none, 0, 0⟩ >>= conclut base h).Safe := by
    intro hadmis
    obtain ⟨u, hu, -⟩ : ∃ u, (charges h).foldlM (fun _ ph => ch.verifie ph) () = .ok u ∧ True :=
      exists_foldlM_ok (I := fun _ => True) (fun _ ph hph _ =>
        ⟨(), E.verifie ph (hsain hadmis ph hph).1 (hadmis ph hph), trivial⟩) trivial
    exact hs u hu
  have hinstalle : (∀ ph ∈ charges h, r.admis ph) →
      ∀ ph, Reached r.AdmisInstalle h.headers ph → r.SainInstalle base ph := by
    intro hadmis
    have hv := hsain hadmis
    exact of_safe_foldlM (I := fun e : Avancee σ => I e.cible)
      (fun e ph hmem hI => sain_of_safe_installe E (sain_of_charges hv hmem) hI)
      (fun e ph hmem hI => exists_installe E (sain_of_charges hv hmem) hI) hI
      (safe_bind.mp (hpremier hadmis)).1
  refine ⟨hverifie, hinstalle, fun hadmis hacc hex => ?_⟩
  have hv := hsain hadmis
  obtain ⟨e, he, -⟩ : ∃ e, h.headers.foldlM (installe ch base) ⟨s, none, none, 0, 0⟩ = .ok e ∧ I e.cible :=
    exists_foldlM_ok (I := fun e : Avancee σ => I e.cible) (fun e ph hmem hI =>
      exists_installe E (sain_of_charges hv hmem) hI
        (hinstalle hadmis ph (reached_of_forall hacc hmem)) (hacc ph hmem)) hI
  have hconclut := (safe_bind.mp (hpremier hadmis)).2 e he
  obtain ⟨-, hphdr, hend⟩ := parcours_ok S hv he
  rw [safe_conclut, hphdr, hend] at hconclut
  exact hconclut hex

/-- What installing a segment keeps, the loader keeps. -/
theorem charge_invariant (S : Surete ch r) {image : LoadedImage}
    (hseg : ∀ ph s s' fin, r.admis ph → I s → ch.segment s ph = .ok (s', fin) → I s') (hI : I s)
    (hok : charge ch base h s = .ok (image, s')) : I s' := by
  obtain ⟨u, hu, hok⟩ := bind_eq_ok.mp hok
  obtain ⟨e, he, hok⟩ := bind_eq_ok.mp hok
  have hall := charges_of_ok S hu
  have hIe : I e.cible := by
    refine foldlM_invariant (I := fun e : Avancee σ => I e.cible) (fun e ph e' hmem hI hph => ?_) hI he
    have hv := sain_of_charges hall hmem
    rcases (installe_ok S hv hph).2.2.2 with heq | ⟨hk, fin, hfin⟩
    · rw [heq]
      exact hI
    · exact hseg ph _ _ fin (hv hk.1).2 hI hfin
  obtain ⟨_, -, hok⟩ := bind_eq_ok.mp hok
  obtain ⟨_, -, hok⟩ := bind_eq_ok.mp hok
  obtain ⟨_, -, hok⟩ := bind_eq_ok.mp hok
  cases hok
  exact hIe

end BouchaudOS.Elf
