import BouchaudOS.Processus.ElfSur

/-!
# When the loaders go wrong

The two loaders reject most malformed files, but some sums of header fields are not
checked and some buffers are asked for before they are. For every file this module
gives the exact condition under which neither loader overflows, reads past the end of
a slice or asks for an oversized buffer. Whatever the file, the pages of a segment
that is installed are in the user slot and never both writable and executable.
-/

namespace BouchaudOS.Elf

open Bytes Espace Memoire Outcome Creneau

theorem safe_tampon {total n : ℕ} : (tampon total n).Safe ↔ n ≤ total + 2 ^ 20 := safe_require

theorem pageFlags_wx {flags d : ℕ} (h : pageFlags flags = some d) : inscriptibleEtExecutable d = false := by
  unfold pageFlags at h
  split_ifs at h with hwx hw hx hx
  all_goals cases h
  · decide
  · exact absurd ⟨hw, hx⟩ hwx
  · decide
  · decide

variable {c : Creneau} {panne : ℕ → ℕ → Bool} {node : ℕ} {f : Fichier} {base : ℕ} {identite : ℕ → ℕ}
  {ph : ProgramHeader} {promesses promesses' : List Vma} {fin : ℕ}

def reglesPromesse (c : Creneau) (f : Fichier) (base : ℕ) : Regles where
  sain ph := base + ph.vaddr < 2 ^ 64
  admis ph := c.isUserAddr (base + ph.vaddr) ∧ c.isUserAddr (base + ph.vaddr + ph.memsz) ∧
    ph.filesz ≤ ph.memsz ∧ ph.offset + ph.filesz ≤ f.taille
  sainInterp ph := ph.filesz ≤ f.taille + 2 ^ 20 ∧ (ph.filesz = 0 ∨ ph.offset + ph.filesz ≤ f.taille →
    (nomInterp (slice f.octets ph.offset ph.filesz)).length ≤ f.taille + 2 ^ 20)
  admisInterp ph := ph.filesz = 0 ∨ ph.offset + ph.filesz ≤ f.taille
  sainSegment _ := True
  admisSegment ph := (pageFlags ph.flags).isSome

theorem verifiePromesse_eq_ok :
    verifiePromesse c f base ph = .ok () ↔ base + ph.vaddr < 2 ^ 64 ∧ (reglesPromesse c f base).admis ph := by
  have hborne : f.taille < 2 ^ 63 := f.borne
  simp [verifiePromesse, reglesPromesse, bind_eq_ok]
  intro _
  constructor
  · rintro ⟨-, ⟨h1, h2⟩, h3, h4⟩
    exact ⟨h1, h2, h3, by omega⟩
  · rintro ⟨h1, h2, h3, h4⟩
    have hfin := lt_of_isUserAddr h2
    exact ⟨by omega, ⟨h1, h2⟩, h3, by omega⟩

theorem safe_verifiePromesse : (verifiePromesse c f base ph).Safe ↔ base + ph.vaddr < 2 ^ 64 := by
  simp [verifiePromesse, safe_bind]

theorem promet_of_user (hf : c.isUserAddr (base + ph.vaddr + ph.memsz)) :
    promet node base identite promesses ph =
      (ofOption "segment inscriptible et executable refuse (W^X)" (pageFlags ph.flags) >>= fun d =>
        .ok (overlay promesses ⟨identite promesses.length, pageDe (base + ph.vaddr),
          pageDe (base + ph.vaddr + ph.memsz + 4095), d, .file node (base + ph.vaddr) ph.offset ph.filesz⟩,
          pageDe (base + ph.vaddr + ph.memsz + 4095))) := by
  have h2 := lt_of_isUserAddr hf
  rw [promet, ajoute_of_lt (by omega), ok_bind, ajoute_of_lt (by omega), ok_bind, arrondi_of_lt (by omega)]
  rfl

theorem safe_interpDuNoeud : (interpDuNoeud panne f ph).Safe ↔ ph.filesz ≤ f.taille + 2 ^ 20 ∧
    ∀ raw, f.readAt panne ph.offset ph.filesz = some raw → (nomInterp raw).length ≤ f.taille + 2 ^ 20 := by
  simp +contextual [interpDuNoeud, tampon, safe_bind]

theorem surete_paresseux : Surete (paresseux c panne node f base identite) (reglesPromesse c f base) where
  verifie ph h := safe_verifiePromesse.mpr h
  admis ph h := verifiePromesse_eq_ok.mp h
  interp ph h := by
    refine safe_interpDuNoeud.mpr ⟨h.1, fun raw hraw => ?_⟩
    obtain ⟨rfl, hle⟩ := readAt_eq_some hraw
    exact h.2 hle
  admisInterp ph nom h := by
    simp only [paresseux, interpDuNoeud, bind_eq_ok, ofOption_eq_ok] at h
    obtain ⟨_, -, raw, hraw, -⟩ := h
    exact (readAt_eq_some hraw).2
  segment ph s _ ha _ := by
    change (promet node base identite s ph).Safe
    rw [promet_of_user ha.2.1, safe_bind]
    exact ⟨safe_ofOption, fun _ _ => safe_ok⟩
  admisSegment ph s s' fin _ ha hne h := by
    change promet node base identite s ph = _ at h
    rw [promet_of_user ha.2.1] at h
    obtain ⟨d, hd, h⟩ := bind_eq_ok.mp h
    cases h
    refine ⟨Option.isSome_iff_exists.mpr ⟨d, ofOption_eq_ok.mp hd⟩, ?_⟩
    unfold pageDe
    omega

theorem exact_paresseux :
    Exact (paresseux c (fun _ _ => false) node f base identite) (reglesPromesse c f base) fun _ => True where
  sain ph h := safe_verifiePromesse.mp h
  verifie ph hs ha := verifiePromesse_eq_ok.mpr ⟨hs, ha⟩
  sainInterp ph h := by
    obtain ⟨h1, h2⟩ := safe_interpDuNoeud.mp h
    exact ⟨h1, fun hle => h2 _ (readAt_of_le hle)⟩
  interp ph hs ha := by
    simp [paresseux, interpDuNoeud, tampon, bind_eq_ok, readAt_of_le ha]
    exact ⟨hs.1, hs.2 ha⟩
  sainSegment _ _ _ _ _ _ := trivial
  segment ph s _ _ ha _ hacc := by
    obtain ⟨d, hd⟩ := Option.isSome_iff_exists.mp hacc
    have heq : promet node base identite s ph = _ := promet_of_user ha.2.1
    rw [hd, ofOption_some, ok_bind] at heq
    exact ⟨_, _, heq, trivial⟩

/-- A promise inside the user slot, never writable and executable. -/
def PromesseSure (c : Creneau) (v : Vma) : Prop :=
  (∀ a, v.contient a = true → c.isUserAddr a) ∧ inscriptibleEtExecutable v.drapeaux = false

theorem promet_sure (ha : (reglesPromesse c f base).admis ph)
    (h : promet node base identite promesses ph = .ok (promesses', fin)) :
    ∃ v, promesses' = promesses ++ [v] ∧ PromesseSure c v := by
  rw [promet_of_user ha.2.1] at h
  obtain ⟨d, hd, h⟩ := bind_eq_ok.mp h
  cases h
  refine ⟨_, rfl, fun a hc => ?_, pageFlags_wx (ofOption_eq_ok.mp hd)⟩
  obtain ⟨h1, h2⟩ := Vma.contient_iff.mp hc
  dsimp only [pageDe] at h1 h2
  exact isUserAddr_page ha.1 ha.2.1 (p := a / 4096) (by omega) (by omega) rfl

variable {c : Creneau} {memoire : Memoire} {f : Fichier} {base : ℕ} {ph : ProgramHeader} {e e' : Feuilles}
  {vaddr pageEnd fin debut taille : ℕ}

def reglesSegment (c : Creneau) (f : Fichier) (base : ℕ) : Regles where
  sain ph := base + ph.vaddr + ph.memsz < 2 ^ 64
  admis ph := c.isUserAddr (base + ph.vaddr) ∧ c.isUserAddr (base + ph.vaddr + ph.memsz)
  sainInterp ph := ph.offset + ph.filesz < 2 ^ 64 ∧ (ph.offset + ph.filesz ≤ f.taille →
    (nomInterp (slice f.octets ph.offset ph.filesz)).length ≤ f.taille + 2 ^ 20)
  admisInterp ph := ph.offset + ph.filesz ≤ f.taille
  sainSegment ph := ph.offset + ph.filesz < 2 ^ 64 ∧ (ph.offset + ph.filesz ≤ f.taille → ph.filesz ≤ ph.memsz)
  admisSegment ph := ph.offset + ph.filesz ≤ f.taille ∧ (pageFlags ph.flags).isSome

theorem verifieSegment_eq_ok : verifieSegment c base ph = .ok () ↔
    base + ph.vaddr + ph.memsz < 2 ^ 64 ∧ (reglesSegment c f base).admis ph := by
  simp [verifieSegment, reglesSegment, bind_eq_ok]
  omega

theorem safe_verifieSegment : (verifieSegment c base ph).Safe ↔ base + ph.vaddr + ph.memsz < 2 ^ 64 := by
  simp [verifieSegment, safe_bind]
  omega

@[simp] theorem tranche_eq_ok {data raw : List UInt8} :
    tranche data debut fin = .ok raw ↔ raw = slice data debut (fin - debut) ∧ debut ≤ fin ∧ fin ≤ data.length := by
  unfold tranche
  split <;> simp_all [eq_comm]

@[simp] theorem safe_tranche {data : List UInt8} :
    (tranche data debut fin).Safe ↔ debut ≤ fin ∧ fin ≤ data.length := by
  unfold tranche
  split <;> simp_all

theorem safe_interpEnMemoire : (interpEnMemoire f ph).Safe ↔ (reglesSegment c f base).sainInterp ph := by
  simp [interpEnMemoire, tampon, safe_bind, reglesSegment]
  unfold Fichier.taille
  tauto

theorem videBss_eq_ok (h : debut + taille < 2 ^ 64) : videBss f e debut taille = .ok () := by
  unfold videBss
  split
  · rename_i hpos
    have hpas : 0 < min taille (2 ^ 20) := by omega
    obtain ⟨⟨⟩, hu, -⟩ : ∃ u, (List.range ((taille + min taille (2 ^ 20) - 1) / min taille (2 ^ 20))).foldlM
        (fun (_ : Unit) k => (do
          let a ← ajoute debut (k * min taille (2 ^ 20))
          let _ ← write e a (min (min taille (2 ^ 20)) (taille - k * min taille (2 ^ 20)))
          pure () : Issue Unit)) () = .ok u ∧ True := by
      refine exists_foldlM_ok (I := fun _ => True) (fun _ k hk _ => ⟨(), ?_, trivial⟩) trivial
      -- the chunk begins inside the zeros
      have hlt : k * min taille (2 ^ 20) < taille := by
        have hle := (Nat.le_div_iff_mul_le hpas).mp (Nat.succ_le_of_lt (List.mem_range.mp hk))
        rw [Nat.succ_mul] at hle
        omega
      generalize k * min taille (2 ^ 20) = deja at hlt ⊢
      rw [ajoute_of_lt (by omega), ok_bind, write]
      exact bind_eq_ok.mpr ⟨_, bind_eq_ok.mpr ⟨(), require_eq_ok.mpr (by omega), rfl⟩, rfl⟩
    refine bind_eq_ok.mpr ⟨(), require_eq_ok.mpr (by omega), hu⟩
  · rfl

theorem safe_write : (write e vaddr taille : Issue Bool).Safe ↔ vaddr + taille ≤ 2 ^ 64 := by
  simp [write, safe_bind]

theorem write_of_present (h : vaddr + taille ≤ 2 ^ 64) (hp : ∀ p, present (e p) = true) :
    (write e vaddr taille : Issue Bool) = .ok true := by
  simp [write, bind_eq_ok, hp]
  exact h

/-- The range of pages from the first page of a segment up to its end. -/
theorem bornes_page {v : ℕ} (h : fin + 8192 < 2 ^ 64) (hle : v ≤ fin) :
    (bornes (pageDe v) (pageDe (fin + 4095) - pageDe v) : Issue (ℕ × ℕ)) =
      .ok (pageDe v, pageDe (fin + 4095)) := by
  have hv : pageDe v ≤ pageDe (fin + 4095) := by
    unfold pageDe
    omega
  have hfin : pageDe (fin + 4095) ≤ fin + 4095 := by
    unfold pageDe
    omega
  rw [bornes_of_lt (by omega)]
  have h1 : pageDe (pageDe v) = pageDe v := by
    unfold pageDe
    omega
  have h2 : pageDe (pageDe v + (pageDe (fin + 4095) - pageDe v) + 4095) = pageDe (fin + 4095) := by
    unfold pageDe
    omega
  rw [h1, h2]

def avecDroits (e : Feuilles) (v fin d : ℕ) : Feuilles :=
  (pages (pageDe v) (pageDe (fin + 4095))).foldl (protegePage d) e

theorem prepareProtect_segment (hlt : vaddr + ph.memsz + 8192 < 2 ^ 64) (d : ℕ) :
    (prepareProtect e (pageDe vaddr) (pageDe (vaddr + ph.memsz + 4095) - pageDe vaddr) d : Issue Feuilles) =
      .ok (avecDroits e vaddr (vaddr + ph.memsz) d) := by
  rw [prepareProtect, bornes_page hlt (Nat.le_add_right _ _)]
  rfl

/-- When filling a segment goes wrong. -/
theorem safe_remplit (hlt : vaddr + ph.memsz + 8192 < 2 ^ 64) (hv : vaddr < 2 ^ 62) :
    (remplitSegment f e ph vaddr (pageDe (vaddr + ph.memsz + 4095))).Safe ↔ ph.offset + ph.filesz < 2 ^ 64 ∧ (ph.offset + ph.filesz ≤ f.taille →
      (write e vaddr ph.filesz : Issue Bool) = .ok true → ph.filesz ≤ ph.memsz) := by
  have hborne : f.taille < 2 ^ 63 := f.borne
  by_cases hle : ph.offset + ph.filesz ≤ f.taille
  · have hlen : min ph.filesz (f.octets.length - ph.offset) = ph.filesz := by
      unfold Fichier.taille at hle
      omega
    by_cases hsub : ph.filesz ≤ ph.memsz
    · simp [remplitSegment, safe_bind, hlen, hsub, hle, safe_write, retranche_of_le hsub,
        videBss_eq_ok (by omega : vaddr + ph.filesz + (ph.memsz - ph.filesz) < 2 ^ 64), prepareProtect_segment hlt]
      exact fun _ => ⟨hle, fun _ => ⟨by omega, fun _ => by omega⟩⟩
    · simp [remplitSegment, safe_bind, hlen, hsub, hle, safe_write]
      refine fun h64 => ⟨fun h hw => ?_, fun hn _ => ⟨hle, fun _ => ⟨by omega, fun hw => absurd hw hn⟩⟩⟩
      have hlt' := ((h h64).2 hle).2 hw
      omega
  · simp [remplitSegment, safe_bind, hle]

/-- What filling a segment gives: the rights of the segment, over its pages. -/
theorem remplit_eq_ok (hlt : vaddr + ph.memsz + 8192 < 2 ^ 64) :
    remplitSegment f e ph vaddr (pageDe (vaddr + ph.memsz + 4095)) = .ok (e', fin) ↔
    ph.offset + ph.filesz ≤ f.taille ∧ (write e vaddr ph.filesz : Issue Bool) = .ok true ∧ ph.filesz ≤ ph.memsz ∧
      ∃ d, pageFlags ph.flags = some d ∧ avecDroits e vaddr (vaddr + ph.memsz) d = e' ∧
        pageDe (vaddr + ph.memsz + 4095) = fin := by
  have hborne : f.taille < 2 ^ 63 := f.borne
  by_cases hle : ph.offset + ph.filesz ≤ f.taille
  · have hlen : min ph.filesz (f.octets.length - ph.offset) = ph.filesz := by
      unfold Fichier.taille at hle
      omega
    by_cases hsub : ph.filesz ≤ ph.memsz
    · simp [remplitSegment, bind_eq_ok, hlen, hsub, hle, retranche_of_le hsub,
        videBss_eq_ok (by omega : vaddr + ph.filesz + (ph.memsz - ph.filesz) < 2 ^ 64), prepareProtect_segment hlt]
      exact ⟨fun h => ⟨h.2.2.1, h.2.2.2.2⟩, fun h => ⟨by omega, hle, h.1, by omega, h.2⟩⟩
    · simp [remplitSegment, bind_eq_ok, hsub, hle, retranche]
  · simp [remplitSegment, bind_eq_ok, hle]

/-- Installing an admitted segment: its pages are mapped, then filled. -/
theorem installeSegment_eq (memoire : Memoire) (e : Feuilles) (ha : (reglesSegment c f base).admis ph) : ∃ ok e₁,
    mapPages memoire (((PTE_PRESENT ||| PTE_USER ||| PTE_WRITE) &&& (2 ^ 64 - 1 - PTE_RSS_KIND_MASK)) |||
      FILE_PRIVATE) (pages (pageDe (base + ph.vaddr)) (pageDe (base + ph.vaddr + ph.memsz + 4095))) e = (ok, e₁) ∧
    installeSegment memoire f base e ph =
      (refuse (ok = false) "memoire physique insuffisante pour le segment" >>= fun _ =>
        remplitSegment f e₁ ph (base + ph.vaddr) (pageDe (base + ph.vaddr + ph.memsz + 4095))) := by
  have h2 := lt_of_isUserAddr ha.2
  refine ⟨_, _, rfl, ?_⟩
  have hle : pageDe (base + ph.vaddr) ≤ pageDe (base + ph.vaddr + ph.memsz + 4095) := by
    unfold pageDe
    omega
  rw [installeSegment, ajoute_of_lt (by omega), ok_bind, ajoute_of_lt (by omega), ok_bind,
    arrondi_of_lt (by omega), ok_bind, retranche_of_le hle, ok_bind, mapAllocAccounted,
    bornes_page (by omega) (Nat.le_add_right _ _)]
  rfl

theorem surete_immediat : Surete (immediat c memoire f base) (reglesSegment c f base) where
  verifie ph h := safe_verifieSegment.mpr h
  admis ph h := verifieSegment_eq_ok.mp h
  interp ph h := safe_interpEnMemoire.mpr h
  admisInterp ph nom h := by
    simp [immediat, interpEnMemoire, bind_eq_ok] at h
    exact h.2.1
  segment ph e _ ha hs := by
    have h2 := lt_of_isUserAddr ha.2
    change (installeSegment memoire f base e ph).Safe
    obtain ⟨ok, e₁, -, heq⟩ := installeSegment_eq memoire e ha
    rw [heq, safe_bind]
    exact ⟨safe_refuse, fun _ _ => (safe_remplit (by omega) (by omega)).mpr ⟨hs.1, fun hle _ => hs.2 hle⟩⟩
  admisSegment ph e e' fin _ ha hne h := by
    have h2 := lt_of_isUserAddr ha.2
    change installeSegment memoire f base e ph = _ at h
    obtain ⟨ok, e₁, -, heq⟩ := installeSegment_eq memoire e ha
    rw [heq] at h
    obtain ⟨_, -, h⟩ := bind_eq_ok.mp h
    obtain ⟨hle, -, -, d, hd, -, rfl⟩ := (remplit_eq_ok (by omega)).mp h
    refine ⟨⟨hle, Option.isSome_iff_exists.mpr ⟨d, hd⟩⟩, ?_⟩
    unfold pageDe
    omega

/-- When every page is there, installing a segment only fills it. -/
theorem installeSegment_of_present (hp : ∀ p, present (e p) = true) (ha : (reglesSegment c f base).admis ph) :
    installeSegment memoire f base e ph =
      remplitSegment f e ph (base + ph.vaddr) (pageDe (base + ph.vaddr + ph.memsz + 4095)) := by
  obtain ⟨ok, e₁, hmap, heq⟩ := installeSegment_eq memoire e ha
  rw [mapPages_of_present fun p _ => hp p] at hmap
  cases hmap
  exact heq

/-- The memory answers nothing: every page is there. -/
theorem exact_immediat :
    Exact (immediat c memoire f base) (reglesSegment c f base) fun e => ∀ p, present (e p) = true where
  sain ph h := safe_verifieSegment.mp h
  verifie ph hs ha := verifieSegment_eq_ok.mpr ⟨hs, ha⟩
  sainInterp ph h := safe_interpEnMemoire.mp h
  interp ph hs ha := by
    simp [immediat, interpEnMemoire, tampon, bind_eq_ok]
    exact ⟨hs.1, ha, ha, hs.2 ha⟩
  sainSegment ph e hI _ ha h := by
    have h2 := lt_of_isUserAddr ha.2
    have hborne : f.taille < 2 ^ 63 := f.borne
    change (installeSegment memoire f base e ph).Safe at h
    rw [installeSegment_of_present hI ha, safe_remplit (by omega) (by omega)] at h
    exact ⟨h.1, fun hle => h.2 hle (write_of_present (by omega) hI)⟩
  segment ph e hI _ ha hs hacc := by
    have h2 := lt_of_isUserAddr ha.2
    have hborne : f.taille < 2 ^ 63 := f.borne
    obtain ⟨hle, hflags⟩ := hacc
    obtain ⟨d, hd⟩ := Option.isSome_iff_exists.mp hflags
    refine ⟨_, _, (installeSegment_of_present hI ha).trans ((remplit_eq_ok (by omega)).mpr
      ⟨hle, write_of_present (by omega) hI, hs.2 hle, d, hd, rfl, rfl⟩), fun p => ?_⟩
    rw [avecDroits, foldl_protegePage (nodup_pages _ _)]
    split
    · exact present_protegee _ _
    · exact hI p

/-- A page that the segment leaves alone, or one of the user slot that is not both
writable and executable. -/
def PageSure (c : Creneau) (e e' : Feuilles) (p : ℕ) : Prop :=
  e' p = e p ∨ (∀ a, a / 4096 = p → c.isUserAddr a) ∧ inscriptibleEtExecutable (e' p) = false

/-- Pages that segments share have the rights of the last one, and no others. -/
theorem installeSegment_sure {e₀ : Feuilles} (ha : (reglesSegment c f base).admis ph)
    (hs : ∀ p, PageSure c e₀ e p) (h : installeSegment memoire f base e ph = .ok (e', fin)) :
    ∀ p, PageSure c e₀ e' p := by
  have h2 := lt_of_isUserAddr ha.2
  obtain ⟨ok, e₁, hmap, heq⟩ := installeSegment_eq memoire e ha
  rw [heq] at h
  obtain ⟨_, hok, h⟩ := bind_eq_ok.mp h
  have hok' : ok = true := by simpa using refuse_eq_ok.mp hok
  subst hok'
  obtain ⟨-, -, -, d, hd, rfl, -⟩ := (remplit_eq_ok (by omega)).mp h
  intro p
  have hp : avecDroits e₁ (base + ph.vaddr) (base + ph.vaddr + ph.memsz) d p = _ :=
    foldl_protegePage (nodup_pages _ _)
  by_cases hmem : p ∈ pages (pageDe (base + ph.vaddr)) (pageDe (base + ph.vaddr + ph.memsz + 4095))
  · rw [if_pos ⟨hmem, present_mapPages hmap hmem⟩] at hp
    obtain ⟨hlo, hhi⟩ := mem_pages.mp hmem
    refine .inr ⟨fun a ha' => isUserAddr_page ha.1 ha.2 hlo hhi ha', ?_⟩
    rw [hp, inscriptibleEtExecutable_protegee]
    exact pageFlags_wx hd
  · rw [if_neg fun h => hmem h.1, mapPages_eq hmap (.inl hmem)] at hp
    unfold PageSure
    rw [hp]
    exact hs p

/-- Neither loader goes wrong, and what they promise or map is sure, whatever the device,
the memory and the address space. -/
structure Conforme (c : Creneau) (f : Fichier) (hint : ℕ) : Prop where
  paresseux : ∀ panne node identite promesses,
    (loadNodeLazy c panne node f identite hint promesses).Safe ∧
      ∀ image promesses', loadNodeLazy c panne node f identite hint promesses = .ok (image, promesses') →
        ∀ v ∈ promesses', v ∈ promesses ∨ PromesseSure c v
  immediat : ∀ memoire e, (load c memoire f e hint).Safe ∧
    ∀ image e', load c memoire f e hint = .ok (image, e') → ∀ p, PageSure c e e' p

/-- The sums of fields that the loaders come to fit in 64 bits, the parts of the
segments in the file are not larger than those in memory, and the interpreter's name
is not larger than the file plus a mebibyte. -/
structure Inoffensif (c : Creneau) (f : Fichier) (hint : ℕ) : Prop where
  table : TableSaine f.octets
  paresseux : ∀ h, parseNode (fun _ _ => false) f = .ok h →
    Sobre (reglesPromesse c f (baseDe hint h)) (baseDe hint h) h
  immediat : ∀ h, parse f.octets = .ok h → Sobre (reglesSegment c f (baseDe hint h)) (baseDe hint h) h

theorem parseNode_sans_panne {panne : ℕ → ℕ → Bool} {f : Fichier} {h : ElfHeader}
    (hok : parseNode panne f = .ok h) : parseNode (fun _ _ => false) f = .ok h := by
  have hread : ∀ {offset n raw}, f.readAt panne offset n = some raw →
      f.readAt (fun _ _ => false) offset n = some raw := by
    intro offset n raw hraw
    obtain ⟨rfl, hle⟩ := readAt_eq_some hraw
    exact readAt_of_le hle
  simp only [parseNode, bind_eq_ok, ofOption_eq_ok] at hok ⊢
  obtain ⟨ehdr, h1, _, h2, phoff, h3, phentsize, h4, phnum, h5, _, h6, _, h7, _, h8, _, h9, metadata, h10, h11⟩ := hok
  exact ⟨ehdr, hread h1, _, h2, phoff, h3, phentsize, h4, phnum, h5, _, h6, _, h7, _, h8, _, h9, metadata,
    hread h10, h11⟩

section

variable {c : Creneau} {f : Fichier} {hint : ℕ}

theorem safe_loadNodeLazy_iff :
    (∀ panne node identite promesses, (loadNodeLazy c panne node f identite hint promesses).Safe) ↔
      ∀ h, parseNode (fun _ _ => false) f = .ok h →
        Sobre (reglesPromesse c f (baseDe hint h)) (baseDe hint h) h := by
  constructor
  · intro hsafe h hok
    have hcharge := hsafe (fun _ _ => false) 0 id []
    rw [loadNodeLazy, hok, ok_bind] at hcharge
    exact sobre_of_safe surete_paresseux exact_paresseux trivial hcharge
  · intro hsobre panne node identite promesses
    rw [loadNodeLazy, safe_bind]
    exact ⟨safe_parseNode panne f, fun h hok =>
      safe_charge surete_paresseux (hsobre h (parseNode_sans_panne hok))⟩

theorem safe_load_iff : (∀ memoire e, (load c memoire f e hint).Safe) ↔ TableSaine f.octets ∧
      ∀ h, parse f.octets = .ok h → Sobre (reglesSegment c f (baseDe hint h)) (baseDe hint h) h := by
  constructor
  · intro hsafe
    -- the memory is never asked for anything when every page is there
    have hload := hsafe (fun _ _ => none) fun _ => PTE_PRESENT
    rw [load, safe_bind] at hload
    refine ⟨(safe_parse f.borne).mp hload.1, fun h hok => ?_⟩
    exact sobre_of_safe surete_immediat exact_immediat (fun _ => by decide) (hload.2 h hok)
  · rintro ⟨htable, hsobre⟩ memoire e
    rw [load, safe_bind]
    exact ⟨(safe_parse f.borne).mpr htable, fun h hok => safe_charge surete_immediat (hsobre h hok)⟩

/-- Whatever the file, what `load_node_lazy` promises is in the user slot and never
writable and executable. -/
theorem loadNodeLazy_sure {panne : ℕ → ℕ → Bool} {node : ℕ} {identite : ℕ → ℕ} {promesses promesses' : List Vma}
    {image : LoadedImage} (hok : loadNodeLazy c panne node f identite hint promesses = .ok (image, promesses')) :
    ∀ v ∈ promesses', v ∈ promesses ∨ PromesseSure c v := by
  obtain ⟨h, -, hok⟩ := bind_eq_ok.mp hok
  refine charge_invariant (I := fun l => ∀ v ∈ l, v ∈ promesses ∨ PromesseSure c v) surete_paresseux
    (fun ph l l' fin ha hl hseg => ?_) (fun v hv => .inl hv) hok
  obtain ⟨w, rfl, hw⟩ := promet_sure ha hseg
  intro v hv
  rcases List.mem_append.mp hv with hv | hv
  · exact hl v hv
  · rw [List.mem_singleton.mp hv]
    exact .inr hw

/-- Whatever the file, the pages that `load` maps or whose rights it changes are in the
user slot and not both writable and executable. -/
theorem load_sure {memoire : Memoire} {e e' : Feuilles} {image : LoadedImage}
    (hok : load c memoire f e hint = .ok (image, e')) : ∀ p, PageSure c e e' p := by
  obtain ⟨h, -, hok⟩ := bind_eq_ok.mp hok
  exact charge_invariant (I := fun e' => ∀ p, PageSure c e e' p) surete_immediat
    (fun ph s s' fin ha hs hseg => installeSegment_sure ha hs hseg) (fun p => .inl rfl) hok

end

variable (phoff kind offset vaddr filesz memsz : ℕ)

/-- A file with a single program header, without anything after it. -/
def petitElf : List UInt8 :=
  ELF_MAGIC ++ [ELFCLASS64, ELFDATA2LSB] ++ List.replicate 10 0 ++ leBytes 2 ET_DYN ++ leBytes 2 EM_X86_64 ++
    leBytes 4 1 ++ leBytes 8 0 ++ leBytes 8 phoff ++ leBytes 8 0 ++ leBytes 4 0 ++ leBytes 2 64 ++
    leBytes 2 56 ++ leBytes 2 1 ++ List.replicate 6 0 ++
    leBytes 4 kind ++ leBytes 4 4 ++ leBytes 8 offset ++ leBytes 8 vaddr ++ leBytes 8 0 ++ leBytes 8 filesz ++
    leBytes 8 memsz ++ leBytes 8 4096

theorem length_petitElf : (petitElf phoff kind offset vaddr filesz memsz).length = 120 := by
  unfold petitElf
  simp only [List.length_append, length_leBytes]
  rfl

def petitFichier : Fichier where
  octets := petitElf phoff kind offset vaddr filesz memsz
  borne := by
    rw [length_petitElf]
    norm_num

theorem creneau_borne : 128 + 64 ≤ 256 := by decide

def creneau : Creneau := ⟨128, creneau_borne⟩

/-- `user_load_base` -/
def baseDeChargement : ℕ := 128 * 2 ^ 39 + 0x400000

end BouchaudOS.Elf
