import BouchaudOS.Update.Chargeur

/-!
# Bounded trial of a candidate

Once a slot is marked as a candidate with `n` attempts, the loader boots again
and again, on a META partition whose requests may fail and whose power may be
cut at any point. The number of boots already made plus the attempts left on
the record never exceeds `n`, as long as the sequence numbers of the attempts
do not wrap around. A record at the last sequence number is followed by number
0, which is never selected: from there the attempts are not bounded.
-/
namespace BouchaudOS.Update.Chargeur

open VersionedPair Enregistrement
open Prog hiding pure

variable {H : Type}

/-- The META partition: power loss and failed requests leave a pending block
old, new or torn, and a torn copy of the record fails to decode. -/
def partitionMeta : Device ℕ (List UInt8) where
  cut d d' := PowerLoss d d' ∧ Detected (fun x => x < 2) decodeBloc d d'
  faulty := True
  fault d d' := PowerLoss d d' ∧ Detected (fun x => x < 2) decodeBloc d d'
  cut_cache h := h.1.1
  cut_settled h _ ha := h.1.durable_eq ha
  fault_settled h _ ha := ⟨Disk.settled_of_cache_nil h.1.1 _, h.1.durable_eq ha⟩

theorem copiesMeta_lt (i : Fin 2) : copiesMeta i < 2 := i.isLt

theorem partitionMeta_detecte : DetecteDechirure partitionMeta copiesMeta where
  distinctes := by decide
  cut h := by
    rintro x ⟨i, rfl⟩
    exact h.2 _ (copiesMeta_lt i)
  fault h := by
    refine ⟨fun i => Disk.settled_of_cache_nil h.1.1 _, ?_⟩
    rintro x ⟨i, rfl⟩
    exact h.2 _ (copiesMeta_lt i)

/-- The decision boots slot `s` as a candidate whose attempt is consumed. -/
def Decision.Essaie (s : Slot) : Decision H → Prop
  | .boot slot _ _ passage false => slot = s ∧ passage.raison = .candidatEssaiConsomme
  | _ => False

instance (s : Slot) (dec : Decision H) : Decidable (dec.Essaie s) :=
  match dec with
  | .legacy => .isFalse id
  | .recoveryRequired _ => .isFalse id
  | .boot _ _ _ _ true => .isFalse id
  | .boot slot _ _ passage false =>
      inferInstanceAs (Decidable (slot = s ∧ passage.raison = .candidatEssaiConsomme))

variable {dec : Decision H} {e : Enregistrement} {d : Disk ℕ (List UInt8)}

theorem Decision.Essaie.inv {s : Slot} (h : dec.Essaie s) :
    ∃ partition texte passage, dec = .boot s partition texte passage false ∧
      passage.raison = .candidatEssaiConsomme := by
  cases dec with
  | legacy => exact h.elim
  | recoveryRequired _ => exact h.elim
  | boot slot partition texte passage recovery =>
    cases recovery with
    | true => exact h.elim
    | false =>
      obtain ⟨rfl, hr⟩ := h
      exact ⟨partition, texte, passage, rfl, hr⟩

/-- Successive boots of one machine: the disk, what remains of the current
decision, and how often slot `s` was tried. -/
structure Essais (H : Type) where
  disque : Disk ℕ (List UInt8)
  enCours : Option (Prog ℕ (List UInt8) (Decision H))
  boots : ℕ

inductive Essais.Pas (s : Slot) : Essais H → Essais H → Prop
  /-- The machine starts: the loader decides. -/
  | demarre {m : Essais H} (env : Environnement H) : m.enCours = none →
      Pas s m { m with enCours := some env.decide }
  /-- The next request of the decision is served, or fails. -/
  | avance {m : Essais H} {p p' : Prog ℕ (List UInt8) (Decision H)}
      {d' : Disk ℕ (List UInt8)} : m.enCours = some p →
      Step partitionMeta (p, m.disque) (p', d') →
      Pas s m { m with disque := d', enCours := some p' }
  /-- The loader boots as decided. -/
  | boote {m : Essais H} {dec : Decision H} : m.enCours = some (.pure dec) →
      Pas s m { m with enCours := none, boots := m.boots + if dec.Essaie s then 1 else 0 }
  /-- Power is lost, during the decision or after it. -/
  | coupure {m : Essais H} {d' : Disk ℕ (List UInt8)} : partitionMeta.cut m.disque d' →
      Pas s m ⟨d', none, m.boots⟩

/-- Attempts left on a slot. -/
def reste (e : Enregistrement) (s : Slot) : ℕ :=
  match (e.slot s).etat with
  | .candidat essais => essais.toNat
  | _ => 0

/-- With `k` boots made from record `e`, the trial of slot `s` is within `n`. -/
structure Budget (s : Slot) (n : ℕ) (e : Enregistrement) (k : ℕ) : Prop where
  inactif : e.actif = s.autre
  boots : k + reste e s ≤ n
  sequence : e.sequence.toNat + reste e s < 2 ^ 64

/-- The copies are settled, consistent, and show a record within the budget. -/
def Sain (s : Slot) (n k : ℕ) (d : Disk ℕ (List UInt8)) : Prop :=
  CopiesPosees copiesMeta d ∧ Consistent version (lus copiesMeta d) ∧
    ∃ e, newest version (lus copiesMeta d) = some e ∧ Budget s n e k

variable {s : Slot} {n k : ℕ} {e : Enregistrement}

theorem Budget.mono {k' : ℕ} (h : Budget s n e k) (hk : k' ≤ k) : Budget s n e k' :=
  ⟨h.inactif, (Nat.add_le_add_right hk _).trans h.boots, h.sequence⟩

theorem Budget.autre (h : Budget s n e k) : e.actif.autre = s := by
  rw [h.inactif, Slot.autre_autre]

variable {essais : UInt8} {D : Device ℕ (List UInt8)} {m m' : Essais H}

/-- Consuming an attempt pays for one boot. -/
theorem Budget.candidat (h : Budget s n e k) (hc : (e.slot s).etat = .candidat essais) (h0 : 0 < essais) :
    let apres := e.suivant.avecEtat s (.candidat (essais - 1))
    Budget s n apres (k + 1) ∧ version e < version apres := by
  have hr : reste e s = essais.toNat := by simp [reste, hc]
  have h1 : 0 < essais.toNat := h0
  have hr' : reste (e.suivant.avecEtat s (.candidat (essais - 1))) s = essais.toNat - 1 := by
    simp only [reste, slot_avecEtat_self]
    rw [UInt8.toNat_sub_of_le _ _ (show 1 ≤ essais from UInt8.le_iff_toNat_le.mpr h1), UInt8.toNat_one]
  have hb := h.boots
  have hq := h.sequence
  have hseq : (e.sequence + 1).toNat = e.sequence.toNat + 1 := by
    rw [UInt64.toNat_add, UInt64.toNat_one]
    omega
  refine ⟨⟨by simpa using h.inactif, by omega, ?_⟩, ?_⟩
  · rw [hr', avecEtat_sequence, suivant_sequence, hseq]
    omega
  · simp only [version, avecEtat_sequence, suivant_sequence, hseq]
    omega

theorem Budget.rollback (h : Budget s n e k) : Budget s n (e.suivant.avecEtat s .mauvais) k := by
  have hb := h.boots
  refine ⟨by simpa using h.inactif, ?_, ?_⟩
  · simp only [reste, slot_avecEtat_self]
    omega
  · simp only [reste, slot_avecEtat_self]
    exact UInt64.toNat_lt _

/-- The record that a boot persists keeps the budget; trying the candidate
also pays for the boot. -/
theorem Budget.choisitBoot (h : Budget s n e k) :
    e.choisitBoot.2 = e ∨ (version e ≠ version e.choisitBoot.2 ∧
      Budget s n e.choisitBoot.2 k ∧ (e.choisitBoot.1 ≠ e.actif →
        Budget s n e.choisitBoot.2 (k + 1) ∧ version e < version e.choisitBoot.2)) := by
  rcases choisitBoot_cases e with ⟨essais, hc, h0, hb⟩ | ⟨-, hb⟩ | ⟨-, hb⟩
  · rw [h.autre] at hc hb
    have hcand := h.candidat hc h0
    rw [hb]
    exact .inr ⟨hcand.2.ne, hcand.1.mono (Nat.le_succ k), fun _ => hcand⟩
  · rw [h.autre] at hb
    rw [hb]
    exact .inr ⟨version_ne_suivant e s _, h.rollback, fun hne => absurd rfl hne⟩
  · exact .inl (by rw [hb])

variable {p q : Fin 2 → Option Enregistrement} {d d' : Disk ℕ (List UInt8)} {env : Environnement H}

theorem Budget.laisse (h : Budget s n e k) (hc : Consistent version p)
    (he : newest version p = some e) (hl : Laisse p (some e) q) :
    Consistent version q ∧ ∃ e', newest version q = some e' ∧ Budget s n e' k := by
  obtain ⟨hq, hcur | ⟨hsame, hcur⟩⟩ := hl.courant hc he
  · exact ⟨hq, e, hcur, h⟩
  · exact ⟨hq, _, hcur, (h.choisitBoot.resolve_left hsame).2.1⟩

theorem not_essaie_recovery (parts : Partitions H) (m : H) (raison : Raison) (motif : String)
    (oe : Option Enregistrement) : ¬(env.recovery parts m raison motif oe).Essaie s := by
  unfold Environnement.recovery
  split <;> exact id

theorem essaie_amorce {parts : Partitions H} {m : H} {raison : Raison} {choisi : Slot}
    {x : Enregistrement} (h : (env.amorce parts m raison choisi x).Essaie s) :
    raison = .candidatEssaiConsomme := by
  unfold Environnement.amorce at h
  simp only at h
  split at h
  · exact h.2
  · exact (not_essaie_recovery _ _ _ _ _ h).elim

/-- A decision that boots the candidate leaves a record that paid for it. -/
theorem Budget.verdict {dec : Decision H} (h : Budget s n e k)
    (hc : Consistent version p) (he : newest version p = some e)
    (hv : Verdict D p env (some e) dec q) :
    Consistent version q ∧ ∃ e', newest version q = some e' ∧
      Budget s n e' (k + if dec.Essaie s then 1 else 0) := by
  have hno (hl : Laisse p (some e) q) (hdec : ¬dec.Essaie s) : Consistent version q ∧
      ∃ e', newest version q = some e' ∧ Budget s n e' (k + if dec.Essaie s then 1 else 0) := by
    rw [if_neg hdec]
    exact h.laisse hc he hl
  cases hv with
  | legacy _ => exact hno (.inl rfl) id
  | recovery _ _ => exact hno (.inl rfl) (not_essaie_recovery _ _ _ _ _)
  | echecs he1 hcl _ =>
    cases he1
    exact hno hcl.laisse (not_essaie_recovery _ _ _ _ _)
  | amorce hp hm he1 hcl =>
    cases he1
    have hlaisse := hcl.laisse
    cases hcl with
    | candidat hslot hsame =>
      have hg := hc.guards_stale he
      obtain ⟨hne, -, hcand⟩ := h.choisitBoot.resolve_left hsame
      have hi : Issue p (stale version p) e.choisitBoot.2 _ := .inr (.inr rfl)
      refine ⟨hi.coherentes hg hc hne, e.choisitBoot.2, ?_, (hcand hslot).1.mono ?_⟩
      · apply newest_update_newer
        intro r hr
        rw [he, Option.some.injEq] at hr
        exact hr ▸ (hcand hslot).2
      · split <;> omega
    | actif _ => exact hno hlaisse fun hd => nomatch essaie_amorce hd
    | rollback _ _ => exact hno hlaisse fun hd => nomatch essaie_amorce hd
    | repli _ _ _ _ => exact hno hlaisse fun hd => nomatch essaie_amorce hd
    | rollbackNonPersiste _ _ _ _ => exact hno hlaisse fun hd => nomatch essaie_amorce hd

/-- One boot: at every point a power cut leaves the budget intact, and the
decision pays for what it boots. -/
theorem wp_decide_sain (h : Sain s n k d) :
    wp partitionMeta (fun d' => ∀ d'', partitionMeta.cut d' d'' → Sain s n k d'')
      (fun x => x ≤ 2) (fun dec d' => Sain s n (k + if dec.Essaie s then 1 else 0) d')
      env.decide d := by
  obtain ⟨hs, hc, e, he, hb⟩ := h
  have hsel : selection copiesMeta d = some e := by rw [selection_eq_newest, he]
  have hwp := wp_decide env partitionMeta_detecte hs
  rw [hsel] at hwp
  refine hwp.mono ?_ (fun _ h => h) ?_
  · intro d' hd d'' hcut
    exact ⟨copiesPosees_of_cut hcut, hb.laisse hc he (hd d'' (.inr hcut))⟩
  · rintro dec d' ⟨hs', hv⟩
    exact ⟨hs', hb.verdict hc he hv⟩

/-- The invariant of successive boots. -/
def Essais.Inv (s : Slot) (n : ℕ) (m : Essais H) : Prop :=
  match m.enCours with
  | none => Sain s n m.boots m.disque
  | some prog =>
    wp partitionMeta (fun d' => ∀ d'', partitionMeta.cut d' d'' → Sain s n m.boots d'')
      (fun x => x ≤ 2) (fun dec d' => Sain s n (m.boots + if dec.Essaie s then 1 else 0) d')
      prog m.disque

theorem Sain.cut (h : Sain s n k d) (hc : partitionMeta.cut d d') : Sain s n k d' := by
  obtain ⟨hs, h⟩ := h
  have hs' : CopiesPosees copiesMeta d' := copiesPosees_of_cut hc
  refine ⟨hs', ?_⟩
  rwa [hs.lus_eq hs' fun i => partitionMeta.cut_settled hc (hs i)]

theorem Sain.boots_le (h : Sain s n k d) : k ≤ n := by
  obtain ⟨-, -, e, -, hb⟩ := h
  have := hb.boots
  omega

theorem Essais.inv_pas (hm : m.Inv s n) (h : Pas s m m') : m'.Inv s n := by
  cases h with
  | demarre env hv =>
    rw [Inv, hv] at hm
    exact wp_decide_sain hm
  | avance hv hstep =>
    rw [Inv, hv] at hm
    exact wp.step hm hstep
  | boote hv =>
    rw [Inv, hv] at hm
    exact hm.2
  | coupure hc =>
    unfold Inv at hm
    split at hm
    · exact hm.cut hc
    · exact hm.inv _ hc

theorem Essais.inv_run (hm : m.Inv s n) (h : Relation.ReflTransGen (Pas s) m m') : m'.Inv s n := by
  induction h with
  | refl => exact hm
  | tail _ hstep ih => exact inv_pas ih hstep

theorem Essais.boots_le (hm : m.Inv s n) : m.boots ≤ n := by
  have hcut : ∃ d', partitionMeta.cut m.disque d' := by
    refine ⟨⟨m.disque.durable, []⟩, ⟨rfl, fun a => mixture_of_mem ?_⟩, fun a _ => .inl ?_⟩
    · simp [Disk.versions]
    · simp [Disk.versions]
  obtain ⟨d', hd'⟩ := hcut
  unfold Inv at hm
  split at hm
  · exact hm.boots_le
  · exact (hm.inv d' hd').boots_le

/-- Marking the candidate durably opens the budget of its attempts. -/
theorem sain_marque {image relue : Image} {e0 : Enregistrement}
    (hs : CopiesPosees copiesMeta d) (he0 : selection copiesMeta d = some e0)
    (hm : e0.marqueCandidat s image relue essais = .ok e)
    (hseq : e0.sequence.toNat + 1 + essais.toNat < 2 ^ 64)
    (hp : Run partitionMeta (persisteCopies copiesMeta toute e, d) (.pure (.ok ()), d')) :
    Sain s essais.toNat 0 d' := by
  have hb := actifBon_of_selection he0
  have hsuit := suit_marqueCandidat hb hm
  obtain ⟨hactif, -, -, -, rfl⟩ := marqueCandidat_ok hm
  have hq := (wp_persisteCopies (P := toute) partitionMeta_detecte (fun _ => rfl) hsuit.actifBon hs rfl).post hp
  have hlt : ∀ r, newest version (lus copiesMeta d) = some r → version r <
      version (e0.suivant.avecSlot s ⟨.candidat essais, image⟩) := by
    intro r hr
    rw [selection_eq_newest, hr, Option.some.injEq] at he0
    subst he0
    exact hsuit.sequence_lt (by omega)
  refine ⟨hq.posees, ?_, e0.suivant.avecSlot s ⟨.candidat essais, image⟩, ?_, ?_, ?_, ?_⟩
  · rw [hq.durable rfl]
    apply Consistent.update_some
    intro x hx hkey
    cases hr : newest version (lus copiesMeta d) with
    | none => simp [eq_none_of_newest hr] at hx
    | some r =>
      have := key_le_of_newest hr _ hx
      have := hlt r hr
      omega
  · rw [hq.durable rfl]
    exact newest_update_newer hlt _
  · rw [avecSlot_actif, suivant_actif]
    exact Slot.eq_autre_of_ne hactif.symm
  · simp [reste]
  · have hr : reste (e0.suivant.avecSlot s ⟨.candidat essais, image⟩) s = essais.toNat := by
      simp [reste]
    rw [hr, avecSlot_sequence, suivant_sequence, UInt64.toNat_add, UInt64.toNat_one]
    omega

/-- A candidate slot is booted only once its consumed attempt is durable. -/
theorem essai_durable (hD : DetecteDechirure D copiesMeta)
    (hs : CopiesPosees copiesMeta d) (he : selection copiesMeta d = some e) {h : H}
    {texte : String} {passage : Passage}
    (hr : Run D (env.decide, d) (.pure (.boot s h texte passage false), d'))
    (hc : (e.slot s).etat.EstCandidat) :
    ∃ essais, (e.slot s).etat = .candidat essais ∧ 0 < essais ∧
      ∃ i, d'.Settled (copiesMeta i) ∧ decodeBloc (d'.durable (copiesMeta i)) =
        some (e.suivant.avecEtat s (.candidat (essais - 1))) := by
  have hne := ne_actif_of_candidat (actifBon_of_selection he) hc
  obtain ⟨hs', hv⟩ := (wp_decide env hD hs).post hr
  obtain ⟨e', r, he', hcl, hchoisi, -⟩ := hv.systeme
  rw [he, Option.some.injEq] at he'
  subst he'
  have hraison := hcl.raison_of_ne (by rwa [hchoisi])
  obtain ⟨hslot, rfl, hl⟩ := hcl.candidat_inv hraison
  obtain ⟨essais, hcand, h0, hb⟩ := choisitBoot_autre hslot
  simp only at hchoisi
  rw [hchoisi] at hcand hb
  exact ⟨essais, hcand, h0, hb ▸ durable_of_lus hs' hl⟩

/-- After a slot is marked as a candidate with `n` attempts, whatever requests
fail and wherever power is cut: the loader boots it at most `n` times as a
candidate, if the sequence numbers of the attempts stay below `2^64`; and it
never boots a candidate whose consumed attempt is not durable. -/
theorem essais_bornes {s : Slot} {image relue : Image} {n : UInt8} {e₀ e : Enregistrement}
    {d₀ d₁ : Disk ℕ (List UInt8)} (hs : CopiesPosees copiesMeta d₀)
    (he₀ : selection copiesMeta d₀ = some e₀)
    (hm : e₀.marqueCandidat s image relue n = .ok e)
    (hseq : e₀.sequence.toNat + 1 + n.toNat < 2 ^ 64)
    (hp : Run partitionMeta (persisteCopies copiesMeta toute e, d₀) (.pure (.ok ()), d₁)) :
    (∀ m : Essais H, Relation.ReflTransGen (Essais.Pas s) ⟨d₁, none, 0⟩ m → m.boots ≤ n.toNat) ∧
    ∀ (env : Environnement H) (d d' : Disk ℕ (List UInt8)) (e' : Enregistrement) (h : H)
      (texte : String) (passage : Passage), CopiesPosees copiesMeta d →
      selection copiesMeta d = some e' →
      Run partitionMeta (env.decide, d) (.pure (.boot s h texte passage false), d') →
      (e'.slot s).etat.EstCandidat →
      ∃ essais, (e'.slot s).etat = .candidat essais ∧ 0 < essais ∧
        ∃ i, d'.Settled (copiesMeta i) ∧ decodeBloc (d'.durable (copiesMeta i)) =
          some (e'.suivant.avecEtat s (.candidat (essais - 1))) := by
  constructor
  · intro m hr
    exact Essais.boots_le (Essais.inv_run (m := ⟨d₁, none, 0⟩) (sain_marque hs he₀ hm hseq hp) hr)
  · intro env d d' e' h texte passage hsd he' hr hc
    exact essai_durable partitionMeta_detecte hsd he' hr hc

def partitionSaine : Device ℕ (List UInt8) := { partitionMeta with faulty := False }

theorem partitionSaine_detecte : DetecteDechirure partitionSaine copiesMeta where
  distinctes := partitionMeta_detecte.distinctes
  cut h := partitionMeta_detecte.cut h
  fault h := partitionMeta_detecte.fault h

theorem persisteCopies_exec {n : Enregistrement} (hn : n.ActifBon) (hs : CopiesPosees copiesMeta d) :
    ((persisteCopies copiesMeta toute n).exec d).1 = .ok () ∧
      CopiesPosees copiesMeta ((persisteCopies copiesMeta toute n).exec d).2 ∧
      lus copiesMeta ((persisteCopies copiesMeta toute n).exec d).2 =
        Function.update (lus copiesMeta d) (stale version (lus copiesMeta d)) (some n) := by
  have h := (wp_persisteCopies (P := toute) partitionSaine_detecte (fun _ => rfl) hn hs rfl).post
    (run_exec partitionSaine (persisteCopies copiesMeta toute n) d)
  have hok := h.reussit id
  exact ⟨hok, h.posees, h.durable hok⟩

/-- A firmware on which every partition exists and nobody asks for recovery. -/
def firmware : Environnement Unit where
  partitions := some ⟨some (), some (), some (), some ()⟩
  uniqueGpt _ := Vector.replicate 16 1
  toucheRecovery := false
  tailleBloc := 512
  dernierBloc := 2047
  tsc := 0

/-- The only verdict of that firmware on a pending candidate, where no request
fails. -/
theorem firmware_verdict {p q : Fin 2 → Option Enregistrement}
    {dec : Decision Unit} (hslot : e.choisitBoot.1 ≠ e.actif)
    (hv : Verdict partitionSaine p firmware (some e) dec q) :
    dec.Essaie e.choisitBoot.1 ∧ q = Function.update p (stale version p) (some e.choisitBoot.2) := by
  have hcand {e' r} (he' : some e = some e') (hc : Conclut partitionSaine e' p r q) :
      r = (.candidatEssaiConsomme, e.choisitBoot.1, e.choisitBoot.2) ∧
        q = Function.update p (stale version p) (some e.choisitBoot.2) := by
    cases he'
    have hraison : r.1 = .candidatEssaiConsomme := by
      cases hc with
      | actif h => exact absurd (by rw [h]) hslot
      | candidat _ _ => rfl
      | rollback h _ => exact absurd h hslot
      | repli hf _ _ _ => exact hf.elim
      | rollbackNonPersiste hf _ _ _ => exact hf.elim
    exact (hc.candidat_inv hraison).2
  cases hv with
  | legacy h => cases h
  | recovery _ h =>
    rcases h with h | h | h | h
    · cases h
    · cases h
    · exact h.elim
    · exact absurd (by decide) h
  | echecs he' hc hr =>
    rw [(hcand he' hc).1] at hr
    cases hr
  | amorce hp hm he' hc =>
    obtain ⟨rfl, hq⟩ := hcand he' hc
    refine ⟨?_, hq⟩
    cases hp
    unfold Environnement.amorce
    cases e.choisitBoot.1 <;> exact ⟨rfl, rfl⟩

theorem firmware_essaie (hs : CopiesPosees copiesMeta d) (he : selection copiesMeta d = some e)
    (hslot : e.choisitBoot.1 ≠ e.actif) :
    ∃ dec d', Run partitionMeta (firmware.decide, d) (.pure dec, d') ∧
      dec.Essaie e.choisitBoot.1 ∧ CopiesPosees copiesMeta d' ∧
      lus copiesMeta d' = Function.update (lus copiesMeta d) (stale version (lus copiesMeta d))
        (some e.choisitBoot.2) := by
  obtain ⟨hs', hv⟩ := (wp_decide firmware partitionSaine_detecte hs).post
    (run_exec partitionSaine firmware.decide d)
  rw [he] at hv
  obtain ⟨hessaie, hl⟩ := firmware_verdict hslot hv
  exact ⟨_, _, run_exec partitionMeta firmware.decide d, hessaie, hs', hl⟩

theorem Essais.run_boote {s : Slot} {env : Environnement H} {d d' : Disk ℕ (List UInt8)} (k : ℕ) (h : Run partitionMeta (env.decide, d) (.pure dec, d')) :
    Relation.ReflTransGen (Pas s) (⟨d, none, k⟩ : Essais H)
      ⟨d', none, k + if dec.Essaie s then 1 else 0⟩ := by
  have hlift : ∀ c : Prog ℕ (List UInt8) (Decision H) × Disk ℕ (List UInt8),
      Run partitionMeta (env.decide, d) c →
      Relation.ReflTransGen (Pas s) (⟨d, none, k⟩ : Essais H) ⟨c.2, some c.1, k⟩ := by
    intro c hc
    induction hc with
    | refl => exact .single (.demarre env rfl)
    | tail _ hstep ih => exact ih.tail (.avance rfl hstep)
  exact (hlift _ h).tail (.boote rfl)

/-- Past the last sequence number the consumed attempt is durable but never
selected: the candidate is tried as often as the machine starts. -/
theorem essais_sans_fin (hseq : e.sequence.toNat = 2 ^ 64 - 1) (hslot : e.choisitBoot.1 ≠ e.actif) (N : ℕ)
    (hs : CopiesPosees copiesMeta d) (hc : Consistent version (lus copiesMeta d))
    (he : newest version (lus copiesMeta d) = some e) (k : ℕ) :
    ∃ d', Relation.ReflTransGen (Essais.Pas e.choisitBoot.1) (⟨d, none, k⟩ : Essais Unit)
      ⟨d', none, k + N⟩ := by
  induction N generalizing d k with
  | zero => exact ⟨d, .refl⟩
  | succ N ih =>
    obtain ⟨dec, d1, hrun, hessaie, hs', hl⟩ :=
      firmware_essaie hs (by rw [selection_eq_newest, he]) hslot
    have hg := hc.guards_stale he
    have hv : version e.choisitBoot.2 < version e := by
      rw [version, version, choisitBoot_sequence hslot, UInt64.toNat_add, UInt64.toNat_one, hseq]
      norm_num
    have hi : Issue (lus copiesMeta d) (stale version (lus copiesMeta d)) e.choisitBoot.2
        (lus copiesMeta d1) := .inr (.inr hl)
    obtain ⟨d', hd'⟩ := ih hs' (hi.coherentes hg hc hv.ne')
      (by rw [hl]; exact newest_update_of_lt hg.other hv) (k + 1)
    have hboote := Essais.run_boote (s := e.choisitBoot.1) k hrun
    rw [if_pos hessaie] at hboote
    refine ⟨d', ?_⟩
    rw [Nat.add_comm N 1, ← Nat.add_assoc]
    exact hboote.trans hd'

def disqueDe (e : Enregistrement) : Disk ℕ (List UInt8) := ⟨fun _ => e.encode, []⟩

theorem disqueDe_posees (e : Enregistrement) : CopiesPosees copiesMeta (disqueDe e) :=
  fun _ => Disk.settled_of_cache_nil rfl _

theorem lus_disqueDe (he : e.ActifBon) : lus copiesMeta (disqueDe e) = fun _ => some e := by
  funext i
  have ht : e.encode.take octets = e.encode := by rw [← length_encode e, List.take_length]
  have hr : (disqueDe e).read (copiesMeta i) = e.encode := rfl
  rw [lus, hr, decodeBloc, ht, decode_encode he]

theorem selection_disqueDe (he : e.ActifBon) : selection copiesMeta (disqueDe e) = some e := by
  rw [selection_eq_newest, lus_disqueDe he]
  simp [newest]

/-- Slot A runs and slot B is empty, at a given sequence number. -/
def enInstallation (sequence : UInt64) : Enregistrement :=
  ⟨sequence, .A, ⟨.bon, Vector.replicate 32 0⟩, .neuf⟩

/-- A candidate marked with two attempts on a fresh machine. -/
theorem essais_bornes_deux :
    let e := (enInstallation 2).suivant.avecSlot .B ⟨.candidat 2, Vector.replicate 32 7⟩
    let d₁ := ((persisteCopies copiesMeta toute e).exec (disqueDe (enInstallation 2))).2
    ∀ m : Essais Unit, Relation.ReflTransGen (Essais.Pas .B) ⟨d₁, none, 0⟩ m → m.boots ≤ 2 := by
  intro e d₁
  have hb : (enInstallation 2).ActifBon := by decide
  have hm : (enInstallation 2).marqueCandidat .B (Vector.replicate 32 7) (Vector.replicate 32 7)
      2 = .ok e := by decide
  have hx := persisteCopies_exec (suit_marqueCandidat hb hm).actifBon (disqueDe_posees (enInstallation 2))
  have hrun := run_exec partitionMeta (persisteCopies copiesMeta toute e) (disqueDe (enInstallation 2))
  rw [hx.1] at hrun
  exact (essais_bornes (disqueDe_posees _) (selection_disqueDe hb) hm (by decide) hrun).1

/-- At the last sequence number one attempt is consumed without end: whatever
the number `N`, the slot marked with a single attempt is booted `N` times. -/
theorem essais_non_bornes :
    ∃ (e₀ e : Enregistrement) (d₀ d₁ : Disk ℕ (List UInt8)), CopiesPosees copiesMeta d₀ ∧
      selection copiesMeta d₀ = some e₀ ∧
      e₀.marqueCandidat .B (Vector.replicate 32 7) (Vector.replicate 32 7) 1 = .ok e ∧
      Run partitionMeta (persisteCopies copiesMeta toute e, d₀) (.pure (.ok ()), d₁) ∧
      ∀ N, ∃ m : Essais Unit, Relation.ReflTransGen (Essais.Pas .B) ⟨d₁, none, 0⟩ m ∧ m.boots = N := by
  let e₀ := enInstallation 0xFFFFFFFFFFFFFFFE
  let e := e₀.suivant.avecSlot .B ⟨.candidat 1, Vector.replicate 32 7⟩
  have hb : e₀.ActifBon := by decide
  have hm : e₀.marqueCandidat .B (Vector.replicate 32 7) (Vector.replicate 32 7) 1 = .ok e := by
    decide
  have hsuit := suit_marqueCandidat hb hm
  obtain ⟨hok, hs, hl⟩ := persisteCopies_exec hsuit.actifBon (disqueDe_posees e₀)
  have hrun := run_exec partitionMeta (persisteCopies copiesMeta toute e) (disqueDe e₀)
  rw [hok] at hrun
  refine ⟨e₀, e, disqueDe e₀, _, disqueDe_posees e₀, selection_disqueDe hb, hm, hrun, ?_⟩
  intro N
  have hlt : version e₀ < version e := by decide
  have hc : Consistent version (lus copiesMeta ((persisteCopies copiesMeta toute e).exec
      (disqueDe e₀)).2) := by
    rw [hl, lus_disqueDe hb]
    apply Consistent.update_some
    intro x hx
    cases hx
    exact hlt.ne
  have he : newest version (lus copiesMeta ((persisteCopies copiesMeta toute e).exec
      (disqueDe e₀)).2) = some e := by
    rw [hl, lus_disqueDe hb]
    apply newest_update_newer
    intro r hr
    simp only [newest, lt_irrefl, if_false, Option.some.injEq] at hr
    exact hr ▸ hlt
  obtain ⟨d', hd'⟩ := essais_sans_fin (by decide) (by decide) N hs hc he 0
  exact ⟨_, hd', Nat.zero_add N⟩

end BouchaudOS.Update.Chargeur
