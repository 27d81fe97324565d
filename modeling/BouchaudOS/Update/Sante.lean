import BouchaudOS.Update.Essais

/-!
# Health commits only what ran

The loader decides, boots and hands over; the kernel then changes the record
on the same META partition, each change persisted with any outcome (the write
may fail, and may nevertheless have reached the disk). The module relates the
record that `commitSante` is asked about to what the loader did.
-/
namespace BouchaudOS.Update.Chargeur

open VersionedPair Enregistrement
open Prog hiding pure

variable {H : Type} {e₀ : Enregistrement}

/-- What the kernel keeps between calls: the disk, and the target of the
installation session. -/
structure Noyau where
  disque : Disk ℕ (List UInt8)
  session : Option Slot

/-- The session after a persist: changed only if it succeeded. -/
def Noyau.sessionApres (ancienne nouvelle : Option Slot) : Except String Unit → Option Slot
  | .ok _ => nouvelle
  | .error _ => ancienne

/-- The record changes of an installation, under the handoff `pas`. -/
inductive PasInstallation (pas : Passage) : Noyau → Noyau → Prop
  | commence {k : Noyau} {d' : Disk ℕ (List UInt8)} {e n : Enregistrement} {cible : Slot}
      {r : Except String Unit} : selection copiesMeta k.disque = some e →
      e.commenceInstallation cible pas.slot = .ok n →
      Run partitionMeta (persisteCopies copiesMeta toute n, k.disque) (.pure r, d') →
      PasInstallation pas k ⟨d', Noyau.sessionApres k.session (some cible) r⟩
  | marque {k : Noyau} {d' : Disk ℕ (List UInt8)} {e n : Enregistrement} {cible : Slot}
      {image relue : Image} {essais : UInt8} {r : Except String Unit} :
      k.session = some cible → selection copiesMeta k.disque = some e →
      e.marqueCandidat cible image relue essais = .ok n →
      Run partitionMeta (persisteCopies copiesMeta toute n, k.disque) (.pure r, d') →
      PasInstallation pas k ⟨d', Noyau.sessionApres k.session none r⟩

/-- Every record change of the kernel. -/
inductive PasNoyau (pas : Passage) : Noyau → Noyau → Prop
  | installation {k k' : Noyau} : PasInstallation pas k k' → PasNoyau pas k k'
  | revient {k : Noyau} {d' : Disk ℕ (List UInt8)} {e n : Enregistrement}
      {r : Except String Unit} : selection copiesMeta k.disque = some e → e.revient = .ok n →
      Run partitionMeta (persisteCopies copiesMeta toute n, k.disque) (.pure r, d') →
      PasNoyau pas k ⟨d', k.session⟩
  | sante {k : Noyau} {d' : Disk ℕ (List UInt8)} {e n : Enregistrement}
      {r : Except String Unit} : selection copiesMeta k.disque = some e →
      commitSante pas e = .ok (some n) →
      Run partitionMeta (persisteCopies copiesMeta toute n, k.disque) (.pure r, d') →
      PasNoyau pas k ⟨d', k.session⟩

variable {e n : Enregistrement} {s cible : Slot} {d d' : Disk ℕ (List UInt8)}
  {r : Except String Unit} {apres : Enregistrement} {k k' : Noyau} {p : Fin 2 → Option Enregistrement}

theorem slot_eq_actif {a : Slot} (h1 : cible ≠ s) (h2 : cible ≠ a) : s = a := by
  rw [Slot.eq_autre_of_ne h1.symm, Slot.eq_autre_of_ne h2.symm]

theorem not_candidat_of_actif (hb : n.ActifBon) (hs : s = n.actif) : ¬(n.slot s).etat.EstCandidat :=
  fun hc => ne_actif_of_candidat hb hc hs

theorem not_candidat_commence (hb : e.ActifBon)
    (h : e.commenceInstallation cible s = .ok n) : ¬(n.slot s).etat.EstCandidat := by
  have hn := (suit_commenceInstallation hb h).actifBon
  obtain ⟨hs, ha, -, rfl⟩ := commenceInstallation_ok h
  exact not_candidat_of_actif hn (by simpa using slot_eq_actif hs ha)

theorem not_candidat_marque {image relue : Image} {essais : UInt8} (hb : e.ActifBon)
    (hs : cible ≠ s) (h : e.marqueCandidat cible image relue essais = .ok n) :
    ¬(n.slot s).etat.EstCandidat := by
  have hn := (suit_marqueCandidat hb h).actifBon
  obtain ⟨ha, -, -, -, rfl⟩ := marqueCandidat_ok h
  exact not_candidat_of_actif hn (by simpa using slot_eq_actif hs ha)

theorem not_candidat_revient (hb : e.ActifBon) (h : e.revient = .ok n) : ¬(n.slot s).etat.EstCandidat := by
  obtain ⟨hautre, rfl⟩ := revient_ok h
  have hactif : (e.slot e.actif).etat = .bon := hb
  rw [slot_avecActif, suivant_slot]
  rcases Slot.eq_or_eq_autre s e.actif with rfl | rfl
  · simp [hactif, Etat.EstCandidat]
  · simp [hautre, Etat.EstCandidat]

theorem not_candidat_santeOk (hc : (e.slot s).etat.EstCandidat) :
    ¬((e.santeOk s).slot s).etat.EstCandidat := by
  rcases santeOk_cases e s with ⟨-, h⟩ | ⟨h, -⟩
  · simp [h, Etat.EstCandidat]
  · exact absurd hc h

theorem persiste_issue (hs : CopiesPosees copiesMeta d) (hn : n.ActifBon)
    (hr : Run partitionMeta (persisteCopies copiesMeta toute n, d) (.pure r, d')) :
    CopiesPosees copiesMeta d' ∧
      Issue (lus copiesMeta d) (stale version (lus copiesMeta d)) n (lus copiesMeta d') := by
  have h := wp_persisteCopies (P := toute) partitionMeta_detecte (fun _ => rfl) hn hs rfl
  exact ⟨(h.post hr).posees, (h.inv_run hr).1⟩

/-- The kernel's state after the boot of slot `s` on record `apres`: the session
never targets the running slot, and the only record of this sequence number in
which that slot is a candidate is `apres`. -/
structure Tient (s : Slot) (apres : Enregistrement) (k : Noyau) : Prop where
  posees : CopiesPosees copiesMeta k.disque
  session : ∀ c, k.session = some c → c ≠ s
  seul : ∀ i x, lus copiesMeta k.disque i = some x → (x.slot s).etat.EstCandidat →
    x.sequence = apres.sequence → x = apres

theorem Tient.persiste {k : Noyau} {session : Option Slot}
    (h : Tient s apres k) (hn : n.ActifBon) (hc : ¬(n.slot s).etat.EstCandidat)
    (hsess : ∀ c, session = some c → c ≠ s)
    (hr : Run partitionMeta (persisteCopies copiesMeta toute n, k.disque) (.pure r, d')) :
    Tient s apres ⟨d', session⟩ := by
  obtain ⟨hs, hi⟩ := persiste_issue h.posees hn hr
  refine ⟨hs, hsess, fun i x hx hcx hseq => ?_⟩
  rcases hi.mem hx with hold | rfl
  · exact h.seul i x hold hcx hseq
  · exact absurd hcx hc

theorem sessionApres_ne {ancienne nouvelle : Option Slot}
    (h1 : ∀ c, ancienne = some c → c ≠ s) (h2 : ∀ c, nouvelle = some c → c ≠ s) :
    ∀ c, Noyau.sessionApres ancienne nouvelle r = some c → c ≠ s := by
  cases r
  · exact h1
  · exact h2

theorem Tient.pas {pas : Passage}
    (h : Tient pas.slot apres k) (hp : PasNoyau pas k k') : Tient pas.slot apres k' := by
  cases hp with
  | installation hi =>
    cases hi with
    | commence he hop hr =>
      have hb := actifBon_of_selection he
      have hcible := (commenceInstallation_ok hop).1
      refine h.persiste (suit_commenceInstallation hb hop).actifBon
        (not_candidat_commence hb hop) (sessionApres_ne h.session ?_) hr
      intro c hc
      cases hc
      exact hcible
    | marque hsess he hop hr =>
      have hb := actifBon_of_selection he
      exact h.persiste (suit_marqueCandidat hb hop).actifBon
        (not_candidat_marque hb (h.session _ hsess) hop) (sessionApres_ne h.session nofun) hr
  | revient he hop hr =>
    have hb := actifBon_of_selection he
    exact h.persiste (suit_revient hop).actifBon (not_candidat_revient hb hop) h.session hr
  | @sante _ e _ _ he hop hr =>
    obtain ⟨-, -, hc, rfl⟩ := commitSante_some hop
    have hne := not_candidat_santeOk hc
    have hb : (e.santeOk pas.slot).ActifBon := by
      rcases suit_santeOk e pas.slot with hsame | hsuit
      · rw [hsame]
        exact actifBon_of_selection he
      · exact hsuit.actifBon
    exact h.persiste hb hne h.session hr

theorem Tient.run {pas : Passage}
    (h : Tient pas.slot apres k) (hr : Relation.ReflTransGen (PasNoyau pas) k k') :
    Tient pas.slot apres k' := by
  induction hr with
  | refl => exact h
  | tail _ hstep ih => exact ih.pas hstep

/-- The boot of a candidate puts the kernel in that state. -/
theorem tient_boot (hs : CopiesPosees copiesMeta d) (he0 : newest version p = some e₀)
    (hslot : e₀.choisitBoot.1 ≠ e₀.actif)
    (hl : lus copiesMeta d = Function.update p (stale version p) (some e₀.choisitBoot.2)) :
    Tient s e₀.choisitBoot.2 ⟨d, none⟩ := by
  refine ⟨hs, nofun, fun i x hx _ hseq => ?_⟩
  rw [hl] at hx
  by_cases hi : i = stale version p
  · simpa [hi] using hx.symm
  · -- the copy kept has the sequence number before
    rw [Function.update_of_ne hi] at hx
    have hi' : i = 1 - stale version p := by omega
    have hkey := key_kept he0 (hi' ▸ hx)
    rw [version, version, hseq, choisitBoot_sequence hslot, UInt64.toNat_add, UInt64.toNat_one] at hkey
    omega

/-- The kernel's state while the active slot `s` runs. -/
structure Sert (s : Slot) (k : Noyau) : Prop where
  posees : CopiesPosees copiesMeta k.disque
  coherentes : Consistent version (lus copiesMeta k.disque)
  courant : ∃ x, newest version (lus copiesMeta k.disque) = some x ∧ x.actif = s

theorem Sert.persiste {k : Noyau} {session : Option Slot} (h : Sert s k)
    (he : selection copiesMeta k.disque = some e) (hsuit : Suit e n) (ha : n.actif = e.actif)
    (hr : Run partitionMeta (persisteCopies copiesMeta toute n, k.disque) (.pure r, d')) :
    Sert s ⟨d', session⟩ := by
  obtain ⟨x, hx, hxs⟩ := h.courant
  have hxe : x = e := by
    rw [selection_eq_newest, hx, Option.some.injEq] at he
    exact he
  subst hxe
  obtain ⟨hs, hi⟩ := persiste_issue h.posees hsuit.actifBon hr
  have hg := h.coherentes.guards_stale hx
  have hne : version x ≠ version n := by
    intro hv
    exact hsuit.sequence_ne (UInt64.toNat_inj.mp hv)
  refine ⟨hs, hi.coherentes hg h.coherentes hne, ?_⟩
  rcases hi.courant_of_ne hg hne with hcur | hcur
  · exact ⟨x, hcur, hxs⟩
  · exact ⟨n, hcur, ha.trans hxs⟩

theorem Sert.pas {pas : Passage} (h : Sert s k) (hp : PasInstallation pas k k') : Sert s k' := by
  cases hp with
  | commence he hop hr =>
    refine h.persiste he (suit_commenceInstallation (actifBon_of_selection he) hop) ?_ hr
    simp [(commenceInstallation_ok hop).2.2.2]
  | marque _ he hop hr =>
    refine h.persiste he (suit_marqueCandidat (actifBon_of_selection he) hop) ?_ hr
    simp [(marqueCandidat_ok hop).2.2.2.2]

theorem Sert.run {pas : Passage} (h : Sert s k)
    (hr : Relation.ReflTransGen (PasInstallation pas) k k') : Sert s k' := by
  induction hr with
  | refl => exact h
  | tail _ hstep ih => exact ih.pas hstep

theorem sert_boot (hs : CopiesPosees copiesMeta d) (hc : Consistent version p)
    (he0 : newest version p = some e₀) (ha : e₀.actif = s)
    (hl : Laisse p (some e₀) (lus copiesMeta d)) : Sert s ⟨d, none⟩ := by
  obtain ⟨hq, hcur | ⟨-, hcur⟩⟩ := hl.courant hc he0
  · exact ⟨hs, hq, e₀, hcur, ha⟩
  · exact ⟨hs, hq, _, hcur, by rw [choisitBoot_actif, ha]⟩

theorem santeOk_slots (hc : (e.slot s).etat.EstCandidat) :
    (e.santeOk s).sequence = e.sequence + 1 ∧ (e.santeOk s).actif = s ∧
      (e.santeOk s).slot s = { e.slot s with etat := .bon } ∧
      (e.santeOk s).slot s.autre = e.slot s.autre := by
  rcases santeOk_cases e s with ⟨-, h⟩ | ⟨h, -⟩
  · rw [h]
    simp [avecEtat]
  · exact absurd hc h

/-- Health commits only what ran. A commit that writes a record follows the boot
of a candidate whose attempt was durably consumed, is made on exactly the record
the loader left on disk, and only makes that slot good and active. After the boot
of the active slot, whatever is installed meanwhile, it writes nothing. After a
recovery boot it is refused. -/
theorem sante_confirme_ce_qui_a_tourne {env : Environnement H} {d d₁ : Disk ℕ (List UInt8)}
    {s : Slot} {h : H} {texte : String} {pas : Passage} {rec : Bool}
    (hs : CopiesPosees copiesMeta d)
    (hboot : Run partitionMeta (env.decide, d) (.pure (.boot s h texte pas rec), d₁)) :
    (∀ k e n, Relation.ReflTransGen (PasNoyau pas) ⟨d₁, none⟩ k →
      selection copiesMeta k.disque = some e → commitSante pas e = .ok (some n) →
      rec = false ∧ pas.slot = s ∧ pas.raison = .candidatEssaiConsomme ∧
      (∃ e₀ essais, selection copiesMeta d = some e₀ ∧ (e₀.slot s).etat = .candidat essais ∧
        0 < essais ∧ e = e₀.suivant.avecEtat s (.candidat (essais - 1))) ∧
      (∃ i, d₁.Settled (copiesMeta i) ∧ decodeBloc (d₁.durable (copiesMeta i)) = some e) ∧
      n.sequence = e.sequence + 1 ∧ n.actif = s ∧
      n.slot s = { e.slot s with etat := .bon } ∧ n.slot s.autre = e.slot s.autre) ∧
    (Consistent version (lus copiesMeta d) → rec = false →
      (∀ e₀, selection copiesMeta d = some e₀ → s = e₀.actif) →
      ∀ k, Relation.ReflTransGen (PasInstallation pas) ⟨d₁, none⟩ k →
        ∃ e, selection copiesMeta k.disque = some e ∧ commitSante pas e = .ok none) ∧
    (rec = true → ∀ e, ∃ refus, commitSante pas e = .error refus) := by
  obtain ⟨hs₁, hv⟩ := (wp_decide env partitionMeta_detecte hs).post hboot
  refine ⟨fun k e n hk he hn => ?_, fun hc hrec hactif k hk => ?_, fun hrec e => ?_⟩
  · obtain ⟨hraison, hseq, hcand, rfl⟩ := commitSante_some hn
    have hrec : rec = false := by
      cases rec with
      | false => rfl
      | true =>
        have := hv.estRecovery
        rw [hraison] at this
        cases this
    subst hrec
    obtain ⟨e₀, c, he₀, hcl, hchoisi, hslot, hr, hsq⟩ := hv.systeme
    obtain ⟨hne, rfl, hl⟩ := hcl.candidat_inv (hr.symm.trans hraison)
    simp only at hchoisi hsq
    have hnew : newest version (lus copiesMeta d) = some e₀ := by
      rw [← selection_eq_newest, he₀]
    have hboot' : Tient pas.slot e₀.choisitBoot.2 ⟨d₁, none⟩ := tient_boot hs₁ hnew hne hl
    obtain ⟨i, hi⟩ := mem_of_newest ((selection_eq_newest _ _).symm.trans he)
    have hee : e = e₀.choisitBoot.2 := (hboot'.run hk).seul i e hi hcand (hseq.trans hsq)
    obtain ⟨essais, hc, h0, hb⟩ := choisitBoot_autre hne
    rw [hchoisi] at hc hb
    rw [hslot] at hcand ⊢
    exact ⟨rfl, rfl, hraison, ⟨e₀, essais, he₀, hc, h0, hee.trans hb⟩,
      hee ▸ durable_of_lus hs₁ hl, santeOk_slots hcand⟩
  · subst hrec
    obtain ⟨e₀, c, he₀, hcl, hchoisi, hslot, hr, -⟩ := hv.systeme
    have hnew : newest version (lus copiesMeta d) = some e₀ := by
      rw [← selection_eq_newest, he₀]
    have hsert := (sert_boot hs₁ hc hnew (hactif e₀ he₀).symm hcl.laisse).run hk
    obtain ⟨x, hx, hxs⟩ := hsert.courant
    have hsel : selection copiesMeta k.disque = some x := by rw [selection_eq_newest, hx]
    refine ⟨x, hsel, commitSante_of_actif ?_ (by rw [hxs, hslot]) (actifBon_of_selection hsel)⟩
    rw [hr]
    exact hcl.not_recovery
  · subst hrec
    exact ⟨_, commitSante_of_recovery hv.estRecovery e⟩

/-- Where no request fails, a pending candidate is booted and its health commit
promotes it. -/
theorem firmware_commit (hb : e₀.ActifBon)
    (hslot : e₀.choisitBoot.1 ≠ e₀.actif) (hlt : version e₀ < version e₀.choisitBoot.2) :
    ∃ (texte : String) (pas : Passage) (d1 : Disk ℕ (List UInt8)),
      Run partitionMeta (firmware.decide, disqueDe e₀)
        (.pure (.boot e₀.choisitBoot.1 () texte pas false), d1) ∧
      selection copiesMeta d1 = some e₀.choisitBoot.2 ∧
      commitSante pas e₀.choisitBoot.2 =
        .ok (some (e₀.choisitBoot.2.santeOk e₀.choisitBoot.1)) := by
  have hs := disqueDe_posees e₀
  obtain ⟨dec, d1, hrun, hessaie, -, hl⟩ := firmware_essaie hs (selection_disqueDe hb) hslot
  obtain ⟨_, texte, pas, rfl, hraison⟩ := hessaie.inv
  have hdec := (wp_decide firmware partitionMeta_detecte hs).post hrun
  obtain ⟨e1, c, he1, hcl, -, hpas, hc, hseq⟩ := hdec.2.systeme
  obtain ⟨-, rfl, -⟩ := hcl.candidat_inv (hc.symm.trans hraison)
  rw [selection_disqueDe hb, Option.some.injEq] at he1
  subst he1
  obtain ⟨essais, -, -, hapres⟩ := choisitBoot_autre hslot
  refine ⟨texte, pas, d1, hrun, ?_, ?_⟩
  · rw [selection_eq_newest, hl, lus_disqueDe hb]
    apply newest_update_newer
    intro r hr
    simp only [newest, lt_irrefl, if_false, Option.some.injEq] at hr
    exact hr ▸ hlt
  · have hcand : (e₀.choisitBoot.2.slot e₀.choisitBoot.1).etat = .candidat (essais - 1) := by
      rw [hapres, slot_avecEtat_self]
    simp [commitSante, hraison, hpas, hseq, hcand, Raison.estRecovery]

/-- A candidate with two attempts is booted, and its health commit makes it the
active slot. -/
theorem sante_confirme_candidat :
    let e₀ := (enInstallation 2).suivant.avecSlot .B ⟨.candidat 2, Vector.replicate 32 7⟩
    ∃ (texte : String) (pas : Passage) (d₁ : Disk ℕ (List UInt8)) (e n : Enregistrement),
      Run partitionMeta (firmware.decide, disqueDe e₀) (.pure (.boot .B () texte pas false), d₁) ∧
      selection copiesMeta d₁ = some e ∧ commitSante pas e = .ok (some n) ∧
      n.actif = .B ∧ (n.slot .B).etat = .bon ∧ n.slot .A = e.slot .A := by
  intro e₀
  have hslot : e₀.choisitBoot.1 = .B := by decide
  obtain ⟨texte, pas, d₁, hrun, hsel, hcommit⟩ :=
    firmware_commit (show e₀.ActifBon by decide) (by decide) (by decide)
  rw [hslot] at hrun hcommit
  obtain ⟨-, -, -, -, -, -, hactif, hbon, hautre⟩ :=
    (sante_confirme_ce_qui_a_tourne (disqueDe_posees e₀) hrun).1 ⟨d₁, none⟩ _ _ .refl hsel hcommit
  exact ⟨texte, pas, d₁, _, _, hrun, hsel, hcommit, hactif, by rw [hbon], hautre⟩

end BouchaudOS.Update.Chargeur
