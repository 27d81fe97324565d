import BouchaudOS.Update.Passage

/-!
# Histories of the boot record

Every record is reached from an initial one by a finite sequence of operations
of the loader and the kernel, in any order and with any arguments. A refused
operation leaves the record unchanged. The module says what one operation can
do to a slot and to the sequence number, and carries the invariant (the active
slot is good) over whole histories.
-/
namespace BouchaudOS.Update

open Enregistrement

/-- The operations the loader and the kernel apply to the record. -/
inductive Operation
  | commenceInstallation (cible enCours : Slot)
  | marqueCandidat (cible : Slot) (image empreinteRelue : Image) (essais : UInt8)
  | choisitBoot
  | santeOk (slot : Slot)
  | santeKo (slot : Slot)
  | revient
  | commitSante (p : Passage)

/-- The record after an operation; a refusal leaves it unchanged. -/
def Operation.applique (e : Enregistrement) : Operation → Enregistrement
  | .commenceInstallation cible enCours => (e.commenceInstallation cible enCours).toOption.getD e
  | .marqueCandidat cible image relue essais =>
      (e.marqueCandidat cible image relue essais).toOption.getD e
  | .choisitBoot => e.choisitBoot.2
  | .santeOk slot => e.santeOk slot
  | .santeKo slot => e.santeKo slot
  | .revient => e.revient.toOption.getD e
  | .commitSante p => ((Update.commitSante p e).toOption.join).getD e

def historique (e : Enregistrement) (ops : List Operation) : Enregistrement :=
  ops.foldl Operation.applique e

variable {e : Enregistrement} {s : Slot}

/-- What an operation can do to the record. -/
inductive Operation.Effet (e : Enregistrement) : Operation → Enregistrement → Prop
  | rien (op : Operation) : Effet e op e
  | installe {cible enCours n} : e.commenceInstallation cible enCours = .ok n →
      Effet e (.commenceInstallation cible enCours) n
  | marque {cible image relue essais n} : e.marqueCandidat cible image relue essais = .ok n →
      Effet e (.marqueCandidat cible image relue essais) n
  | boot : Effet e .choisitBoot e.choisitBoot.2
  | santeOk (op : Operation) (s : Slot) : Effet e op (e.santeOk s)
  | santeKo (s : Slot) : Effet e (.santeKo s) (e.santeKo s)
  | revient {n} : e.revient = .ok n → Effet e .revient n

theorem effet_getD {op : Operation} {x : Except RefusEtat Enregistrement}
    (h : ∀ n, x = .ok n → op.Effet e n) : op.Effet e (x.toOption.getD e) := by
  cases x with
  | error r => exact .rien op
  | ok n => exact h n rfl

theorem Operation.applique_effet (e : Enregistrement) (op : Operation) : op.Effet e (op.applique e) := by
  cases op with
  | commenceInstallation cible enCours => exact effet_getD fun n => .installe
  | marqueCandidat cible image relue essais => exact effet_getD fun n => .marque
  | choisitBoot => exact .boot
  | santeOk s => exact .santeOk _ s
  | santeKo s => exact .santeKo s
  | revient => exact effet_getD fun n => .revient
  | commitSante p =>
    rw [applique]
    match h : Update.commitSante p e with
    | .error r => exact .rien _
    | .ok none => exact .rien _
    | .ok (some n) =>
      rw [(commitSante_some h).2.2.2]
      exact .santeOk _ p.slot

/-- An operation leaves the record alone or takes it to the next sequence
number, and the active slot stays good. -/
theorem Operation.applique_suit (hb : e.ActifBon) (op : Operation) :
    op.applique e = e ∨ Suit e (op.applique e) := by
  have h := op.applique_effet e
  generalize op.applique e = n at h ⊢
  cases h with
  | rien => exact .inl rfl
  | installe h => exact .inr (suit_commenceInstallation hb h)
  | marque h => exact .inr (suit_marqueCandidat hb h)
  | boot => exact suit_choisitBoot hb
  | santeOk _ s => exact suit_santeOk e s
  | santeKo s => exact suit_santeKo hb s
  | revient h => exact .inr (suit_revient h)

theorem Operation.applique_actifBon (hb : e.ActifBon) (op : Operation) : (op.applique e).ActifBon := by
  rcases applique_suit hb op with h | h
  · rwa [h]
  · exact h.actifBon

theorem actifBon_historique (hb : e.ActifBon) (ops : List Operation) : (historique e ops).ActifBon := by
  induction ops generalizing e with
  | nil => exact hb
  | cons op ops ih => exact ih (op.applique_actifBon hb)

theorem etat_santeOk_of_mauvais
    (h : (e.slot s).etat = .mauvais) (t : Slot) : ((e.santeOk t).slot s).etat = .mauvais := by
  rcases santeOk_cases e t with ⟨hc, h'⟩ | ⟨-, h'⟩ <;> rw [h']
  · have hne : s ≠ t := by
      rintro rfl
      simp [h, Etat.EstCandidat] at hc
    rwa [slot_avecActif, slot_avecEtat_of_ne _ _ hne, suivant_slot]
  · exact h

theorem etat_avecEtat_of_mauvais {t : Slot} {u : Etat}
    (h : (e.slot s).etat = .mauvais) (hu : s = t → u = .mauvais) :
    ((e.suivant.avecEtat t u).slot s).etat = .mauvais := by
  by_cases hst : s = t
  · rw [← hst, slot_avecEtat_self, hu hst]
  · rwa [slot_avecEtat_of_ne _ _ hst, suivant_slot]

/-- A bad slot stays bad under every operation other than the start of an
installation into it, which empties it. -/
theorem Operation.applique_mauvais (h : (e.slot s).etat = .mauvais) (op : Operation) :
    ((op.applique e).slot s).etat = .mauvais ∨
      ∃ enCours n, op = .commenceInstallation s enCours ∧
        e.commenceInstallation s enCours = .ok n ∧ (n.slot s).etat = .vide := by
  have heffet := op.applique_effet e
  generalize op.applique e = n at heffet ⊢
  cases heffet with
  | rien => exact .inl h
  | @installe cible enCours n hop =>
    obtain ⟨-, -, -, hn⟩ := commenceInstallation_ok hop
    by_cases hs : s = cible
    · subst hs
      refine .inr ⟨enCours, n, rfl, hop, ?_⟩
      simp [hn, InfoSlot.neuf]
    · exact .inl (by simpa [hn, slot_avecSlot_of_ne _ _ hs] using h)
  | @marque cible image relue essais n hop =>
    obtain ⟨-, hvide, -, -, hn⟩ := marqueCandidat_ok hop
    have hs : s ≠ cible := by
      rintro rfl
      simp [h] at hvide
    exact .inl (by simpa [hn, slot_avecSlot_of_ne _ _ hs] using h)
  | boot =>
    refine .inl ?_
    rcases choisitBoot_cases e with ⟨essais, hc, -, hop⟩ | ⟨hc, hop⟩ | ⟨-, hop⟩
    · rw [hop]
      exact etat_avecEtat_of_mauvais h fun hs => by simp [← hs, h] at hc
    · rw [hop]
      exact etat_avecEtat_of_mauvais h fun _ => rfl
    · rwa [hop]
  | santeOk _ t => exact .inl (etat_santeOk_of_mauvais h t)
  | santeKo t =>
    refine .inl ?_
    rcases santeKo_cases e t with ⟨-, hop⟩ | ⟨-, hop⟩ <;> rw [hop]
    · exact etat_avecEtat_of_mauvais h fun _ => rfl
    · exact h
  | revient hop => exact .inl (by simpa [(revient_ok hop).2] using h)

/-- The slot a boot chooses is good or a candidate, before and after the
decision. -/
theorem choisitBoot_amorcable (hb : e.ActifBon) : ∀ r ∈ [e, e.choisitBoot.2],
      (r.slot e.choisitBoot.1).etat ≠ .vide ∧ (r.slot e.choisitBoot.1).etat ≠ .mauvais := by
  have hbon : (e.slot e.actif).etat = .bon := hb
  intro r hr
  simp only [List.mem_cons, List.not_mem_nil, or_false] at hr
  rcases choisitBoot_cases e with ⟨essais, hc, -, h⟩ | ⟨-, h⟩ | ⟨-, h⟩
  · rw [h] at hr ⊢
    rcases hr with rfl | rfl
    · simp [hc]
    · simp
  · rw [h] at hr ⊢
    rcases hr with rfl | rfl
    · simp [hbon]
    · simp [slot_avecEtat_of_ne _ _ (Slot.autre_ne e.actif).symm, hbon]
  · rw [h] at hr ⊢
    rcases hr with rfl | rfl <;> simp [hbon]

/-- Safety of the record over whole histories. -/
theorem historique_sur (a : Slot) (i : Image) (ops : List Operation) :
    let e := historique (initial a i) ops
    (e.slot e.actif).etat = .bon ∧
    (∀ r ∈ [e, e.choisitBoot.2],
      (r.slot e.choisitBoot.1).etat ≠ .vide ∧ (r.slot e.choisitBoot.1).etat ≠ .mauvais) ∧
    (∀ cible enCours n, e.commenceInstallation cible enCours = .ok n → cible ≠ e.actif ∧ cible ≠ enCours) ∧
    (∀ (s : Slot) (op : Operation), (e.slot s).etat = .mauvais →
      ((op.applique e).slot s).etat ≠ .mauvais → ∃ enCours, op = .commenceInstallation s enCours) ∧
    (∀ op : Operation, op.applique e ≠ e → e.sequence.toNat < 2 ^ 64 - 1 →
      e.sequence < (op.applique e).sequence) ∧
    decode e.encode = some e := by
  intro e
  have hb : e.ActifBon := actifBon_historique (actifBon_initial a i) ops
  refine ⟨hb, choisitBoot_amorcable hb, ?_, ?_, ?_, decode_encode hb⟩
  · intro cible enCours n h
    obtain ⟨h1, h2, -, -⟩ := commenceInstallation_ok h
    exact ⟨h2, h1⟩
  · intro s op h h'
    obtain ⟨enCours, n, hop, -, -⟩ := (op.applique_mauvais h).resolve_left h'
    exact ⟨enCours, hop⟩
  · intro op hne hs
    have hsuit := (op.applique_suit hb).resolve_left hne
    exact UInt64.lt_iff_toNat_lt.mpr (hsuit.sequence_lt hs)

end BouchaudOS.Update
