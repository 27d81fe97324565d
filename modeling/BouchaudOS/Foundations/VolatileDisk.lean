import Mathlib

/-!
# A disk with a volatile write cache

Writes go to a cache and become durable at the next flush. Reads see the
newest cached write. When power is lost, every block that had pending writes
may hold any byte mixture of its versions (the durable one and every cached
one); a block without a pending write keeps its content.
-/
namespace BouchaudOS

open List

/-- Durable content and pending writes, newest first. -/
structure Disk (ι β : Type*) where
  durable : ι → β
  cache : List (ι × β)

namespace Disk

variable {ι β : Type*}

variable (d : Disk ι β)

def write (ws : List (ι × β)) : Disk ι β :=
  { d with cache := ws.reverse ++ d.cache }

def Settled (a : ι) : Prop := ∀ w ∈ d.cache, w.1 ≠ a

@[simp] theorem write_durable (ws : List (ι × β)) : (d.write ws).durable = d.durable := rfl

@[simp] theorem write_cache (ws : List (ι × β)) : (d.write ws).cache = ws.reverse ++ d.cache := rfl

variable {d : Disk ι β} {ws : List (ι × β)} {a : ι}

theorem settled_of_cache_nil (h : d.cache = []) (a : ι) : d.Settled a := by
  simp [Settled, h]

theorem Settled.write (hd : d.Settled a) (h : ∀ w ∈ ws, w.1 ≠ a) : (d.write ws).Settled a := by
  intro w hw
  rcases mem_append.mp hw with hw | hw
  · exact h w (mem_reverse.mp hw)
  · exact hd w hw

variable [DecidableEq ι]

section

variable (d : Disk ι β)

/-- The newest pending write of a block, or its durable content. -/
def read (a : ι) : β :=
  ((d.cache.find? fun w => w.1 = a).map Prod.snd).getD (d.durable a)

/-- Everything pending on the medium `P` becomes durable. -/
def flush (P : ι → Bool) : Disk ι β :=
  ⟨fun a => if P a then d.read a else d.durable a, d.cache.filter fun w => !P w.1⟩

/-- The contents a block may be found with: its durable one and the pending ones. -/
def versions (a : ι) : List β :=
  d.durable a :: (d.cache.filter fun w => w.1 = a).map Prod.snd

theorem flush_durable {P : ι → Bool} (h : P a = true) : (d.flush P).durable a = d.read a := by
  simp [flush, h]

theorem flush_settled {P : ι → Bool} (h : P a = true) : (d.flush P).Settled a := by
  intro w hw hwa
  have := (mem_filter.mp hw).2
  simp [hwa, h] at this

end

theorem Settled.flush (h : d.Settled a) (P : ι → Bool) : (d.flush P).Settled a :=
  fun w hw => h w (mem_of_mem_filter hw)

theorem Settled.read_eq (h : d.Settled a) : d.read a = d.durable a := by
  have hf : d.cache.find? (fun w => w.1 = a) = none := by
    simpa [find?_eq_none] using fun b x hw => h (b, x) hw
  simp [read, hf]

theorem Settled.versions_eq (h : d.Settled a) : d.versions a = [d.durable a] := by
  have hf : d.cache.filter (fun w => w.1 = a) = [] := by
    simpa [filter_eq_nil_iff] using fun b x hw => h (b, x) hw
  simp [versions, hf]

@[simp] theorem read_flush (d : Disk ι β) (P : ι → Bool) (a : ι) : (d.flush P).read a = d.read a := by
  by_cases h : P a = true
  · rw [(flush_settled d h).read_eq, flush_durable d h]
  · have hf : (d.cache.filter fun w => !P w.1).find? (fun w => w.1 = a) = d.cache.find? fun w => w.1 = a := by
      rw [find?_filter]
      congr 1
      funext w
      by_cases hw : w.1 = a
      · simp [hw, h]
      · simp [hw]
    simp [read, flush, hf, h]

theorem Settled.flush_durable (h : d.Settled a) (P : ι → Bool) : (d.flush P).durable a = d.durable a := by
  rw [← (h.flush P).read_eq, read_flush, h.read_eq]

theorem read_mem_versions (d : Disk ι β) (a : ι) : d.read a ∈ d.versions a := by
  unfold read versions
  cases hf : d.cache.find? (fun w => w.1 = a) with
  | none => exact mem_cons_self
  | some w =>
    have hw : w.1 = a := by simpa using find?_some hf
    refine mem_cons_of_mem _ (mem_map.mpr ⟨w, ?_, rfl⟩)
    exact mem_filter.mpr ⟨mem_of_find?_eq_some hf, by simpa using hw⟩

theorem read_write_of_notMem (h : ∀ w ∈ ws, w.1 ≠ a) : (d.write ws).read a = d.read a := by
  have hf : ws.reverse.find? (fun w => w.1 = a) = none := by
    simpa [find?_eq_none] using fun b x hw => h (b, x) hw
  simp [read, find?_append, hf]

@[simp] theorem read_write_single (d : Disk ι β) (a : ι) (b : β) : (d.write [(a, b)]).read a = b := by
  simp [read]

theorem versions_write_single (h : d.Settled a) (b : β) : (d.write [(a, b)]).versions a = [d.durable a, b] := by
  have hf : d.cache.filter (fun w => w.1 = a) = [] := by
    simpa [filter_eq_nil_iff] using fun c x hw => h (c, x) hw
  simp [versions, hf]

theorem read_write_of_mem (hn : (ws.map Prod.fst).Nodup) {b : β} (h : (a, b) ∈ ws) : (d.write ws).read a = b := by
  induction ws generalizing d with
  | nil => simp at h
  | cons w ws ih =>
    have hcons : d.write (w :: ws) = (d.write [w]).write ws := by simp [Disk.write]
    rw [map_cons, nodup_cons] at hn
    rw [hcons]
    rcases mem_cons.mp h with rfl | h
    · rw [read_write_of_notMem, read_write_single]
      intro w hw hwa
      exact hn.1 (mem_map.mpr ⟨w, hw, hwa⟩)
    · exact ih hn.2 h

theorem map_read_write_zip {as : List ι} {bs : List β} (hn : as.Nodup)
    (hl : as.length = bs.length) : as.map (d.write (as.zip bs)).read = bs := by
  apply ext_getElem (by simpa using hl)
  intro i hi hi'
  have hfst : (as.zip bs).map Prod.fst = as := map_fst_zip hl.le
  rw [getElem_map]
  refine read_write_of_mem (hfst.symm ▸ hn) ?_
  rw [mem_iff_getElem]
  exact ⟨i, by simpa using ⟨by simpa using hi, hi'⟩, by simp⟩

end Disk

variable {ι α : Type*}

/-- Each position of `x` comes from one of the versions. -/
def Mixture (vs : List (List α)) (x : List α) : Prop := ∀ k : ℕ, ∃ v ∈ vs, x[k]? = v[k]?

theorem mixture_singleton {v x : List α} (h : Mixture [v] x) : x = v := by
  apply ext_getElem?
  intro k
  obtain ⟨w, hw, hx⟩ := h k
  rwa [mem_singleton.mp hw] at hx

theorem mixture_of_mem {vs : List (List α)} {v : List α} (h : v ∈ vs) : Mixture vs v :=
  fun _ => ⟨v, h, rfl⟩

variable [DecidableEq ι]

/-- Power is lost: the cache is gone, and every block holds a mixture of its versions. -/
def PowerLoss (d d' : Disk ι (List α)) : Prop :=
  d'.cache = [] ∧ ∀ a, Mixture (d.versions a) (d'.durable a)

theorem PowerLoss.durable_eq {d d' : Disk ι (List α)} (h : PowerLoss d d') {a : ι}
    (ha : d.Settled a) : d'.durable a = d.durable a := by
  have hm := h.2 a
  rw [ha.versions_eq] at hm
  exact mixture_singleton hm

/-- A torn block of `S` that is none of its versions is rejected by its decoder. -/
def Detected {ρ : Type*} (S : ι → Prop) (decode : List α → Option ρ) (d d' : Disk ι (List α)) : Prop :=
  ∀ a, S a → d'.durable a ∈ d.versions a ∨ decode (d'.durable a) = none

end BouchaudOS
