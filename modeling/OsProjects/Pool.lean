import OsProjects.Transition
import Mathlib.Data.List.Perm.Subperm
import Mathlib.Data.List.Perm.Lattice

/-! # A pool of identifiers

The purpose of a queue of free resources, apart from any program: clients `κ` take identifiers
`ι` out of a first-in first-out queue and put them back.  Over any run, by any number of
clients, every identifier of the initial queue is in the queue or with exactly one client
(`Inv`, `inv_of_reach`).  A client that owns one knows that the queue is not full
(`Inv.length_lt`), and with no owner the queue holds the initial identifiers again, each once
(`Inv.perm`). -/

namespace OsProjects.Pool

open Transition

variable {ι κ : Type*}

structure State (ι κ : Type*) where
  free : List ι
  owner : κ → Option ι

inductive Move (κ : Type*) where
  | acquire (k : κ)
  | release (k : κ)

def init (ids : List ι) : State ι κ := ⟨ids, fun _ => none⟩

/-- Queue and clients share the identifiers `ids` out among themselves. -/
structure Inv (ids : List ι) (s : State ι κ) : Prop where
  nodup : s.free.Nodup
  free_sub : s.free ⊆ ids
  owner_mem : ∀ k i, s.owner k = some i → i ∈ ids
  disjoint : ∀ k i, s.owner k = some i → i ∉ s.free
  injective : ∀ k l i, s.owner k = some i → s.owner l = some i → k = l
  cover : ∀ i ∈ ids, i ∈ s.free ∨ ∃ k, s.owner k = some i

variable {ids : List ι} {s s' : State ι κ}

theorem inv_init (h : ids.Nodup) : Inv ids (init ids : State ι κ) where
  nodup := h
  free_sub := List.Subset.refl ids
  owner_mem := by simp [init]
  disjoint := by simp [init]
  injective := by simp [init]
  cover i hi := .inl hi

/-- While a client owns an identifier the queue is shorter than at the start. -/
theorem Inv.length_lt {k : κ} {i : ι} (hI : Inv ids s) (hk : s.owner k = some i) :
    s.free.length < ids.length := by
  have hsub : i :: s.free ⊆ ids := List.cons_subset.mpr ⟨hI.owner_mem k i hk, hI.free_sub⟩
  have hnodup : (i :: s.free).Nodup := List.nodup_cons.mpr ⟨hI.disjoint k i hk, hI.nodup⟩
  exact (List.subperm_of_subset hnodup hsub).length_le

theorem Inv.length_le (hI : Inv ids s) : s.free.length ≤ ids.length :=
  (List.subperm_of_subset hI.nodup hI.free_sub).length_le

/-- With no owner left every identifier is back, once. -/
theorem Inv.perm (hids : ids.Nodup) (hI : Inv ids s) (hk : ∀ k, s.owner k = none) :
    s.free.Perm ids := by
  refine (List.perm_ext_iff_of_nodup hI.nodup hids).mpr fun i => ⟨fun hi => hI.free_sub hi, ?_⟩
  intro hi
  apply (hI.cover i hi).resolve_right
  rintro ⟨k, hki⟩
  rw [hk k] at hki
  cases hki

/-! ### Steps -/

variable [DecidableEq κ]

def step (s : State ι κ) : Move κ → Option (State ι κ)
  | .acquire k =>
      match s.free, s.owner k with
      | i :: q, none => some ⟨q, Function.update s.owner k (some i)⟩
      | _, _ => none
  | .release k =>
      match s.owner k with
      | some i => some ⟨s.free ++ [i], Function.update s.owner k none⟩
      | none => none

theorem Inv.acquire {k : κ} {i : ι} {q : List ι} (hI : Inv ids s) (hq : s.free = i :: q)
    (hk : s.owner k = none) : Inv ids (⟨q, Function.update s.owner k (some i)⟩ : State ι κ) := by
  obtain ⟨hnodup, hsub, hmem, hdisj, hinj, hcover⟩ := hI
  rw [hq] at hnodup hsub
  obtain ⟨hiq, hnodup⟩ := List.nodup_cons.mp hnodup
  have hother : ∀ l, l ≠ k → s.owner l ≠ some i := by
    intro l _ hl
    exact hdisj l i hl (by rw [hq]; exact List.mem_cons_self)
  constructor
  · exact hnodup
  · exact fun j hj => hsub (List.mem_cons_of_mem i hj)
  · intro l j hj
    rcases eq_or_ne l k with rfl | hl
    · obtain rfl : i = j := by simpa using hj
      exact hsub List.mem_cons_self
    · exact hmem l j (by simpa [hl] using hj)
  · intro l j hj
    rcases eq_or_ne l k with rfl | hl
    · obtain rfl : i = j := by simpa using hj
      exact hiq
    · intro hjq
      exact hdisj l j (by simpa [hl] using hj) (by rw [hq]; exact List.mem_cons_of_mem i hjq)
  · intro l m j hl hm
    rcases eq_or_ne l k with rfl | hlk
    · obtain rfl : i = j := by simpa using hl
      by_contra hne
      exact hother m (Ne.symm hne) (by simpa [Ne.symm hne] using hm)
    · rcases eq_or_ne m k with rfl | hmk
      · obtain rfl : i = j := by simpa using hm
        exact absurd (by simpa [hlk] using hl) (hother l hlk)
      · exact hinj l m j (by simpa [hlk] using hl) (by simpa [hmk] using hm)
  · intro j hj
    obtain hjf | ⟨l, hl⟩ := hcover j hj
    · rw [hq] at hjf
      rcases List.mem_cons.mp hjf with rfl | hjq
      · exact .inr ⟨k, by simp⟩
      · exact .inl hjq
    · have hlk : l ≠ k := by
        rintro rfl
        rw [hk] at hl
        cases hl
      exact .inr ⟨l, by simpa [hlk] using hl⟩

theorem Inv.release {k : κ} {i : ι} (hI : Inv ids s) (hk : s.owner k = some i) :
    Inv ids (⟨s.free ++ [i], Function.update s.owner k none⟩ : State ι κ) := by
  obtain ⟨hnodup, hsub, hmem, hdisj, hinj, hcover⟩ := hI
  have howner : ∀ l j, Function.update s.owner k none l = some j → l ≠ k ∧ s.owner l = some j := by
    intro l j hj
    rcases eq_or_ne l k with rfl | hl
    · simp at hj
    · exact ⟨hl, by simpa [hl] using hj⟩
  constructor
  · refine List.nodup_append.mpr ⟨hnodup, List.nodup_singleton i, ?_⟩
    intro j hj j' hj'
    obtain rfl := List.mem_singleton.mp hj'
    rintro rfl
    exact hdisj k j hk hj
  · intro j hj
    rcases List.mem_append.mp hj with hj | hj
    · exact hsub hj
    · obtain rfl := List.mem_singleton.mp hj
      exact hmem k j hk
  · exact fun l j hj => hmem l j (howner l j hj).2
  · intro l j hj hjf
    obtain ⟨hlk, hl⟩ := howner l j hj
    rcases List.mem_append.mp hjf with hjf | hjf
    · exact hdisj l j hl hjf
    · obtain rfl := List.mem_singleton.mp hjf
      exact hlk (hinj l k j hl hk)
  · exact fun l m j hl hm => hinj l m j (howner l j hl).2 (howner m j hm).2
  · intro j hj
    obtain hjf | ⟨l, hl⟩ := hcover j hj
    · exact .inl (List.mem_append_left [i] hjf)
    · rcases eq_or_ne l k with rfl | hlk
      · obtain rfl : i = j := Option.some.inj (hk.symm.trans hl)
        exact .inl (List.mem_append_right s.free (List.mem_singleton_self i))
      · exact .inr ⟨l, by simpa [hlk] using hl⟩

theorem Inv.step {m : Move κ} (hI : Inv ids s) (h : step s m = some s') : Inv ids s' := by
  unfold Pool.step at h
  cases m with
  | acquire k =>
      simp only at h
      split at h
      · next i q hq hk =>
          obtain rfl := Option.some.inj h
          exact hI.acquire hq hk
      · cases h
  | release k =>
      simp only at h
      split at h
      · next i hk =>
          obtain rfl := Option.some.inj h
          exact hI.release hk
      · cases h

theorem inv_of_reach (hids : ids.Nodup) (h : Reach step Any (init ids) s) : Inv ids s :=
  h.invariant (inv_init hids) fun _ _ _ hI _ hs => hI.step hs

end OsProjects.Pool
