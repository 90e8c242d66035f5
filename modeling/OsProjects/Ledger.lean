import Mathlib.Data.List.Nodup
import Mathlib.Data.List.Perm.Basic

/-! # Items handed out and done

Workers are handed items, one at a time, and are done with each later on.  `handed` and `done` list
the items so far, each with its worker; `todo w` is the item that worker `w` still has to do.

* `Ledger.hand`, `Ledger.finish`, `Ledger.congr` — what a step can do to the books.
* `Ledger.perm` — once nobody has anything to do, the items done are those handed out. -/

namespace OsProjects

variable {ω ι : Type*} {handed done : List (ω × ι)} {todo todo' : ω → Option ι} {w : ω} {i : ι}

/-- Every item handed out is done once, or is still to be done by its worker. -/
structure Ledger (handed : List (ω × ι)) (todo : ω → Option ι) (done : List (ω × ι)) : Prop where
  nodup : done.Nodup
  subset : done ⊆ handed
  pending : ∀ w i, todo w = some i → (w, i) ∈ handed ∧ (w, i) ∉ done
  cover : ∀ w i, (w, i) ∈ handed → (w, i) ∈ done ∨ todo w = some i

namespace Ledger

theorem nil : Ledger [] (fun _ : ω => (none : Option ι)) [] where
  nodup := List.nodup_nil
  subset := List.Subset.refl _
  pending _ _ h := by cases h
  cover _ _ h := by cases h

/-- Nobody's item changes. -/
theorem congr (h : Ledger handed todo done) (ht : ∀ v, todo' v = todo v) :
    Ledger handed todo' done := by
  obtain rfl : todo' = todo := funext ht
  exact h

/-- A worker with nothing to do is handed a new item. -/
theorem hand (h : Ledger handed todo done) (hw : todo w = none) (hi : (w, i) ∉ handed)
    (hframe : ∀ v ≠ w, todo' v = todo v) (hw' : todo' w = some i) :
    Ledger (handed ++ [(w, i)]) todo' done where
  nodup := h.nodup
  subset p hp := List.mem_append_left _ (h.subset hp)
  pending v j hv := by
    by_cases hvw : v = w
    · subst hvw
      obtain rfl := Option.some.inj (hw'.symm.trans hv)
      exact ⟨by simp, fun hd => hi (h.subset hd)⟩
    · rw [hframe v hvw] at hv
      obtain ⟨hh, hd⟩ := h.pending v j hv
      exact ⟨List.mem_append_left _ hh, hd⟩
  cover v j hvj := by
    rcases List.mem_append.mp hvj with hvj | hvj
    · apply (h.cover v j hvj).imp_right
      intro hv
      rw [hframe v (fun hvw => by rw [hvw, hw] at hv; cases hv), hv]
    · obtain ⟨rfl, rfl⟩ := Prod.mk.inj (List.mem_singleton.mp hvj)
      exact .inr hw'

/-- A worker is done with its item. -/
theorem finish (h : Ledger handed todo done) (hw : todo w = some i)
    (hframe : ∀ v ≠ w, todo' v = todo v) (hw' : todo' w = none) :
    Ledger handed todo' (done ++ [(w, i)]) where
  nodup := by
    refine List.nodup_append.mpr ⟨h.nodup, List.nodup_singleton _, fun p hp q hq => ?_⟩
    rintro rfl
    exact (h.pending w i hw).2 (List.mem_singleton.mp hq ▸ hp)
  subset p hp := by
    rcases List.mem_append.mp hp with hp | hp
    · exact h.subset hp
    · rw [List.mem_singleton.mp hp]
      exact (h.pending w i hw).1
  pending v j hv := by
    have hvw : v ≠ w := by
      rintro rfl
      rw [hw'] at hv
      cases hv
    rw [hframe v hvw] at hv
    obtain ⟨hh, hd⟩ := h.pending v j hv
    refine ⟨hh, fun hmem => ?_⟩
    rcases List.mem_append.mp hmem with hmem | hmem
    · exact hd hmem
    · exact hvw (Prod.mk.inj (List.mem_singleton.mp hmem)).1
  cover v j hvj := by
    rcases h.cover v j hvj with hd | hv
    · exact .inl (List.mem_append_left _ hd)
    · by_cases hvw : v = w
      · subst hvw
        obtain rfl := Option.some.inj (hw.symm.trans hv)
        exact .inl (by simp)
      · exact .inr ((hframe v hvw).trans hv)

/-- **Nothing is left over**, and nothing is done twice. -/
theorem perm (h : Ledger handed todo done) (hn : handed.Nodup) (hidle : ∀ w, todo w = none) :
    done.Perm handed := by
  refine (List.perm_ext_iff_of_nodup h.nodup hn).mpr fun p => ⟨fun hp => h.subset hp, fun hp => ?_⟩
  apply (h.cover p.1 p.2 hp).resolve_right
  rw [hidle p.1]
  simp

end Ledger

end OsProjects
