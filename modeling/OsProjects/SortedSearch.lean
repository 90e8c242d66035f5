import Mathlib.Algebra.Order.Ring.Int
import Mathlib.Data.List.Basic

/-! # Binary search by a sign

A search in a list compares with what is at a position and gets a sign: negative where it has to go
to the left, positive where it has to go to the right, zero where it has found something.  `Window`
is the invariant of such a search with signed bounds `lo` and `hi`, both inclusive, so that the
empty window has `hi = lo - 1`, and `hi = -1` at the left end.

* `Window.whole`, `Window.left`, `Window.right` — how windows come about.
* `Window.middle` — a window that is not empty has its middle in the list.
* `Window.absent` — an empty one leaves nothing to be found. -/

namespace OsProjects.SortedSearch

variable {α : Type*} {side : α → ℤ} {xs : List α} {lo hi mid : ℤ}

/-- Along the list the sign goes from positive over zero to negative. -/
def Sorted (side : α → ℤ) (xs : List α) : Prop :=
  xs.Pairwise fun a b => (side a < 0 → side b < 0) ∧ (0 < side b → 0 < side a)

/-- Whatever is not in `lo..hi` has been compared, or lies beyond what has. -/
structure Window (side : α → ℤ) (xs : List α) (lo hi : ℤ) : Prop where
  nonneg : 0 ≤ lo
  inList : hi < xs.length
  below : ∀ (i : ℕ) x, xs[i]? = some x → (i : ℤ) < lo → 0 < side x
  above : ∀ (i : ℕ) x, xs[i]? = some x → hi < i → side x < 0

/-- The middle of a window, as the integer division that does not overflow computes it. -/
def middle (lo hi : ℤ) : ℤ := lo + (hi - lo) / 2

theorem le_middle (h : lo ≤ hi) : lo ≤ middle lo hi := by
  unfold middle
  omega

theorem middle_le (h : lo ≤ hi) : middle lo hi ≤ hi := by
  unfold middle
  omega

/-- Two positions of a sorted list. -/
theorem Sorted.sides (hs : Sorted side xs) {i j : ℕ} {x y : α} (hij : i < j)
    (hx : xs[i]? = some x) (hy : xs[j]? = some y) :
    (side x < 0 → side y < 0) ∧ (0 < side y → 0 < side x) := by
  obtain ⟨hi, rfl⟩ := List.getElem?_eq_some_iff.mp hx
  obtain ⟨hj, rfl⟩ := List.getElem?_eq_some_iff.mp hy
  exact List.pairwise_iff_getElem.mp hs i j hi hj hij

theorem Window.whole (side : α → ℤ) (xs : List α) : Window side xs 0 (xs.length - 1) where
  nonneg := le_rfl
  inList := by omega
  below i x _ h := by omega
  above i x hx h := by
    have hlt := (List.getElem?_eq_some_iff.mp hx).1
    omega

theorem Window.middle (h : Window side xs lo hi) (hle : lo ≤ hi) :
    ∃ (i : ℕ) (x : α), SortedSearch.middle lo hi = i ∧ xs[i]? = some x := by
  have hlo := le_middle hle
  have hhi := middle_le hle
  have hnonneg := h.nonneg
  have hlen := h.inList
  obtain ⟨i, hi⟩ := Int.eq_ofNat_of_zero_le (hnonneg.trans hlo)
  have hlt : i < xs.length := by omega
  exact ⟨i, xs[i], hi, List.getElem?_eq_getElem hlt⟩

/-- The sign at position `i` is negative: everything behind it is. -/
theorem Window.left (h : Window side xs lo hi) (hs : Sorted side xs) {i : ℕ} {x : α}
    (hx : xs[i]? = some x) (hneg : side x < 0) : Window side xs lo (i - 1) where
  nonneg := h.nonneg
  inList := by
    have hlt := (List.getElem?_eq_some_iff.mp hx).1
    omega
  below := h.below
  above j y hy hlt := by
    rcases Nat.lt_or_ge i j with hij | hij
    · exact (hs.sides hij hx hy).1 hneg
    · obtain rfl : j = i := by omega
      rwa [← Option.some.inj (hx.symm.trans hy)]

/-- The sign at position `i` is positive: everything before it is. -/
theorem Window.right (h : Window side xs lo hi) (hs : Sorted side xs) {i : ℕ} {x : α}
    (hx : xs[i]? = some x) (hpos : 0 < side x) : Window side xs (i + 1) hi where
  nonneg := by omega
  inList := h.inList
  below j y hy hlt := by
    rcases Nat.lt_or_ge j i with hij | hij
    · exact (hs.sides hij hy hx).2 hpos
    · obtain rfl : j = i := by omega
      rwa [← Option.some.inj (hx.symm.trans hy)]
  above := h.above

theorem Window.absent (h : Window side xs lo hi) (hlt : hi < lo) {x : α} (hx : x ∈ xs) :
    side x ≠ 0 := by
  obtain ⟨i, hi⟩ := List.mem_iff_getElem?.mp hx
  intro hzero
  rcases lt_or_ge (i : ℤ) lo with hbelow | habove
  · have := h.below i x hi hbelow
    omega
  · have := h.above i x hi (by omega)
    omega

end OsProjects.SortedSearch
