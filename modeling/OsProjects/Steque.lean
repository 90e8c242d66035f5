import OsProjects.LinkedList
import OsProjects.Transition
import Mathlib.Data.List.Rotate

/-! # The stack-queue

`proj1/multithreadgetfile/steque.c` over a heap of nodes.  Addresses are the elements of a type
`π`, the items those of a type `α`; `malloc` is taken to succeed, and the address it returns is an
argument of the operation, which the heap must not have in use.  `exit(EXIT_FAILURE)` and the use
of a pointer that leads to no node end an operation with a `Fault`.

* `Holds` — the representation: from `front` the nodes lead, each address once, to `back`; `N` is
  their number; the rest of the heap is as it was found.
* `ListQueue` — what a steque is for: the same operations on a list.
* `steque_refines` — any sequence of operations gives what it gives on lists. -/

namespace OsProjects.Steque

open LinkedList Transition

universe u

variable {π α : Type u} [DecidableEq π]

/-- How an operation can fail. -/
inductive Fault where
  | underflow                   -- exit(EXIT_FAILURE)
  | undefined                   -- use of NULL or of a pointer to no node, or no end
deriving DecidableEq, Repr

/-- `steque_t`. -/
structure StequeT (π : Type u) where
  front : Option π
  back : Option π
  N : ℤ
deriving DecidableEq, Repr

/-! ### The operations -/

/-- `*p`. -/
def load (h : Heap π α) (p : Option π) : Except Fault (Node π α) :=
  match p.bind h with
  | none => .error .undefined
  | some n => .ok n

/-- `p->next = q`. -/
def setNext (h : Heap π α) (p q : Option π) : Except Fault (Heap π α) :=
  match p with
  | none => .error .undefined
  | some a =>
      match h a with
      | none => .error .undefined
      | some n => .ok (Function.update h a (some { n with next := q }))

/-- `free(p)`. -/
def free (h : Heap π α) (p : π) : Heap π α := Function.update h p none

def stequeInit : StequeT π := ⟨none, none, 0⟩

/-- `steque_enqueue`; `node` is the address that `malloc` returns. -/
def stequeEnqueue (h : Heap π α) (this : StequeT π) (item : α) (node : π) :
    Except Fault (Heap π α × StequeT π) :=
  let h := Function.update h node (some ⟨item, none⟩)
  match this.back with
  | none => .ok (h, { this with front := some node, back := some node, N := this.N + 1 })
  | some b => do
      let h ← setNext h (some b) (some node)
      return (h, { this with back := some node, N := this.N + 1 })

/-- `steque_push`. -/
def stequePush (h : Heap π α) (this : StequeT π) (item : α) (node : π) : Heap π α × StequeT π :=
  (Function.update h node (some ⟨item, this.front⟩),
    { front := some node
      back := match this.back with
        | none => some node
        | some b => some b
      N := this.N + 1 })

def stequeSize (this : StequeT π) : ℤ := this.N

def stequeIsempty (this : StequeT π) : Bool := this.N = 0

/-- `steque_pop`. -/
def stequePop (h : Heap π α) (this : StequeT π) : Except Fault (α × Heap π α × StequeT π) :=
  match this.front with
  | none => .error .underflow
  | some node => do
      let n ← load h (some node)
      let back := match n.next with
        | none => none
        | some _ => this.back
      return (n.item, free h node, { front := n.next, back := back, N := this.N - 1 })

/-- `steque_cycle`. -/
def stequeCycle (h : Heap π α) (this : StequeT π) : Except Fault (Heap π α × StequeT π) :=
  match this.back with
  | none => .ok (h, this)
  | some b => do
      let h ← setNext h (some b) this.front
      let n ← load h this.front
      -- with one node this is the self-loop that the next line undoes
      let h ← setNext h this.front none
      return (h, { this with front := n.next, back := this.front })

/-- `steque_front`. -/
def stequeFront (h : Heap π α) (this : StequeT π) : Except Fault α :=
  match this.front with
  | none => .error .underflow
  | some node => do
      let n ← load h (some node)
      return n.item

/-- The loop of `steque_destroy`, with at most `fuel` pops. -/
def destroyLoop : ℕ → Heap π α → StequeT π → Except Fault (Heap π α × StequeT π)
  | fuel, h, this =>
      if stequeIsempty this then .ok (h, this)
      else match fuel with
        | 0 => .error .undefined
        | fuel + 1 => do
            let r ← stequePop h this
            destroyLoop fuel r.2.1 r.2.2

/-- `steque_destroy`; each pop takes one from `N`, which ends the loop. -/
def stequeDestroy (h : Heap π α) (this : StequeT π) : Except Fault (Heap π α × StequeT π) :=
  destroyLoop this.N.toNat h this

/-! ### Sequences of operations -/

/-- An operation of a client, with the address that `malloc` gives it. -/
inductive Op (π α : Type u) where
  | enqueue (item : α) (node : π)
  | push (item : α) (node : π)
  | pop
  | cycle
  | front
  | destroy
deriving DecidableEq, Repr

/-- The process: heap, steque, the items returned so far, and whether it has exited. -/
structure State (π α : Type u) where
  heap : Heap π α
  this : StequeT π
  returned : List α
  exited : Bool

/-- The process goes on after an operation, or has exited. -/
def State.after (s : State π α) : Except Fault (Option α × Heap π α × StequeT π) → Option (State π α)
  | .ok (item, h, this) =>
      some { heap := h, this := this, returned := s.returned ++ item.toList, exited := false }
  | .error .underflow => some { s with exited := true }
  | .error .undefined => none

/-- The operations as calls on a process. -/
def State.call (s : State π α) : Op π α → Except Fault (Option α × Heap π α × StequeT π)
  | .enqueue item node => (stequeEnqueue s.heap s.this item node).map fun r => (none, r)
  | .push item node => .ok (none, stequePush s.heap s.this item node)
  | .pop => (stequePop s.heap s.this).map fun r => (some r.1, r.2)
  | .cycle => (stequeCycle s.heap s.this).map fun r => (none, r)
  | .front => (stequeFront s.heap s.this).map fun x => (some x, s.heap, s.this)
  | .destroy => (stequeDestroy s.heap s.this).map fun r => (none, r)

/-- `malloc` returns an address that is not in use. -/
def Op.Fresh (h : Heap π α) : Op π α → Prop
  | enqueue _ node | push _ node => h node = none
  | _ => True

instance (h : Heap π α) : (op : Op π α) → Decidable (op.Fresh h)
  | .enqueue _ node | .push _ node =>
      match hn : h node with
      | none => isTrue hn
      | some n => isFalse (by unfold Op.Fresh; simp [hn])
  | .pop | .cycle | .front | .destroy => isTrue trivial

/-- One operation; there is none after the exit. -/
def step (s : State π α) (op : Op π α) : Option (State π α) :=
  if s.exited = false ∧ op.Fresh s.heap then s.after (s.call op) else none

/-- A process with other data on its heap, right after `steque_init`. -/
def init (h : Heap π α) : State π α := ⟨h, stequeInit, [], false⟩

/-! ### Lists -/

namespace ListQueue

/-- What a client sees of a steque: its items, what was returned, whether the process is gone. -/
structure State (α : Type u) where
  items : List α
  returned : List α
  exited : Bool
deriving DecidableEq, Repr

/-- The operations on a list; `pop` and `front` of an empty list end the process. -/
def State.call (t : State α) : Op π α → State α
  | .enqueue x _ => { t with items := t.items ++ [x] }
  | .push x _ => { t with items := x :: t.items }
  | .pop =>
      match t.items with
      | [] => { t with exited := true }
      | x :: xs => { t with items := xs, returned := t.returned ++ [x] }
  | .cycle => { t with items := t.items.rotate 1 }
  | .front =>
      match t.items with
      | [] => { t with exited := true }
      | x :: _ => { t with returned := t.returned ++ [x] }
  | .destroy => { t with items := [] }

/-- One operation; there is none after the exit. -/
def step (t : State α) (op : Op π α) : Option (State α) :=
  if t.exited then none else some (t.call op)

def init (α : Type u) : State α := ⟨[], [], false⟩

end ListQueue

/-! ### The representation -/

/-- The steque holds `xs` in the nodes `as`; the heap is otherwise `h₀`, in which the nodes are
not in use. -/
structure Holds (h₀ h : Heap π α) (this : StequeT π) (as : List π) (xs : List α) : Prop where
  nodup : as.Nodup
  chain : Chain h none as xs
  front : this.front = as.head?
  back : this.back = as.getLast?
  count : this.N = as.length
  frame : ∀ a, a ∉ as → h a = h₀ a
  fresh : ∀ a ∈ as, h₀ a = none

variable {h₀ h : Heap π α} {this : StequeT π} {as : List π} {xs : List α} {x : α} {a : π}

omit [DecidableEq π] in
/-- `front`, `back` and `N` agree on whether the steque is empty. -/
theorem Holds.null_iff (hH : Holds h₀ h this as xs) :
    (this.front = none ↔ this.back = none) ∧ (this.back = none ↔ this.N = 0) := by
  rw [hH.front, hH.back, hH.count]
  cases as with
  | nil => simp
  | cons a as => simp [List.getLast?_cons, show (as.length : ℤ) + 1 ≠ 0 by omega]

omit [DecidableEq π] in
theorem holds_init (h : Heap π α) : Holds h h stequeInit [] [] where
  nodup := List.nodup_nil
  chain := trivial
  front := rfl
  back := rfl
  count := rfl
  frame _ _ := rfl
  fresh a ha := by simp at ha

omit [DecidableEq π] in
theorem Holds.notMem (hH : Holds h₀ h this as xs) (ha : h a = none) : a ∉ as := by
  intro hmem
  obtain ⟨n, hn⟩ := hH.chain.exists_node hmem
  rw [ha] at hn
  cases hn

omit [DecidableEq π] in
theorem Holds.length_eq (hH : Holds h₀ h this as xs) : this.N = xs.length := by
  rw [hH.count, hH.chain.length_eq]

omit [DecidableEq π] in
/-- A client's view of a non-empty steque. -/
theorem Holds.cons (hH : Holds h₀ h this as (x :: xs)) : ∃ a as', as = a :: as' := by
  cases as with
  | nil => exact absurd (chain_nil.mp hH.chain) (List.cons_ne_nil x xs)
  | cons a as => exact ⟨a, as, rfl⟩

/-- The heap outside of a new node and of the last one, which leads to it. -/
theorem Holds.enqueue (hH : Holds h₀ h this as xs) (ha : h a = none) :
    ∃ h' this', stequeEnqueue h this x a = .ok (h', this') ∧
      Holds h₀ h' this' (as ++ [a]) (xs ++ [x]) := by
  have hmem := hH.notMem ha
  have ha₀ : h₀ a = none := (hH.frame a hmem).symm.trans ha
  obtain ⟨hd, hc, hf, hb, hN, hframe, hfresh⟩ := hH
  have hnodup : (as ++ [a]).Nodup := by
    rw [List.nodup_append]
    exact ⟨hd, List.nodup_singleton a, fun b hb c hcm => by
      obtain rfl := List.mem_singleton.mp hcm
      rintro rfl
      exact hmem hb⟩
  have hfresh' : ∀ b ∈ as ++ [a], h₀ b = none := by
    intro b hb
    rcases List.mem_append.mp hb with hb | hb
    · exact hfresh b hb
    · obtain rfl := List.mem_singleton.mp hb
      exact ha₀
  unfold stequeEnqueue
  cases hlast : as.getLast? with
  | none =>
      obtain rfl := List.getLast?_eq_none_iff.mp hlast
      obtain rfl := chain_nil.mp hc
      rw [hb, hlast]
      refine ⟨_, _, rfl, hnodup, ⟨by simp, trivial⟩, rfl, rfl, by simp [hN], fun b hb => ?_, hfresh'⟩
      rw [Function.update_of_ne (by simpa using hb)]
      exact hframe b (by simp)
  | some b =>
      have hbm := List.mem_of_getLast? hlast
      have hba : b ≠ a := by
        rintro rfl
        exact hmem hbm
      obtain ⟨n, hn⟩ := hc.exists_node hbm
      rw [hb, hlast]
      have hn' : Function.update h a (some ⟨x, none⟩) b = some n := by
        rw [Function.update_of_ne hba]
        exact hn
      simp only [setNext, hn', bind, Except.bind, pure, Except.pure]
      refine ⟨_, _, rfl, hnodup, ?_, ?_, by simp, by simp [hN], fun c hcm => ?_, hfresh'⟩
      · have hnew : Chain (Function.update (Function.update h a (some ⟨x, none⟩)) b
            (some { n with next := some a })) none [a] [x] := by
          refine ⟨?_, trivial⟩
          rw [Function.update_of_ne hba.symm]
          simp
        exact Chain.append ((hc.update hmem).setLast hd hlast hn') hnew
      · rw [hf]
        cases as with
        | nil => cases hbm
        | cons c as => rfl
      · obtain ⟨hcas, hca⟩ := not_or.mp (List.mem_append.not.mp hcm)
        have hcb : c ≠ b := by
          rintro rfl
          exact hcas hbm
        rw [Function.update_of_ne hcb, Function.update_of_ne (by simpa using hca)]
        exact hframe c hcas

theorem Holds.push (hH : Holds h₀ h this as xs) (ha : h a = none) :
    Holds h₀ (stequePush h this x a).1 (stequePush h this x a).2 (a :: as) (x :: xs) := by
  have hmem := hH.notMem ha
  have ha₀ : h₀ a = none := (hH.frame a hmem).symm.trans ha
  obtain ⟨hd, hc, hf, hb, hN, hframe, hfresh⟩ := hH
  refine ⟨List.nodup_cons.mpr ⟨hmem, hd⟩, ⟨?_, hc.update hmem⟩, rfl, ?_, ?_, fun b hbm => ?_, ?_⟩
  · simp [stequePush, hf]
  · simp only [stequePush, hb, List.getLast?_cons]
    cases as.getLast? <;> rfl
  · simp [stequePush, hN]
  · obtain ⟨hba, hbas⟩ := not_or.mp (List.mem_cons.not.mp hbm)
    simp only [stequePush, Function.update_of_ne hba]
    exact hframe b hbas
  · intro b hbm
    rcases List.mem_cons.mp hbm with rfl | hbm
    · exact ha₀
    · exact hfresh b hbm

theorem Holds.pop (hH : Holds h₀ h this (a :: as) (x :: xs)) :
    ∃ h' this', stequePop h this = .ok (x, h', this') ∧ Holds h₀ h' this' as xs := by
  obtain ⟨hd, ⟨ha, hc⟩, hf, hb, hN, hframe, hfresh⟩ := hH
  obtain ⟨hmem, hd⟩ := List.nodup_cons.mp hd
  have hf : this.front = some a := hf
  simp only [stequePop, hf, load, Option.bind_some, ha, bind, Except.bind, pure, Except.pure]
  refine ⟨_, _, rfl, hd, hc.update hmem, by simp, ?_, ?_, fun b hbm => ?_,
    fun b hbm => hfresh b (List.mem_cons_of_mem a hbm)⟩
  · cases as with
    | nil => rfl
    | cons b as => simpa using hb
  · simp [hN]
  · rcases eq_or_ne b a with rfl | hba
    · rw [free, Function.update_self, hfresh b List.mem_cons_self]
    · rw [free, Function.update_of_ne hba]
      exact hframe b (by simp [hba, hbm])

theorem Holds.cycle (hH : Holds h₀ h this as xs) :
    ∃ h' this', stequeCycle h this = .ok (h', this') ∧
      Holds h₀ h' this' (as.rotate 1) (xs.rotate 1) := by
  cases as with
  | nil =>
      obtain rfl := chain_nil.mp hH.chain
      have hb : this.back = none := hH.back
      refine ⟨h, this, ?_, hH⟩
      simp [stequeCycle, hb]
  | cons a as =>
      obtain ⟨hd, hc, hf, hb, hN, hframe, hfresh⟩ := hH
      obtain ⟨x, xs, rfl, ha, hc⟩ := chain_cons.mp hc
      obtain ⟨hmem, hd'⟩ := List.nodup_cons.mp hd
      have hfront : this.front = some a := hf
      have hnodup : (as ++ [a]).Nodup := by
        rw [List.nodup_append]
        refine ⟨hd', List.nodup_singleton a, fun b hbm c hcm => ?_⟩
        obtain rfl := List.mem_singleton.mp hcm
        rintro rfl
        exact hmem hbm
      have hfresh' : ∀ b ∈ as ++ [a], h₀ b = none := fun b hbm => hfresh b (by simpa [or_comm] using hbm)
      rw [List.rotate_cons_succ, List.rotate_zero, List.rotate_cons_succ, List.rotate_zero]
      cases hlast : as.getLast? with
      | none =>
          -- one node: it leads to itself for a moment
          obtain rfl := List.getLast?_eq_none_iff.mp hlast
          obtain rfl := chain_nil.mp hc
          have hb : this.back = some a := hb
          simp only [stequeCycle, hb, hfront, setNext, ha, load, Option.bind_some, Function.update_self, bind,
            Except.bind, pure, Except.pure]
          refine ⟨_, _, rfl, hnodup, ⟨by simp, trivial⟩, rfl, rfl, hN, fun b hbm => ?_, hfresh'⟩
          have hba : b ≠ a := by simpa using hbm
          rw [Function.update_of_ne hba, Function.update_of_ne hba]
          exact hframe b (by simpa using hba)
      | some b =>
          have hb : this.back = some b := by rw [hb, List.getLast?_cons, hlast]; rfl
          have hbm := List.mem_of_getLast? hlast
          have hba : b ≠ a := by
            rintro rfl
            exact hmem hbm
          obtain ⟨n, hn⟩ := hc.exists_node hbm
          simp only [stequeCycle, hb, hfront, setNext, hn, load, Option.bind_some, ha,
            Function.update_of_ne hba.symm, bind, Except.bind, pure, Except.pure]
          refine ⟨_, _, rfl, hnodup, ?_, ?_, by simp, ?_, fun c hcm => ?_, hfresh'⟩
          · have hnew : Chain (Function.update (Function.update h b (some { n with next := some a })) a
                (some ⟨x, none⟩)) none [a] [x] := ⟨by simp, trivial⟩
            exact Chain.append ((hc.setLast hd' hlast hn).update hmem) hnew
          · cases as with
            | nil => cases hbm
            | cons c as => rfl
          · rw [hN]
            simp
          · obtain ⟨hcas, hca⟩ := not_or.mp (List.mem_append.not.mp hcm)
            have hca : c ≠ a := by simpa using hca
            have hcb : c ≠ b := by
              rintro rfl
              exact hcas hbm
            rw [Function.update_of_ne hca, Function.update_of_ne hcb]
            exact hframe c (by simp [hca, hcas])

theorem Holds.destroyLoop {fuel : ℕ} (hH : Holds h₀ h this as xs) (hfuel : xs.length ≤ fuel) :
    ∃ h' this', destroyLoop fuel h this = .ok (h', this') ∧ Holds h₀ h' this' [] [] := by
  induction xs generalizing h this as fuel with
  | nil =>
      have hempty : stequeIsempty this = true := by simp [stequeIsempty, hH.length_eq]
      have has : as = [] := List.length_eq_zero_iff.mp hH.chain.length_eq
      subst has
      refine ⟨h, this, ?_, hH⟩
      cases fuel <;> simp [Steque.destroyLoop, hempty]
  | cons x xs ih =>
      obtain ⟨a, as, rfl⟩ := hH.cons
      have hempty : stequeIsempty this = false := by
        have hlen := hH.length_eq
        rw [List.length_cons] at hlen
        simp only [stequeIsempty, decide_eq_false_iff_not]
        omega
      obtain ⟨h₁, this₁, hpop, hH₁⟩ := hH.pop
      cases fuel with
      | zero => simp at hfuel
      | succ fuel =>
          obtain ⟨h', this', hloop, hH'⟩ := ih hH₁ (by simpa using hfuel)
          refine ⟨h', this', ?_, hH'⟩
          simp [Steque.destroyLoop, hempty, hpop, hloop, bind, Except.bind]

theorem Holds.destroy (hH : Holds h₀ h this as xs) :
    ∃ h' this', stequeDestroy h this = .ok (h', this') ∧ Holds h₀ h' this' [] [] :=
  hH.destroyLoop (by rw [hH.length_eq, Int.toNat_natCast])

/-! ### Refinement -/

/-- The process holds what the list machine says, in some nodes. -/
def Refines (h₀ : Heap π α) (s : State π α) (t : ListQueue.State α) : Prop :=
  (∃ as, Holds h₀ s.heap s.this as t.items) ∧ s.returned = t.returned ∧ s.exited = t.exited

omit [DecidableEq π] in
theorem Holds.front_nil (hH : Holds h₀ h this as ([] : List α)) : this.front = none := by
  rw [hH.front, List.length_eq_zero_iff.mp hH.chain.length_eq]
  rfl

omit [DecidableEq π] in
theorem Holds.stequeFront (hH : Holds h₀ h this as (x :: xs)) : stequeFront h this = .ok x := by
  obtain ⟨a, as, rfl⟩ := hH.cons
  have hf : this.front = some a := hH.front
  simp [Steque.stequeFront, hf, load, hH.chain.1, bind, Except.bind, pure, Except.pure]

/-- **Every operation refines that on lists**, and no operation is undefined. -/
theorem Refines.call {s : State π α} {t : ListQueue.State α} {op : Op π α} (hR : Refines h₀ s t)
    (halive : s.exited = false) (hop : op.Fresh s.heap) :
    ∃ s', s.after (s.call op) = some s' ∧ Refines h₀ s' (t.call op) := by
  obtain ⟨⟨as, hH⟩, hret, hex⟩ := hR
  rw [halive] at hex
  cases op with
  | enqueue item node =>
      obtain ⟨h', this', hcall, hH'⟩ := hH.enqueue hop
      refine ⟨_, by rw [State.call, hcall]; rfl, ⟨_, hH'⟩, ?_, hex⟩
      simpa [ListQueue.State.call] using hret
  | push item node =>
      refine ⟨_, rfl, ⟨_, hH.push hop⟩, ?_, hex⟩
      simpa [ListQueue.State.call] using hret
  | cycle =>
      obtain ⟨h', this', hcall, hH'⟩ := hH.cycle
      refine ⟨_, by rw [State.call, hcall]; rfl, ⟨_, hH'⟩, ?_, hex⟩
      simpa [ListQueue.State.call] using hret
  | destroy =>
      obtain ⟨h', this', hcall, hH'⟩ := hH.destroy
      refine ⟨_, by rw [State.call, hcall]; rfl, ⟨_, hH'⟩, ?_, hex⟩
      simpa [ListQueue.State.call] using hret
  | pop =>
      cases hx : t.items with
      | nil =>
          rw [hx] at hH
          refine ⟨{ s with exited := true }, ?_, ⟨as, ?_⟩, ?_, ?_⟩
          · simp [State.call, stequePop, hH.front_nil, Except.map, State.after]
          · simpa [ListQueue.State.call, hx] using hH
          · simpa [ListQueue.State.call, hx] using hret
          · simp [ListQueue.State.call, hx]
      | cons x xs =>
          rw [hx] at hH
          obtain ⟨a, as, rfl⟩ := hH.cons
          obtain ⟨h', this', hcall, hH'⟩ := hH.pop
          refine ⟨_, by rw [State.call, hcall]; rfl, ⟨as, ?_⟩, ?_, ?_⟩
          · simpa [ListQueue.State.call, hx] using hH'
          · simpa [ListQueue.State.call, hx] using hret
          · simpa [ListQueue.State.call, hx] using hex
  | front =>
      cases hx : t.items with
      | nil =>
          rw [hx] at hH
          refine ⟨{ s with exited := true }, ?_, ⟨as, ?_⟩, ?_, ?_⟩
          · simp [State.call, stequeFront, hH.front_nil, Except.map, State.after]
          · simpa [ListQueue.State.call, hx] using hH
          · simpa [ListQueue.State.call, hx] using hret
          · simp [ListQueue.State.call, hx]
      | cons x xs =>
          rw [hx] at hH
          refine ⟨_, by rw [State.call, hH.stequeFront]; rfl, ⟨as, ?_⟩, ?_, ?_⟩
          · simpa [ListQueue.State.call, hx] using hH
          · simpa [ListQueue.State.call, hx] using hret
          · simpa [ListQueue.State.call, hx] using hex

/-- A step of the process is the step of the list machine. -/
theorem Refines.step {s s' : State π α} {t : ListQueue.State α} {op : Op π α} (hR : Refines h₀ s t)
    (h : step s op = some s') : ∃ t', ListQueue.step t op = some t' ∧ Refines h₀ s' t' := by
  obtain ⟨⟨halive, hop⟩, h⟩ := Option.ite_none_right_eq_some.mp h
  obtain ⟨s'', hs, hR'⟩ := hR.call halive hop
  obtain rfl := Option.some.inj (h.symm.trans hs)
  have hex : t.exited = false := hR.2.2.symm.trans halive
  exact ⟨_, by simp [ListQueue.step, hex], hR'⟩

/-- **The steque refines a list**: after any sequence of operations from `steque_init`, on any heap,
the process has returned what the list machine returns and has exited if and only if that has; the
list is stored in distinct nodes linked from `front` to `back`, with `N` their number; and unless
it has exited every next operation is defined. -/
theorem steque_refines (h₀ : Heap π α) (ops : List (Op π α)) (s : State π α)
    (h : exec step (init h₀) ops = some s) :
    ∃ t, exec ListQueue.step (ListQueue.init α) ops = some t ∧
      s.returned = t.returned ∧ s.exited = t.exited ∧
      (∃ as, Holds h₀ s.heap s.this as t.items) ∧
      ((s.this.front = none ↔ s.this.back = none) ∧ (s.this.back = none ↔ s.this.N = 0)) ∧
      (stequeSize s.this = t.items.length ∧ (stequeIsempty s.this = true ↔ t.items = [])) ∧
      ∀ op : Op π α, s.exited = false → op.Fresh s.heap →
        ∃ s', step s op = some s' ∧
          (s'.exited = true ↔ (op = .pop ∨ op = .front) ∧ t.items = []) := by
  have h₀' : Refines h₀ (init h₀) (ListQueue.init α) := ⟨⟨[], holds_init h₀⟩, rfl, rfl⟩
  obtain ⟨t, ht, hR⟩ := exec_simulation (fun _ _ _ _ hR hs => Refines.step hR hs) ops h h₀'
  have hR' := hR
  obtain ⟨⟨as, hH⟩, hret, hex⟩ := hR
  have hlen := hH.length_eq
  refine ⟨t, ht, hret, hex, ⟨as, hH⟩, hH.null_iff, ⟨hlen, ?_⟩, fun op halive hop => ?_⟩
  · simp [stequeIsempty, hlen]
  · obtain ⟨s', hs, hR''⟩ := hR'.call halive hop
    refine ⟨s', by rw [step, if_pos ⟨halive, hop⟩, hs], ?_⟩
    rw [hR''.2.2]
    have hex' : t.exited = false := hex.symm.trans halive
    cases op <;> cases hx : t.items <;> simp [ListQueue.State.call, hx, hex']

/-- Two items, the head moved to the back, the new head popped. -/
def shortRun : List (Op ℕ ℕ) := [.enqueue 10 0, .push 20 1, .cycle, .pop]

def shortEnd : State ℕ ℕ := (exec step (init fun _ => none) shortRun).getD (init fun _ => none)

theorem steque_refines_short :
    ∃ t, exec ListQueue.step (ListQueue.init ℕ) shortRun = some t ∧ shortEnd.returned = t.returned ∧
      stequeSize shortEnd.this = t.items.length := by
  obtain ⟨t, ht, hret, _, _, _, ⟨hsize, _⟩, _⟩ :=
    steque_refines (fun _ => none) shortRun shortEnd rfl
  exact ⟨t, ht, hret, hsize⟩

example : shortEnd.returned = [10] := by decide +kernel

end OsProjects.Steque
