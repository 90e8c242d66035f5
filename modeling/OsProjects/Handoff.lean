import OsProjects.Transition

/-! # Handing a list over through one slot

The purpose of a shared segment with a full/empty flag, apart from any program: a sender moves
a list, piece by piece, through a slot that holds at most one piece, to a receiver.  `put n`
fills the empty slot with the next `n` elements, `take` moves a full slot to the receiver.
Nothing is lost, repeated or reordered in any run (`whole_of_reach`): what the receiver has is
always a prefix of the list, and the whole list once sender and slot are empty. -/

namespace OsProjects.Handoff

open Transition

variable {α : Type*}

/-- What has been received, the slot, and what is still to be sent. -/
structure State (α : Type*) where
  out : List α
  slot : Option (List α)
  rest : List α

inductive Move where
  | put (n : ℕ)
  | take

def step : State α → Move → Option (State α)
  | ⟨out, none, rest⟩, .put n => some ⟨out, some (rest.take n), rest.drop n⟩
  | ⟨out, some c, rest⟩, .take => some ⟨out ++ c, none, rest⟩
  | _, _ => none

def init (xs : List α) : State α := ⟨[], none, xs⟩

/-- Everything in the system, in order. -/
def State.whole (s : State α) : List α := s.out ++ s.slot.getD [] ++ s.rest

theorem whole_step {s s' : State α} {m : Move} (h : step s m = some s') : s'.whole = s.whole := by
  obtain ⟨out, slot, rest⟩ := s
  cases slot <;> cases m <;> simp only [step, Option.some.injEq, reduceCtorEq] at h <;> subst h <;>
    simp [State.whole]

theorem whole_of_reach {xs : List α} {s : State α} (h : Reach step Any (init xs) s) :
    s.whole = xs :=
  h.invariant (by simp [init, State.whole]) fun _ _ _ hI _ hs => (whole_step hs).trans hI

theorem out_prefix_of_reach {xs : List α} {s : State α} (h : Reach step Any (init xs) s) :
    s.out <+: xs := by
  rw [← whole_of_reach h, State.whole, List.append_assoc]
  exact List.prefix_append _ _

theorem out_eq_of_reach {xs : List α} {s : State α} (h : Reach step Any (init xs) s)
    (hslot : s.slot = none) (hrest : s.rest = []) : s.out = xs := by
  rw [← whole_of_reach h]
  simp [State.whole, hslot, hrest]

end OsProjects.Handoff
