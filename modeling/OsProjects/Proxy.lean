import OsProjects.Channel
import OsProjects.Decimal

/-! # The proxy: concurrent calls of `handle_with_cache`

Any number of threads of the proxy are inside `handle_with_cache` (`proj3/handle_with_cache.c`);
the calls are the elements of an arbitrary type `κ`.  They share the queue `fldes_queue` of free
segment ids, its counter `fldes_queue_size`, the mutex `fldes_mutex` and the conditions
`read_cond` and `write_cond`.  Each call exchanges its file with its own `cache_worker` over the
segment it popped, as in `Channel.lean`: `create_shm_channel` unlinks the name and makes a fresh
segment, so the segment of one call is not that of another.

`steque` is a first-in first-out list; `steque_pop` ends the process when it is empty, which is
`exited`. -/

namespace OsProjects.Proxy

open Monitor Transition

variable {κ : Type*} [DecidableEq κ]

/-- `SHAREDMPATH`. -/
def sharedMPath : List Byte := str "/sharedmpath"

/-- The id that `init_proxy` gives to segment `i`. -/
def segmentId (i : ℕ) : List Byte := sharedMPath ++ decimal i

/-- The ids that `init_proxy` enqueues. -/
def segmentIds (segments : ℕ) : List (List Byte) := (List.range segments).map segmentId

/-- Program points of a call. -/
inductive CallPc where
  | idle                        -- not called yet
  | waitSegment (w : Wait)      -- while (fldes_queue_size == 0)
  | pop                         -- fldes = steque_pop(&fldes_queue)
  | decrement                   -- fldes_queue_size--
  | unlockPop
  | broadcastWrite
  | body                        -- the exchange, outside of the pool
  | waitRoom (w : Wait)         -- while (fldes_queue_size == max_fldes_queue_size)
  | enqueue                     -- steque_enqueue(&fldes_queue, fldes)
  | increment                   -- fldes_queue_size++
  | unlockPut
  | broadcastRead
deriving DecidableEq, Repr

/-- A broadcast on `read_cond`. -/
def CallPc.wakeRead : CallPc → CallPc
  | waitSegment w => waitSegment w.wake
  | p => p

/-- A broadcast on `write_cond`. -/
def CallPc.wakeWrite : CallPc → CallPc
  | waitRoom w => waitRoom w.wake
  | p => p

/-- One call: its program point, the id it popped, its exchange, and as a record of its dealings
with the pool the ids it has enqueued and its net contribution to `fldes_queue_size`. -/
structure Call where
  pc : CallPc
  fldes : List Byte
  chan : Channel.State
  enqueued : List (List Byte)
  sizeDelta : ℤ

/-- The shared state of the proxy and its calls. -/
structure State (κ : Type*) where
  fldesQueue : List (List Byte)
  fldesQueueSize : ℤ
  maxFldesQueueSize : ℤ
  fldesMutex : Option κ
  exited : Bool
  calls : κ → Call

/-- The state after `init_proxy`. -/
def init (segments : ℕ) (E : κ → Channel.Env) : State κ where
  fldesQueue := segmentIds segments
  fldesQueueSize := (segmentIds segments).length
  maxFldesQueueSize := (segmentIds segments).length
  fldesMutex := none
  exited := false
  calls k := ⟨.idle, [], Channel.init (E k), [], 0⟩

/-- Replace one call. -/
def State.setCall (s : State κ) (k : κ) (c : Call) : State κ :=
  { s with calls := Function.update s.calls k c }

/-- Wake the threads that sleep on a condition. -/
def State.wakeAll (s : State κ) (wake : CallPc → CallPc) : State κ :=
  { s with calls := fun k => { s.calls k with pc := wake (s.calls k).pc } }

section fields
variable (s : State κ) (k : κ) (c : Call)

@[simp] theorem setCall_fldesQueue : (s.setCall k c).fldesQueue = s.fldesQueue := rfl
@[simp] theorem setCall_fldesQueueSize : (s.setCall k c).fldesQueueSize = s.fldesQueueSize := rfl
@[simp] theorem setCall_fldesMutex : (s.setCall k c).fldesMutex = s.fldesMutex := rfl
@[simp] theorem setCall_self : (s.setCall k c).calls k = c := by simp [State.setCall]

theorem setCall_of_ne {j : κ} (hj : j ≠ k) : (s.setCall k c).calls j = s.calls j := by
  simp [State.setCall, hj]

end fields

/-- A step of call `k` in a loop `lock(&fldes_mutex); while (!ok) cond_wait(c, &fldes_mutex);`. -/
def State.wait (s : State κ) (k : κ) (ok : Bool) (point : Wait → CallPc) (next : CallPc)
    (w : Wait) : Option (State κ) :=
  (w.step .pthread s.fldesMutex.isNone ok).map fun r =>
    { s.setCall k { s.calls k with pc := r.2.elim next point } with
      fldesMutex := r.1.apply k s.fldesMutex }

/-- One step of call `k` of `handle_with_cache`; `w` is the result of a call that sends. -/
def callStep (E : κ → Channel.Env) (s : State κ) (k : κ) (w : ℤ) : Option (State κ) :=
  let c := s.calls k
  match c.pc with
  | .idle => some (s.setCall k { c with pc := .waitSegment .lock })
  | .waitSegment p => s.wait k (s.fldesQueueSize ≠ 0) .waitSegment .pop p
  | .pop =>
      match s.fldesQueue with
      | [] => some { s with exited := true }
      | i :: q => some { s.setCall k { c with fldes := i, pc := .decrement } with fldesQueue := q }
  | .decrement =>
      some { s.setCall k { c with sizeDelta := c.sizeDelta - 1, pc := .unlockPop } with
        fldesQueueSize := s.fldesQueueSize - 1 }
  | .unlockPop => some { s.setCall k { c with pc := .broadcastWrite } with fldesMutex := none }
  | .broadcastWrite => some ((s.wakeAll CallPc.wakeWrite).setCall k { c with pc := .body })
  | .body =>
      if c.chan.hpc = .release then some (s.setCall k { c with pc := .waitRoom .lock })
      else (Channel.handlerStep (E k) c.chan w).map fun ch => s.setCall k { c with chan := ch }
  | .waitRoom p => s.wait k (s.fldesQueueSize ≠ s.maxFldesQueueSize) .waitRoom .enqueue p
  | .enqueue =>
      some { s.setCall k { c with enqueued := c.enqueued ++ [c.fldes], pc := .increment } with
        fldesQueue := s.fldesQueue ++ [c.fldes] }
  | .increment =>
      some { s.setCall k { c with sizeDelta := c.sizeDelta + 1, pc := .unlockPut } with
        fldesQueueSize := s.fldesQueueSize + 1 }
  | .unlockPut => some { s.setCall k { c with pc := .broadcastRead } with fldesMutex := none }
  | .broadcastRead =>
      some ((s.wakeAll CallPc.wakeRead).setCall k
        { c with chan := { c.chan with hpc := .reply }, pc := .body })

/-- Who moves: call `k`, the worker that serves it, or a sleeper that wakes without a signal. -/
inductive Act (κ : Type*) where
  | call (k : κ) (w : ℤ)
  | worker (k : κ) (r : ℤ)
  | spuriousCall (k : κ)
  | spuriousWorker (k : κ)

/-- One step of the proxy and its workers. -/
def step (E : κ → Channel.Env) (s : State κ) (a : Act κ) : Option (State κ) :=
  if s.exited then none
  else match a with
    | .call k w => callStep E s k w
    | .worker k r =>
        (Channel.workerStep (E k) (s.calls k).chan r).map fun ch =>
          s.setCall k { s.calls k with chan := ch }
    | .spuriousCall k =>
        let c := s.calls k
        some (s.setCall k { c with
          pc := c.pc.wakeRead.wakeWrite
          chan := { c.chan with hpc := c.chan.hpc.wake } })
    | .spuriousWorker k =>
        let c := s.calls k
        some (s.setCall k { c with chan := { c.chan with wpc := c.chan.wpc.wake } })

/-- States reached by the proxy with the given number of segments. -/
abbrev Reachable (segments : ℕ) (E : κ → Channel.Env) (s : State κ) : Prop :=
  Reach (step E) Any (init segments E) s

end OsProjects.Proxy
