import Mathlib.Tactic.Common
import Mathlib.Algebra.Order.Ring.Int

/-!
# The execution limiter

`RpcExecutionLimiter` of `rpc/dispatcher.hpp`, with its move-only handles (`Admission`). The
counters are integers, so that one below zero would show. Upwards an operation adds one to a
counter, and `markCanceled` the number of requests that were stopped, each of them admitted before;
so a run would need 2^64 operations before one of the 64-bit counters wraps. The objects of a
program that hold admissions are the positions of a list: each construction takes a new one, and a
destroyed object leaves its position empty.
-/

namespace NekoProto.Rpc.ExecutionLimiter

/-- `Admission`. There is one limiter, so the owner is this one or null. -/
structure Admission where
  owner : Bool := false
  queued : Bool := false
  started : Bool := false
  deriving DecidableEq, Repr

/-- `RpcExecutionLimiter`. -/
structure Limiter where
  maxActive : ℕ := 0
  maxQueued : ℕ := 0
  outstanding : ℤ := 0
  active : ℤ := 0
  queued : ℤ := 0
  completed : ℤ := 0
  timedOut : ℤ := 0
  canceled : ℤ := 0
  rejected : ℤ := 0
  deriving DecidableEq, Repr

/-- The maximum of `std::ptrdiff_t`. -/
def semaphoreMax : ℕ := 2 ^ 63 - 1

namespace Limiter

variable (L : Limiter)

/-- `configure`. -/
def configure (maxActive maxQueued : ℕ) : Limiter :=
  { L with maxActive := min maxActive semaphoreMax, maxQueued := maxQueued }

/-- The constructor. -/
def make : Limiter := ({} : Limiter).configure 4096 4096

/-- `reject`. -/
def reject : Limiter := { L with rejected := L.rejected + 1 }

/-- `tryAdmit`. -/
def tryAdmit : Limiter × Option Admission :=
  if L.maxActive = 0 then (L.reject, none)
  else
    let queued : Bool := L.maxActive ≤ L.outstanding
    if queued ∧ L.maxQueued ≤ L.outstanding - L.maxActive then (L.reject, none)
    else
      let L := { L with outstanding := L.outstanding + 1 }
      let L := if queued then { L with queued := L.queued + 1 } else L
      (L, some { owner := true, queued := queued })

/-- `markTimedOut`. -/
def markTimedOut : Limiter := { L with timedOut := L.timedOut + 1 }

/-- `markCanceled`. -/
def markCanceled (count : ℕ) : Limiter := { L with canceled := L.canceled + count }

/-- `_start`. -/
def start (admission : Admission) : Limiter × Admission :=
  let L := if admission.queued then { L with queued := L.queued - 1 } else L
  ({ L with active := L.active + 1 }, { admission with started := true })

/-- `_release`. -/
def release (admission : Admission) : Limiter :=
  let L :=
    if admission.started then { L with active := L.active - 1, completed := L.completed + 1 }
    else if admission.queued then { L with queued := L.queued - 1 }
    else L
  { L with outstanding := L.outstanding - 1 }

end Limiter

namespace Admission

variable (L : Limiter) (admission : Admission)

/-- `start`. -/
def start : Limiter × Admission :=
  if admission.owner ∧ ¬admission.started then L.start admission else (L, admission)

/-- `_release`. -/
def release : Limiter × Admission :=
  if admission.owner then (L.release admission, { admission with owner := false })
  else (L, admission)

/-- The object after its owner was exchanged with null. -/
def movedFrom : Admission := { admission with owner := false }

end Admission

/-! ## Programs -/

/-- A limiter with the objects of type `Admission`. -/
structure State where
  limiter : Limiter
  objects : List (Option Admission) := []
  deriving DecidableEq, Repr

/-- What a program does. A construction takes the next position. -/
inductive Op
  | tryAdmit
  | reject
  | markTimedOut
  | markCanceled (count : ℕ)
  | construct
  | start (object : ℕ)
  | moveConstruct (other : ℕ)
  | moveAssign (object other : ℕ)
  | destroy (object : ℕ)
  deriving DecidableEq, Repr

namespace State

variable (s : State)

/-- The object at a position, if there is one. -/
def object (i : ℕ) : Option Admission := s.objects[i]?.join

/-- The state with another object at a position. -/
def store (L : Limiter) (i : ℕ) (admission : Option Admission) : State :=
  { limiter := L, objects := s.objects.set i admission }

/-- `operator=` of two objects. -/
def moveAssign (i j : ℕ) (admission other : Admission) : State :=
  if i = j then s
  else
    let (L, _) := admission.release s.limiter
    (s.store L i (some other)).store L j (some other.movedFrom)

/-- One operation, on objects that are there. -/
def step : Op → Option State
  | .tryAdmit =>
    match s.limiter.tryAdmit with
    | (L, some admission) => some { limiter := L, objects := s.objects ++ [some admission] }
    | (L, none) => some { s with limiter := L }
  | .reject => some { s with limiter := s.limiter.reject }
  | .markTimedOut => some { s with limiter := s.limiter.markTimedOut }
  | .markCanceled count => some { s with limiter := s.limiter.markCanceled count }
  | .construct => some { s with objects := s.objects ++ [some {}] }
  | .start i => do
    let admission ← s.object i
    let (L, admission) := admission.start s.limiter
    pure (s.store L i (some admission))
  | .moveConstruct j => do
    let other ← s.object j
    let s := s.store s.limiter j (some other.movedFrom)
    pure { s with objects := s.objects ++ [some other] }
  | .moveAssign i j => do
    let admission ← s.object i
    let other ← s.object j
    pure (s.moveAssign i j admission other)
  | .destroy i => do
    let admission ← s.object i
    let (L, _) := admission.release s.limiter
    pure (s.store L i none)

/-- A run. -/
def run : State → List Op → Option State
  | s, [] => some s
  | s, op :: ops => do
    let s ← s.step op
    run s ops

/-- A limiter after one `configure`, without objects. -/
def configured (maxActive maxQueued : ℕ) : State :=
  { limiter := Limiter.make.configure maxActive maxQueued }

end State

end NekoProto.Rpc.ExecutionLimiter
