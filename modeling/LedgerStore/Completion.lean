import LedgerStore.Error

set_option autoImplicit false

namespace LedgerStore

abbrev Outcome := Except StorageError Unit

namespace Completion

structure Cell where
  outcome : Option Outcome
  held : Bool

def Cell.pending : Cell := ⟨none, true⟩

def Cell.ready (o : Outcome) : Cell := ⟨some o, false⟩

/-- The resolver sets the outcome and is gone. Without a resolver nothing happens. -/
def Cell.resolve (c : Cell) (o : Outcome) : Cell :=
  if c.held then ⟨c.outcome.or (some o), false⟩ else c

def Cell.drop (c : Cell) : Cell :=
  c.resolve (.error .shuttingDown)

end Completion

structure Completions where
  cells : List Completion.Cell := []

namespace Completions

def outcome? (s : Completions) (id : Nat) : Option Outcome :=
  (s.cells[id]?).bind (·.outcome)

def add (s : Completions) (c : Completion.Cell) : Nat × Completions :=
  (s.cells.length, ⟨s.cells ++ [c]⟩)

def pair (s : Completions) : Nat × Completions :=
  s.add .pending

def ready (s : Completions) (o : Outcome) : Nat × Completions :=
  s.add (.ready o)

def resolve (s : Completions) (id : Nat) (o : Outcome) : Completions :=
  ⟨s.cells.modify id (·.resolve o)⟩

def drop (s : Completions) (id : Nat) : Completions :=
  ⟨s.cells.modify id (·.drop)⟩

def dropAll (s : Completions) (ids : List Nat) : Completions :=
  ids.foldl drop s

end Completions

namespace Completion

structure Handle where
  cell : Nat
  resolver : Bool
  deriving DecidableEq, Repr

inductive Stage
  /-- It is to look at the outcome, for the last time if its deadline has passed. -/
  | awake (late : Bool)
  | asleep
  | returned (answer : Option Outcome)
  | panicked

structure Waiter where
  cell : Nat
  deadline : Option Nat
  stage : Stage

namespace Waiter

/-- The thread looks at the outcome, and returns or goes to sleep. It holds the lock of the cell
meanwhile, so that no one settles the cell between the look and the sleep. -/
def look (w : Waiter) (known : Option Outcome) : Waiter :=
  match w.stage, known with
  | .awake _, some o => { w with stage := .returned (some o) }
  | .awake true, none => { w with stage := .returned none }
  | .awake false, none => { w with stage := .asleep }
  | _, _ => w

def notify (w : Waiter) : Waiter :=
  match w.stage with
  | .asleep => { w with stage := .awake false }
  | _ => w

def expire (w : Waiter) (now : Nat) : Waiter :=
  match w.stage, w.deadline with
  | .asleep, some deadline => if deadline ≤ now then { w with stage := .awake true } else w
  | _, _ => w

def answer? (w : Waiter) : Option (Option Outcome) :=
  match w.stage with
  | .returned answer => some answer
  | _ => none

end Waiter

/-- Instants are counted in nanoseconds. There are 63 bits for the seconds of an instant. -/
def instantBound : Nat := 0x8000000000000000 * 1000000000

structure Session where
  completions : Completions := {}
  handles : List Handle := []
  waiters : List Waiter := []
  joined : Nat := 0
  now : Nat := 0

namespace Session

def give (s : Session) (cell : Nat × Completions) (resolver : Bool) : Nat × Session :=
  (s.handles.length,
    { s with completions := cell.2, handles := s.handles ++ [⟨cell.1, resolver⟩] })

def pair (s : Session) : Nat × Session :=
  s.give s.completions.pair true

def ready (s : Session) (o : Outcome) : Nat × Session :=
  s.give (s.completions.ready o) false

def clone (s : Session) (h : Handle) : Nat × Session :=
  s.give (h.cell, s.completions) false

def holds (s : Session) (h : Handle) : Bool :=
  h.resolver && ((s.completions.cells[h.cell]?).map (·.held)).getD false

def notifyAll (s : Session) (cell : Nat) : Session :=
  { s with waiters := s.waiters.map fun w => if w.cell = cell then w.notify else w }

/-- The resolver is gone. If the outcome was not known, it is now, and those who sleep are told. -/
def settle (s : Session) (cell : Nat) (o : Outcome) : Session :=
  let settled := { s with completions := s.completions.resolve cell o }
  if (s.completions.outcome? cell).isNone then settled.notifyAll cell else settled

def resolve (s : Session) (h : Handle) (o : Outcome) : Bool × Session :=
  if s.holds h then (true, s.settle h.cell o) else (false, s)

def drop (s : Session) (h : Handle) : Bool × Session :=
  s.resolve h (.error .shuttingDown)

def outcome? (s : Session) (h : Handle) : Option Outcome :=
  s.completions.outcome? h.cell

def wait (s : Session) (h : Handle) : Session :=
  { s with waiters := s.waiters ++ [⟨h.cell, none, .awake false⟩] }

/-- A thread begins to wait for the outcome until its deadline. It panics if no instant is so late,
before it has looked at anything. -/
def waitTimeout (s : Session) (h : Handle) (timeout : Nat) : Session :=
  let deadline := s.now + timeout
  let stage := if deadline < instantBound then Stage.awake false else .panicked
  { s with waiters := s.waiters ++ [⟨h.cell, some deadline, stage⟩] }

def turn (s : Session) (i : Nat) : Session :=
  { s with waiters := s.waiters.modify i fun w => w.look (s.completions.outcome? w.cell) }

def expire (s : Session) (i : Nat) : Session :=
  { s with waiters := s.waiters.modify i fun w => w.expire s.now }

def tick (s : Session) (time : Nat) : Session :=
  { s with now := s.now + time }

/-- The answers of the threads that have not been joined, in the order in which they began to wait.
All of them have looked. There is no answer from those that go on waiting. -/
def join (s : Session) : List (Option Outcome) × Session :=
  let waiters := s.waiters.map fun w => w.look (s.completions.outcome? w.cell)
  ((waiters.drop s.joined).map fun w => w.answer?.join,
    { s with waiters, joined := waiters.length })

end Session

end Completion

end LedgerStore
