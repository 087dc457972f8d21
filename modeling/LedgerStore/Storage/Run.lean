import LedgerStore.Storage.Thread

set_option autoImplicit false

namespace LedgerStore.Storage

variable {σ : Type}

def run [Engine σ] : Nat → Storage σ → Storage σ
  | 0, s => s
  | n + 1, s =>
    match s.advance with
    | none => s
    | some s => run n s

def settle [Engine σ] (s : Storage σ) : Storage σ :=
  run s.moves s

theorem advance_run [Engine σ] {n : Nat} {s : Storage σ} (h : s.moves ≤ n) :
    (run n s).advance = none := by
  induction n generalizing s with
  | zero =>
    rw [run]
    cases move : s.advance with
    | none => rfl
    | some t =>
      have := moves_advance move
      omega
  | succ n ih =>
    rw [run]
    split
    next move => exact move
    next t move =>
      have := moves_advance move
      exact ih (by omega)

/-- A settled journal thread waits or has ended. -/
theorem advance_settle [Engine σ] (s : Storage σ) : s.settle.advance = none :=
  advance_run (Nat.le_refl _)

def withPermits (s : Storage σ) (f : PermitSource → PermitSource) : Storage σ :=
  { s with thread := s.thread.map fun t => { t with permits := f t.permits } }

def grant (s : Storage σ) : Storage σ :=
  s.withPermits PermitSource.grant

/-- The outcome of a write that its caller waits for. The wait lasts until the journal thread is
granted the permit that it may need. -/
def await [Engine σ] (s : Storage σ) (id : Nat) : Outcome × Storage σ :=
  let s := s.settle
  let s := if (s.completions.outcome? id).isSome then s else s.grant.settle
  ((s.completions.outcome? id).getD (.error .shuttingDown), s)

def requestShutdown (s : Storage σ) : Storage σ :=
  match s.thread with
  | none => s
  | some t =>
    match t.phase with
    | .ended _ => s
    | _ => { s with thread := some { t with queue := t.queue ++ [.shutdown] } }

def panicked (s : Storage σ) : Bool :=
  match s.thread with
  | none => false
  | some t =>
    match t.phase with
    | .ended panicked => panicked
    | _ => false

/-- Shuts the journal thread down and waits for its end, for which it gets all permits it asks. -/
def close [Engine σ] (s : Storage σ) : Storage σ :=
  let s := s.requestShutdown
  let s := (s.withPermits fun _ => .unlimited).settle
  if s.panicked then s.note ⟨.error, "event=journal_thread_panicked"⟩ else s

end LedgerStore.Storage
