import LedgerStore.Completion
import LedgerStore.Engine
import LedgerStore.Rate

/-!
The durable write path, as its callers see it. A write is applied to the engine on the caller's
thread. With batching its completion then waits in a queue for the journal thread, which settles
it. Callers and the journal thread may move in any order; every function here is one move of a
caller, but for a whole write. The queue takes any number of writes: a bound on it would only make
callers wait.
-/

set_option autoImplicit false

namespace LedgerStore

/-- What happens between the write path and its engine. Every move that calls the engine, or after
which the journal thread is to call it no more, answers its event with the new state. -/
inductive Event
  | applied (id : Nat)
  | refused (id : Nat) (key : Key) (cause : StorageError)
  | began (batch : List Nat)
  | ended (ending : SyncEnd)
  | stopped

/-- A message to the journal thread. A write is known by the place of its completion's cell. -/
inductive JournalMessage
  | pending (id : Nat)
  | shutdown
  deriving DecidableEq, Repr

def JournalMessage.id? : JournalMessage → Option Nat
  | pending id => some id
  | shutdown => none

inductive JournalPhase
  | acquiring
  | draining
  | parked
  | syncing
  /-- Settle the next write of the batch; the thread then ends if the batch is its last. -/
  | settling (outcome : Outcome) (last : Bool)
  | abandoning
  | ended (panicked : Bool)

structure JournalThread where
  queue : List JournalMessage := []
  batch : List Nat := []
  phase : JournalPhase := .acquiring
  permits : PermitSource

structure StorageStats where
  syncs : Nat := 0
  synced : Nat := 0
  failed : Nat := 0
  deriving DecidableEq, Repr

structure Storage (σ : Type) where
  engine : σ
  host : Host
  thread : Option JournalThread
  completions : Completions := {}
  /-- Applied writes whose callers have yet to put them in the queue. -/
  sending : List (Nat × Key) := []
  stats : StorageStats := {}

namespace Storage

variable {σ : Type}

def start (engine : σ) (host : Host) (batching : Bool) (permits : PermitSource)
    (completions : Completions) : Storage σ where
  engine := engine
  host := host
  thread := if batching then some { permits := permits } else none
  completions := completions

def isBatching (s : Storage σ) : Bool :=
  s.thread.isSome

def note (s : Storage σ) (line : LogLine) : Storage σ :=
  { s with host := s.host.note line }

def get [Engine σ] (s : Storage σ) (key : Key) : Except StorageError (Option Bytes) :=
  Engine.get s.engine key

def scan [Engine σ] (s : Storage σ) (ledger : Int64) :
    Except StorageError (List (Key × Bytes)) :=
  Engine.scan s.engine ledger

def answer (s : Storage σ) (o : Outcome) : Nat × Storage σ :=
  ((s.completions.ready o).1, { s with completions := (s.completions.ready o).2 })

/-- A caller applies a write to the engine and gets a completion. It is pending if a sync is to
follow, and the caller has then to send it to the journal thread. -/
def applyShown [Engine σ] (s : Storage σ) (key : Key) (value : Bytes) :
    Option Event × Nat × Storage σ :=
  match Engine.put key value (s.engine, s.host) with
  | .error cause (engine, host) =>
    let s := { s with engine, host }.note
      ⟨.error, s!"event=storage_apply_failed key={key.text} error={cause.message}"⟩
    let (id, s) := s.answer (.error (.applyFailed key cause.message))
    (some (.refused id key cause), id, s)
  | .ok () (engine, host) =>
    let s := { s with engine, host }
    match s.thread with
    | none => (none, s.answer (.ok ()))
    | some _ =>
      let (id, completions) := s.completions.pair
      (some (.applied id), id, { s with completions, sending := s.sending ++ [(id, key)] })

def apply [Engine σ] (s : Storage σ) (key : Key) (value : Bytes) : Nat × Storage σ :=
  (s.applyShown key value).2

/-- A caller sends a write to the journal thread. If the thread has ended the resolver is lost. -/
def send (s : Storage σ) (id : Nat) : Storage σ :=
  match s.sending.lookup id, s.thread with
  | some key, some t =>
    let s := { s with sending := s.sending.filter (fun w => w.1 != id) }
    match t.phase with
    | .ended _ =>
      { s with completions := s.completions.drop id }.note
        ⟨.warn, s!"event=storage_put_after_shutdown key={key.text}"⟩
    | _ => { s with thread := some { t with queue := t.queue ++ [.pending id] } }
  | _, _ => s

def put [Engine σ] (s : Storage σ) (key : Key) (value : Bytes) : Nat × Storage σ :=
  let (id, s) := s.apply key value
  (id, s.send id)

end Storage

end LedgerStore
