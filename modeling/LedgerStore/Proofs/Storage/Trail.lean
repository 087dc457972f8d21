import LedgerStore.Proofs.Storage.Turn

/-!
The ways of the resolvers. Beside the events a trail is kept of what came into the queue, what the
journal thread settled and what was lost, and the runs are told apart by the shutdown: the callers
are done before its message is sent.
-/

set_option autoImplicit false

namespace LedgerStore

namespace Event

def applied? : Event → Option Nat
  | .applied id => some id
  | _ => none

def batch? : Event → Option (List Nat)
  | .began batch => some batch
  | _ => none

def returned : Event → Bool
  | .ended .died => false
  | .ended _ => true
  | _ => false

def accepted (events : List Event) : List Nat :=
  events.filterMap applied?

def batches (events : List Event) : List (List Nat) :=
  (events.filterMap batch?).reverse

theorem mem_accepted {id : Nat} {events : List Event} :
    id ∈ accepted events ↔ .applied id ∈ events := by
  rw [accepted, List.mem_filterMap]
  constructor
  · rintro ⟨x, hx, heq⟩
    cases x with
    | applied other =>
      cases heq
      exact hx
    | _ => cases heq
  · exact fun h => ⟨_, h, rfl⟩

theorem batches_began (batch : List Nat) (events : List Event) :
    batches (.began batch :: events) = batches events ++ [batch] :=
  List.reverse_cons

end Event

namespace JournalThread

def held (t : JournalThread) : List Nat :=
  t.batch ++ t.queue.filterMap JournalMessage.id?

def due (t : JournalThread) : List (Nat × Outcome) :=
  match t.phase with
  | .settling outcome _ => t.batch.map fun id => (id, outcome)
  | _ => []

theorem ids_perm_held (t : JournalThread) : t.ids.Perm t.held :=
  List.perm_append_comm

theorem held_take {t : JournalThread} {id : Nat} {queue : List JournalMessage}
    (h : t.queue = .pending id :: queue) (phase : JournalPhase) :
    ({ t with queue, batch := t.batch ++ [id], phase } : JournalThread).held = t.held := by
  have hqueue : t.queue.filterMap JournalMessage.id? =
      id :: queue.filterMap JournalMessage.id? := by
    rw [h]
    rfl
  rw [held, held, hqueue, List.append_assoc]
  rfl

theorem held_pass {t : JournalThread} {queue : List JournalMessage}
    (h : t.queue = .shutdown :: queue) (phase : JournalPhase) :
    ({ t with queue, phase } : JournalThread).held = t.held := by
  rw [held, held, h]
  rfl

theorem held_push (t : JournalThread) (message : JournalMessage) :
    ({ t with queue := t.queue ++ [message] } : JournalThread).held =
      t.held ++ message.id?.toList := by
  rw [held, held, List.filterMap_append, List.append_assoc]
  cases message <;> rfl

theorem countP_due {t : JournalThread} {outcome : Outcome} {last : Bool}
    (h : t.phase = .settling outcome last) (p : Outcome → Bool) :
    t.due.countP (fun x => p x.2) = if p outcome then t.batch.length else 0 := by
  rw [due, h]
  dsimp only
  rw [List.countP_map]
  cases hp : p outcome <;> simp [Function.comp_def, hp]

end JournalThread

namespace Storage

variable {σ : Type}

/-- What became of the resolvers of the accepted writes. Events are given newest first, the writes
in the order in which it happened. -/
structure Trail where
  events : List Event := []
  queued : List Nat := []
  settled : List (Nat × Outcome) := []
  /-- The writes that the journal thread left behind at its end, in its batch or in the queue. -/
  stranded : List Nat := []
  late : List Nat := []

namespace Trail

def lost (r : Trail) : List Nat :=
  r.stranded ++ r.late

variable [Engine σ]

def turn (r : Trail) (s : Storage σ) (t : JournalThread) : Trail :=
  match t.phase, t.batch with
  | .settling outcome _, id :: _ => { r with settled := r.settled ++ [(id, outcome)] }
  | .settling _ true, [] => { r with stranded := r.stranded ++ t.held }
  | .syncing, _ =>
    match (Engine.sync (s.engine, s.host)).1 with
    | .died => { r with stranded := r.stranded ++ t.held }
    | _ => r
  | _, _ => r

/-- The trail after a move, but for the event that it shows. -/
def follow (r : Trail) (s : Storage σ) : Deed → Trail
  | .send id =>
    match s.sending.lookup id, s.thread with
    | some _, some t =>
      match t.phase with
      | .ended _ => { r with late := r.late ++ [id] }
      | _ => { r with queued := r.queued ++ [id] }
    | _, _ => r
  | .advance =>
    match s.thread with
    | some t => r.turn s t
    | none => r
  | _ => r

end Trail

def record [Engine σ] (w : Storage σ × Trail) (deed : Deed) : Storage σ × Trail :=
  (w.1.act deed,
    { w.2.follow w.1 deed with events := (w.1.event? deed).toList ++ w.2.events })

/-- The runs of a write path on which the callers are done before the shutdown message is sent, and
whether it has been sent. Only the journal thread and its clock go on after it. -/
inductive Reached [Engine σ] (first : Storage σ) : Bool → Storage σ × Trail → Prop
  | start : Reached first false (first, {})
  | move {w : Storage σ × Trail} (before : Reached first false w) {deed : Deed}
      (serving : deed ≠ .shutdown) : Reached first false (record w deed)
  | shutdown {w : Storage σ × Trail} (before : Reached first false w)
      (done : w.1.sending = []) : Reached first true (record w .shutdown)
  | advance {w : Storage σ × Trail} (before : Reached first true w) :
      Reached first true (record w .advance)
  | permits {w : Storage σ × Trail} (before : Reached first true w)
      (change : PermitSource → PermitSource) : Reached first true (record w (.permits change))

end Storage

end LedgerStore
