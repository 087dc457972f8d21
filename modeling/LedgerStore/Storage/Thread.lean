import LedgerStore.Storage.Basic

/-!
The journal thread. It takes a permit, gathers what is in the queue into a batch, syncs once and
settles the whole batch with the outcome of the sync. After a shutdown message it syncs no more and
settles with an error all that it holds or can still take. The main statement says that its moves
come to an end unless callers or permits come in between.
-/

set_option autoImplicit false

namespace LedgerStore

/-- A bound on the moves that the thread can make before it waits or ends. -/
def JournalThread.moves (t : JournalThread) : Nat :=
  8 * t.queue.length + 6 * t.batch.length +
    match t.phase with
    | .acquiring => 3
    | .draining => 2
    | .parked => 1
    | .syncing => if t.batch = [] then 5 else 1
    | .settling _ _ => if t.batch = [] then 4 else 0
    | .abandoning => 5
    | .ended _ => 0

namespace Storage

variable {σ : Type}

def finish (s : Storage σ) (t : JournalThread) (panicked : Bool) : Storage σ :=
  { s with
    thread := some { t with queue := [], batch := [], phase := .ended panicked }
    completions := s.completions.dropAll (t.batch ++ t.queue.filterMap JournalMessage.id?) }

def fail (s : Storage σ) (t : JournalThread) (cause : StorageError) (last : Bool) : Storage σ :=
  { s with
    thread := some { t with phase := .settling (.error cause) last }
    stats := { s.stats with failed := s.stats.failed + t.batch.length } }

def call (s : Storage σ) (t : JournalThread) : Option Event × Storage σ :=
  (some (.began t.batch), { s with thread := some { t with phase := .syncing } })

def resume (s : Storage σ) (t : JournalThread) : SyncEnd → Storage σ
  | .died => s.finish t true
  | .synced =>
    let size := t.batch.length
    { s with
      thread := some { t with phase := .settling (.ok ()) false }
      stats := { s.stats with syncs := s.stats.syncs + 1, synced := s.stats.synced + size } }.note
      ⟨.debug, s!"event=journal_synced entries={size}"⟩
  | .failed cause =>
    let size := t.batch.length
    let s := { s with stats := { s.stats with syncs := s.stats.syncs + 1 } }
    (s.note ⟨.error, s!"event=journal_sync_failed entries={size} error={cause.message}"⟩).fail t
      (.syncFailed size cause.message) false

def commit [Engine σ] (s : Storage σ) (t : JournalThread) : Option Event × Storage σ :=
  let (ending, engine, host) := Engine.sync (s.engine, s.host)
  (some (.ended ending), { s with engine, host }.resume t ending)

/-- The thread has taken the shutdown message, behind which a queue is left. -/
def stop (s : Storage σ) (t : JournalThread) (queue : List JournalMessage) :
    Option Event × Storage σ :=
  (some .stopped, { s with thread := some { t with queue, phase := .abandoning } })

def abandon (s : Storage σ) (t : JournalThread) : Storage σ :=
  let size := t.batch.length
  let s :=
    if size = 0 then s else s.note ⟨.warn, s!"event=journal_shutdown_unsynced entries={size}"⟩
  s.fail t .shuttingDown true

/-- The next move of the journal thread. There is none while it waits for a permit or a message,
and none after its end. -/
def advanceShown [Engine σ] (s : Storage σ) : Option (Option Event × Storage σ) :=
  match s.thread with
  | none => none
  | some t =>
    match t.phase with
    | .acquiring =>
      t.permits.acquire.map fun permits =>
        (none, { s with thread := some { t with permits, phase := .draining } })
    | .draining =>
      match t.queue with
      | .pending id :: queue =>
        some (none, { s with thread := some { t with queue, batch := t.batch ++ [id] } })
      | .shutdown :: queue => some (s.stop t queue)
      | [] =>
        if t.batch = [] then some (none, { s with thread := some { t with phase := .parked } })
        else some (s.call t)
    | .parked =>
      match t.queue with
      | .pending id :: queue =>
        some (none,
          { s with thread := some { t with queue, batch := t.batch ++ [id], phase := .draining } })
      | .shutdown :: queue => some (s.stop t queue)
      | [] => none
    | .syncing => some (s.commit t)
    | .settling outcome last =>
      match t.batch with
      | id :: batch =>
        some (none, { s with
          thread := some { t with batch }
          completions := s.completions.resolve id outcome })
      | [] =>
        some (none, if last then s.finish t false
          else { s with thread := some { t with phase := .acquiring } })
    | .abandoning =>
      match t.queue with
      | .pending id :: queue =>
        some (none, { s with thread := some { t with queue, batch := t.batch ++ [id] } })
      | .shutdown :: queue => some (none, { s with thread := some { t with queue } })
      | [] => some (none, s.abandon t)
    | .ended _ => none

def advance [Engine σ] (s : Storage σ) : Option (Storage σ) :=
  s.advanceShown.map (·.2)

def moves (s : Storage σ) : Nat :=
  match s.thread with
  | none => 0
  | some t => JournalThread.moves t

theorem moves_commit [Engine σ] (s : Storage σ) {t : JournalThread} (h : t.phase = .syncing) :
    (s.commit t).2.moves < t.moves := by
  unfold commit
  split
  rename_i ending engine host _
  cases ending <;> simp [resume, finish, fail, note, moves, JournalThread.moves, h] <;> split <;>
    omega

/-- Every move of the journal thread brings it nearer to a wait or its end. -/
theorem moves_advance [Engine σ] {s s' : Storage σ} (h : s.advance = some s') :
    s'.moves < s.moves := by
  rw [advance, Option.map_eq_some_iff] at h
  obtain ⟨⟨x, s'⟩, h, rfl⟩ := h
  unfold advanceShown at h
  split at h
  next => simp at h
  next t thread =>
    have moves_eq : s.moves = t.moves := by simp [moves, thread]
    rw [moves_eq]
    split at h
    next phase =>
      obtain ⟨permits, _, heq⟩ := Option.map_eq_some_iff.1 h
      cases heq
      simp [moves, JournalThread.moves, phase]
    next phase =>
      split at h <;> rename_i queue
      · cases h; simp [moves, JournalThread.moves, phase, queue]; omega
      · cases h; simp [moves, JournalThread.moves, phase, queue]; omega
      · split at h <;> rename_i batch <;> cases h <;>
          simp [moves, JournalThread.moves, phase, queue, batch]
    next phase =>
      split at h <;> rename_i queue <;> cases h
      · simp [moves, JournalThread.moves, phase, queue]; omega
      · simp [moves, JournalThread.moves, phase, queue]; omega
    next phase => cases h; exact moves_commit s phase
    next outcome last phase =>
      split at h <;> rename_i batch <;> cases h
      · simp [moves, JournalThread.moves, phase, batch]; split <;> omega
      · cases last <;> simp [moves, finish, JournalThread.moves, phase, batch]
    next phase =>
      split at h <;> rename_i queue <;> cases h
      · simp [moves, JournalThread.moves, phase, queue]; omega
      · simp [moves, JournalThread.moves, phase, queue]
      · unfold abandon
        dsimp only
        split <;> simp [moves, note, fail, JournalThread.moves, phase] <;> split <;> omega
    next => simp at h

end Storage

end LedgerStore
