import LedgerStore.Checkpoint
import LedgerStore.Config
import LedgerStore.Engine
import LedgerStore.Index
import LedgerStore.Journal.Writer

/-!
The durable engine: an index in memory over a journal. A write is appended to the journal and then
entered in the index. A checkpoint saves the index, after which the journal files it covers go.
Opening loads the newest checkpoint and replays the journal files that it does not cover.
-/

set_option autoImplicit false

namespace LedgerStore

structure EntryLog where
  dataDir : Path
  journalDir : Path
  index : Index
  writer : Journal.Writer

namespace EntryLog

/-- The newest checkpoint's records and the first journal file that it does not cover. -/
def loadCheckpoint (dataDir : Path) : Action Host (Nat × Index) := do
  match ← Checkpoint.latest dataDir with
  | none => return (0, {})
  | some (sequence, path) =>
    let records ← Checkpoint.load path
    Action.note
      ⟨.info, s!"event=checkpoint_loaded path={path.text} entries={records.length}"⟩
    return (sequence, Index.replay {} records)

def start (config : Config) : Action Host EntryLog := do
  let dataDir := config.dataDir
  let journalDir := config.journalDir
  (Host.createDirectories dataDir).during dataDir "failed to create data directory"
  Action.note
    ⟨.info, s!"event=engine_open data_dir={dataDir.text} journal_dir={journalDir.text}"⟩
  let (first, saved) ← loadCheckpoint dataDir
  let records ← Journal.recoverFrom journalDir first
  let index := saved.replay records
  if records ≠ [] then
    Action.note ⟨.info, s!"event=engine_recovered records={records.length} " ++
      s!"ledgers={index.ledgers.length}"⟩
  let writer ← Journal.Writer.start journalDir first config.rotationBytes config.maxValueSize
  return { dataDir, journalDir, index, writer }

def onWriter {α : Type} (act : Action (Journal.Writer × Host) α) : Action (EntryLog × Host) α :=
  Action.onPart writer (fun e writer => { e with writer }) act

def put (key : Key) (value : Bytes) : Action (EntryLog × Host) Unit := fun s =>
  match onWriter (Journal.Writer.append ⟨key, value⟩) s with
  | .ok () (e, h) => .ok () ({ e with index := e.index.insert key value }, h)
  | .error cause (e, h) =>
    .error cause
      (e, h.note ⟨.error, s!"event=engine_put_failed key={key.text} error={cause.message}"⟩)

def syncLog : Action (EntryLog × Host) Unit :=
  onWriter Journal.Writer.sync

/-- Saves the index in a checkpoint and removes the files that it makes superfluous. Answers the
checkpoint's sequence. -/
def checkpoint : Action (EntryLog × Host) Nat := do
  let sequence ← onWriter Journal.Writer.roll
  let e := (← get).1
  Action.onHost do
    let _ ← Checkpoint.write e.dataDir sequence e.index.records
    let journals ← Journal.removeBefore e.journalDir sequence
    let checkpoints ← Checkpoint.removeStale e.dataDir sequence
    Action.note ⟨.info, s!"event=checkpoint_written sequence={sequence} " ++
      s!"entries={e.index.size} journals_removed={journals} checkpoints_removed={checkpoints}"⟩
    return sequence

instance : Engine EntryLog where
  put := put
  sync s :=
    match syncLog s with
    | .ok () s => (.synced, s)
    | .error cause s => (.failed cause, s)
  get e key := .ok (e.index.get? key)
  scan e ledger := .ok (e.index.ofLedger ledger)

end EntryLog

end LedgerStore
