import LedgerStore.Journal

set_option autoImplicit false

namespace LedgerStore.Journal

structure Writer where
  dir : Path
  sequence : Nat
  handle : Handle
  size : Nat
  rotation : Nat
  maxValue : Nat
  deriving DecidableEq, Repr

namespace Writer

def path (w : Writer) : Path :=
  w.dir / fileName.render w.sequence

def openFile (path : Path) : Action Host Handle :=
  (Host.openAppend path).during path "failed to open journal file"

/-- The sequence to write after the files found. The last file is used again if it is empty; else
it may end in a torn record, behind which nothing can be read, and the next sequence is taken. -/
def firstSequence (dir : Path) : List File → Action Host Nat
  | [] => return 0
  | [file] => do
    let size ← (Host.lengthAt (dir / file.2)).during (dir / file.2) "failed to stat journal file"
    return if size = 0 then file.1 else FileName.next file.1
  | _ :: rest => firstSequence dir rest

/-- Opens the journal in a directory for writing at a sequence not below `floor`. -/
def start (dir : Path) (floor rotation maxValue : Nat) : Action Host Writer := do
  (Host.createDirectories dir).during dir "failed to create journal directory"
  let files ← list dir
  let sequence := max (← firstSequence dir files) floor
  let path := dir / fileName.render sequence
  let handle ← openFile path
  let size ← (Host.length handle).during path "failed to stat journal file"
  return { dir, sequence, handle, size, rotation, maxValue }

def sync : Action (Writer × Host) Unit := fun s =>
  Action.onHost ((Host.sync s.1.handle).during s.1.path "journal sync failed") s

def roll : Action (Writer × Host) Nat := do
  sync
  let w := (← get).1
  let next := { w with sequence := FileName.next w.sequence, size := 0 }
  let handle ← Action.onHost (openFile next.path)
  modify fun s => ({ next with handle }, s.2)
  Action.onHost (Action.note ⟨.info, s!"event=journal_rotated path={next.path.text}"⟩)
  return next.sequence

def mustRoll (w : Writer) (length : Nat) : Bool :=
  decide (0 < w.size) && decide (w.rotation < w.size + length)

def write (bs : Bytes) : Action (Writer × Host) Unit := do
  let w := (← get).1
  Action.onHost ((Host.append w.handle bs).during w.path "journal write failed")
  modify fun s => ({ w with size := w.size + bs.length }, s.2)

def append (r : Record) : Action (Writer × Host) Unit := do
  let w := (← get).1
  let bs ← liftExcept (r.encode w.maxValue)
  if w.mustRoll bs.length then
    let _ ← roll
  write bs

end Writer

end LedgerStore.Journal
