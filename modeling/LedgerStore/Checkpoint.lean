import LedgerStore.Journal

/-!
Checkpoints: files with the records of all live entries, numbered with the first journal file that
they do not cover. A checkpoint is written under a temporary name, synced and then renamed, so
that a file with a checkpoint's name is always whole.
-/

set_option autoImplicit false

namespace LedgerStore.Checkpoint

def fileName : FileName := ⟨"checkpoint-".toList, ".dat".toList⟩

def temporarySuffix : String := ".tmp"

def temporaryName (sequence : Nat) : String :=
  fileName.render sequence ++ temporarySuffix

/-- The file with the highest sequence, the first of them in the order given. -/
def highest : List String → Option (Nat × String)
  | names =>
    names.foldl
      (fun best name =>
        match fileName.sequence? name, best with
        | none, _ => best
        | some sequence, none => some (sequence, name)
        | some sequence, some b => if b.1 < sequence then some (sequence, name) else best)
      none

def latest (dir : Path) : Action Host (Option (Nat × Path)) := fun h =>
  match Host.list dir h with
  | .ok names h => .ok ((highest names).map fun best => (best.1, dir / best.2)) h
  | .error e h =>
    if e.kind = .notFound then .ok none h
    else .error (e.onFile dir.text "failed to read data directory") h

def load (path : Path) : Action Host (List Record) :=
  Record.readFile path

/-- Records are gathered in memory until there are so many bytes. -/
def bufferSize : Nat := 8192

def flush (handle : Handle) (buffer : Bytes) : Call Unit :=
  if buffer = [] then return () else Host.append handle buffer

def accept (handle : Handle) (buffer bs : Bytes) : Call Bytes := do
  if bufferSize ≤ bs.length then
    Host.append handle bs
    return buffer
  else return buffer ++ bs

/-- Gathers one more record, and answers what is gathered then. A record for which there is no
room sends what was there before it to the file. -/
def gather (handle : Handle) (buffer bs : Bytes) : Call Bytes :=
  let spare := bufferSize - buffer.length
  if bs.length < spare then return buffer ++ bs
  else if bs.length = spare then accept handle buffer bs
  else do
    flush handle buffer
    accept handle [] bs

def writeAll (handle : Handle) (path : Path) : Bytes → List Record → Action Host Bytes
  | buffer, [] => return buffer
  | buffer, r :: rest => do
    let buffer ← (gather handle buffer r.bytes).during path "checkpoint write failed"
    writeAll handle path buffer rest

def writeFile (path : Path) (records : List Record) : Action Host Unit := do
  let handle ← (Host.openFresh path).during path "failed to create checkpoint file"
  let buffer ← writeAll handle path [] records
  (flush handle buffer).during path "checkpoint flush failed"
  (Host.sync handle).during path "checkpoint sync failed"

def syncDirectory (dir : Path) : Action Host Unit := do
  (Host.openDirectory dir).during dir "failed to open directory for sync"
  Host.syncDirectory.during dir "directory sync failed"

def write (dir : Path) (sequence : Nat) (records : List Record) : Action Host Path := do
  let final := dir / fileName.render sequence
  let temporary := dir / temporaryName sequence
  writeFile temporary records
  (Host.rename temporary final).during final "failed to publish checkpoint"
  syncDirectory dir
  return final

def stale (sequence : Nat) (name : String) : Bool :=
  match fileName.sequence? name with
  | some s => decide (s < sequence)
  | none =>
    fileName.before.isPrefixOf name.toList && temporarySuffix.toList.isSuffixOf name.toList

def removeStale (dir : Path) (sequence : Nat) : Action Host Nat := do
  let names ← (Host.list dir).during dir "failed to read data directory"
  Journal.removeAll dir "failed to remove checkpoint" (names.filter (stale sequence))

end LedgerStore.Checkpoint
