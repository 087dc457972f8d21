import LedgerStore.Disk
import LedgerStore.Log

/-!
The machine that the store runs on: its file system, the faults that will befall the calls to
come, and the log. An action changes a state and answers a value or an error; what it changed
before an error stays changed.
-/

set_option autoImplicit false

namespace LedgerStore

inductive Fault
  | clear
  | refuse (reason : String)
  /-- A write fails after the given count of bytes, and never after all of them. -/
  | cut (kept : Nat) (reason : String)
  deriving DecidableEq, Repr

/-- The file system, one fault for each call to come (none left: all run as they should), and
the log with the newest line first. -/
structure Host where
  disk : Disk := {}
  faults : List Fault := []
  log : List LogLine := []
  deriving DecidableEq, Repr

abbrev Call (α : Type) := EStateM IoFailure Host α

abbrev Action (σ α : Type) := EStateM StorageError σ α

namespace Host

def note (h : Host) (line : LogLine) : Host :=
  { h with log := line :: h.log }

def fault (h : Host) : Fault :=
  h.faults.headD .clear

def spent (h : Host) : Host :=
  { h with faults := h.faults.tail }

def call {α : Type} (run : EStateM IoFailure Disk α) : Call α := fun h =>
  match h.fault with
  | .clear =>
    match run h.disk with
    | .ok a disk => .ok a { h.spent with disk }
    | .error e disk => .error e { h.spent with disk }
  | .refuse reason => .error ⟨.other, reason⟩ h.spent
  | .cut _ reason => .error ⟨.other, reason⟩ h.spent

/-- A call that changes nothing if it fails. -/
def atomic {α : Type} (run : Disk → Except IoFailure (α × Disk)) : Call α :=
  call fun d =>
    match run d with
    | .ok (a, d) => .ok a d
    | .error e => .error e d

def ask {α : Type} (look : Disk → Except IoFailure α) : Call α :=
  atomic fun d => (look d).map (·, d)

def alter (run : Disk → Except IoFailure Disk) : Call Unit :=
  atomic fun d => (run d).map ((), ·)

def createDirectories (path : Path) : Call Unit :=
  call (Disk.createDirectories path)

def list (path : Path) : Call (List String) :=
  ask (·.list path)

def lengthAt (path : Path) : Call Nat :=
  ask (·.lengthAt path)

def length (handle : Handle) : Call Nat :=
  ask fun d => .ok (d.length handle)

def read (path : Path) : Call Bytes :=
  ask (·.read path)

def openAppend (path : Path) : Call Handle :=
  atomic (·.openAppend path)

def openFresh (path : Path) : Call Handle :=
  atomic (·.openFresh path)

/-- A write that is cut short leaves the bytes before the cut. -/
def append (handle : Handle) (bs : Bytes) : Call Unit := fun h =>
  match h.fault with
  | .cut kept reason =>
    match h.disk.append handle (bs.dropLast.take kept) with
    | .ok disk => .error ⟨.other, reason⟩ { h.spent with disk }
    | .error e => .error e h.spent
  | _ => alter (·.append handle bs) h

def sync (handle : Handle) : Call Unit :=
  alter (·.sync handle)

def rename (source target : Path) : Call Unit :=
  alter (·.rename source target)

def remove (path : Path) : Call Unit :=
  alter (·.remove path)

def openDirectory (path : Path) : Call Unit :=
  ask fun d => (d.locate path).map fun _ => ()

def syncDirectory : Call Unit :=
  ask fun _ => .ok ()

end Host

namespace Call

def during {α : Type} (c : Call α) (path : Path) (what : String) : Action Host α := fun h =>
  match c h with
  | .ok a h => .ok a h
  | .error e h => .error (e.onFile path.text what) h

end Call

namespace Action

def note (line : LogLine) : Action Host Unit := fun h =>
  .ok () (h.note line)

def onHost {σ α : Type} (act : Action Host α) : Action (σ × Host) α := fun s =>
  match act s.2 with
  | .ok a h => .ok a (s.1, h)
  | .error e h => .error e (s.1, h)

def onPart {σ τ α : Type} (part : σ → τ) (put : σ → τ → σ) (act : Action (τ × Host) α) :
    Action (σ × Host) α := fun s =>
  match act (part s.1, s.2) with
  | .ok a t => .ok a (put s.1 t.1, t.2)
  | .error e t => .error e (put s.1 t.1, t.2)

end Action

end LedgerStore
