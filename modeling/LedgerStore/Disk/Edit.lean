import LedgerStore.Disk

set_option autoImplicit false

namespace LedgerStore.Disk

def makeWay (d : Disk) (way : List Step) : Except IoFailure Disk :=
  match provideAll way d with
  | .ok () d => .ok d
  | .error e _ => .error e

def makeRoom (d : Disk) (path : Path) : Except IoFailure Disk :=
  d.makeWay (Step.rise path.steps.reverse)

def store (d : Disk) (path : Path) (bs : Bytes) : Except IoFailure Disk := do
  let d ← d.makeRoom path
  let (handle, d) ← d.openFresh path
  d.append handle bs

def extend (d : Disk) (path : Path) (bs : Bytes) : Except IoFailure Disk := do
  let (handle, d) ← d.openAppend path
  d.append handle bs

def edit (d : Disk) (path : Path) (f : Bytes → Bytes) : Except IoFailure Disk := do
  match ← d.locate path with
  | .directory => .error .isDirectory
  | .full => .error .noSpace
  | .file id =>
    .ok (d.change id fun data =>
      { bytes := f data.bytes, synced := min data.synced (f data.bytes).length })

/-- Cuts a file to a length, or fills it with zeros up to it. -/
def truncate (d : Disk) (path : Path) (length : Nat) : Except IoFailure Disk :=
  d.edit path fun bs => bs.take length ++ List.replicate (length - bs.length) 0

def flip (d : Disk) (path : Path) (offset : Nat) (mask : UInt8) : Except IoFailure Disk :=
  d.edit path fun bs => bs.modify offset (· ^^^ mask)

def delete (d : Disk) (path : Path) : Except IoFailure Disk := do
  let _ ← d.locate path
  let place ← d.find path
  .ok { d with nodes := d.nodes.filter fun e => !place.holds e.1 }

def fill (d : Disk) (path : Path) : Except IoFailure Disk := do
  let d ← d.makeRoom path
  let place ← d.find path
  .ok (d.link place .full)

/-- The names in a directory in order, each with its length if it is no directory itself. There is
no answer for what is no directory. -/
def listing? (d : Disk) (path : Path) : Option (List (String × Option Nat)) :=
  match d.list path with
  | .error _ => none
  | .ok names =>
    some ((names.mergeSort fun a b => decide (a ≤ b)).map fun name =>
      match d.locate (path / name) with
      | .ok (.file id) => (name, some (d.data id).bytes.length)
      | .ok .full => (name, some 0)
      | _ => (name, none))

def contents? (d : Disk) (path : Path) : Option Bytes :=
  match d.locate path with
  | .ok (.file id) => some (d.data id).bytes
  | _ => none

end LedgerStore.Disk
