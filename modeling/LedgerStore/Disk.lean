import LedgerStore.Bytes
import LedgerStore.Error
import LedgerStore.Path

/-!
A file system: a tree of directories and files. A name leads to a file by the file's number, so an
open file outlives its name; each file remembers how much of it a sync has made permanent. A path
is followed step by step, and every step but the last must lead to a directory. A call either
fails or answers with the file system after it.
-/

set_option autoImplicit false

namespace LedgerStore

/-- What a name stands for. A full device takes no bytes and cannot be synced. -/
inductive Node
  | directory
  | file (id : Nat)
  | full
  deriving DecidableEq, Repr

/-- The bytes of a file, and the length that the last sync made permanent. -/
structure FileData where
  bytes : Bytes := []
  synced : Nat := 0
  deriving DecidableEq, Repr

inductive Handle
  | file (id : Nat)
  | full
  deriving DecidableEq, Repr

/-- All names that were given, the newest first, and the files by their numbers. -/
structure Disk where
  nodes : List (Place × Node) := []
  files : List FileData := []
  deriving DecidableEq, Repr

namespace Disk

/-- The node at a place. The working directory and those above it are there themselves. -/
def node? (d : Disk) (place : Place) : Option Node :=
  if place.names = [] then some .directory else d.nodes.lookup place

def expectDirectory (d : Disk) (place : Place) : Except IoFailure Unit :=
  match d.node? place with
  | some .directory => .ok ()
  | some _ => .error .notDirectory
  | none => .error .missing

def walk (d : Disk) (place : Place) : List Step → Except IoFailure Place
  | [] => .ok place
  | step :: rest => do
    d.expectDirectory place
    d.walk (place.after step) rest

theorem walk_append (d : Disk) (place : Place) (front rest : List Step) :
    d.walk place (front ++ rest) = (d.walk place front).bind (d.walk · rest) := by
  induction front generalizing place with
  | nil => rfl
  | cons step front ih =>
    simp only [List.cons_append, walk, ih]
    cases d.expectDirectory place <;> rfl

/-- The place that a path leads to, where nothing need be yet. -/
def find (d : Disk) (path : Path) : Except IoFailure Place :=
  if path.isEmpty then .error .missing else d.walk {} path.steps

def locate (d : Disk) (path : Path) : Except IoFailure Node := do
  match d.node? (← d.find path) with
  | some node => .ok node
  | none => .error .missing

def link (d : Disk) (place : Place) (node : Node) : Disk :=
  { d with nodes := (place, node) :: d.nodes.filter (fun e => e.1 != place) }

def unlink (d : Disk) (place : Place) : Disk :=
  { d with nodes := d.nodes.filter (fun e => e.1 != place) }

def data (d : Disk) (id : Nat) : FileData :=
  (d.files[id]?).getD {}

def change (d : Disk) (id : Nat) (f : FileData → FileData) : Disk :=
  { d with files := d.files.modify id f }

def create (d : Disk) (place : Place) : Disk × Nat :=
  ({ d.link place (.file d.files.length) with files := d.files ++ [{}] }, d.files.length)

/-- Makes one directory at the end of a way, which is given last step first. Slashes behind the
name of the directory are no steps. -/
def makeDirectory (d : Disk) (way : List Step) : Except IoFailure Disk := do
  let place ← d.walk {} (way.dropWhile (· = .nothing)).reverse
  match d.node? place with
  | some _ => .error .occupied
  | none => .ok (d.link place .directory)

def isDirectory (d : Disk) (steps : List Step) : Bool :=
  match d.walk {} steps with
  | .ok place => d.node? place == some .directory
  | .error _ => false

def provide (way : List Step) : EStateM IoFailure Disk Unit := fun d =>
  match d.makeDirectory way with
  | .ok d => .ok () d
  | .error e => if d.isDirectory way.reverse then .ok () d else .error e d

/-- Makes a directory, and if the way to it is missing first the one above it. What was made
before a failure stays. -/
def provideAll (way : List Step) : EStateM IoFailure Disk Unit := fun d =>
  match provide way d with
  | .ok () d => .ok () d
  | .error e d =>
    if e = .missing ∧ (Step.rise way).length < way.length then
      match provideAll (Step.rise way) d with
      | .ok () d => provide way d
      | .error e d => .error e d
    else .error e d
termination_by way.length
decreasing_by rename_i h; exact h.2

def createDirectories (path : Path) : EStateM IoFailure Disk Unit :=
  provideAll path.steps.reverse

/-- The names in a directory, the newest first. -/
def names (d : Disk) (place : Place) : List String :=
  d.nodes.filterMap fun e => place.nameOf? e.1

def list (d : Disk) (path : Path) : Except IoFailure (List String) := do
  let place ← d.find path
  d.expectDirectory place
  .ok (d.names place)

/-- The length of what stands at a path. A directory occupies a block. -/
def lengthAt (d : Disk) (path : Path) : Except IoFailure Nat := do
  match ← d.locate path with
  | .directory => .ok 4096
  | .full => .ok 0
  | .file id => .ok (d.data id).bytes.length

def length (d : Disk) : Handle → Nat
  | .file id => (d.data id).bytes.length
  | .full => 0

def openAppend (d : Disk) (path : Path) : Except IoFailure (Handle × Disk) := do
  let place ← d.find path
  match d.node? place with
  | some .directory => .error .isDirectory
  | some .full => .ok (.full, d)
  | some (.file id) => .ok (.file id, d)
  | none => .ok (.file (d.create place).2, (d.create place).1)

def openFresh (d : Disk) (path : Path) : Except IoFailure (Handle × Disk) := do
  let (handle, d) ← d.openAppend path
  match handle with
  | .file id => .ok (handle, d.change id fun _ => {})
  | .full => .ok (handle, d)

def append (d : Disk) (handle : Handle) (bs : Bytes) : Except IoFailure Disk :=
  match handle with
  | .file id => .ok (d.change id fun f => { f with bytes := f.bytes ++ bs })
  | .full => if bs = [] then .ok d else .error .noSpace

def sync (d : Disk) (handle : Handle) : Except IoFailure Disk :=
  match handle with
  | .file id => .ok (d.change id fun f => { f with synced := f.bytes.length })
  | .full => .error .invalid

def read (d : Disk) (path : Path) : Except IoFailure Bytes := do
  match ← d.locate path with
  | .directory => .error .isDirectory
  | .full => .ok []
  | .file id => .ok (d.data id).bytes

def rename (d : Disk) (source target : Path) : Except IoFailure Disk := do
  let node ← d.locate source
  let old ← d.find source
  let new ← d.find target
  if node = .directory ∨ d.node? new = some .directory then .error .isDirectory
  else .ok ((d.unlink old).link new node)

def remove (d : Disk) (path : Path) : Except IoFailure Disk := do
  let place ← d.find path
  match d.node? place with
  | some .directory => .error .isDirectory
  | some _ => .ok (d.unlink place)
  | none => .error .missing

end Disk

end LedgerStore
