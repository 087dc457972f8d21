import LedgerStore.FileName
import LedgerStore.Host
import LedgerStore.Record.Scan

set_option autoImplicit false

namespace LedgerStore

namespace Record

def Finding.line? (path : String) : Finding → Option LogLine
  | record _ _ => none
  | badMagic offset => some ⟨.warn, s!"event=journal_bad_magic path={path} offset={offset}"⟩
  | torn offset need available =>
    some ⟨.warn, s!"event=journal_torn_tail path={path} offset={offset} need={need} " ++
      s!"have={available}"⟩
  | corrupt offset defect =>
    some ⟨.warn, s!"event=journal_corrupt_record path={path} offset={offset} " ++
      s!"error={defect.error.message}"⟩

def readFile (path : Path) : Action Host (List Record) := do
  let bs ← (Host.read path).during path "failed to read journal file"
  let found := findings 0 bs
  modify fun h => (found.filterMap (Finding.line? path.text)).foldl Host.note h
  return found.filterMap Finding.record?

end Record

namespace Journal

def fileName : FileName := ⟨"journal-".toList, ".log".toList⟩

/-- A journal file: its sequence and its name, which need not be the one the store would give. -/
abbrev File := Nat × String

def File.le (a b : File) : Bool :=
  decide (a.1 < b.1) || (decide (a.1 = b.1) && decide (a.2 ≤ b.2))

def files (names : List String) : List File :=
  (names.filterMap fun name => (fileName.sequence? name).map (·, name)).mergeSort File.le

/-- The journal files in a directory, of which there are none if the directory is missing. -/
def list (dir : Path) : Action Host (List File) := fun h =>
  match Host.list dir h with
  | .ok names h => .ok (files names) h
  | .error e h =>
    if e.kind = .notFound then .ok [] h
    else .error (e.onFile dir.text "failed to read journal directory") h

def readAll (dir : Path) : List File → Action Host (List Record)
  | [] => return []
  | file :: rest => do
    let first ← Record.readFile (dir / file.2)
    let more ← readAll dir rest
    return first ++ more

def recoverFrom (dir : Path) (first : Nat) : Action Host (List Record) := do
  let files ← list dir
  readAll dir (files.filter fun file => first ≤ file.1)

def recover (dir : Path) : Action Host (List Record) :=
  recoverFrom dir 0

def removeAll (dir : Path) (what : String) : List String → Action Host Nat
  | [] => return 0
  | name :: rest => do
    (Host.remove (dir / name)).during (dir / name) what
    let more ← removeAll dir what rest
    return more + 1

def removeBefore (dir : Path) (sequence : Nat) : Action Host Nat := do
  let files ← list dir
  removeAll dir "failed to remove journal file"
    ((files.takeWhile fun file => file.1 < sequence).map (·.2))

end Journal

end LedgerStore
