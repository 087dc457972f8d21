import LedgerStore.Hex
import LedgerStore.Key

set_option autoImplicit false

namespace LedgerStore

inductive IoKind
  | notFound
  | permissionDenied
  | alreadyExists
  | invalidInput
  | invalidData
  | unexpectedEof
  | writeZero
  | timedOut
  | interrupted
  | other
  | isADirectory
  | notADirectory
  | storageFull
  deriving DecidableEq, Repr

def IoKind.text : IoKind → String
  | notFound => "entity not found"
  | permissionDenied => "permission denied"
  | alreadyExists => "entity already exists"
  | invalidInput => "invalid input parameter"
  | invalidData => "invalid data"
  | unexpectedEof => "unexpected end of file"
  | writeZero => "write zero"
  | timedOut => "timed out"
  | interrupted => "operation interrupted"
  | other => "other error"
  | isADirectory => "is a directory"
  | notADirectory => "not a directory"
  | storageFull => "no storage space"

structure IoFailure where
  kind : IoKind
  text : String
  deriving DecidableEq, Repr

namespace IoFailure

def ofKind (kind : IoKind) : IoFailure :=
  ⟨kind, kind.text⟩

def missing : IoFailure := ⟨.notFound, "No such file or directory (os error 2)"⟩

def occupied : IoFailure := ⟨.alreadyExists, "File exists (os error 17)"⟩

def notDirectory : IoFailure := ⟨.notADirectory, "Not a directory (os error 20)"⟩

def isDirectory : IoFailure := ⟨.isADirectory, "Is a directory (os error 21)"⟩

def invalid : IoFailure := ⟨.invalidInput, "Invalid argument (os error 22)"⟩

def noSpace : IoFailure := ⟨.storageFull, "No space left on device (os error 28)"⟩

end IoFailure

inductive StorageError
  | io (path : Option String) (kind : IoKind) (message : String)
  | journalCorrupted (path : String) (offset : Nat) (reason : String)
  | checksumMismatch (path : String) (expected actual : UInt32) (offset : Nat)
  | oversizedEntry (size limit : Nat)
  | applyFailed (key : Key) (reason : String)
  | syncFailed (batch : Nat) (reason : String)
  | shuttingDown
  | invalidConfig (reason : String)
  deriving DecidableEq, Repr

def StorageError.message : StorageError → String
  | io none kind message => s!"I/O error: {message} ({kind.text})"
  | io (some path) kind message => s!"I/O error in {path}: {message} ({kind.text})"
  | journalCorrupted path offset reason =>
    s!"journal corrupted in {path} at offset {offset}: {reason}"
  | checksumMismatch path expected actual offset =>
    s!"checksum mismatch in {path} at offset {offset}: " ++
      s!"expected 0x{Hex.text 8 expected.toNat}, got 0x{Hex.text 8 actual.toNat}"
  | oversizedEntry size limit =>
    s!"entry value too large: {size} bytes exceeds limit of {limit} bytes"
  | applyFailed key reason => s!"failed to apply entry {key.text}: {reason}"
  | syncFailed batch reason => s!"journal sync failed for a batch of {batch} entries: {reason}"
  | shuttingDown => "storage is shutting down; entry durability unknown"
  | invalidConfig reason => s!"invalid configuration: {reason}"

namespace IoFailure

def onFile (e : IoFailure) (path what : String) : StorageError :=
  .io (some path) e.kind s!"{what}: {e.text}"

def bare (e : IoFailure) : StorageError :=
  .io none e.kind e.text

end IoFailure

end LedgerStore
