import LedgerStore.Error
import LedgerStore.Path

set_option autoImplicit false

namespace LedgerStore

structure Config where
  dataDir : Path
  journalDir : Path
  syncEveryWrite : Bool
  maxSyncRate : Nat
  queueCapacity : Nat
  rotationBytes : Nat
  maxValueSize : Nat
  masterKeyLength : Nat
  deriving DecidableEq, Repr

namespace Config

def defaultMasterKeyLength : Nat := 20

def standard (root : Path) : Config where
  dataDir := root / "data"
  journalDir := root / "journal"
  syncEveryWrite := true
  maxSyncRate := 10000
  queueCapacity := 10000
  rotationBytes := 1024 * 1024 * 1024
  maxValueSize := 5 * 1024 * 1024
  masterKeyLength := defaultMasterKeyLength

def ephemeral (root : Path) : Config :=
  { standard root with
    maxSyncRate := 0
    queueCapacity := 1024
    rotationBytes := 4 * 1024 * 1024
    maxValueSize := 1024 * 1024 }

inductive Defect
  | queueCapacity
  | rotationBytes
  | maxValueSize
  | masterKeyLength
  deriving DecidableEq, Repr

def Defect.reason : Defect → String
  | queueCapacity => "journal_queue_capacity must be > 0"
  | rotationBytes => "journal_rotation_bytes must be >= 64KB"
  | maxValueSize => "max_value_size must be in [1, journal_rotation_bytes)"
  | masterKeyLength => "master_key_length must be in [1, 1024]"

def defect? (c : Config) : Option Defect :=
  if c.queueCapacity = 0 then some .queueCapacity
  else if c.rotationBytes < 64 * 1024 then some .rotationBytes
  else if c.maxValueSize = 0 ∨ c.rotationBytes ≤ c.maxValueSize then some .maxValueSize
  else if c.masterKeyLength = 0 ∨ 1024 < c.masterKeyLength then some .masterKeyLength
  else none

def validate (c : Config) : Except StorageError Unit :=
  match c.defect? with
  | some d => .error (.invalidConfig d.reason)
  | none => .ok ()

end Config

end LedgerStore
