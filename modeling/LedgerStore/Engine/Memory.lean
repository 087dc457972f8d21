import LedgerStore.Engine
import LedgerStore.Index

set_option autoImplicit false

namespace LedgerStore

inductive CallMode
  | works
  | refuses
  | dies
  deriving DecidableEq, Repr

inductive MemoryEvent
  | put (key : Key)
  | sync
  deriving DecidableEq, Repr

structure MemoryEngine where
  index : Index := {}
  events : List MemoryEvent := []
  putMode : CallMode := .works
  syncMode : CallMode := .works
  getMode : CallMode := .works
  scanMode : CallMode := .works

namespace MemoryEngine

def refusal (call : String) : StorageError :=
  .io none .other s!"{call} refused"

def put (key : Key) (value : Bytes) : Action (MemoryEngine × Host) Unit := fun (m, h) =>
  if m.putMode = .works then
    .ok () ({ m with index := m.index.insert key value, events := .put key :: m.events }, h)
  else .error (refusal "put") (m, h)

def sync (s : MemoryEngine × Host) : SyncEnd × (MemoryEngine × Host) :=
  let m := { s.1 with events := .sync :: s.1.events }
  match m.syncMode with
  | .works => (.synced, (m, s.2))
  | .refuses => (.failed (refusal "sync"), (m, s.2))
  | .dies => (.died, (m, s.2))

instance : Engine MemoryEngine where
  put := put
  sync := sync
  get m key := if m.getMode = .works then .ok (m.index.get? key) else .error (refusal "get")
  scan m ledger :=
    if m.scanMode = .works then .ok (m.index.ofLedger ledger) else .error (refusal "scan")

end MemoryEngine

end LedgerStore
