import LedgerStore.Engine.EntryLog
import LedgerStore.Storage.Run

set_option autoImplicit false

namespace LedgerStore.Storage

def ofConfig {σ : Type} (config : Config) (engine : σ) (host : Host) (completions : Completions) :
    Storage σ :=
  start engine host config.syncEveryWrite (PermitSource.ofRate config.maxSyncRate) completions

def openEngine (config : Config) : Action Host EntryLog := do
  liftExcept config.validate
  EntryLog.start config

def openDurable (config : Config) (completions : Completions) (host : Host) :
    Except StorageError (Storage EntryLog) × Host :=
  match openEngine config host with
  | .ok engine host => (.ok (ofConfig config engine host completions), host)
  | .error cause host => (.error cause, host)

end LedgerStore.Storage
