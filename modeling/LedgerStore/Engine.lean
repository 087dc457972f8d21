import LedgerStore.Host

set_option autoImplicit false

namespace LedgerStore

/-- How a sync ends. A sync that dies takes the thread that asked for it with it. -/
inductive SyncEnd
  | synced
  | failed (cause : StorageError)
  | died
  deriving DecidableEq, Repr

class Engine (σ : Type) where
  put : Key → Bytes → Action (σ × Host) Unit
  sync : σ × Host → SyncEnd × (σ × Host)
  get : σ → Key → Except StorageError (Option Bytes)
  scan : σ → Int64 → Except StorageError (List (Key × Bytes))

/-- Either of two engines. -/
instance {σ τ : Type} [Engine σ] [Engine τ] : Engine (σ ⊕ τ) where
  put key value s :=
    match s with
    | (.inl e, h) =>
      match Engine.put key value (e, h) with
      | .ok () (e, h) => .ok () (.inl e, h)
      | .error cause (e, h) => .error cause (.inl e, h)
    | (.inr e, h) =>
      match Engine.put key value (e, h) with
      | .ok () (e, h) => .ok () (.inr e, h)
      | .error cause (e, h) => .error cause (.inr e, h)
  sync s :=
    match s with
    | (.inl e, h) => let r := Engine.sync (e, h); (r.1, (.inl r.2.1, r.2.2))
    | (.inr e, h) => let r := Engine.sync (e, h); (r.1, (.inr r.2.1, r.2.2))
  get e key :=
    match e with
    | .inl e => Engine.get e key
    | .inr e => Engine.get e key
  scan e ledger :=
    match e with
    | .inl e => Engine.scan e ledger
    | .inr e => Engine.scan e ledger

end LedgerStore
