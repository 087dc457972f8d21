import LedgerStore.Engine.EntryLog

set_option autoImplicit false

namespace LedgerStore

namespace EntryLog

theorem index_onWriter {α : Type} (act : Action (Journal.Writer × Host) α) (t : EntryLog × Host) :
    match onWriter act t with
    | .ok _ t' => t'.1.index = t.1.index
    | .error _ t' => t'.1.index = t.1.index := by
  rw [onWriter, Action.onPart]
  cases act (t.1.writer, t.2) <;> rfl

theorem index_put (key : Key) (value : Bytes) (t : EntryLog × Host) :
    match Engine.put key value t with
    | .ok _ t' => t'.1.index = t.1.index.insert key value
    | .error _ t' => t'.1.index = t.1.index := by
  have hwriter := index_onWriter (Journal.Writer.append ⟨key, value⟩) t
  change match put key value t with
    | .ok _ t' => t'.1.index = t.1.index.insert key value
    | .error _ t' => t'.1.index = t.1.index
  rw [put]
  revert hwriter
  cases onWriter (Journal.Writer.append ⟨key, value⟩) t with
  | ok u t' =>
    intro hwriter
    dsimp only at hwriter ⊢
    rw [hwriter]
  | error cause t' => exact id

theorem index_sync (t : EntryLog × Host) : (Engine.sync t).2.1.index = t.1.index := by
  have hwriter := index_onWriter Journal.Writer.sync t
  simp only [Engine.sync, syncLog]
  revert hwriter
  cases onWriter Journal.Writer.sync t <;> exact id

theorem put_admits (key : Key) (value : Bytes) (t : EntryLog × Host) :
    match Engine.put key value t with
    | .ok _ _ => value.length ≤ t.1.writer.maxValue
    | .error _ _ => True := by
  by_cases hlt : t.1.writer.maxValue < value.length
  · have hencode : (⟨key, value⟩ : Record).encode t.1.writer.maxValue =
        .error (.oversizedEntry value.length t.1.writer.maxValue) := if_pos hlt
    have happend : Journal.Writer.append ⟨key, value⟩ (t.1.writer, t.2) =
        .error (.oversizedEntry value.length t.1.writer.maxValue) (t.1.writer, t.2) := by
      change (liftExcept ((⟨key, value⟩ : Record).encode t.1.writer.maxValue) >>= _ :
        Action (Journal.Writer × Host) Unit) (t.1.writer, t.2) = _
      rw [hencode]
      rfl
    have hput : Engine.put key value t = put key value t := rfl
    rw [hput, put, onWriter, Action.onPart, happend]
    trivial
  · cases Engine.put key value t with
    | ok u t' => exact Nat.not_lt.1 hlt
    | error cause t' => trivial

end EntryLog

end LedgerStore
