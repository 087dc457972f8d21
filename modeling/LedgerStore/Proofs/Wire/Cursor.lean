import LedgerStore.Wire.Client
import LedgerStore.Wire.Server

/-!
Bodies read from front to back, where a read of more bytes than are left has no result. Decoding is
such a reading, and it always has a result: what a decoder reads is there.
-/

set_option autoImplicit false

namespace LedgerStore.Wire

/-- Takes bytes off the front of a body. There is no result once more are taken than are left. -/
abbrev Cursor (α : Type) := StateT Bytes (ExceptT FrameError Option) α

namespace Cursor

variable {α β : Type} {bs : Bytes}

def split (n : Nat) : Cursor Bytes := fun bs =>
  if n ≤ bs.length then some (.ok (bs.take n, bs.drop n)) else none

def int32 : Cursor Int32 := do
  return readWord32 (← split 4)

def int64 : Cursor Int64 := do
  return Key.word (← split 8)

def ensure (needed : Nat) (what : String) : Cursor Unit := fun bs =>
  some ((Wire.ensure bs needed what).map fun u => (u, bs))

def check (e : Except FrameError α) : Cursor α := fun bs =>
  some (e.map fun a => (a, bs))

def skip (n : Nat) : Cursor Unit := do
  let _ ← split n

def on (act : Cursor α) (body : Bytes) : Option (Except FrameError α) :=
  match act body with
  | none => none
  | some (.ok (a, _)) => some (.ok a)
  | some (.error e) => some (.error e)

theorem on_pure (a : α) (bs : Bytes) : (pure a : Cursor α).on bs = some (.ok a) := rfl

theorem on_get (next : Bytes → Cursor β) (bs : Bytes) :
    (get >>= next).on bs = (next bs).on bs := rfl

theorem on_split {n : Nat} (h : n ≤ bs.length) (next : Bytes → Cursor β) :
    (split n >>= next).on bs = (next (bs.take n)).on (bs.drop n) := by
  simp only [on, bind, StateT.bind, ExceptT.bind, ExceptT.mk, split, if_pos h, Option.bind,
    ExceptT.bindCont]

theorem on_skip {n : Nat} (h : n ≤ bs.length) (next : Unit → Cursor β) :
    (skip n >>= next).on bs = (next ()).on (bs.drop n) := by
  rw [skip, bind_assoc, on_split h]
  rfl

theorem on_int32 (h : 4 ≤ bs.length) (next : Int32 → Cursor β) :
    (int32 >>= next).on bs = (next (readWord32 bs)).on (bs.drop 4) := by
  have hword : readWord32 (bs.take 4) = readWord32 bs := by
    simp only [readWord32, List.take_take, Nat.min_self]
  rw [int32, bind_assoc, on_split h, hword]
  rfl

theorem on_int64 (h : 8 ≤ bs.length) (next : Int64 → Cursor β) :
    (int64 >>= next).on bs = (next (Key.word bs)).on (bs.drop 8) := by
  have hword : Key.word (bs.take 8) = Key.word bs := by
    simp only [Key.word, List.take_take, Nat.min_self]
  rw [int64, bind_assoc, on_split h, hword]
  rfl

theorem on_check {e : Except FrameError α} {next : α → Cursor β} {f : α → Except FrameError β}
    (h : ∀ a, (next a).on bs = some (f a)) : (check e >>= next).on bs = some (e >>= f) := by
  cases e with
  | ok a => exact h a
  | error e => rfl

theorem on_ensure {needed : Nat} {what : String} {next : Unit → Cursor β}
    {f : Unit → Except FrameError β} (h : needed ≤ bs.length → (next ()).on bs = some (f ())) :
    (ensure needed what >>= next).on bs = some (Wire.ensure bs needed what >>= f) := by
  have hnext : (ensure needed what >>= next).on bs =
      (check (Wire.ensure bs needed what) >>= next).on bs := rfl
  by_cases hshort : bs.length < needed
  · rw [hnext, Wire.ensure, if_pos hshort]
    rfl
  · rw [hnext, Wire.ensure, if_neg hshort]
    exact h (Nat.not_lt.1 hshort)

end Cursor

/-- The request in a body, with every read checked. -/
def Server.walk (c : CodecConfig) : Cursor Request := do
  Cursor.ensure headerLength "request header"
  let header ← Cursor.check (PacketHeader.ofWord (← Cursor.int32))
  let request : Request := ⟨header.version, header.op, header.flags, 0, 0, [], none⟩
  match header.op with
  | .addEntry =>
    Cursor.ensure (c.masterKeyLength + entryIdFields) "add entry request"
    let masterKey ← Cursor.split c.masterKeyLength
    let ledger ← Cursor.int64
    let entry ← Cursor.int64
    return { request with masterKey, ledger, entry, data := some (← get) }
  | .readEntry =>
    let keyLength := if isFencing header.flags then c.masterKeyLength else 0
    Cursor.ensure (entryIdFields + keyLength) "read entry request"
    let ledger ← Cursor.int64
    let entry ← Cursor.int64
    if isFencing header.flags then Cursor.skip c.masterKeyLength
    return { request with ledger, entry }
  | .auth => return request

def Client.walk : Cursor Response := do
  Cursor.ensure headerLength "response header"
  let header ← Cursor.check (PacketHeader.ofWord (← Cursor.int32))
  match header.op with
  | .auth => return ⟨header.version, header.op, .ok, 0, 0, none⟩
  | _ =>
    Cursor.ensure responseFixedBody "entry response"
    let code ← Cursor.check (ErrorCode.ofValue (← Cursor.int32))
    let ledger ← Cursor.int64
    let entry ← Cursor.int64
    let data ← get
    return {
      version := header.version
      op := header.op
      code
      ledger
      entry
      data := if header.op = .readEntry ∧ data ≠ [] then some data else none }

/-- No read of the server's decoder goes beyond the body. -/
theorem Server.walk_on (c : CodecConfig) (body : Bytes) :
    (walk c).on body = some (decode c body) := by
  unfold walk decode
  refine Cursor.on_ensure fun hfour => ?_
  rw [Cursor.on_int32 hfour]
  refine Cursor.on_check fun header => ?_
  obtain ⟨version, op, flags⟩ := header
  cases op with
  | addEntry =>
    refine Cursor.on_ensure fun hroom => ?_
    have hledger : 8 ≤ ((body.drop 4).drop c.masterKeyLength).length := by
      simp [headerLength, entryIdFields] at *; omega
    have hentry : 8 ≤ (((body.drop 4).drop c.masterKeyLength).drop 8).length := by
      simp [headerLength, entryIdFields] at *; omega
    have hdata : (((body.drop 4).drop c.masterKeyLength).drop 8).drop 8 =
        ((body.drop 4).drop c.masterKeyLength).drop entryIdFields := List.drop_drop
    rw [Cursor.on_split (Nat.le_of_add_right_le hroom), Cursor.on_int64 hledger,
      Cursor.on_int64 hentry, Cursor.on_get, Cursor.on_pure, hdata]
    rfl
  | readEntry =>
    refine Cursor.on_ensure fun hroom => ?_
    have hledger : 8 ≤ (body.drop 4).length := by
      simp [headerLength, entryIdFields] at *; omega
    have hentry : 8 ≤ ((body.drop 4).drop 8).length := by
      simp [headerLength, entryIdFields] at *; omega
    rw [Cursor.on_int64 hledger, Cursor.on_int64 hentry]
    cases hf : isFencing flags with
    | false => rfl
    | true =>
      have hkey : c.masterKeyLength ≤ (((body.drop 4).drop 8).drop 8).length := by
        simp [headerLength, entryIdFields, hf] at *; omega
      dsimp only
      rw [if_pos rfl, Cursor.on_skip hkey]
      rfl
  | auth => rfl

theorem Client.walk_on (body : Bytes) : walk.on body = some (decode body) := by
  unfold walk decode
  refine Cursor.on_ensure fun hfour => ?_
  rw [Cursor.on_int32 hfour]
  refine Cursor.on_check fun header => ?_
  have hfields : responseFixedBody ≤ (body.drop 4).length →
      4 ≤ (body.drop 4).length ∧ 8 ≤ ((body.drop 4).drop 4).length ∧
        8 ≤ (((body.drop 4).drop 4).drop 8).length := by
    intro hroom
    simp [responseFixedBody, entryIdFields] at *; omega
  have hdata : (((body.drop 4).drop 4).drop 8).drop 8 = (body.drop 4).drop responseFixedBody := by
    simp [responseFixedBody, entryIdFields]
  obtain ⟨version, op, flags⟩ := header
  cases op with
  | auth => rfl
  | addEntry | readEntry =>
    refine Cursor.on_ensure fun hroom => ?_
    obtain ⟨hcode, hledger, hentry⟩ := hfields hroom
    rw [Cursor.on_int32 hcode]
    refine Cursor.on_check fun code => ?_
    rw [Cursor.on_int64 hledger, Cursor.on_int64 hentry, Cursor.on_get, Cursor.on_pure, hdata]
    rfl

end LedgerStore.Wire
