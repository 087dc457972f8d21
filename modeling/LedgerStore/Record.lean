import LedgerStore.Checksum
import LedgerStore.Error

/-!
Records, the stored form of entries: a header of sixteen bytes (magic, payload length, checksum of
the payload, four reserved zero bytes) and the payload, which is the key followed by the value.
-/

set_option autoImplicit false

namespace LedgerStore

structure Record where
  key : Key
  value : Bytes
  deriving DecidableEq, Repr

namespace Record

def magic : Bytes := [0x42, 0x4B, 0x4A, 0x52]

structure Header where
  magic : Bytes := Record.magic
  length : UInt32
  checksum : UInt32
  deriving DecidableEq, Repr

namespace Header

def width : Nat := 16

def bytes (h : Header) : Bytes :=
  h.magic ++ Bytes.littleEndian 4 h.length.toNat ++ Bytes.littleEndian 4 h.checksum.toNat ++
    [0, 0, 0, 0]

def ofBytes (bs : Bytes) : Header where
  magic := bs.take 4
  length := UInt32.ofNat (Bytes.valueLE ((bs.drop 4).take 4))
  checksum := UInt32.ofNat (Bytes.valueLE ((bs.drop 8).take 4))

end Header

def payload (r : Record) : Bytes :=
  r.key.bytes ++ r.value

/-- The header of a record. Its length field holds the low 32 bits of the payload's length. -/
def header (r : Record) : Header where
  length := UInt32.ofNat (Key.width + r.value.length)
  checksum := Checksum.crc32c r.payload

def bytes (r : Record) : Bytes :=
  r.header.bytes ++ r.payload

@[simp] theorem length_payload (r : Record) : r.payload.length = Key.width + r.value.length := by
  simp [payload]

@[simp] theorem length_header (r : Record) : r.header.bytes.length = Header.width := by
  simp [header, Header.bytes, Header.width, magic]

theorem length_bytes (r : Record) :
    r.bytes.length = Header.width + (Key.width + r.value.length) := by
  simp [bytes]

def encode (r : Record) (limit : Nat) : Except StorageError Bytes :=
  if limit < r.value.length then .error (.oversizedEntry r.value.length limit)
  else .ok r.bytes

inductive Defect
  | tooShort (size : Nat)
  | badMagic (found : Bytes)
  | reservedSet (found : Bytes)
  | torn (need available : Nat)
  | checksum (expected actual : UInt32)
  | noKey
  deriving DecidableEq, Repr

def Defect.error : Defect → StorageError
  | tooShort size => .journalCorrupted "<buffer>" 0 s!"record too short: {size} bytes"
  | badMagic found => .journalCorrupted "<buffer>" 0 s!"bad magic {Hex.list found}"
  | reservedSet found => .journalCorrupted "<buffer>" 12 s!"reserved bytes set {Hex.list found}"
  | torn need available =>
    .journalCorrupted "<buffer>" Header.width
      s!"torn record: need {need} payload bytes, have {available}"
  | checksum expected actual => .checksumMismatch "<buffer>" expected actual Header.width
  | noKey => .journalCorrupted "<buffer>" Header.width "payload shorter than entry key"

def decode (data : Bytes) : Except Defect Record :=
  let head := data.take Header.width
  let h := Header.ofBytes head
  let rest := data.drop Header.width
  let payload := rest.take h.length.toNat
  if head.length < Header.width then .error (.tooShort data.length)
  else if h.magic ≠ magic then .error (.badMagic h.magic)
  else if head.drop 12 ≠ [0, 0, 0, 0] then .error (.reservedSet (head.drop 12))
  else if payload.length < h.length.toNat then .error (.torn h.length.toNat rest.length)
  else if Checksum.crc32c payload ≠ h.checksum then
    .error (.checksum h.checksum (Checksum.crc32c payload))
  else
    match Key.ofBytes? payload with
    | none => .error .noKey
    | some key => .ok ⟨key, payload.drop Key.width⟩

end Record

end LedgerStore
