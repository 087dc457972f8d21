import LedgerStore.Bytes
import LedgerStore.Wire.Error

/-!
The header of a frame body: one 32-bit word with the protocol version in its highest byte, the
operation in the next and sixteen flags in the rest. Only the lowest flag has a meaning: a read
that carries it fences the ledger and is authenticated.
-/

set_option autoImplicit false

namespace LedgerStore.Wire

inductive OpCode
  | addEntry
  | readEntry
  | auth
  deriving DecidableEq, Repr

namespace OpCode

def value : OpCode → Int8
  | addEntry => 1
  | readEntry => 2
  | auth => 3

def ofValue (v : Int8) : Except FrameError OpCode :=
  if v = 1 then .ok addEntry
  else if v = 2 then .ok readEntry
  else if v = 3 then .ok auth
  else .error (.unknownOpCode v)

def text : OpCode → String
  | addEntry => "AddEntry"
  | readEntry => "ReadEntry"
  | auth => "Auth"

theorem ofValue_value (op : OpCode) : ofValue op.value = .ok op := by
  cases op <;> rfl

end OpCode

def pack (version op : Int8) (flags : Int16) : Int32 :=
  (UInt32.ofNat (version.toUInt8.toNat * 0x1000000 + op.toUInt8.toNat * 0x10000 +
    flags.toUInt16.toNat)).toInt32

def unpack (word : Int32) : Int8 × Int8 × Int16 :=
  let bits := word.toUInt32.toNat
  ((UInt8.ofNat (bits / 0x1000000)).toInt8, (UInt8.ofNat (bits / 0x10000)).toInt8,
    (UInt16.ofNat bits).toInt16)

def headerLength : Nat := 4

def currentVersion : Int8 := 2

def fencingFlag : Int16 := 1

def isFencing (flags : Int16) : Bool :=
  flags &&& fencingFlag != 0

structure PacketHeader where
  version : Int8
  op : OpCode
  flags : Int16
  deriving DecidableEq, Repr

namespace PacketHeader

def word (h : PacketHeader) : Int32 :=
  pack h.version h.op.value h.flags

def ofWord (w : Int32) : Except FrameError PacketHeader := do
  let (version, op, flags) := unpack w
  return ⟨version, ← OpCode.ofValue op, flags⟩

end PacketHeader

end LedgerStore.Wire
