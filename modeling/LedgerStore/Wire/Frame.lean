import LedgerStore.Config
import LedgerStore.Wire.Message

set_option autoImplicit false

namespace LedgerStore.Wire

def lengthField : Nat := 4

def entryIdFields : Nat := 16

def responseFixedBody : Nat := 4 + entryIdFields

/-- The longest body that a length can announce. -/
def maxWireLength : Nat := 2147483647

structure CodecConfig where
  masterKeyLength : Nat := Config.defaultMasterKeyLength
  maxFrameLength : Nat :=
    headerLength + Config.defaultMasterKeyLength + entryIdFields + 5 * 1024 * 1024
  deriving DecidableEq, Repr

namespace CodecConfig

def frameLimit (c : CodecConfig) : Nat :=
  min c.maxFrameLength maxWireLength

def ofConfig (c : Config) : CodecConfig where
  masterKeyLength := c.masterKeyLength
  maxFrameLength := headerLength + c.masterKeyLength + entryIdFields + c.maxValueSize

end CodecConfig

def word32 (w : Int32) : Bytes :=
  Bytes.bigEndian 4 w.toUInt32.toNat

def readWord32 (bs : Bytes) : Int32 :=
  (UInt32.ofNat (Bytes.valueBE (bs.take 4))).toInt32

@[simp] theorem length_word32 (w : Int32) : (word32 w).length = 4 := by
  simp [word32]

def ensure (bs : Bytes) (needed : Nat) (what : String) : Except FrameError Unit :=
  if bs.length < needed then .error (.short what needed bs.length) else .ok ()

def checkLength (c : CodecConfig) (length : Nat) : Except FrameError Unit :=
  if c.frameLimit < length then .error (.tooLarge length c.frameLimit) else .ok ()

/-- The first frame's body and what follows it, once all of it has arrived. -/
def takeFrame (limit : Nat) (buffer : Bytes) : Except FrameError (Option (Bytes × Bytes)) :=
  if (buffer.take lengthField).length < lengthField then .ok none
  else
    let declared := readWord32 buffer
    let length := declared.toInt.toNat
    let rest := buffer.drop lengthField
    let body := rest.take length
    if declared < 0 then .error (.negativeLength declared)
    else if limit < length then .error (.tooLarge length limit)
    else if body.length < length then .ok none
    else .ok (some (body, rest.drop length))

theorem takeFrame_length {limit : Nat} {buffer body rest : Bytes}
    (h : takeFrame limit buffer = .ok (some (body, rest))) : rest.length < buffer.length := by
  simp only [takeFrame] at h
  split at h
  · simp at h
  next long =>
    split at h
    · simp at h
    split at h
    · simp at h
    split at h
    · simp at h
    simp only [Except.ok.injEq, Option.some.injEq, Prod.mk.injEq] at h
    simp only [← h.2, List.length_drop, List.length_take, lengthField] at *
    omega

end LedgerStore.Wire
