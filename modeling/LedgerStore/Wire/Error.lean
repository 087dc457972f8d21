set_option autoImplicit false

namespace LedgerStore.Wire

inductive FrameError
  | short (what : String) (needed available : Nat)
  | unknownOpCode (value : Int8)
  | unknownErrorCode (value : Int32)
  | tooLarge (length limit : Nat)
  | negativeLength (value : Int32)
  | invalidMasterKey (expected actual : Nat)
  | missingPayload
  deriving DecidableEq, Repr

def FrameError.message : FrameError → String
  | short what needed available => s!"short {what}: need {needed} bytes, have {available}"
  | unknownOpCode value => s!"unknown op code {value.toInt}"
  | unknownErrorCode value => s!"unknown error code {value.toInt}"
  | tooLarge length limit => s!"frame length {length} exceeds limit of {limit} bytes"
  | negativeLength value => s!"negative frame length {value.toInt}"
  | invalidMasterKey expected actual => s!"master key must be {expected} bytes, got {actual}"
  | missingPayload => "add entry request has no payload"

end LedgerStore.Wire
