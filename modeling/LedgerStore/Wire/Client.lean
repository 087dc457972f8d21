import LedgerStore.Log
import LedgerStore.Wire.Frame

set_option autoImplicit false

namespace LedgerStore.Wire

namespace Request

def payload (r : Request) : Bytes :=
  match r.op with
  | .addEntry => r.masterKey ++ (r.key.bytes ++ r.data.getD [])
  | .readEntry => r.key.bytes ++ if r.isFencing then r.masterKey else []
  | .auth => []

def body (r : Request) : Bytes :=
  word32 (PacketHeader.word ⟨r.version, r.op, r.flags⟩) ++ r.payload

end Request

namespace Client

def checkMasterKey (c : CodecConfig) (masterKey : Bytes) : Except FrameError Unit :=
  if masterKey.length ≠ c.masterKeyLength then
    .error (.invalidMasterKey c.masterKeyLength masterKey.length)
  else .ok ()

/-- The count of bytes that will follow the header. -/
def payloadLength (c : CodecConfig) (r : Request) : Except FrameError Nat :=
  match r.op with
  | .addEntry => do
    checkMasterKey c r.masterKey
    match r.data with
    | none => .error .missingPayload
    | some data => return c.masterKeyLength + entryIdFields + data.length
  | .readEntry =>
    if r.isFencing then do
      checkMasterKey c r.masterKey
      return entryIdFields + c.masterKeyLength
    else return entryIdFields
  | .auth => return 0

def encode (c : CodecConfig) (r : Request) : Except FrameError Bytes := do
  let length := headerLength + (← payloadLength c r)
  checkLength c length
  return word32 (Int32.ofNat length) ++ r.body

def encodeLine (r : Request) : LogLine :=
  ⟨.debug, s!"event=request_encoded request={r.text}"⟩

def decode (body : Bytes) : Except FrameError Response := do
  ensure body headerLength "response header"
  let header ← PacketHeader.ofWord (readWord32 body)
  let rest := body.drop headerLength
  match header.op with
  | .auth => return ⟨header.version, header.op, .ok, 0, 0, none⟩
  | _ =>
    ensure rest responseFixedBody "entry response"
    let code ← ErrorCode.ofValue (readWord32 rest)
    let ids := rest.drop 4
    let data := rest.drop responseFixedBody
    return {
      version := header.version
      op := header.op
      code
      ledger := Key.word ids
      entry := Key.word (ids.drop 8)
      data := if header.op = .readEntry ∧ data ≠ [] then some data else none }

def decodeLine : Except FrameError Response → LogLine
  | .ok response => ⟨.debug, s!"event=response_decoded response={response.text}"⟩
  | .error e => ⟨.warn, s!"event=malformed_response error={e.message}"⟩

end Client

end LedgerStore.Wire
