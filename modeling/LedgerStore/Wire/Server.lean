import LedgerStore.Log
import LedgerStore.Wire.Frame

set_option autoImplicit false

namespace LedgerStore.Wire

def Response.bodyLength (r : Response) : Nat :=
  headerLength + match r.op with
    | .addEntry => responseFixedBody
    | .readEntry => responseFixedBody + r.dataLength
    | .auth => 0

namespace Server

/-- The request in a body. The master key is carried along by an add and dropped by a read. -/
def decode (c : CodecConfig) (body : Bytes) : Except FrameError Request := do
  ensure body headerLength "request header"
  let header ← PacketHeader.ofWord (readWord32 body)
  let rest := body.drop headerLength
  let request : Request := ⟨header.version, header.op, header.flags, 0, 0, [], none⟩
  match header.op with
  | .addEntry =>
    ensure rest (c.masterKeyLength + entryIdFields) "add entry request"
    let fields := rest.drop c.masterKeyLength
    return { request with
      masterKey := rest.take c.masterKeyLength
      ledger := Key.word fields
      entry := Key.word (fields.drop 8)
      data := some (fields.drop entryIdFields) }
  | .readEntry =>
    let keyLength := if isFencing header.flags then c.masterKeyLength else 0
    ensure rest (entryIdFields + keyLength) "read entry request"
    return { request with ledger := Key.word rest, entry := Key.word (rest.drop 8) }
  | .auth => return request

def decodeLine : Except FrameError Request → LogLine
  | .ok request => ⟨.debug, s!"event=request_decoded request={request.text}"⟩
  | .error e => ⟨.warn, s!"event=malformed_request error={e.message}"⟩

def fields (r : Response) : Bytes :=
  match r.op with
  | .addEntry => word32 r.code.value ++ Key.bytes ⟨r.ledger, r.entry⟩
  | .readEntry => word32 r.code.value ++ Key.bytes ⟨r.ledger, r.entry⟩ ++ r.data.getD []
  | .auth => []

def body (r : Response) : Bytes :=
  word32 (PacketHeader.word ⟨r.version, r.op, 0⟩) ++ fields r

/-- The frame of a response. Its length is settled before anything is written. -/
def encode (c : CodecConfig) (r : Response) : Except FrameError Bytes := do
  checkLength c r.bodyLength
  return word32 (Int32.ofNat r.bodyLength) ++ body r

def encodeLine (r : Response) : LogLine :=
  ⟨.debug, s!"event=response_encoded response={r.text}"⟩

end Server

end LedgerStore.Wire
