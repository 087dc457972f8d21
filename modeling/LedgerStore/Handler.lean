import LedgerStore.Storage.Run
import LedgerStore.Wire.Server

set_option autoImplicit false

namespace LedgerStore

open Wire

inductive PendingResponse
  | ready (response : Response)
  | durable (response : Response) (id : Nat)
  deriving DecidableEq, Repr

namespace Storage

variable {σ : Type}

def conclude (s : Storage σ) (response : Response) : Outcome → Response × Storage σ
  | .ok () => (response, s)
  | .error cause =>
    ({ response with code := .io }, s.note ⟨.error,
      s!"event=add_entry_failed ledger_id={response.ledger.toInt} " ++
        s!"entry_id={response.entry.toInt} error={cause.message}"⟩)

def isReady (s : Storage σ) : PendingResponse → Bool
  | .ready _ => true
  | .durable _ id => (s.completions.outcome? id).isSome

def report (s : Storage σ) (response : Response) : Option Outcome → Option Response × Storage σ
  | none => (none, s)
  | some outcome =>
    let (response, s) := s.conclude response outcome
    (some response, s)

def poll (s : Storage σ) : PendingResponse → Option Response × Storage σ
  | .ready response => (some response, s)
  | .durable response id => s.report response (s.completions.outcome? id)

def wait [Engine σ] (s : Storage σ) : PendingResponse → Response × Storage σ
  | .ready response => (response, s)
  | .durable response id =>
    let (outcome, s) := s.await id
    s.conclude response outcome

def handle [Engine σ] (s : Storage σ) (r : Request) : PendingResponse × Storage σ :=
  match r.op with
  | .addEntry =>
    let (id, s) := s.put r.key (r.data.getD [])
    (.durable (.answering r .ok) id, s)
  | .readEntry =>
    match s.get r.key with
    | .ok (some data) => (.ready ((Response.answering r .ok).withData data), s)
    | .ok none => (.ready (.answering r .noEntry), s)
    | .error cause =>
      (.ready (.answering r .io), s.note ⟨.error,
        s!"event=read_entry_failed key={r.key.text} error={cause.message}"⟩)
  | .auth => (.ready (.answering r .ok), s)

def handleFrame [Engine σ] (s : Storage σ) (c : CodecConfig) (body : Bytes) :
    Except FrameError Bytes × Storage σ :=
  let decoded := Server.decode c body
  let s := s.note (Server.decodeLine decoded)
  match decoded with
  | .error e => (.error e, s)
  | .ok request =>
    let (pending, s) := s.handle request
    let (response, s) := s.wait pending
    match Server.encode c response with
    | .error e => (.error e, s)
    | .ok reply => (.ok reply, s.note (Server.encodeLine response))

/-- Answers all complete frames of a buffer, which keeps the incomplete rest. The first error ends
the stream: the responses to the frames before it are lost. The frames answered before these are
given newest first. -/
def processFrom [Engine σ] (c : CodecConfig) (s : Storage σ) (answered : List Bytes)
    (buffer : Bytes) : Except FrameError (List Bytes) × Bytes × Storage σ :=
  match _taken : takeFrame c.frameLimit buffer with
  | .error e => (.error e, buffer, s)
  | .ok none =>
    (.ok answered.reverse, buffer, s.note ⟨.debug,
      s!"event=frames_processed count={answered.length} buffered={buffer.length}"⟩)
  | .ok (some (body, rest)) =>
    match s.handleFrame c body with
    | (.error e, s) => (.error e, rest, s)
    | (.ok reply, s) => processFrom c s (reply :: answered) rest
termination_by buffer.length
decreasing_by exact takeFrame_length _taken

def processFrames [Engine σ] (s : Storage σ) (c : CodecConfig) (buffer : Bytes) :
    Except FrameError (List Bytes) × Bytes × Storage σ :=
  processFrom c s [] buffer

end Storage

end LedgerStore
