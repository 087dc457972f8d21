import LedgerStore.Hex
import LedgerStore.Key
import LedgerStore.Wire.Header

set_option autoImplicit false

namespace LedgerStore.Wire

inductive ErrorCode
  | ok
  | noLedger
  | noEntry
  | badRequest
  | io
  | unauthorized
  | badVersion
  | fenced
  | readOnly
  | tooManyRequests
  deriving DecidableEq, Repr

namespace ErrorCode

def all : List ErrorCode :=
  [ok, noLedger, noEntry, badRequest, io, unauthorized, badVersion, fenced, readOnly,
    tooManyRequests]

def value : ErrorCode → Int32
  | ok => 0
  | noLedger => 1
  | noEntry => 2
  | badRequest => 100
  | io => 101
  | unauthorized => 102
  | badVersion => 103
  | fenced => 104
  | readOnly => 105
  | tooManyRequests => 106

def ofValue (v : Int32) : Except FrameError ErrorCode :=
  match all.find? (fun c => c.value == v) with
  | some c => .ok c
  | none => .error (.unknownErrorCode v)

def text : ErrorCode → String
  | ok => "Ok"
  | noLedger => "NoLedger"
  | noEntry => "NoEntry"
  | badRequest => "BadRequest"
  | io => "Io"
  | unauthorized => "Unauthorized"
  | badVersion => "BadVersion"
  | fenced => "Fenced"
  | readOnly => "ReadOnly"
  | tooManyRequests => "TooManyRequests"

theorem ofValue_value (c : ErrorCode) : ofValue c.value = .ok c := by
  cases c <;> rfl

end ErrorCode

structure Request where
  version : Int8
  op : OpCode
  flags : Int16
  ledger : Int64
  entry : Int64
  masterKey : Bytes
  data : Option Bytes
  deriving DecidableEq, Repr

namespace Request

def addEntry (ledger entry : Int64) (masterKey data : Bytes) : Request :=
  ⟨currentVersion, .addEntry, 0, ledger, entry, masterKey, some data⟩

def readEntry (ledger entry : Int64) : Request :=
  ⟨currentVersion, .readEntry, 0, ledger, entry, [], none⟩

def fencingRead (ledger entry : Int64) (masterKey : Bytes) : Request :=
  { readEntry ledger entry with flags := fencingFlag, masterKey }

def auth : Request :=
  { readEntry 0 0 with op := .auth }

def isFencing (r : Request) : Bool :=
  Wire.isFencing r.flags

def key (r : Request) : Key :=
  ⟨r.ledger, r.entry⟩

def dataLength (r : Request) : Nat :=
  (r.data.map List.length).getD 0

def text (r : Request) : String :=
  s!"{r.op.text}(v{r.version.toInt} ledger={r.ledger.toInt} entry={r.entry.toInt} " ++
    s!"flags=0x{Hex.text 4 r.flags.toUInt16.toNat} data_len={r.dataLength})"

end Request

structure Response where
  version : Int8
  op : OpCode
  code : ErrorCode
  ledger : Int64
  entry : Int64
  data : Option Bytes
  deriving DecidableEq, Repr

namespace Response

/-- A response that echoes the version, operation and entry of a request. -/
def answering (r : Request) (code : ErrorCode) : Response :=
  ⟨r.version, r.op, code, r.ledger, r.entry, none⟩

def withData (r : Response) (data : Bytes) : Response :=
  { r with data := some data }

def dataLength (r : Response) : Nat :=
  (r.data.map List.length).getD 0

def text (r : Response) : String :=
  s!"{r.op.text}(v{r.version.toInt} {r.code.text} ledger={r.ledger.toInt} " ++
    s!"entry={r.entry.toInt} data_len={r.dataLength})"

end Response

end LedgerStore.Wire
