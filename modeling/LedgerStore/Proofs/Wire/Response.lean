import LedgerStore.Engine.Memory
import LedgerStore.Handler
import LedgerStore.Proofs.Wire.Request

set_option autoImplicit false

namespace LedgerStore

namespace Wire

namespace Response

/-- Empty data is not told from no data. -/
def normal (r : Response) : Response :=
  { r with data := r.data.filter (· ≠ []) }

def carried (r : Response) : Response :=
  match r.op with
  | .addEntry => { r with data := none }
  | .readEntry => r.normal
  | .auth => { r with code := .ok, ledger := 0, entry := 0, data := none }

theorem length_body (r : Response) : (Server.body r).length = r.bodyLength := by
  have hdata : (r.data.getD []).length = r.dataLength := by
    cases h : r.data <;> simp [dataLength, h]
  cases hop : r.op <;>
    simp [Server.body, Server.fields, bodyLength, hop, hdata, headerLength, responseFixedBody,
      entryIdFields, Key.width]
  omega

structure Sendable (r : Response) : Prop where
  add : r.op = .addEntry → r.data = none
  auth : r.op = .auth → r.code = .ok ∧ r.ledger = 0 ∧ r.entry = 0 ∧ r.data = none

theorem Sendable.carried {r : Response} (h : r.Sendable) : r.carried = r.normal := by
  obtain ⟨version, op, code, ledger, entry, data⟩ := r
  cases op with
  | addEntry =>
    have hdata : data = none := h.add rfl
    simp [Response.carried, normal, hdata]
  | readEntry => rfl
  | auth =>
    have hall : code = .ok ∧ ledger = 0 ∧ entry = 0 ∧ data = none := h.auth rfl
    simp [Response.carried, normal, hall]

end Response

theorem Server.encode_eq (c : CodecConfig) (r : Response) :
    Server.encode c r =
      if c.frameLimit < r.bodyLength then .error (.tooLarge r.bodyLength c.frameLimit)
      else .ok (frame (Server.body r)) := by
  simp only [encode, frame, r.length_body, checkLength, bind, Except.bind]
  by_cases hlong : c.frameLimit < r.bodyLength
  · simp only [if_pos hlong]
  · simp only [if_neg hlong]
    rfl

theorem Server.encode_eq_ok {c : CodecConfig} {r : Response} {wire : Bytes} :
    Server.encode c r = .ok wire ↔ r.bodyLength ≤ c.frameLimit ∧ frame (Server.body r) = wire := by
  rw [encode_eq]
  by_cases hlong : c.frameLimit < r.bodyLength
  · simp [hlong, Nat.not_le.2 hlong]
  · simp [hlong, Nat.not_lt.1 hlong]

theorem Client.decode_header (h : PacketHeader) (rest : Bytes) :
    Client.decode (word32 h.word ++ rest) =
      if h.op = .auth then .ok ⟨h.version, h.op, .ok, 0, 0, none⟩
      else do
        ensure rest responseFixedBody "entry response"
        let code ← ErrorCode.ofValue (readWord32 rest)
        return ⟨h.version, h.op, code, Key.word (rest.drop 4), Key.word ((rest.drop 4).drop 8),
          if h.op = .readEntry ∧ rest.drop responseFixedBody ≠ [] then
            some (rest.drop responseFixedBody) else none⟩ := by
  have hroom : headerLength ≤ (word32 h.word ++ rest).length := by simp [headerLength]
  have hdrop : (word32 h.word ++ rest).drop headerLength = rest := drop_word32 _ _
  rw [decode, ensure_ok hroom, readWord32_append, PacketHeader.ofWord_word, hdrop]
  obtain ⟨version, op, flags⟩ := h
  cases op <;> rfl

theorem Client.decode_fields {h : PacketHeader} (hop : h.op ≠ .auth) (code : ErrorCode) (k : Key)
    (data : Bytes) :
    Client.decode (word32 h.word ++ (word32 code.value ++ (k.bytes ++ data))) =
      .ok ⟨h.version, h.op, code, k.ledger, k.entry,
        if h.op = .readEntry ∧ data ≠ [] then some data else none⟩ := by
  have hroom : responseFixedBody ≤ (word32 code.value ++ (k.bytes ++ data)).length := by
    simp [responseFixedBody, entryIdFields, Key.width]
    omega
  have hids : (word32 code.value ++ (k.bytes ++ data)).drop 4 = k.bytes ++ data := drop_word32 _ _
  have hdata : (word32 code.value ++ (k.bytes ++ data)).drop responseFixedBody = data := by
    rw [responseFixedBody, ← List.drop_drop, hids]
    exact List.drop_left' (Key.length_bytes k)
  rw [decode_header, if_neg hop, ensure_ok hroom, readWord32_append, ErrorCode.ofValue_value, hids,
    hdata, (k.word_bytes data).1, (k.word_bytes data).2]
  rfl

theorem Client.decode_body (r : Response) : Client.decode (Server.body r) = .ok r.carried := by
  obtain ⟨version, op, code, ledger, entry, data⟩ := r
  cases op with
  | addEntry =>
    have hadd := decode_fields (h := ⟨version, .addEntry, 0⟩) nofun code ⟨ledger, entry⟩ []
    simpa [Server.body, Server.fields, Response.carried] using hadd
  | readEntry =>
    have hread := decode_fields (h := ⟨version, .readEntry, 0⟩) nofun code ⟨ledger, entry⟩
      (data.getD [])
    cases data with
    | none => simpa [Server.body, Server.fields, Response.carried, Response.normal] using hread
    | some bytes =>
      by_cases hempty : bytes = [] <;>
        simpa [Server.body, Server.fields, Response.carried, Response.normal, Option.filter, hempty]
          using hread
  | auth =>
    have hauth := decode_header ⟨version, .auth, 0⟩ []
    simpa [Server.body, Server.fields, Response.carried] using hauth

end Wire

namespace Storage

open Wire

variable {σ : Type}

def Carried : PendingResponse → Prop
  | .ready r => r.Sendable
  | .durable r _ => r.Sendable ∧ r.op = .addEntry

theorem sendable_conclude {r : Response} (h : r.Sendable) (hop : r.op = .addEntry) (s : Storage σ)
    (o : Outcome) : (s.conclude r o).1.Sendable := by
  have hauth : r.op ≠ .auth := by simp [hop]
  cases o with
  | ok _ => exact h
  | error cause => exact { add := h.add, auth := fun hop => absurd hop hauth }

theorem carried_handle [Engine σ] (s : Storage σ) {r : Request}
    (h : r.op = .auth → r.ledger = 0 ∧ r.entry = 0) : Carried (s.handle r).1 := by
  have hsend : ∀ code, (code = .ok ∨ r.op ≠ .auth) → (Response.answering r code).Sendable := by
    intro code hcode
    have hauth : r.op = .auth → code = .ok := by
      intro hop
      simpa [hop] using hcode
    exact { add := fun _ => rfl, auth := fun hop => ⟨hauth hop, (h hop).1, (h hop).2, rfl⟩ }
  unfold handle
  cases hop : r.op with
  | addEntry => exact ⟨hsend .ok (Or.inl rfl), hop⟩
  | readEntry =>
    have hread : ∀ code, (Response.answering r code).Sendable := by
      intro code
      exact hsend code (by simp [hop])
    dsimp only
    split
    · exact { add := by simp [Response.withData, Response.answering, hop]
              auth := by simp [Response.withData, Response.answering, hop] }
    · exact hread .noEntry
    · exact hread .io
  | auth => exact hsend .ok (Or.inl rfl)

theorem Carried.wait [Engine σ] {p : PendingResponse} (h : Carried p) (s : Storage σ) :
    (s.wait p).1.Sendable := by
  cases p with
  | ready r => exact h
  | durable r id => exact sendable_conclude h.1 h.2 _ _

theorem Carried.poll {p : PendingResponse} (h : Carried p) {s : Storage σ} {r : Response}
    (hpoll : (s.poll p).1 = some r) : r.Sendable := by
  cases p with
  | ready response =>
    simp only [Storage.poll, Option.some.injEq] at hpoll
    rw [← hpoll]
    exact h
  | durable response id =>
    cases houtcome : s.completions.outcome? id with
    | none => simp [Storage.poll, Storage.report, houtcome] at hpoll
    | some outcome =>
      simp only [Storage.poll, Storage.report, houtcome, Option.some.injEq] at hpoll
      rw [← hpoll]
      exact sendable_conclude h.1 h.2 s outcome

end Storage

namespace Wire

/-- Responses survive the wire. The node refuses a response for its length only. Any other is taken
off the stream as one body, which leaves what followed, and the client decodes it. The client gets
to know all of a response that the handler gives for a decoded request, by a wait or once its write
has settled, but does not tell empty data from none. -/
theorem encode_reaches_client (c : CodecConfig) :
    (∀ r : Response,
      if c.frameLimit < r.bodyLength then
        Server.encode c r = .error (.tooLarge r.bodyLength c.frameLimit)
      else ∃ wire, Server.encode c r = .ok wire ∧ ∀ rest, ∃ body,
        takeFrame c.frameLimit (wire ++ rest) = .ok (some (body, rest)) ∧
          Client.decode body = .ok r.carried) ∧
    ∀ {σ : Type} [Engine σ] (s later : Storage σ) (received wire : Bytes) (request : Request)
      (response : Response), Server.decode c received = .ok request →
      ((later.wait (s.handle request).1).1 = response ∨
        (later.poll (s.handle request).1).1 = some response) →
      Server.encode c response = .ok wire →
      ∃ body, takeFrame c.frameLimit wire = .ok (some (body, [])) ∧
        Client.decode body = .ok response.normal := by
  have htaken : ∀ r : Response, ¬ c.frameLimit < r.bodyLength → ∀ rest,
      takeFrame c.frameLimit (frame (Server.body r) ++ rest) =
        .ok (some (Server.body r, rest)) := by
    intro r hlong rest
    apply CodecConfig.takeFrame_frame
    rw [r.length_body]
    omega
  constructor
  · intro r
    have hencode := Server.encode_eq c r
    split
    · next hlong => rw [hencode, if_pos hlong]
    · next hlong =>
      rw [if_neg hlong] at hencode
      exact ⟨_, hencode, fun rest => ⟨_, htaken r hlong rest, Client.decode_body r⟩⟩
  · intro σ _ s later received wire request response hreceived hgiven hencode
    have hcarried := Storage.carried_handle s (Server.decode_sound hreceived).1
    have hsendable : response.Sendable := by
      rcases hgiven with hwait | hpoll
      · rw [← hwait]
        exact hcarried.wait later
      · exact hcarried.poll hpoll
    obtain ⟨hlimit, rfl⟩ := Server.encode_eq_ok.1 hencode
    refine ⟨Server.body response, ?_, ?_⟩
    · exact CodecConfig.takeFrame_own (response.length_body ▸ hlimit)
    · rw [Client.decode_body, hsendable.carried]

/-- The entry of a store that holds one, read back over the wire. -/
theorem encode_reaches_client_entry :
    ∃ wire body, Server.encode {} ⟨2, .readEntry, .ok, 7, 0, some [1, 2]⟩ = .ok wire ∧
      takeFrame ({} : CodecConfig).frameLimit wire = .ok (some (body, [])) ∧
        Client.decode body = .ok ⟨2, .readEntry, .ok, 7, 0, some [1, 2]⟩ := by
  have hreceived : Server.decode {} (Request.readEntry 7 0).body = .ok (Request.readEntry 7 0) :=
    rfl
  let s : Storage MemoryEngine :=
    .start { index := Index.insert {} ⟨7, 0⟩ [1, 2] } {} false .unlimited {}
  have hgiven : (s.wait (s.handle (Request.readEntry 7 0)).1).1 =
      ⟨2, .readEntry, .ok, 7, 0, some [1, 2]⟩ := rfl
  obtain ⟨body, htaken, hdecoded⟩ :=
    (encode_reaches_client {}).2 s s _ _ _ _ hreceived (Or.inl hgiven) rfl
  exact ⟨_, body, rfl, htaken, hdecoded⟩

end Wire

end LedgerStore
