import LedgerStore.Proofs.Record.RoundTrip
import LedgerStore.Proofs.Wire.Framing
import LedgerStore.Wire.Client
import LedgerStore.Wire.Server

set_option autoImplicit false

namespace LedgerStore.Wire

namespace Request

/-- The sender's master key goes along with an add and with a read that fences. -/
def CarriesKey (r : Request) : Prop :=
  r.op = .addEntry ∨ r.op = .readEntry ∧ r.isFencing = true

instance (r : Request) : Decidable r.CarriesKey :=
  inferInstanceAs (Decidable (_ ∨ _))

def bodyLength (r : Request) : Nat :=
  headerLength + match r.op with
    | .addEntry => r.masterKey.length + entryIdFields + r.dataLength
    | .readEntry => entryIdFields + if r.isFencing then r.masterKey.length else 0
    | .auth => 0

/-- What the server gets to know of a request. -/
def carried (r : Request) : Request :=
  match r.op with
  | .addEntry => r
  | .readEntry => { r with masterKey := [], data := none }
  | .auth => { r with ledger := 0, entry := 0, masterKey := [], data := none }

/-- The length that is announced is that of what is written. -/
theorem length_body (r : Request) : r.body.length = r.bodyLength := by
  have hdata : (r.data.getD []).length = r.dataLength := by
    cases h : r.data <;> simp [dataLength, h]
  cases hop : r.op with
  | addEntry =>
    simp [body, payload, bodyLength, hop, hdata, headerLength, entryIdFields, Key.width]
    omega
  | readEntry =>
    cases hf : r.isFencing <;>
      simp [body, payload, bodyLength, hop, hf, headerLength, entryIdFields, Key.width]
  | auth => simp [body, payload, bodyLength, hop, headerLength]

end Request

theorem Client.checkMasterKey_bind (c : CodecConfig) (masterKey : Bytes)
    (next : Unit → Except FrameError Nat) :
    checkMasterKey c masterKey >>= next =
      if masterKey.length ≠ c.masterKeyLength then
        .error (.invalidMasterKey c.masterKeyLength masterKey.length)
      else next () := by
  rw [checkMasterKey]
  split <;> rfl

/-- The length is computed from the length that a key must have, which is that of the key if the
request passes. -/
theorem Client.payloadLength_eq (c : CodecConfig) (r : Request) :
    payloadLength c r =
      if r.CarriesKey ∧ r.masterKey.length ≠ c.masterKeyLength then
        .error (.invalidMasterKey c.masterKeyLength r.masterKey.length)
      else if r.op = .addEntry ∧ r.data = none then .error .missingPayload
      else .ok r.payload.length := by
  have hpure : ∀ n : Nat, (pure n : Except FrameError Nat) = .ok n := fun _ => rfl
  by_cases hkey : r.masterKey.length = c.masterKeyLength
  · cases hop : r.op with
    | addEntry =>
      cases hdata : r.data with
      | none => simp [payloadLength, checkMasterKey_bind, hop, hdata, hkey]
      | some data =>
        simp [payloadLength, checkMasterKey_bind, Request.payload, hop, hdata, hkey, hpure,
          entryIdFields, Key.width, Nat.add_assoc]
    | readEntry =>
      cases hf : r.isFencing <;>
        simp [payloadLength, checkMasterKey_bind, Request.payload, hop, hf, hkey, hpure,
          entryIdFields, Key.width]
    | auth => simp [payloadLength, Request.payload, hop, hkey, hpure]
  · cases hop : r.op with
    | addEntry => simp [payloadLength, checkMasterKey_bind, Request.CarriesKey, hop, hkey]
    | readEntry =>
      cases hf : r.isFencing <;>
        simp [payloadLength, checkMasterKey_bind, Request.CarriesKey, Request.payload, hop, hf, hkey,
          hpure, entryIdFields, Key.width]
    | auth => simp [payloadLength, Request.CarriesKey, Request.payload, hop, hpure]

theorem Client.encode_eq (c : CodecConfig) (r : Request) :
    Client.encode c r =
      if r.CarriesKey ∧ r.masterKey.length ≠ c.masterKeyLength then
        .error (.invalidMasterKey c.masterKeyLength r.masterKey.length)
      else if r.op = .addEntry ∧ r.data = none then .error .missingPayload
      else if c.frameLimit < r.bodyLength then .error (.tooLarge r.bodyLength c.frameLimit)
      else .ok (frame r.body) := by
  have hlength : headerLength + r.payload.length = r.bodyLength := by
    rw [← r.length_body]
    simp [Request.body, headerLength]
  simp only [encode, payloadLength_eq]
  split
  · rfl
  · split
    · rfl
    · simp only [bind, Except.bind, hlength, frame, r.length_body, checkLength]
      by_cases hlong : c.frameLimit < r.bodyLength
      · simp only [if_pos hlong]
      · simp only [if_neg hlong]
        rfl

theorem Client.encode_eq_ok {c : CodecConfig} {r : Request} {wire : Bytes} :
    Client.encode c r = .ok wire ↔
      (r.CarriesKey → r.masterKey.length = c.masterKeyLength) ∧
        (r.op = .addEntry → r.data ≠ none) ∧ r.bodyLength ≤ c.frameLimit ∧ frame r.body = wire := by
  rw [encode_eq]
  by_cases hkey : r.CarriesKey ∧ r.masterKey.length ≠ c.masterKeyLength
  · rw [if_pos hkey]
    exact ⟨nofun, fun h => absurd (h.1 hkey.1) hkey.2⟩
  · by_cases hdata : r.op = .addEntry ∧ r.data = none
    · rw [if_neg hkey, if_pos hdata]
      exact ⟨nofun, fun h => absurd hdata.2 (h.2.1 hdata.1)⟩
    · by_cases hlong : c.frameLimit < r.bodyLength
      · rw [if_neg hkey, if_neg hdata, if_pos hlong]
        exact ⟨nofun, fun h => absurd hlong (Nat.not_lt.2 h.2.2.1)⟩
      · rw [if_neg hkey, if_neg hdata, if_neg hlong, Except.ok.injEq]
        exact ⟨fun h => ⟨by simpa using hkey, by simpa using hdata, by omega, h⟩, fun h => h.2.2.2⟩

theorem Server.decode_header (c : CodecConfig) (h : PacketHeader) (rest : Bytes) :
    Server.decode c (word32 h.word ++ rest) =
      match h.op with
      | .addEntry => do
        ensure rest (c.masterKeyLength + entryIdFields) "add entry request"
        return ⟨h.version, h.op, h.flags, Key.word (rest.drop c.masterKeyLength),
          Key.word ((rest.drop c.masterKeyLength).drop 8), rest.take c.masterKeyLength,
          some ((rest.drop c.masterKeyLength).drop entryIdFields)⟩
      | .readEntry => do
        ensure rest (entryIdFields + if isFencing h.flags then c.masterKeyLength else 0)
          "read entry request"
        return ⟨h.version, h.op, h.flags, Key.word rest, Key.word (rest.drop 8), [], none⟩
      | .auth => .ok ⟨h.version, h.op, h.flags, 0, 0, [], none⟩ := by
  have hroom : headerLength ≤ (word32 h.word ++ rest).length := by simp [headerLength]
  have hdrop : (word32 h.word ++ rest).drop headerLength = rest := drop_word32 _ _
  rw [decode, ensure_ok hroom, readWord32_append, PacketHeader.ofWord_word, hdrop]
  obtain ⟨version, op, flags⟩ := h
  cases op <;> rfl

theorem Server.decode_begins {c : CodecConfig} {body : Bytes} {r : Request}
    (h : Server.decode c body = .ok r) :
    ∃ header : PacketHeader, ∃ rest, body = word32 header.word ++ rest := by
  unfold decode at h
  cases hroom : ensure body headerLength "request header" with
  | error e => simp [hroom, bind, Except.bind] at h
  | ok _ =>
    cases hread : PacketHeader.ofWord (readWord32 body) with
    | error e => simp [hroom, hread, bind, Except.bind] at h
    | ok header =>
      have hfour : 4 ≤ body.length := ensure_room hroom
      refine ⟨header, body.drop 4, ?_⟩
      rw [PacketHeader.word_ofWord hread, word32_readWord32 hfour, List.take_append_drop]

/-- An authentication is about no entry, and no request has more data than there were bytes. -/
theorem Server.decode_sound {c : CodecConfig} {body : Bytes} {r : Request}
    (h : Server.decode c body = .ok r) :
    (r.op = .auth → r.ledger = 0 ∧ r.entry = 0) ∧ (r.data.getD []).length ≤ body.length := by
  obtain ⟨⟨version, op, flags⟩, rest, rfl⟩ := decode_begins h
  rw [decode_header] at h
  cases op with
  | addEntry =>
    cases hroom : ensure rest (c.masterKeyLength + entryIdFields) "add entry request" with
    | error e => simp [hroom, bind, Except.bind] at h
    | ok _ =>
      simp only [hroom, bind, Except.bind, pure, Except.pure, Except.ok.injEq] at h
      rw [← h]
      refine ⟨nofun, ?_⟩
      simp
      omega
  | readEntry =>
    cases hroom : ensure rest (entryIdFields + if isFencing flags then c.masterKeyLength else 0)
        "read entry request" with
    | error e => simp [hroom, bind, Except.bind] at h
    | ok _ =>
      simp only [hroom, bind, Except.bind, pure, Except.pure, Except.ok.injEq] at h
      rw [← h]
      exact ⟨nofun, Nat.zero_le _⟩
  | auth =>
    simp only [Except.ok.injEq] at h
    rw [← h]
    exact ⟨fun _ => ⟨rfl, rfl⟩, Nat.zero_le _⟩

theorem Server.decode_body {c : CodecConfig} {r : Request}
    (hkey : r.CarriesKey → r.masterKey.length = c.masterKeyLength)
    (hdata : r.op = .addEntry → r.data ≠ none) : Server.decode c r.body = .ok r.carried := by
  obtain ⟨version, op, flags, ledger, entry, masterKey, data⟩ := r
  have hids := Key.word_bytes ⟨ledger, entry⟩
  rw [Request.body, decode_header]
  cases op with
  | addEntry =>
    have hlength : masterKey.length = c.masterKeyLength := hkey (Or.inl rfl)
    obtain ⟨bytes, rfl⟩ := Option.ne_none_iff_exists'.1 (hdata rfl)
    have hroom : c.masterKeyLength + entryIdFields ≤
        (masterKey ++ (Key.bytes ⟨ledger, entry⟩ ++ bytes)).length := by
      simp [entryIdFields, Key.width]
      omega
    have hdata : (Key.bytes ⟨ledger, entry⟩ ++ bytes).drop entryIdFields = bytes :=
      List.drop_left' (Key.length_bytes _)
    simp only [Request.payload, Request.key, Option.getD_some, ensure_ok hroom,
      List.take_left' hlength, List.drop_left' hlength, hids, hdata]
    rfl
  | readEntry =>
    have hpayload : Request.payload ⟨version, .readEntry, flags, ledger, entry, masterKey, data⟩ =
        Key.bytes ⟨ledger, entry⟩ ++ if isFencing flags then masterKey else [] := rfl
    have hroom : entryIdFields + (if isFencing flags then c.masterKeyLength else 0) ≤
        (Key.bytes ⟨ledger, entry⟩ ++ if isFencing flags then masterKey else []).length := by
      cases hf : isFencing flags with
      | true =>
        have hlength : masterKey.length = c.masterKeyLength := hkey (Or.inr ⟨rfl, hf⟩)
        simp [entryIdFields, Key.width, hlength]
      | false => simp [entryIdFields, Key.width]
    rw [hpayload]
    dsimp only
    rw [ensure_ok hroom, (hids _).1, (hids _).2]
    rfl
  | auth => rfl

/-- Requests survive the wire. The client refuses a request for its master key, its missing data or
its length, in this order. Any other is taken off the stream as one body, which leaves what
followed, and the server decodes it. -/
theorem encode_reaches_server (c : CodecConfig) (r : Request) :
    if r.CarriesKey ∧ r.masterKey.length ≠ c.masterKeyLength then
      Client.encode c r = .error (.invalidMasterKey c.masterKeyLength r.masterKey.length)
    else if r.op = .addEntry ∧ r.data = none then Client.encode c r = .error .missingPayload
    else if c.frameLimit < r.bodyLength then
      Client.encode c r = .error (.tooLarge r.bodyLength c.frameLimit)
    else ∃ wire, Client.encode c r = .ok wire ∧ ∀ rest, ∃ body,
      takeFrame c.frameLimit (wire ++ rest) = .ok (some (body, rest)) ∧
        Server.decode c body = .ok r.carried := by
  have hencode := Client.encode_eq c r
  split
  · next hkey => rw [hencode, if_pos hkey]
  · next hkey =>
    split
    · next hdata => rw [hencode, if_neg hkey, if_pos hdata]
    · next hdata =>
      split
      · next hlong => rw [hencode, if_neg hkey, if_neg hdata, if_pos hlong]
      · next hlong =>
        rw [if_neg hkey, if_neg hdata, if_neg hlong] at hencode
        have hlimit : r.body.length ≤ c.frameLimit := by
          rw [r.length_body]
          omega
        refine ⟨frame r.body, hencode, fun rest => ⟨r.body, ?_, ?_⟩⟩
        · exact CodecConfig.takeFrame_frame hlimit rest
        · apply Server.decode_body
          · intro hcarries
            exact Decidable.byContradiction fun hne => hkey ⟨hcarries, hne⟩
          · exact fun hop hnone => hdata ⟨hop, hnone⟩

end LedgerStore.Wire
