import LedgerStore.Proofs.Record.Unambiguous
import LedgerStore.Proofs.Wire.Cursor
import LedgerStore.Proofs.Wire.Response

/-!
What the bodies of requests and responses mean, written out by their bytes. The main statement is
that the decoders go by these grammars on every byte string, and what is encoded again of a body.
-/

set_option autoImplicit false

namespace LedgerStore.Wire

def flagsOf (hi lo : UInt8) : Int16 :=
  (UInt16.ofNat (hi.toNat * 256 + lo.toNat)).toInt16

theorem unpack_bytes (version op hi lo : UInt8) (rest : Bytes) :
    unpack (readWord32 (version :: op :: hi :: lo :: rest)) =
      (version.toInt8, op.toInt8, flagsOf hi lo) := by
  have hv := version.toNat_lt
  have ho := op.toNat_lt
  have hh := hi.toNat_lt
  have hl := lo.toNat_lt
  have hbits : (readWord32 (version :: op :: hi :: lo :: rest)).toUInt32.toNat =
      version.toNat * 0x1000000 + op.toNat * 0x10000 + (hi.toNat * 256 + lo.toNat) := by
    have hvalue : Bytes.valueBE [version, op, hi, lo] = lo.toNat + 256 * (hi.toNat +
        256 * (op.toNat + 256 * (version.toNat + 256 * 0))) := rfl
    have htake : (version :: op :: hi :: lo :: rest).take 4 = [version, op, hi, lo] := rfl
    rw [readWord32, htake, hvalue, UInt32.toUInt32_toInt32, UInt32.toNat_ofNat']; omega
  have hversion : UInt8.ofNat ((readWord32 (version :: op :: hi :: lo :: rest)).toUInt32.toNat /
      0x1000000) = version := by
    apply UInt8.toNat.inj
    rw [hbits, UInt8.toNat_ofNat']; omega
  have hop : UInt8.ofNat ((readWord32 (version :: op :: hi :: lo :: rest)).toUInt32.toNat /
      0x10000) = op := by
    apply UInt8.toNat.inj
    rw [hbits, UInt8.toNat_ofNat']; omega
  have hflags : UInt16.ofNat (readWord32 (version :: op :: hi :: lo :: rest)).toUInt32.toNat =
      UInt16.ofNat (hi.toNat * 256 + lo.toNat) := by
    apply UInt16.toNat.inj
    rw [hbits, UInt16.toNat_ofNat', UInt16.toNat_ofNat']; omega
  simp only [unpack, hversion, hop, hflags, flagsOf]

theorem word32_bytes (version hi lo : UInt8) (op : OpCode) :
    word32 (PacketHeader.word ⟨version.toInt8, op, flagsOf hi lo⟩) =
      [version, op.value.toUInt8, hi, lo] := by
  have hunpack := unpack_bytes version op.value.toUInt8 hi lo []
  have hpack := pack_unpack (readWord32 [version, op.value.toUInt8, hi, lo])
  rw [hunpack] at hpack
  have hlength : 4 ≤ [version, op.value.toUInt8, hi, lo].length := by simp
  have hback := word32_readWord32 hlength
  simp at hpack
  rw [PacketHeader.word, hpack, hback]
  rfl

theorem isFencing_toInt16 (bits : UInt16) :
    isFencing bits.toInt16 = decide (bits.toNat % 2 = 1) := by
  have hand : bits.toInt16 &&& fencingFlag = (bits &&& 1).toInt16 := by simp [fencingFlag]
  have hlow : (bits &&& 1).toNat = bits.toNat % 2 := by
    rw [UInt16.toNat_and]
    exact Nat.and_one_is_mod _
  have hzero : (bits &&& 1).toInt16 = 0 ↔ bits.toNat % 2 = 0 := by
    rw [← hlow]
    constructor
    · intro h
      have h := congrArg Int16.toUInt16 h
      rw [UInt16.toUInt16_toInt16] at h
      rw [h]
      rfl
    · intro h
      have h : bits &&& 1 = 0 := UInt16.toNat.inj h
      rw [h]
      rfl
  rw [isFencing, hand, Bool.eq_iff_iff, bne_iff_ne, decide_eq_true_iff, ne_eq, hzero]
  omega

theorem isFencing_flagsOf (hi lo : UInt8) :
    isFencing (flagsOf hi lo) = decide (lo.toNat % 2 = 1) := by
  have hbits : (UInt16.ofNat (hi.toNat * 256 + lo.toNat)).toNat % 2 = lo.toNat % 2 := by
    rw [UInt16.toNat_ofNat']; omega
  rw [flagsOf, isFencing_toInt16, hbits]

def Unknown (op : UInt8) : Prop := op ≠ 1 ∧ op ≠ 2 ∧ op ≠ 3

theorem ofValue_unknown {op : UInt8} (h : Unknown op) :
    OpCode.ofValue op.toInt8 = .error (.unknownOpCode op.toInt8) := by
  have hne : ∀ code : OpCode, op ≠ code.value.toUInt8 → op.toInt8 ≠ code.value := by
    intro code hne heq
    rw [← heq] at hne
    simp at hne
  have hadd : op.toInt8 ≠ 1 := hne .addEntry h.1
  have hread : op.toInt8 ≠ 2 := hne .readEntry h.2.1
  have hauth : op.toInt8 ≠ 3 := hne .auth h.2.2
  rw [OpCode.ofValue, if_neg hadd, if_neg hread, if_neg hauth]

theorem exists_key {bs : Bytes} (h : 16 ≤ bs.length) :
    ∃ k : Key, ∃ rest, bs = k.bytes ++ rest := by
  have hread : Key.ofBytes? bs = some ⟨Key.word bs, Key.word (bs.drop 8)⟩ :=
    if_neg (Nat.not_lt.2 h)
  refine ⟨⟨Key.word bs, Key.word (bs.drop 8)⟩, bs.drop Key.width, ?_⟩
  rw [Key.bytes_of_ofBytes? hread, List.take_append_drop]

theorem exists_word {bs : Bytes} (h : 4 ≤ bs.length) :
    ∃ w : Int32, ∃ rest, bs = word32 w ++ rest := by
  refine ⟨readWord32 bs, bs.drop 4, ?_⟩
  rw [word32_readWord32 h, List.take_append_drop]

theorem exists_header {bs : Bytes} (h : 4 ≤ bs.length) :
    ∃ version op hi lo, ∃ rest, bs = version :: op :: hi :: lo :: rest := by
  match bs, h with
  | version :: op :: hi :: lo :: rest, _ => exact ⟨version, op, hi, lo, rest, rfl⟩

theorem ensure_short {bs : Bytes} {needed : Nat} (h : bs.length < needed) (what : String) :
    ensure bs needed what = .error (.short what needed bs.length) :=
  if_pos h

theorem ofWord_unknown {version op hi lo : UInt8} {rest : Bytes} (h : Unknown op) :
    PacketHeader.ofWord (readWord32 (version :: op :: hi :: lo :: rest)) =
      .error (.unknownOpCode op.toInt8) := by
  simp only [PacketHeader.ofWord, unpack_bytes, ofValue_unknown h]
  rfl

namespace Server

def readKeyLength (c : CodecConfig) (lo : UInt8) : Nat :=
  if lo.toNat % 2 = 1 then c.masterKeyLength else 0

inductive Means (c : CodecConfig) : Bytes → Except FrameError Request → Prop
  | headless (body : Bytes) (few : body.length < 4) :
    Means c body (.error (.short "request header" 4 body.length))
  | unknown (version op hi lo : UInt8) (rest : Bytes) (other : Unknown op) :
    Means c (version :: op :: hi :: lo :: rest) (.error (.unknownOpCode op.toInt8))
  | addShort (version hi lo : UInt8) (rest : Bytes) (few : rest.length < c.masterKeyLength + 16) :
    Means c (version :: 1 :: hi :: lo :: rest)
      (.error (.short "add entry request" (c.masterKeyLength + 16) rest.length))
  | add (version hi lo : UInt8) (masterKey : Bytes) (k : Key) (data : Bytes)
    (whole : masterKey.length = c.masterKeyLength) :
    Means c (version :: 1 :: hi :: lo :: (masterKey ++ (k.bytes ++ data)))
      (.ok ⟨version.toInt8, .addEntry, flagsOf hi lo, k.ledger, k.entry, masterKey, some data⟩)
  | readShort (version hi lo : UInt8) (rest : Bytes) (few : rest.length < 16 + readKeyLength c lo) :
    Means c (version :: 2 :: hi :: lo :: rest)
      (.error (.short "read entry request" (16 + readKeyLength c lo) rest.length))
  | read (version hi lo : UInt8) (k : Key) (more : Bytes)
    (whole : readKeyLength c lo ≤ more.length) :
    Means c (version :: 2 :: hi :: lo :: (k.bytes ++ more))
      (.ok ⟨version.toInt8, .readEntry, flagsOf hi lo, k.ledger, k.entry, [], none⟩)
  | auth (version hi lo : UInt8) (rest : Bytes) :
    Means c (version :: 3 :: hi :: lo :: rest)
      (.ok ⟨version.toInt8, .auth, flagsOf hi lo, 0, 0, [], none⟩)

theorem readLength_eq (c : CodecConfig) (hi lo : UInt8) :
    entryIdFields + (if isFencing (flagsOf hi lo) then c.masterKeyLength else 0) =
      16 + readKeyLength c lo := by
  simp [isFencing_flagsOf, readKeyLength, entryIdFields]

theorem decode_short {c : CodecConfig} {body : Bytes} (h : body.length < 4) :
    decode c body = .error (.short "request header" 4 body.length) := by
  have hshort : body.length < headerLength := h
  rw [decode, ensure_short hshort]
  rfl

theorem decode_unknown {c : CodecConfig} {version op hi lo : UInt8} {rest : Bytes}
    (h : Unknown op) : decode c (version :: op :: hi :: lo :: rest) =
      .error (.unknownOpCode op.toInt8) := by
  rw [decode, ensure_ok (by simp [headerLength]), ofWord_unknown h]
  rfl

theorem decode_bytes (c : CodecConfig) (version hi lo : UInt8) (op : OpCode) (rest : Bytes) :
    decode c (version :: op.value.toUInt8 :: hi :: lo :: rest) =
      decode c (word32 (PacketHeader.word ⟨version.toInt8, op, flagsOf hi lo⟩) ++ rest) := by
  rw [word32_bytes]
  rfl

theorem Means.decode_eq {c : CodecConfig} {body : Bytes} {out : Except FrameError Request}
    (h : Means c body out) : decode c body = out := by
  cases h with
  | headless body few => exact decode_short few
  | unknown version op hi lo rest other => exact decode_unknown other
  | addShort version hi lo rest few =>
    have hshort : rest.length < c.masterKeyLength + entryIdFields := few
    refine (decode_bytes c version hi lo .addEntry rest).trans ?_
    rw [decode_header]
    dsimp only
    rw [ensure_short hshort]
    rfl
  | add version hi lo masterKey k data whole =>
    have hread := decode_body (c := c)
      (r := ⟨version.toInt8, .addEntry, flagsOf hi lo, k.ledger, k.entry, masterKey, some data⟩)
      (fun _ => whole) (by simp)
    exact (decode_bytes c version hi lo .addEntry _).trans hread
  | readShort version hi lo rest few =>
    refine (decode_bytes c version hi lo .readEntry rest).trans ?_
    rw [decode_header]
    dsimp only
    rw [readLength_eq, ensure_short few]
    rfl
  | read version hi lo k more whole =>
    have hroom : 16 + readKeyLength c lo ≤ (k.bytes ++ more).length := by
      simp [Key.width]; omega
    refine (decode_bytes c version hi lo .readEntry _).trans ?_
    rw [decode_header]
    dsimp only
    rw [readLength_eq, ensure_ok hroom, (k.word_bytes more).1, (k.word_bytes more).2]
    rfl
  | auth version hi lo rest =>
    refine (decode_bytes c version hi lo .auth rest).trans ?_
    rw [decode_header]

theorem exists_means (c : CodecConfig) (body : Bytes) : ∃ out, Means c body out := by
  by_cases hfew : body.length < 4
  · exact ⟨_, .headless body hfew⟩
  · obtain ⟨version, op, hi, lo, rest, rfl⟩ := exists_header (Nat.not_lt.1 hfew)
    by_cases hadd : op = 1
    · subst hadd
      by_cases hshort : rest.length < c.masterKeyLength + 16
      · exact ⟨_, .addShort version hi lo rest hshort⟩
      · have hroom : 16 ≤ (rest.drop c.masterKeyLength).length := by
          simp; omega
        obtain ⟨k, data, hids⟩ := exists_key hroom
        have hwhole : (rest.take c.masterKeyLength).length = c.masterKeyLength := by
          simp; omega
        have hmeans := Means.add version hi lo _ k data hwhole
        rw [← hids, List.take_append_drop] at hmeans
        exact ⟨_, hmeans⟩
    · by_cases hread : op = 2
      · subst hread
        by_cases hshort : rest.length < 16 + readKeyLength c lo
        · exact ⟨_, .readShort version hi lo rest hshort⟩
        · have hroom : 16 ≤ rest.length := by omega
          obtain ⟨k, more, rfl⟩ := exists_key hroom
          simp [Key.width] at hshort
          exact ⟨_, .read version hi lo k more (by omega)⟩
      · by_cases hauth : op = 3
        · subst hauth
          exact ⟨_, .auth version hi lo rest⟩
        · exact ⟨_, .unknown version op hi lo rest ⟨hadd, hread, hauth⟩⟩

theorem decode_eq_iff (c : CodecConfig) (body : Bytes) (out : Except FrameError Request) :
    decode c body = out ↔ Means c body out := by
  constructor
  · intro h
    obtain ⟨other, hmeans⟩ := exists_means c body
    rw [← h, hmeans.decode_eq]
    exact hmeans
  · exact Means.decode_eq

end Server

namespace Client

inductive Means : Bytes → Except FrameError Response → Prop
  | headless (body : Bytes) (few : body.length < 4) :
    Means body (.error (.short "response header" 4 body.length))
  | unknown (version op hi lo : UInt8) (rest : Bytes) (other : Unknown op) :
    Means (version :: op :: hi :: lo :: rest) (.error (.unknownOpCode op.toInt8))
  | short (version op hi lo : UInt8) (rest : Bytes) (about : op = 1 ∨ op = 2)
    (few : rest.length < 20) :
    Means (version :: op :: hi :: lo :: rest) (.error (.short "entry response" 20 rest.length))
  | unknownCode (version op hi lo : UInt8) (w : Int32) (k : Key) (rest : Bytes)
    (about : op = 1 ∨ op = 2) (other : ∀ code ∈ ErrorCode.all, code.value ≠ w) :
    Means (version :: op :: hi :: lo :: (word32 w ++ (k.bytes ++ rest)))
      (.error (.unknownErrorCode w))
  | add (version hi lo : UInt8) (code : ErrorCode) (k : Key) (rest : Bytes) :
    Means (version :: 1 :: hi :: lo :: (word32 code.value ++ (k.bytes ++ rest)))
      (.ok ⟨version.toInt8, .addEntry, code, k.ledger, k.entry, none⟩)
  | read (version hi lo : UInt8) (code : ErrorCode) (k : Key) (data : Bytes) :
    Means (version :: 2 :: hi :: lo :: (word32 code.value ++ (k.bytes ++ data)))
      (.ok ⟨version.toInt8, .readEntry, code, k.ledger, k.entry,
        if data = [] then none else some data⟩)
  | auth (version hi lo : UInt8) (rest : Bytes) :
    Means (version :: 3 :: hi :: lo :: rest) (.ok ⟨version.toInt8, .auth, .ok, 0, 0, none⟩)

theorem decode_short {body : Bytes} (h : body.length < 4) :
    decode body = .error (.short "response header" 4 body.length) := by
  have hshort : body.length < headerLength := h
  rw [decode, ensure_short hshort]
  rfl

theorem decode_unknown {version op hi lo : UInt8} {rest : Bytes} (h : Unknown op) :
    decode (version :: op :: hi :: lo :: rest) = .error (.unknownOpCode op.toInt8) := by
  rw [decode, ensure_ok (by simp [headerLength]), ofWord_unknown h]
  rfl

theorem decode_bytes (version hi lo : UInt8) (op : OpCode) (rest : Bytes) :
    decode (version :: op.value.toUInt8 :: hi :: lo :: rest) =
      decode (word32 (PacketHeader.word ⟨version.toInt8, op, flagsOf hi lo⟩) ++ rest) := by
  rw [word32_bytes]
  rfl

theorem exists_about {op : UInt8} (h : op = 1 ∨ op = 2) :
    ∃ code : OpCode, code ≠ .auth ∧ op = code.value.toUInt8 := by
  cases h with
  | inl hadd => exact ⟨.addEntry, by simp, hadd⟩
  | inr hread => exact ⟨.readEntry, by simp, hread⟩

theorem Means.decode_eq {body : Bytes} {out : Except FrameError Response} (h : Means body out) :
    decode body = out := by
  cases h with
  | headless body few => exact decode_short few
  | unknown version op hi lo rest other => exact decode_unknown other
  | short version op hi lo rest about few =>
    obtain ⟨op, hop, rfl⟩ := exists_about about
    have hshort : rest.length < responseFixedBody := few
    rw [decode_bytes, decode_header, if_neg hop, ensure_short hshort]
    rfl
  | unknownCode version op hi lo w k rest about other =>
    obtain ⟨op, hop, rfl⟩ := exists_about about
    have hroom : responseFixedBody ≤ (word32 w ++ (k.bytes ++ rest)).length := by
      simp [responseFixedBody, entryIdFields, Key.width]; omega
    have hcode : ErrorCode.ofValue w = .error (.unknownErrorCode w) := by
      have hnone : ErrorCode.all.find? (fun code => code.value == w) = none := by
        simpa using other
      rw [ErrorCode.ofValue, hnone]
    rw [decode_bytes, decode_header, if_neg hop, ensure_ok hroom, readWord32_append, hcode]
    rfl
  | add version hi lo code k rest =>
    refine (decode_bytes version hi lo .addEntry _).trans ?_
    rw [decode_fields (by simp)]
    simp
  | read version hi lo code k data =>
    refine (decode_bytes version hi lo .readEntry _).trans ?_
    rw [decode_fields (by simp)]
    simp
  | auth version hi lo rest =>
    refine (decode_bytes version hi lo .auth rest).trans ?_
    rw [decode_header, if_pos rfl]

theorem exists_means (body : Bytes) : ∃ out, Means body out := by
  by_cases hfew : body.length < 4
  · exact ⟨_, .headless body hfew⟩
  · obtain ⟨version, op, hi, lo, rest, rfl⟩ := exists_header (Nat.not_lt.1 hfew)
    by_cases habout : op = 1 ∨ op = 2
    · by_cases hshort : rest.length < 20
      · exact ⟨_, .short version op hi lo rest habout hshort⟩
      · have hword : 4 ≤ rest.length := by omega
        obtain ⟨w, ids, rfl⟩ := exists_word hword
        have hroom : 16 ≤ ids.length := by
          simp at hshort; omega
        obtain ⟨k, more, rfl⟩ := exists_key hroom
        by_cases hcode : ∃ code : ErrorCode, code.value = w
        · obtain ⟨code, rfl⟩ := hcode
          cases habout with
          | inl hadd =>
            subst hadd
            exact ⟨_, .add version hi lo code k more⟩
          | inr hread =>
            subst hread
            exact ⟨_, .read version hi lo code k more⟩
        · exact ⟨_, .unknownCode version op hi lo w k more habout fun code _ heq =>
            hcode ⟨code, heq⟩⟩
    · by_cases hauth : op = 3
      · subst hauth
        exact ⟨_, .auth version hi lo rest⟩
      · exact ⟨_, .unknown version op hi lo rest
          ⟨fun h => habout (.inl h), fun h => habout (.inr h), hauth⟩⟩

theorem decode_eq_iff (body : Bytes) (out : Except FrameError Response) :
    decode body = out ↔ Means body out := by
  constructor
  · intro h
    obtain ⟨other, hmeans⟩ := exists_means body
    rw [← h, hmeans.decode_eq]
    exact hmeans
  · exact Means.decode_eq

end Client

/-- An add is encoded again as it came, if it may be sent. -/
theorem Server.encode_again {c : CodecConfig} {body : Bytes} {r : Request}
    (h : Server.decode c body = .ok r) (hop : r.op = .addEntry) :
    Client.encode c r =
      if c.frameLimit < body.length then .error (.tooLarge body.length c.frameLimit)
      else .ok (frame body) := by
  have hmeans := (decode_eq_iff c body _).1 h
  cases hmeans with
  | add version hi lo masterKey k data whole =>
    rw [Client.encode_eq, ← Request.length_body]
    simp [whole, Request.body, Request.payload, Request.key, word32_bytes]
    rfl
  | read version hi lo k more whole => cases hop
  | auth version hi lo rest => cases hop

/-- The master key and what follows the numbers have no influence on a read. -/
theorem Server.read_eq {c : CodecConfig} {body other : Bytes} {r q : Request}
    (h : Server.decode c body = .ok r) (hother : Server.decode c other = .ok q)
    (hop : r.op = .readEntry) (hsame : body.take 20 = other.take 20) : r = q := by
  have hmeans := (decode_eq_iff c body _).1 h
  have hmeans' := (decode_eq_iff c other _).1 hother
  cases hmeans with
  | add version hi lo masterKey k data whole => cases hop
  | auth version hi lo rest => cases hop
  | read version hi lo k more whole =>
    cases hmeans' with
    | add version' hi' lo' masterKey k' data whole' => simp at hsame
    | auth version' hi' lo' rest' => simp at hsame
    | read version' hi' lo' k' more' whole' =>
      have hkeys : (k.bytes ++ more).take Key.width = (k'.bytes ++ more').take Key.width := by
        simp only [List.take_succ_cons, List.cons.injEq] at hsame
        exact hsame.2.2.2.2
      rw [List.take_left' k.length_bytes, List.take_left' k'.length_bytes] at hkeys
      have hledger := (k.word_bytes []).1.symm.trans (hkeys ▸ (k'.word_bytes []).1)
      have hentry := (k.word_bytes []).2.symm.trans (hkeys ▸ (k'.word_bytes []).2)
      simp at hsame
      simp [hsame, hledger, hentry]

/-- A read response without flags is encoded again as it came, if it may be sent. -/
theorem Client.encode_again {c : CodecConfig} {body rest : Bytes} {version : UInt8} {r : Response}
    (hbody : body = version :: 2 :: 0 :: 0 :: rest) (h : Client.decode body = .ok r) :
    Server.encode c r =
      if c.frameLimit < body.length then .error (.tooLarge body.length c.frameLimit)
      else .ok (frame body) := by
  have hmeans := (decode_eq_iff body _).1 h
  cases hmeans with
  | add version' hi lo code k more => simp at hbody
  | auth version' hi lo more => simp at hbody
  | read version' hi lo code k data =>
    simp only [List.cons.injEq] at hbody
    obtain ⟨rfl, -, rfl, rfl, -⟩ := hbody
    have hdata : (if data = [] then none else some data).getD [] = data := by
      split <;> simp_all
    have hsame : Server.body ⟨version'.toInt8, .readEntry, code, k.ledger, k.entry,
        if data = [] then none else some data⟩ =
          version' :: 2 :: 0 :: 0 :: (word32 code.value ++ (k.bytes ++ data)) := by
      have hheader := word32_bytes version' 0 0 .readEntry
      rw [show flagsOf 0 0 = 0 by decide] at hheader
      rw [Server.body, Server.fields]
      dsimp only
      rw [hdata, hheader, List.append_assoc]
      rfl
    rw [Server.encode_eq, ← Response.length_body, hsame]

structure Server.Exact (c : CodecConfig) : Prop where
  bounded : ∀ body, (walk c).on body = some (decode c body)
  grammar : ∀ body out, decode c body = out ↔ Means c body out
  again : ∀ body r, decode c body = .ok r → r.op = .addEntry →
    Client.encode c r =
      if c.frameLimit < body.length then .error (.tooLarge body.length c.frameLimit)
      else .ok (frame body)
  ids : ∀ body other r q, decode c body = .ok r → decode c other = .ok q → r.op = .readEntry →
    body.take 20 = other.take 20 → r = q

structure Client.Exact (c : CodecConfig) : Prop where
  bounded : ∀ body, walk.on body = some (decode body)
  grammar : ∀ body out, decode body = out ↔ Means body out
  again : ∀ body r version rest, body = version :: 2 :: 0 :: 0 :: rest → decode body = .ok r →
    Server.encode c r =
      if c.frameLimit < body.length then .error (.tooLarge body.length c.frameLimit)
      else .ok (frame body)

/-- Both decoders accept what their grammars say, and nothing else. -/
theorem decoders_exact (c : CodecConfig) : Server.Exact c ∧ Client.Exact c where
  left :=
    { bounded := Server.walk_on c
      grammar := Server.decode_eq_iff c
      again := fun _ _ => Server.encode_again
      ids := fun _ _ _ _ => Server.read_eq }
  right :=
    { bounded := Client.walk_on
      grammar := Client.decode_eq_iff
      again := fun _ _ _ _ => Client.encode_again }

end LedgerStore.Wire
