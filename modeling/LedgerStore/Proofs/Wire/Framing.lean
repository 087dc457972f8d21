import LedgerStore.Wire.Frame

set_option autoImplicit false

namespace LedgerStore.Wire

theorem unpack_pack (version op : Int8) (flags : Int16) :
    unpack (pack version op flags) = (version, op, flags) := by
  have hv := version.toUInt8.toNat_lt
  have ho := op.toUInt8.toNat_lt
  have hf := flags.toUInt16.toNat_lt
  have hbits : (pack version op flags).toUInt32.toNat = version.toUInt8.toNat * 0x1000000 +
      op.toUInt8.toNat * 0x10000 + flags.toUInt16.toNat := by
    simp only [pack, UInt32.toUInt32_toInt32, UInt32.toNat_ofNat']
    omega
  have hversion : UInt8.ofNat ((pack version op flags).toUInt32.toNat / 0x1000000) =
      version.toUInt8 := by
    apply UInt8.toNat.inj
    rw [hbits, UInt8.toNat_ofNat']
    omega
  have hop : UInt8.ofNat ((pack version op flags).toUInt32.toNat / 0x10000) = op.toUInt8 := by
    apply UInt8.toNat.inj
    rw [hbits, UInt8.toNat_ofNat']
    omega
  have hflags : UInt16.ofNat (pack version op flags).toUInt32.toNat = flags.toUInt16 := by
    apply UInt16.toNat.inj
    rw [hbits, UInt16.toNat_ofNat']
    omega
  simp only [unpack, hversion, hop, hflags, Int8.toInt8_toUInt8, Int16.toInt16_toUInt16]

theorem pack_unpack (w : Int32) : pack (unpack w).1 (unpack w).2.1 (unpack w).2.2 = w := by
  have hw := w.toUInt32.toNat_lt
  have hbits : w.toUInt32.toNat / 0x1000000 % 2 ^ 8 * 0x1000000 +
      w.toUInt32.toNat / 0x10000 % 2 ^ 8 * 0x10000 + w.toUInt32.toNat % 2 ^ 16 =
        w.toUInt32.toNat := by omega
  simp only [pack, unpack, UInt8.toUInt8_toInt8, UInt16.toUInt16_toInt16, UInt8.toNat_ofNat',
    UInt16.toNat_ofNat', hbits, UInt32.ofNat_toNat, Int32.toInt32_toUInt32]

theorem OpCode.value_ofValue {v : Int8} {op : OpCode} (h : ofValue v = .ok op) : op.value = v := by
  unfold ofValue at h
  split at h
  · cases h
    symm
    assumption
  · split at h
    · cases h
      symm
      assumption
    · split at h
      · cases h
        symm
        assumption
      · cases h

theorem PacketHeader.ofWord_word (h : PacketHeader) : ofWord h.word = .ok h := by
  simp only [ofWord, word, unpack_pack, OpCode.ofValue_value]
  rfl

theorem PacketHeader.word_ofWord {w : Int32} {h : PacketHeader} (hread : ofWord w = .ok h) :
    h.word = w := by
  cases hop : OpCode.ofValue (unpack w).2.1 with
  | error e => simp [ofWord, hop, bind, Except.bind] at hread
  | ok op =>
    simp only [ofWord, hop, bind, Except.bind, pure, Except.pure, Except.ok.injEq] at hread
    rw [← hread, word, OpCode.value_ofValue hop, pack_unpack]

theorem readWord32_append (w : Int32) (rest : Bytes) : readWord32 (word32 w ++ rest) = w := by
  have hlt : w.toUInt32.toNat < Bytes.span 4 := w.toUInt32.toNat_lt
  have hvalue : Bytes.valueBE (word32 w) = w.toUInt32.toNat := by
    rw [word32, Bytes.valueBE_bigEndian, Nat.mod_eq_of_lt hlt]
  simp [readWord32, List.take_left' (length_word32 w), hvalue]

theorem drop_word32 (w : Int32) (rest : Bytes) : (word32 w ++ rest).drop 4 = rest :=
  List.drop_left' (length_word32 w)

/-- Four bytes are those of the word that they are read as. -/
theorem word32_readWord32 {bs : Bytes} (h : 4 ≤ bs.length) :
    word32 (readWord32 bs) = bs.take 4 := by
  have hlen : (bs.take 4).length = 4 := by simp; omega
  have hlt := Bytes.valueBE_lt (bs.take 4)
  have hspan : Bytes.span 4 = 4294967296 := by decide
  rw [hlen, hspan] at hlt
  have hback := Bytes.bigEndian_valueBE (bs.take 4)
  rw [hlen] at hback
  have hmod : Bytes.valueBE (bs.take 4) % 2 ^ 32 = Bytes.valueBE (bs.take 4) := by omega
  simp only [word32, readWord32, UInt32.toUInt32_toInt32, UInt32.toNat_ofNat', hmod, hback]

/-- A body behind its own length. -/
def frame (body : Bytes) : Bytes :=
  word32 (Int32.ofNat body.length) ++ body

theorem toNat_length {n : Nat} (h : n ≤ maxWireLength) :
    (Int32.ofNat n).toInt.toNat = n ∧ ¬ Int32.ofNat n < 0 := by
  unfold maxWireLength at h
  have hint : (Int32.ofNat n).toInt = n := Int32.toInt_ofNat_of_lt (by omega)
  rw [Int32.lt_iff_toInt_lt, hint]
  simp

@[simp] theorem length_frame (body : Bytes) : (frame body).length = lengthField + body.length := by
  simp [frame, lengthField]

theorem ensure_ok {bs : Bytes} {needed : Nat} (h : needed ≤ bs.length) (what : String) :
    ensure bs needed what = .ok () :=
  if_neg (Nat.not_lt.2 h)

theorem ensure_room {bs : Bytes} {needed : Nat} {what : String} {u : Unit}
    (h : ensure bs needed what = .ok u) : needed ≤ bs.length := by
  by_cases hshort : bs.length < needed
  · simp [ensure, hshort] at h
  · omega

theorem CodecConfig.frameLimit_le (c : CodecConfig) : c.frameLimit ≤ maxWireLength :=
  Nat.min_le_right _ _

section Stream

variable {limit : Nat} {buffer body rest : Bytes}

theorem takeFrame_short (h : buffer.length < 4) : takeFrame limit buffer = .ok none := by
  have hshort : (buffer.take lengthField).length < lengthField := by
    simp [lengthField]
    omega
  simp only [takeFrame, if_pos hshort]

theorem takeFrame_long (h : 4 ≤ buffer.length) :
    takeFrame limit buffer =
      if readWord32 buffer < 0 then .error (.negativeLength (readWord32 buffer))
      else if limit < (readWord32 buffer).toInt.toNat then
        .error (.tooLarge (readWord32 buffer).toInt.toNat limit)
      else if buffer.length < 4 + (readWord32 buffer).toInt.toNat then .ok none
      else .ok (some ((buffer.drop 4).take (readWord32 buffer).toInt.toNat,
        (buffer.drop 4).drop (readWord32 buffer).toInt.toNat)) := by
  have hlong : ¬ (buffer.take 4).length < 4 := by
    simp
    omega
  have hbody : ((buffer.drop 4).take (readWord32 buffer).toInt.toNat).length <
      (readWord32 buffer).toInt.toNat ↔ buffer.length < 4 + (readWord32 buffer).toInt.toNat := by
    simp only [List.length_take, List.length_drop]
    omega
  simp only [takeFrame, lengthField, if_neg hlong, hbody]

theorem takeFrame_frame (hlimit : body.length ≤ limit) (hwire : body.length ≤ maxWireLength)
    (rest : Bytes) : takeFrame limit (frame body ++ rest) = .ok (some (body, rest)) := by
  obtain ⟨hlength, hsign⟩ := toNat_length hwire
  have hread : readWord32 (frame body ++ rest) = Int32.ofNat body.length := by
    rw [frame, List.append_assoc, readWord32_append]
  have hdrop : (frame body ++ rest).drop 4 = body ++ rest := by
    rw [frame, List.append_assoc, drop_word32]
  have hwhole : 4 + body.length ≤ (frame body ++ rest).length := by
    simp [lengthField]
  rw [takeFrame_long (by omega), hread, hdrop, hlength, if_neg hsign, if_neg (by omega),
    if_neg (by omega), List.take_left, List.drop_left]

theorem CodecConfig.takeFrame_frame {c : CodecConfig} (h : body.length ≤ c.frameLimit)
    (rest : Bytes) : takeFrame c.frameLimit (frame body ++ rest) = .ok (some (body, rest)) :=
  Wire.takeFrame_frame h (Nat.le_trans h c.frameLimit_le) rest

theorem CodecConfig.takeFrame_own {c : CodecConfig} (h : body.length ≤ c.frameLimit) :
    takeFrame c.frameLimit (frame body) = .ok (some (body, [])) := by
  simpa using takeFrame_frame h []

/-- What a taken frame leaves is what followed it. -/
theorem takeFrame_eq_some (h : takeFrame limit buffer = .ok (some (body, rest))) :
    buffer = frame body ++ rest ∧ body.length ≤ limit ∧ body.length ≤ maxWireLength := by
  by_cases hfour : buffer.length < 4
  · simp [takeFrame_short hfour] at h
  · have hword := word32_readWord32 (Nat.not_lt.1 hfour)
    have hmost := (readWord32 buffer).toInt_lt
    rw [takeFrame_long (Nat.not_lt.1 hfour)] at h
    split at h
    · simp at h
    · next hsign =>
      split at h
      · simp at h
      · next hlimit =>
        split at h
        · simp at h
        · next hwhole =>
          simp only [Except.ok.injEq, Option.some.injEq, Prod.mk.injEq] at h
          obtain ⟨rfl, rfl⟩ := h
          have hlength : ((buffer.drop 4).take (readWord32 buffer).toInt.toNat).length =
              (readWord32 buffer).toInt.toNat := by
            simp only [List.length_take, List.length_drop]
            omega
          have hsame : Int32.ofNat (readWord32 buffer).toInt.toNat = readWord32 buffer := by
            rw [Int32.lt_iff_toInt_lt, Int32.toInt_zero] at hsign
            rw [← Int32.toInt_inj, Int32.toInt_ofNat_of_lt (by omega)]
            omega
          refine ⟨?_, by omega, by unfold maxWireLength; omega⟩
          rw [frame, hlength, hsame, hword, List.append_assoc, List.take_append_drop,
            List.take_append_drop]

theorem takeFrame_append (h : takeFrame limit buffer = .ok (some (body, rest))) (more : Bytes) :
    takeFrame limit (buffer ++ more) = .ok (some (body, rest ++ more)) := by
  obtain ⟨rfl, hlimit, hwire⟩ := takeFrame_eq_some h
  rw [List.append_assoc, takeFrame_frame hlimit hwire]

/-- A bad length is refused whether or not more has arrived. -/
theorem takeFrame_append_error {e : FrameError} (h : takeFrame limit buffer = .error e)
    (more : Bytes) : takeFrame limit (buffer ++ more) = .error e := by
  by_cases hfour : buffer.length < 4
  · simp [takeFrame_short hfour] at h
  · have hread : readWord32 (buffer ++ more) = readWord32 buffer := by
      rw [readWord32, readWord32, List.take_append_of_le_length (Nat.not_lt.1 hfour)]
    have hlong : 4 ≤ (buffer ++ more).length := by
      simp
      omega
    rw [takeFrame_long (Nat.not_lt.1 hfour)] at h
    rw [takeFrame_long hlong, hread]
    split at h
    · next hsign => rw [if_pos hsign, h]
    · next hsign =>
      split at h
      · next hlimit => rw [if_neg hsign, if_pos hlimit, h]
      · split at h <;> simp at h

end Stream

end LedgerStore.Wire
