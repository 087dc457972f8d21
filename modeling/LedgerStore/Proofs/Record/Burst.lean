import LedgerStore.Proofs.Record.Skipping
import LedgerStore.Proofs.Record.Unambiguous

set_option autoImplicit false

namespace LedgerStore.Record

/-- What decoding makes of bytes that are as many as their header declares. -/
theorem decode_of_declared {data : Bytes} (hwhole : declared data = data.length) :
    decode data =
      if data.take 4 ≠ magic then .error (.badMagic (data.take 4))
      else if (data.drop 12).take 4 ≠ [0, 0, 0, 0] then
        .error (.reservedSet ((data.drop 12).take 4))
      else if Checksum.crc32c (data.drop Header.width) ≠ (Header.ofBytes data).checksum then
        .error (.checksum (Header.ofBytes data).checksum
          (Checksum.crc32c (data.drop Header.width)))
      else
        (Key.ofBytes? (data.drop Header.width)).elim (.error .noKey) fun key =>
          .ok ⟨key, (data.drop Header.width).drop Key.width⟩ := by
  rw [declared] at hwhole
  have hroom : ¬ (data.take Header.width).length < Header.width := by
    rw [List.length_take]
    omega
  have hreserved : (data.take Header.width).drop 12 = (data.drop 12).take 4 := List.drop_take
  have hpayload : (data.drop Header.width).take (Header.ofBytes data).length.toNat =
      data.drop Header.width := by
    apply List.take_of_length_le
    rw [List.length_drop]
    omega
  have hall : ¬ (data.drop Header.width).length < (Header.ofBytes data).length.toNat := by
    rw [List.length_drop]
    omega
  have hmagic : (Header.ofBytes data).magic = data.take 4 := rfl
  simp only [decode, if_neg hroom, Header.ofBytes_take, hreserved, hpayload, if_neg hall, hmagic]
  cases Key.ofBytes? (data.drop Header.width) <;> rfl

section Parts

variable (r : Record)

theorem word_magic : r.bytes.take 4 = magic := by
  have h := magic_begins r []
  rwa [List.append_nil] at h

theorem word_reserved : (r.bytes.drop 12).take 4 = [0, 0, 0, 0] := by
  have h := take_header r []
  rw [List.append_nil] at h
  have hhead : (r.bytes.take Header.width).drop 12 = (r.bytes.drop 12).take 4 := List.drop_take
  rw [← hhead, h]
  exact List.drop_left' (by simp [header, magic])

theorem drop_width : r.bytes.drop Header.width = r.payload := by
  have h := drop_header r []
  rwa [List.append_nil, List.append_nil] at h

end Parts

variable {r : Record} {i : Nat} {data : Bytes}

theorem declared_burst {n : Nat} (fits : r.Fits) (burst : Bytes.Burst i n r.bytes data)
    (hi : i + n ≤ 4 ∨ 8 ≤ i) : declared data = data.length := by
  have hword := burst.part_eq (a := 4) (m := 4) (by omega)
  have hself := declared_length fits []
  rw [List.append_nil] at hself
  rw [declared, Header.ofBytes, hword, burst.length, ← hself, Header.ofBytes]

theorem checksum_ofBytes_inj {a b : Bytes} (ha : 12 ≤ a.length) (hb : 12 ≤ b.length)
    (h : (Header.ofBytes a).checksum = (Header.ofBytes b).checksum) :
    (a.drop 8).take 4 = (b.drop 8).take 4 := by
  have hfour : ∀ bs : Bytes, 12 ≤ bs.length → ((bs.drop 8).take 4).length = 4 := by
    intro bs hbs
    rw [List.length_take, List.length_drop]
    omega
  have hword := congrArg (fun w : UInt32 => Bytes.littleEndian 4 w.toNat) h
  exact (Header.word_littleEndian (hfour a ha)).symm.trans
    (hword.trans (Header.word_littleEndian (hfour b hb)))

theorem decode_burst_magic (fits : r.Fits) (burst : Bytes.Burst 0 4 r.bytes data) :
    decode data = .error (.badMagic (data.take 4)) := by
  have hother : data.take 4 ≠ magic := by
    rw [← r.word_magic]
    exact burst.part_ne
  rw [decode_of_declared (declared_burst fits burst (.inl (Nat.le_refl 4))), if_pos hother]

theorem decode_burst_reserved (fits : r.Fits) (burst : Bytes.Burst 12 4 r.bytes data) :
    decode data = .error (.reservedSet ((data.drop 12).take 4)) := by
  have hmagic : data.take 4 = magic := (burst.take_eq (by decide)).trans r.word_magic
  have hother : (data.drop 12).take 4 ≠ [0, 0, 0, 0] := by
    rw [← r.word_reserved]
    exact burst.part_ne
  rw [decode_of_declared (declared_burst fits burst (.inr (by decide))),
    if_neg (not_not_intro hmagic), if_pos hother]

/-- Where magic and reserved bytes are as they were, the check decides. -/
theorem decode_burst_check (fits : r.Fits) (burst : Bytes.Burst i 4 r.bytes data)
    (hi : i = 8 ∨ Header.width ≤ i)
    (hother : Checksum.crc32c (data.drop Header.width) ≠ (Header.ofBytes data).checksum) :
    decode data = .error (.checksum (Header.ofBytes data).checksum
      (Checksum.crc32c (data.drop Header.width))) := by
  rw [Header.width] at hi
  have hmagic : data.take 4 = magic := (burst.take_eq (by omega)).trans r.word_magic
  have hreserved : (data.drop 12).take 4 = [0, 0, 0, 0] :=
    (burst.part_eq (by omega)).trans r.word_reserved
  rw [decode_of_declared (declared_burst fits burst (by omega)), if_neg (not_not_intro hmagic),
    if_neg (not_not_intro hreserved), if_pos hother]

theorem decode_burst_checksum (fits : r.Fits) (burst : Bytes.Burst 8 4 r.bytes data) :
    decode data = .error (.checksum (Header.ofBytes data).checksum r.header.checksum) := by
  have hlength : 12 ≤ r.bytes.length := by
    rw [length_bytes, Header.width]
    omega
  have hpayload : data.drop Header.width = r.payload :=
    (burst.drop_eq (by decide)).trans r.drop_width
  have hother : Checksum.crc32c (data.drop Header.width) ≠ (Header.ofBytes data).checksum := by
    intro heq
    rw [hpayload] at heq
    refine burst.part_ne (checksum_ofBytes_inj (burst.length ▸ hlength) hlength ?_)
    rw [← heq, r.ofBytes_self]
    rfl
  rw [decode_burst_check fits burst (.inl rfl) hother, hpayload]
  rfl

theorem decode_burst_payload (fits : r.Fits) (burst : Bytes.Burst i 4 r.bytes data)
    (hi : Header.width ≤ i) :
    decode data = .error (.checksum r.header.checksum
      (Checksum.crc32c (data.drop Header.width))) := by
  have hsum : (Header.ofBytes data).checksum = r.header.checksum := by
    have hword := burst.part_eq (a := 8) (m := 4) (by rw [Header.width] at hi; omega)
    rw [← r.ofBytes_self, Header.ofBytes, hword]
    rfl
  have hother : Checksum.crc32c (data.drop Header.width) ≠ (Header.ofBytes data).checksum := by
    have hne := Checksum.crc32c_burst_ne (burst.drop hi) (Nat.le_refl 4)
    rw [drop_width] at hne
    rw [hsum]
    exact hne
  rw [decode_burst_check fits burst (.inr hi) hother, hsum]

/-- Every change within four bytes of a stored record is found, in the payload and in the checksum
by the check, and in the magic and in the reserved bytes by what has to stand there. -/
theorem decode_burst (fits : r.Fits) (burst : Bytes.Burst i 4 r.bytes data) :
    (Header.width ≤ i → (decode data).mapError Defect.error =
        .error (.checksumMismatch "<buffer>" r.header.checksum
          (Checksum.crc32c (data.drop Header.width)) Header.width)) ∧
      (i = 8 → (decode data).mapError Defect.error =
        .error (.checksumMismatch "<buffer>" (Header.ofBytes data).checksum
          (Checksum.crc32c r.payload) Header.width)) ∧
      (i = 0 → (decode data).mapError Defect.error =
        .error (.journalCorrupted "<buffer>" 0 s!"bad magic {Hex.list (data.take 4)}")) ∧
      (i = 12 → (decode data).mapError Defect.error =
        .error (.journalCorrupted "<buffer>" 12
          s!"reserved bytes set {Hex.list ((data.drop 12).take 4)}")) := by
  refine ⟨fun hi => ?_, ?_, ?_, ?_⟩
  · rw [decode_burst_payload fits burst hi]
    rfl
  · rintro rfl
    rw [decode_burst_checksum fits burst]
    rfl
  · rintro rfl
    rw [decode_burst_magic fits burst]
    rfl
  · rintro rfl
    rw [decode_burst_reserved fits burst]
    rfl

/-- The burst takes in the end of the key and the beginning of the value. -/
theorem decode_burst_across :
    let r : Record := ⟨⟨1, 2⟩, [7, 8, 9]⟩
    let data := (r.bytes.set 30 1).set 33 0
    Bytes.Burst 30 4 r.bytes data ∧
      (decode data).mapError Defect.error = .error (.checksumMismatch "<buffer>" r.header.checksum
        (Checksum.crc32c (data.drop Header.width)) Header.width) := by
  intro r data
  have burst : Bytes.Burst 30 4 r.bytes data := by
    refine ⟨by simp [data], by decide +kernel, fun k hk => ?_⟩
    rw [List.getElem?_set_ne (by omega), List.getElem?_set_ne (by omega)]
  exact ⟨burst, (decode_burst (.of_length (by decide)) burst).1 (by decide)⟩

end LedgerStore.Record
