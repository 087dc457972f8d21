import LedgerStore.Proofs.Checksum
import LedgerStore.Proofs.Record.RoundTrip

set_option autoImplicit false

namespace LedgerStore

namespace Key

theorem bytes_word {bs : Bytes} (h : 8 ≤ bs.length) :
    Bytes.bigEndian 8 (word bs).toUInt64.toNat = bs.take 8 := by
  have hlen : (bs.take 8).length = 8 := by simp [h]
  have hlt : Bytes.valueBE (bs.take 8) < 2 ^ 64 := by
    have hv := Bytes.valueBE_lt (bs.take 8)
    rw [hlen] at hv
    exact hv
  have hvalue : (word bs).toUInt64.toNat = Bytes.valueBE (bs.take 8) := by
    rw [word, UInt64.toUInt64_toInt64, UInt64.toNat_ofNat', Nat.mod_eq_of_lt hlt]
  have hback := Bytes.bigEndian_valueBE (bs.take 8)
  rw [hvalue]
  rwa [hlen] at hback

theorem bytes_of_ofBytes? {bs : Bytes} {k : Key} (h : ofBytes? bs = some k) :
    k.bytes = bs.take width := by
  rw [ofBytes?] at h
  split at h
  · cases h
  next hlen =>
    cases h
    rw [width] at hlen ⊢
    have hfirst : 8 ≤ bs.length := by omega
    have hsecond : 8 ≤ (bs.drop 8).length := by rw [List.length_drop]; omega
    rw [bytes, bytes_word hfirst, bytes_word hsecond, ← List.take_add]

end Key

namespace Record

namespace Header

theorem word_littleEndian {bs : Bytes} (h : bs.length = 4) :
    Bytes.littleEndian 4 (UInt32.ofNat (Bytes.valueLE bs)).toNat = bs := by
  have hlt : Bytes.valueLE bs < 2 ^ 32 := by
    have hv := Bytes.valueLE_lt bs
    rw [h] at hv
    exact hv
  have hback := Bytes.littleEndian_valueLE bs
  rw [UInt32.toNat_ofNat', Nat.mod_eq_of_lt hlt]
  rwa [h] at hback

theorem bytes_ofBytes {bs : Bytes} (hlen : bs.length = width) (hzero : bs.drop 12 = [0, 0, 0, 0]) :
    (ofBytes bs).bytes = bs := by
  rw [width] at hlen
  have hlength : ((bs.drop 4).take 4).length = 4 := by simp [hlen]
  have hsum : ((bs.drop 8).take 4).length = 4 := by simp [hlen]
  have hfront : bs.take 12 = bs.take 4 ++ (bs.drop 4).take 4 ++ (bs.drop 8).take 4 := by
    rw [← List.take_add, ← List.take_add (l := bs) (i := 8)]
  rw [bytes, ofBytes, word_littleEndian hlength, word_littleEndian hsum, ← hfront, ← hzero,
    List.take_append_drop]

theorem ofBytes_take (data : Bytes) : ofBytes (data.take width) = ofBytes data := by
  simp [ofBytes, width, List.take_take, List.drop_take]

end Header

/-- A record is read from its own stored form only. -/
theorem bytes_of_decode {data : Bytes} {r : Record} (h : decode data = .ok r) :
    r.Fits ∧ r.bytes = data.take (Header.width + (Header.ofBytes data).length.toNat) := by
  simp only [decode, Header.ofBytes_take] at h
  split at h
  · cases h
  next hwidth =>
  split at h
  · cases h
  next hmagic =>
  split at h
  · cases h
  next hzero =>
  split at h
  · cases h
  next hwhole =>
  split at h
  · cases h
  next hsum =>
  split at h
  · cases h
  next key hkey =>
  cases h
  rw [ne_eq, Decidable.not_not] at hmagic hzero hsum
  have hkeyed := Key.bytes_of_ofBytes? hkey
  have hroom : Key.width ≤ ((data.drop Header.width).take (Header.ofBytes data).length.toNat).length := by
    have := congrArg List.length hkeyed
    rw [Key.length_bytes, List.length_take] at this
    omega
  generalize hp : (data.drop Header.width).take (Header.ofBytes data).length.toNat = payload at *
  have hlength : payload.length = (Header.ofBytes data).length.toNat := by
    have : payload.length ≤ (Header.ofBytes data).length.toNat := by
      rw [← hp]
      exact List.length_take_le _ _
    omega
  have hpayload : payload = (⟨key, payload.drop Key.width⟩ : Record).payload := by
    rw [Record.payload, hkeyed, List.take_append_drop]
  have hcount : Key.width + (payload.drop Key.width).length = payload.length := by
    rw [List.length_drop]
    omega
  have hheader : (⟨key, payload.drop Key.width⟩ : Record).header = Header.ofBytes data := by
    rw [header, ← hpayload, hcount, hlength, hsum, UInt32.ofNat_toNat, ← hmagic]
  constructor
  · rw [Fits, hcount, hlength]
    exact (Header.ofBytes data).length.toNat_lt
  · have hhead : (Header.ofBytes data).bytes = data.take Header.width := by
      rw [← Header.ofBytes_take]
      refine Header.bytes_ofBytes ?_ hzero
      have := List.length_take_le Header.width data
      omega
    rw [bytes, hheader, ← hpayload, hhead, ← hp, List.take_add]

theorem payload_inj {r q : Record} (h : r.payload = q.payload) : r = q := by
  have hkey : r.key = q.key := by
    have hr := Key.ofBytes?_append r.key r.value
    rw [← payload, h, payload, Key.ofBytes?_append] at hr
    exact (Option.some.inj hr).symm
  obtain ⟨key, value⟩ := r
  obtain ⟨key', value'⟩ := q
  cases hkey
  exact congrArg (Record.mk key) (List.append_cancel_left h)

theorem header_inj {h h' : Header} (hm : h.magic.length = 4) (hm' : h'.magic.length = 4)
    (heq : h.bytes = h'.bytes) : h = h' := by
  have hread := Header.ofBytes_append h [] hm
  rw [heq, Header.ofBytes_append h' [] hm'] at hread
  exact hread.symm

/-- No two records are stored in bytes that differ in one place only. -/
theorem bytes_set_ne {r q : Record} {i : Nat} (hi : i < r.bytes.length) {b : UInt8}
    (hb : b ≠ r.bytes[i]) : r.bytes.set i b ≠ q.bytes := by
  intro heq
  rw [bytes, bytes, List.set_append] at heq
  simp only [bytes] at hb
  split at heq
  next hhead =>
    -- The payloads are the same, so the records are, and the change is none.
    obtain ⟨hheader, hpayload⟩ := List.append_inj heq (by simp)
    cases payload_inj hpayload
    rw [List.getElem_append_left hhead] at hb
    have hget := congrArg (fun bs : Bytes => bs[i]?) hheader
    rw [List.getElem?_set_self hhead, List.getElem?_eq_getElem hhead] at hget
    exact hb (Option.some.inj hget)
  next hhead =>
    -- The headers are the same, so the checksum is that of two payloads.
    obtain ⟨hheader, hpayload⟩ := List.append_inj heq (by simp)
    have hsum := congrArg Header.checksum (header_inj rfl rfl hheader)
    rw [bytes, List.length_append] at hi
    rw [List.getElem_append_right (by omega)] at hb
    have hplace : i - r.header.bytes.length < r.payload.length := by omega
    refine Checksum.crc32c_set_ne hplace hb ?_
    rw [hpayload]
    exact hsum.symm

theorem encode_eq_ok_iff {r : Record} {limit : Nat} {stored : Bytes} :
    r.encode limit = .ok stored ↔ r.value.length ≤ limit ∧ stored = r.bytes := by
  rw [encode]
  split
  next hlt =>
    constructor
    · intro h
      cases h
    · rintro ⟨hle, -⟩
      omega
  next hle =>
    rw [Except.ok.injEq, eq_comm]
    exact (and_iff_right (Nat.not_lt.1 hle)).symm

theorem decode_eq_ok_iff {data : Bytes} {r : Record} :
    decode data = .ok r ↔ r.Fits ∧ r.bytes <+: data := by
  constructor
  · intro h
    obtain ⟨fits, hbytes⟩ := bytes_of_decode h
    exact ⟨fits, hbytes ▸ List.take_prefix _ _⟩
  · rintro ⟨fits, rest, rfl⟩
    exact decode_append fits rest

structure Unambiguous (read : Bytes → Except Defect Record)
    (write : Record → Nat → Except StorageError Bytes) : Prop where
  reads : ∀ (data : Bytes) (r : Record) (limit : Nat), r.Fits → r.value.length ≤ limit →
    (read data = .ok r ↔ ∃ stored, write r limit = .ok stored ∧ stored <+: data)
  undone : ∀ (r : Record) (limit : Nat) (stored rest : Bytes), r.Fits →
    write r limit = .ok stored → read (stored ++ rest) = .ok r
  /-- What is written for one record does not even begin what is written for another. -/
  apart : ∀ (r q : Record) (limit limit' : Nat) (stored stored' : Bytes), r.Fits → q.Fits →
    write r limit = .ok stored → write q limit' = .ok stored' → stored <+: stored' → r = q
  written : ∀ (data : Bytes) (r : Record), read data = .ok r →
    r.Fits ∧ ∃ stored, write r r.value.length = .ok stored ∧ data.take stored.length = stored

theorem decode_unambiguous : Unambiguous decode encode where
  reads data r limit fits hlimit := by
    rw [decode_eq_ok_iff]
    constructor
    · rintro ⟨-, hprefix⟩
      exact ⟨r.bytes, encode_eq_ok_iff.2 ⟨hlimit, rfl⟩, hprefix⟩
    · rintro ⟨stored, hstored, hprefix⟩
      obtain ⟨-, rfl⟩ := encode_eq_ok_iff.1 hstored
      exact ⟨fits, hprefix⟩
  undone r limit stored rest fits hstored := by
    obtain ⟨-, rfl⟩ := encode_eq_ok_iff.1 hstored
    exact decode_append fits rest
  apart r q limit limit' stored stored' hr hq hstored hstored' hprefix := by
    obtain ⟨-, rfl⟩ := encode_eq_ok_iff.1 hstored
    obtain ⟨-, rfl⟩ := encode_eq_ok_iff.1 hstored'
    have hread := decode_eq_ok_iff.2 ⟨hr, hprefix⟩
    rw [decode_eq_ok_iff.2 ⟨hq, List.prefix_rfl⟩] at hread
    exact (Except.ok.inj hread).symm
  written data r h := by
    obtain ⟨fits, hprefix⟩ := decode_eq_ok_iff.1 h
    exact ⟨fits, r.bytes, encode_eq_ok_iff.2 ⟨Nat.le_refl _, rfl⟩,
      (List.prefix_iff_eq_take.1 hprefix).symm⟩

/-- The key is negative, and the value and what follows are like the beginning of another record. -/
theorem decode_unambiguous_marked :
    let r : Record := ⟨⟨-1, -2⟩, magic⟩
    (r.Fits ∧ r.encode 4 = .ok r.bytes) ∧ decode (r.bytes ++ magic) = .ok r := by
  intro r
  have fits : r.Fits := .of_length (by decide)
  have hstored : r.encode 4 = .ok r.bytes := encode_eq_ok_iff.2 ⟨by decide, rfl⟩
  exact ⟨⟨fits, hstored⟩, decode_unambiguous.undone r 4 r.bytes magic fits hstored⟩

end Record

end LedgerStore
