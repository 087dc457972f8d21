import Mathlib.Algebra.Group.Nat.Defs
import LedgerStore.Record.Scan

set_option autoImplicit false

namespace LedgerStore

namespace Key

theorem word_append (w : Int64) (rest : Bytes) :
    word (Bytes.bigEndian 8 w.toUInt64.toNat ++ rest) = w := by
  have hlen : (Bytes.bigEndian 8 w.toUInt64.toNat).length = 8 := Bytes.length_bigEndian _ _
  have hlt : w.toUInt64.toNat < Bytes.span 8 := w.toUInt64.toNat_lt
  have hv : Bytes.valueBE (Bytes.bigEndian 8 w.toUInt64.toNat) = w.toUInt64.toNat := by
    rw [Bytes.valueBE_bigEndian, Nat.mod_eq_of_lt hlt]
  rw [word, List.take_left' hlen, hv]
  simp

theorem ofBytes?_append (k : Key) (rest : Bytes) : ofBytes? (k.bytes ++ rest) = some k := by
  have hlen : ¬ (k.bytes ++ rest).length < width := by simp
  have hd : (k.bytes ++ rest).drop 8 = Bytes.bigEndian 8 k.entry.toUInt64.toNat ++ rest := by
    rw [bytes, List.append_assoc, List.drop_left' (Bytes.length_bigEndian _ _)]
  rw [ofBytes?, if_neg hlen, hd, word_append, bytes, List.append_assoc, word_append]

theorem word_bytes (k : Key) (rest : Bytes) :
    word (k.bytes ++ rest) = k.ledger ∧ word ((k.bytes ++ rest).drop 8) = k.entry := by
  have h := k.ofBytes?_append rest
  rw [ofBytes?, if_neg (by simp)] at h
  have hledger := congrArg ledger (Option.some.inj h)
  have hentry := congrArg entry (Option.some.inj h)
  exact ⟨hledger, hentry⟩

end Key

namespace Record

/-- The payload's length fits in the header's word. -/
def Fits (r : Record) : Prop :=
  Key.width + r.value.length < Bytes.span 4

theorem fits_iff {r : Record} : r.Fits ↔ Key.width + r.value.length < 2 ^ 32 := by
  have hspan : Bytes.span 4 = 2 ^ 32 := by decide
  rw [Fits, hspan]

theorem Fits.of_length {r : Record} (h : r.value.length < 2 ^ 31) : r.Fits := by
  rw [fits_iff, Key.width]
  omega

namespace Header

theorem ofBytes_append (h : Header) (rest : Bytes) (hm : h.magic.length = 4) :
    ofBytes (h.bytes ++ rest) = h := by
  have hl : (Bytes.littleEndian 4 h.length.toNat).length = 4 := Bytes.length_littleEndian _ _
  have hc : (Bytes.littleEndian 4 h.checksum.toNat).length = 4 := Bytes.length_littleEndian _ _
  have vl : Bytes.valueLE (Bytes.littleEndian 4 h.length.toNat) = h.length.toNat := by
    rw [Bytes.valueLE_littleEndian]
    exact Nat.mod_eq_of_lt h.length.toNat_lt
  have vc : Bytes.valueLE (Bytes.littleEndian 4 h.checksum.toNat) = h.checksum.toNat := by
    rw [Bytes.valueLE_littleEndian]
    exact Nat.mod_eq_of_lt h.checksum.toNat_lt
  have d4 : (h.bytes ++ rest).drop 4 = Bytes.littleEndian 4 h.length.toNat ++
      (Bytes.littleEndian 4 h.checksum.toNat ++ ([0, 0, 0, 0] ++ rest)) := by
    simp only [bytes, List.append_assoc]
    exact List.drop_left' hm
  have d8 : (h.bytes ++ rest).drop 8 =
      Bytes.littleEndian 4 h.checksum.toNat ++ ([0, 0, 0, 0] ++ rest) := by
    rw [show 8 = 4 + 4 from rfl, ← List.drop_drop, d4, List.drop_left' hl]
  have t4 : (h.bytes ++ rest).take 4 = h.magic := by
    simp only [bytes, List.append_assoc]
    exact List.take_left' hm
  simp only [ofBytes, d4, d8, t4, List.take_left' hl, List.take_left' hc, vl, vc,
    UInt32.ofNat_toNat]

end Header

theorem bytes_append (r : Record) (rest : Bytes) :
    r.bytes ++ rest = r.header.bytes ++ (r.payload ++ rest) := by
  simp [bytes]

theorem take_header (r : Record) (rest : Bytes) :
    (r.bytes ++ rest).take Header.width = r.header.bytes := by
  rw [bytes_append, List.take_left' (length_header r)]

theorem drop_header (r : Record) (rest : Bytes) :
    (r.bytes ++ rest).drop Header.width = r.payload ++ rest := by
  rw [bytes_append, List.drop_left' (length_header r)]

theorem ofBytes_bytes (r : Record) (rest : Bytes) :
    Header.ofBytes (r.bytes ++ rest) = r.header := by
  rw [bytes_append, Header.ofBytes_append _ _ rfl]

theorem ofBytes_self (r : Record) : Header.ofBytes r.bytes = r.header := by
  have h := ofBytes_bytes r []
  rwa [List.append_nil] at h

/-- The header holds the low 32 bits of the payload's length, whatever that is. -/
theorem header_length_mod (r : Record) : r.header.length.toNat = r.payload.length % 2 ^ 32 := by
  rw [header, length_payload, UInt32.toNat_ofNat']

theorem header_length {r : Record} (fits : r.Fits) :
    r.header.length.toNat = r.payload.length := by
  rw [header_length_mod, length_payload]
  exact Nat.mod_eq_of_lt (fits_iff.1 fits)

/-- Decoding undoes encoding, whatever follows the record. -/
theorem decode_append {r : Record} (fits : r.Fits) (rest : Bytes) :
    decode (r.bytes ++ rest) = .ok r := by
  have hh : Header.ofBytes ((r.bytes ++ rest).take Header.width) = r.header := by
    have := Header.ofBytes_append r.header [] rfl
    rwa [List.append_nil, ← take_header r rest] at this
  have hp : ((r.bytes ++ rest).drop Header.width).take r.header.length.toNat = r.payload := by
    rw [drop_header, header_length fits, List.take_left]
  have hz : ((r.bytes ++ rest).take Header.width).drop 12 = [0, 0, 0, 0] := by
    rw [take_header]
    exact List.drop_left' (by simp [header, magic])
  have hk : Key.ofBytes? r.payload = some r.key := Key.ofBytes?_append _ _
  have hv : r.payload.drop Key.width = r.value := List.drop_left' (Key.length_bytes _)
  have hw : ¬ ((r.bytes ++ rest).take Header.width).length < Header.width := by
    rw [take_header, length_header]
    exact Nat.lt_irrefl _
  simp only [decode, hh, hp, hz]
  rw [if_neg hw, if_neg (by simp [header]), if_neg (by simp),
    if_neg (by rw [header_length fits]; exact Nat.lt_irrefl _), if_neg (by simp [header]), hk, hv]

theorem seek_offset (a b : Nat) (bs : Bytes) : (seek a bs).2 = (seek b bs).2 := by
  induction bs generalizing a b with
  | nil => rfl
  | cons c bs ih =>
    simp only [seek]
    split
    · rfl
    · exact ih _ _

theorem filterMap_findings (offset : Nat) (bs : Bytes) :
    (findings offset bs).filterMap Finding.record? = scan bs := by
  suffices h : ∀ n (bs : Bytes) (a b : Nat), bs.length ≤ n →
      (findings a bs).filterMap Finding.record? = (findings b bs).filterMap Finding.record? from
    h bs.length bs offset 0 (Nat.le_refl _)
  intro n
  induction n with
  | zero =>
    intro bs a b h
    have hs : (bs.take Header.width).length < Header.width := by
      simp [Header.width]; omega
    rw [findings, dif_pos hs, findings, dif_pos hs]
  | succ n ih =>
    intro bs a b h
    rw [findings, findings]
    by_cases hs : (bs.take Header.width).length < Header.width
    · rw [dif_pos hs, dif_pos hs]
    · have hpos : 0 < bs.length := by
        simp [Header.width] at hs; omega
      have hseek : ∀ o, (seek o bs.tail).2.length ≤ n := by
        intro o
        have := length_seek_le o bs.tail
        simp only [List.length_tail] at this; omega
      have hnext : ∀ p q : Nat × Bytes, p.2 = q.2 → p.2.length ≤ n →
          (findings p.1 p.2).filterMap Finding.record? =
            (findings q.1 q.2).filterMap Finding.record? := by
        intro p q hpq hp
        rw [← hpq]; exact ih _ _ _ hp
      have hrest := hnext _ _ (seek_offset (a+1) (b+1) bs.tail) (hseek _)
      rw [dif_neg hs, dif_neg hs]
      dsimp only
      split
      · exact hrest
      · split
        · rfl
        · cases decode (bs.take (Header.width + (Header.ofBytes bs).length.toNat)) with
          | ok r =>
            have hd : (bs.drop (Header.width + (Header.ofBytes bs).length.toNat)).length ≤ n := by
              simp only [List.length_drop, Header.width]; omega
            exact congrArg (r :: ·) (ih _ _ _ hd)
          | error e => exact hrest

theorem magic_begins (r : Record) (rest : Bytes) :
    (r.bytes ++ rest).take magic.length = magic := by
  simp only [bytes, Header.bytes, List.append_assoc]
  exact List.take_left

theorem header_room (r : Record) (rest : Bytes) :
    ¬ ((r.bytes ++ rest).take Header.width).length < Header.width := by
  rw [take_header, length_header]
  exact Nat.lt_irrefl _

theorem declared_length {r : Record} (fits : r.Fits) (rest : Bytes) :
    Header.width + (Header.ofBytes (r.bytes ++ rest)).length.toNat = r.bytes.length := by
  rw [ofBytes_bytes, header_length fits, length_payload, length_bytes]

theorem findings_append {r : Record} (fits : r.Fits) (offset : Nat) (rest : Bytes) :
    findings offset (r.bytes ++ rest) =
      .record offset r :: findings (offset + r.bytes.length) rest := by
  have hd := decode_append fits []
  rw [List.append_nil] at hd
  rw [findings, dif_neg (header_room r rest)]
  dsimp only
  rw [if_neg (not_not_intro (magic_begins r rest)), declared_length fits, List.take_left,
    if_neg (Nat.lt_irrefl _), hd, List.drop_left]

/-- A scan reads a whole record and goes on behind it, whatever the record's value holds. -/
theorem scan_append {r : Record} (fits : r.Fits) (rest : Bytes) :
    scan (r.bytes ++ rest) = r :: scan rest := by
  rw [scan, findings_append fits]
  exact congrArg (r :: ·) (filterMap_findings _ _)

/-- Bytes of which a record was to consist, but not all of them. -/
def Torn (bs : Bytes) : Prop :=
  ∃ r : Record, r.Fits ∧ ∃ rest, rest ≠ [] ∧ r.bytes = bs ++ rest

theorem torn_nil : Torn [] := by
  refine ⟨⟨⟨0, 0⟩, []⟩, by unfold Fits; decide, _, ?_, (List.nil_append _).symm⟩
  simp [bytes, Header.bytes, header, magic]

theorem Torn.header {bs : Bytes} {r : Record} {rest : Bytes} (heq : r.bytes = bs ++ rest)
    (hlen : Header.width ≤ bs.length) : ∃ more, bs = r.header.bytes ++ more := by
  have hp : r.header.bytes <+: r.bytes := List.prefix_append _ _
  have hb : bs <+: r.bytes := heq ▸ List.prefix_append _ _
  have h := List.prefix_of_prefix_length_le hp hb (by rw [length_header]; exact hlen)
  obtain ⟨more, h⟩ := h
  exact ⟨more, h.symm⟩

theorem scan_torn {bs : Bytes} (torn : Torn bs) : scan bs = [] := by
  obtain ⟨r, fits, rest, hrest, heq⟩ := torn
  by_cases hs : (bs.take Header.width).length < Header.width
  · rw [scan, findings, dif_pos hs]; rfl
  · have hlen : Header.width ≤ bs.length := by
      simp only [List.length_take] at hs; omega
    obtain ⟨more, hbs⟩ := Torn.header heq hlen
    have hm : bs.take magic.length = magic := by
      rw [hbs]; simp only [Header.bytes, List.append_assoc]; exact List.take_left
    have hneed : Header.width + (Header.ofBytes bs).length.toNat = r.bytes.length := by
      rw [hbs, Header.ofBytes_append _ _ rfl, header_length fits, length_payload, length_bytes]
    have hshort : bs.length < r.bytes.length := by
      have := List.length_pos_iff.2 hrest
      rw [heq, List.length_append]; omega
    rw [scan, findings, dif_neg hs]
    dsimp only
    rw [if_neg (not_not_intro hm), hneed, if_pos (by simp only [List.length_take]; omega)]
    rfl

def written (rs : List Record) : Bytes :=
  rs.flatMap bytes

@[simp] theorem written_nil : written [] = [] := rfl

@[simp] theorem written_cons (r : Record) (rs : List Record) :
    written (r :: rs) = r.bytes ++ written rs := rfl

@[simp] theorem written_append (rs qs : List Record) :
    written (rs ++ qs) = written rs ++ written qs := by
  simp [written]

theorem scan_written_append {rs : List Record} (fits : ∀ r ∈ rs, r.Fits) (rest : Bytes) :
    scan (written rs ++ rest) = rs ++ scan rest := by
  induction rs with
  | nil => rfl
  | cons r rs ih =>
    rw [written_cons, List.append_assoc, scan_append (fits r List.mem_cons_self),
      ih fun q hq => fits q (List.mem_cons_of_mem _ hq), List.cons_append]

/-- A scan returns the records of a file that a crash may have cut in its last record. -/
theorem scan_written {rs : List Record} {tail : Bytes} (fits : ∀ r ∈ rs, r.Fits)
    (torn : Torn tail) : scan (written rs ++ tail) = rs := by
  rw [scan_written_append fits, scan_torn torn, List.append_nil]

theorem bytes_ne_nil (r : Record) : r.bytes ≠ [] := by
  intro h
  have := congrArg List.length h
  simp [length_bytes, Header.width] at this

/-- A cut leaves the records that lie wholly before it and a part of the next. -/
theorem take_written {rs : List Record} {tail : Bytes} (fits : ∀ r ∈ rs, r.Fits)
    (torn : Torn tail) (k : Nat) :
    ∃ m rest, Torn rest ∧ (written rs ++ tail).take k = written (rs.take m) ++ rest ∧
      ∀ n ≤ rs.length, (written (rs.take n)).length ≤ k → n ≤ m := by
  induction rs generalizing k with
  | nil =>
    obtain ⟨r, hr, rest, hrest, heq⟩ := torn
    refine ⟨0, tail.take k, ⟨r, hr, tail.drop k ++ rest, ?_, ?_⟩, rfl, fun n hn _ => hn⟩
    · simp [hrest]
    · rw [← List.append_assoc, List.take_append_drop, heq]
  | cons r rs ih =>
    have hr := fits r List.mem_cons_self
    by_cases hk : r.bytes.length ≤ k
    · obtain ⟨m, rest, hrest, heq, hm⟩ :=
        ih (fun q hq => fits q (List.mem_cons_of_mem _ hq)) (k - r.bytes.length)
      refine ⟨m+1, rest, hrest, ?_, ?_⟩
      · rw [written_cons, List.append_assoc, List.take_append, List.take_of_length_le hk, heq,
          List.take_succ_cons, written_cons, List.append_assoc]
      · intro n hn hle
        cases n with
        | zero => omega
        | succ n =>
          have := hm n (by simpa using hn) (by
            simp only [List.take_succ_cons, written_cons, List.length_append] at hle; omega)
          omega
    · refine ⟨0, r.bytes.take k, ⟨r, hr, r.bytes.drop k, ?_, ?_⟩, ?_, ?_⟩
      · intro h
        have := congrArg List.length h
        simp only [List.length_drop, List.length_nil] at this; omega
      · rw [List.take_append_drop]
      · rw [written_cons, List.append_assoc, List.take_append_of_le_length (by omega)]
        rfl
      · intro n hn hle
        cases n with
        | zero => omega
        | succ n =>
          simp only [List.take_succ_cons, written_cons, List.length_append] at hle; omega

end Record

end LedgerStore
