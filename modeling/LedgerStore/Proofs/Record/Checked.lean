import LedgerStore.Proofs.Record.Skipping

/-!
Reading bytes by places in them, where a place that the bytes do not have gives no result. Decoding
and the search for the next magic do have one, on all bytes: it is what they give anyway.
-/

set_option autoImplicit false

namespace LedgerStore

def Bytes.slice? (bs : Bytes) (start stop : Nat) : Option Bytes :=
  if start ≤ stop ∧ stop ≤ bs.length then some ((bs.drop start).take (stop - start)) else none

theorem Bytes.slice?_of_le {bs : Bytes} {start stop : Nat} (h : start ≤ stop)
    (hstop : stop ≤ bs.length) : bs.slice? start stop = some ((bs.drop start).take (stop - start)) :=
  if_pos ⟨h, hstop⟩

theorem Bytes.slice?_of_lt {bs : Bytes} {start stop : Nat} (h : bs.length < stop) :
    bs.slice? start stop = none :=
  if_neg fun hle => Nat.not_lt.2 hle.2 h

theorem Key.ofBytes?_of_le {bs : Bytes} (h : width ≤ bs.length) :
    ofBytes? bs = some ⟨word bs, word (bs.drop 8)⟩ :=
  if_neg (Nat.not_lt.2 h)

namespace Record

def Header.read (head : Bytes) : Option Header := do
  let mark ← head.slice? 0 4
  let length ← head.slice? 4 8
  let checksum ← head.slice? 8 12
  some ⟨mark, UInt32.ofNat (Bytes.valueLE length), UInt32.ofNat (Bytes.valueLE checksum)⟩

theorem Header.read_eq {head : Bytes} (h : head.length = width) : read head = some (ofBytes head) := by
  rw [width] at h
  rw [read, Bytes.slice?_of_le (Nat.zero_le 4) (by omega), Bytes.slice?_of_le (by decide) (by omega),
    Bytes.slice?_of_le (by decide) (by omega)]
  rfl

def readPayload (payload : Bytes) : Option Record := do
  let ledger ← payload.slice? 0 8
  let entry ← payload.slice? 8 16
  let value ← payload.slice? 16 payload.length
  some ⟨⟨Key.word ledger, Key.word entry⟩, value⟩

def checkPayload (h : Header) (payload : Bytes) : Option (Except Defect Record) :=
  if Checksum.crc32c payload ≠ h.checksum then
    some (.error (.checksum h.checksum (Checksum.crc32c payload)))
  else if payload.length < Key.width then some (.error .noKey)
  else (readPayload payload).map .ok

/-- Decoding with every read checked. Only the first and the payload's may fail: each of them is
asked for with its bounds, and has an error of its own. -/
def decodeChecked (data : Bytes) : Option (Except Defect Record) :=
  match data.slice? 0 Header.width with
  | none => some (.error (.tooShort data.length))
  | some head => do
    let h ← Header.read head
    let reserved ← head.slice? 12 16
    if h.magic ≠ magic then some (.error (.badMagic h.magic))
    else if reserved ≠ [0, 0, 0, 0] then some (.error (.reservedSet reserved))
    else
      match data.slice? Header.width (Header.width + h.length.toNat) with
      | none => some (.error (.torn h.length.toNat (data.length - Header.width)))
      | some payload => checkPayload h payload

theorem readPayload_eq {payload : Bytes} (h : Key.width ≤ payload.length) :
    readPayload payload =
      some ⟨⟨Key.word payload, Key.word (payload.drop 8)⟩, payload.drop Key.width⟩ := by
  rw [Key.width] at h ⊢
  have hvalue : (payload.drop 16).take (payload.length - 16) = payload.drop 16 :=
    List.take_of_length_le (Nat.le_of_eq List.length_drop)
  rw [readPayload, Bytes.slice?_of_le (Nat.zero_le 8) (by omega),
    Bytes.slice?_of_le (by decide) (by omega), Bytes.slice?_of_le h (Nat.le_refl _), hvalue]
  simp [Key.word, List.take_take]

theorem checkPayload_eq (h : Header) (payload : Bytes) :
    checkPayload h payload =
      some (if Checksum.crc32c payload ≠ h.checksum then
          .error (.checksum h.checksum (Checksum.crc32c payload))
        else (Key.ofBytes? payload).elim (.error .noKey) fun key =>
          .ok ⟨key, payload.drop Key.width⟩) := by
  rw [checkPayload]
  split
  · rfl
  by_cases hkey : payload.length < Key.width
  · rw [if_pos hkey, Key.ofBytes?, if_pos hkey]
    rfl
  · have hlen := Nat.not_lt.1 hkey
    rw [if_neg hkey, readPayload_eq hlen, Key.ofBytes?_of_le hlen]
    rfl

/-- No read of decoding leaves the bytes. -/
theorem decodeChecked_eq (data : Bytes) : decodeChecked data = some (decode data) := by
  by_cases hshort : data.length < Header.width
  · have hhead : (data.take Header.width).length < Header.width := by
      rw [List.length_take]
      omega
    simp only [decodeChecked, Bytes.slice?_of_lt hshort, decode, if_pos hhead]
  · have hhead : (data.take Header.width).length = Header.width := by
      rw [List.length_take]
      omega
    have hslice : data.slice? 0 Header.width = some (data.take Header.width) :=
      Bytes.slice?_of_le (Nat.zero_le _) (by omega)
    have hreserved : Bytes.slice? (data.take Header.width) 12 16 =
        some ((data.take Header.width).drop 12) := by
      rw [Bytes.slice?_of_le (by decide) (by rw [hhead]; decide)]
      exact congrArg some (List.take_of_length_le (by rw [List.length_drop, hhead]; decide))
    simp only [decodeChecked, hslice, Header.read_eq hhead, hreserved, decode, hhead,
      Nat.lt_irrefl, if_false, Option.bind_eq_bind, Option.bind_some]
    generalize Header.ofBytes (data.take Header.width) = h
    split
    · rfl
    split
    · rfl
    by_cases htorn : data.length < Header.width + h.length.toNat
    · have hpayload : ((data.drop Header.width).take h.length.toNat).length < h.length.toNat := by
        rw [List.length_take, List.length_drop]
        omega
      rw [Bytes.slice?_of_lt htorn, if_pos hpayload, List.length_drop]
    · have hpayload : ¬ ((data.drop Header.width).take h.length.toNat).length < h.length.toNat := by
        rw [List.length_take, List.length_drop]
        omega
      rw [Bytes.slice?_of_le (Nat.le_add_right _ _) (by omega), Nat.add_sub_cancel_left, if_neg hpayload]
      dsimp only
      rw [checkPayload_eq]
      cases Key.ofBytes? ((data.drop Header.width).take h.length.toNat) <;> rfl

def magicFrom (bs : Bytes) (start : Nat) : Nat → Option (Option Nat)
  | 0 => some none
  | n + 1 => do
    let window ← bs.slice? start (start + magic.length)
    if window = magic then some (some start) else magicFrom bs (start + 1) n

def nextMagic (bs : Bytes) (start : Nat) : Option (Option Nat) :=
  magicFrom bs start (bs.length + 1 - magic.length - start)

theorem seek_of_short {bs : Bytes} (offset : Nat) (h : bs.length < magic.length) :
    (seek offset bs).2 = [] := by
  induction bs generalizing offset with
  | nil => rfl
  | cons b bs ih =>
    have hno : ¬ magic.isPrefixOf (b :: bs) = true := fun hyes => by
      have := (List.isPrefixOf_iff_prefix.1 hyes).length_le
      omega
    rw [seek, if_neg hno]
    exact ih (offset + 1) (Nat.lt_of_succ_lt h)

/-- Where a search ends. -/
def sought (r : Nat × Bytes) : Option Nat :=
  if r.2 = [] then none else some r.1

theorem magicFrom_eq (bs : Bytes) (start n : Nat) (h : n = bs.length + 1 - magic.length - start) :
    magicFrom bs start n = some (sought (seek start (bs.drop start))) := by
  have hfour : magic.length = 4 := rfl
  induction n generalizing start with
  | zero =>
    have hshort : (bs.drop start).length < magic.length := by
      rw [List.length_drop]
      omega
    rw [magicFrom, sought, if_pos (seek_of_short start hshort)]
  | succ n ih =>
    have hroom : start + magic.length ≤ bs.length := by omega
    have hstart : start < bs.length := by omega
    have hne : bs.drop start ≠ [] := mt List.drop_eq_nil_iff.1 (Nat.not_le.2 hstart)
    have hcons : bs.drop start = bs[start] :: bs.drop (start + 1) :=
      List.drop_eq_getElem_cons hstart
    rw [magicFrom, Bytes.slice?_of_le (Nat.le_add_right _ _) hroom, Nat.add_sub_cancel_left]
    simp only [Option.bind_eq_bind, Option.bind_some]
    rw [hcons, seek, ← hcons]
    by_cases hmark : (bs.drop start).take magic.length = magic
    · rw [if_pos hmark, if_pos (isPrefixOf_magic.2 hmark), sought, if_neg hne]
    · rw [if_neg hmark, if_neg (mt isPrefixOf_magic.1 hmark)]
      exact ih (start + 1) (by omega)

end Record

end LedgerStore
