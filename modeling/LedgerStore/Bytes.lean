set_option autoImplicit false

namespace LedgerStore

abbrev Bytes := List UInt8

namespace Bytes

def littleEndian : Nat → Nat → Bytes
  | 0, _ => []
  | n + 1, v => UInt8.ofNat v :: littleEndian n (v / 256)

def valueLE : Bytes → Nat
  | [] => 0
  | b :: bs => b.toNat + 256 * valueLE bs

def bigEndian (n v : Nat) : Bytes :=
  (littleEndian n v).reverse

def valueBE (bs : Bytes) : Nat :=
  valueLE bs.reverse

@[simp] theorem length_littleEndian (n v : Nat) : (littleEndian n v).length = n := by
  induction n generalizing v with
  | zero => rfl
  | succ n ih => simp [littleEndian, ih]

@[simp] theorem length_bigEndian (n v : Nat) : (bigEndian n v).length = n := by
  simp [bigEndian]

/-- The count of strings of `n` digits. -/
def span (n : Nat) : Nat :=
  Nat.pow 256 n

theorem span_succ (n : Nat) : span (n + 1) = 256 * span n :=
  Nat.mul_comm _ _

theorem valueLE_lt (bs : Bytes) : valueLE bs < span bs.length := by
  induction bs with
  | nil => exact Nat.one_pos
  | cons b bs ih =>
    have hb := b.toNat_lt
    simp only [valueLE, List.length_cons, span_succ]
    omega

theorem valueLE_littleEndian (n v : Nat) : valueLE (littleEndian n v) = v % span n := by
  induction n generalizing v with
  | zero => exact (Nat.mod_one v).symm
  | succ n ih =>
    have hb : (UInt8.ofNat v).toNat = v % 256 := by simp
    rw [littleEndian, valueLE, ih, hb, span_succ, Nat.mod_mul]

theorem littleEndian_valueLE (bs : Bytes) : littleEndian bs.length (valueLE bs) = bs := by
  induction bs with
  | nil => rfl
  | cons b bs ih =>
    have hb := b.toNat_lt
    have hq : (b.toNat + 256 * valueLE bs) / 256 = valueLE bs := by omega
    have hd : UInt8.ofNat (b.toNat + 256 * valueLE bs) = b := by
      apply UInt8.toNat.inj
      simp only [UInt8.toNat_ofNat']
      omega
    simp only [List.length_cons, valueLE, littleEndian, hq, hd, ih]

theorem valueBE_bigEndian (n v : Nat) : valueBE (bigEndian n v) = v % span n := by
  simp [valueBE, bigEndian, valueLE_littleEndian]

theorem bigEndian_valueBE (bs : Bytes) : bigEndian bs.length (valueBE bs) = bs := by
  have h := littleEndian_valueLE bs.reverse
  simp only [List.length_reverse] at h
  simp [bigEndian, valueBE, h]

theorem valueBE_lt (bs : Bytes) : valueBE bs < span bs.length := by
  simpa [valueBE] using valueLE_lt bs.reverse

end Bytes

end LedgerStore
