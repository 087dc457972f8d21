import Mathlib.Algebra.Group.Nat.Defs
import LedgerStore.Bytes
import LedgerStore.Hex

/-!
Numbers written in bytes with a fixed count of digits, most significant first. If the digits of the
base rise, such texts are ordered, byte by byte, as the numbers are. Both words and hexadecimal
text are written in this way.
-/

set_option autoImplicit false

namespace LedgerStore

namespace Bytes

/-- Behind parts of one length the order of two strings is settled by what follows. -/
theorem append_lt_append_iff {front front' : Bytes} (h : front.length = front'.length)
    (back back' : Bytes) :
    front ++ back < front' ++ back' ↔ front < front' ∨ (front = front' ∧ back < back') := by
  induction front generalizing front' with
  | nil =>
    rw [List.eq_nil_of_length_eq_zero h.symm]
    simp
  | cons b front ih =>
    cases front' with
    | nil => simp at h
    | cons c front' =>
      have hlen : front.length = front'.length := by simpa using h
      simp only [List.cons_append, List.cons_lt_cons_iff, ih hlen, List.cons.injEq]
      grind

end Bytes

/-- A way to write numbers in a base, with digits that rise. -/
structure Positional (base : Nat) (digit : Nat → UInt8) (write : Nat → Nat → Bytes) : Prop where
  nothing : ∀ n, write 0 n = []
  digits : ∀ w n, write (w + 1) n = write w (n / base) ++ [digit (n % base)]
  rising : ∀ i j, i < j → j < base → digit i < digit j

namespace Positional

variable {base w m n : Nat} {digit : Nat → UInt8} {write : Nat → Nat → Bytes}

theorem length (h : Positional base digit write) (w n : Nat) : (write w n).length = w := by
  induction w generalizing n with
  | zero => simp [h.nothing]
  | succ w ih => simp [h.digits, ih]

theorem lt_of_lt (h : Positional base digit write) (hlt : m < n) (hn : n < base ^ w) :
    write w m < write w n := by
  induction w generalizing m n with
  | zero =>
    rw [Nat.pow_zero] at hn
    omega
  | succ w ih =>
    have hm := Nat.div_add_mod m base
    have hdiv := Nat.div_add_mod n base
    have hle := Nat.div_le_div_right (c := base) (Nat.le_of_lt hlt)
    have hlen : (write w (m / base)).length = (write w (n / base)).length := by simp [h.length]
    rw [h.digits, h.digits, Bytes.append_lt_append_iff hlen]
    rcases Nat.lt_or_eq_of_le hle with hlow | heq
    · rw [Nat.pow_succ'] at hn
      exact Or.inl (ih hlow (Nat.div_lt_of_lt_mul hn))
    · have hbase : 0 < base := Nat.pos_of_ne_zero fun hzero => by simp [hzero] at hn
      rw [heq] at hm
      refine Or.inr ⟨by rw [heq], List.cons_lt_cons_iff.2 (Or.inl ?_)⟩
      exact h.rising _ _ (by omega) (Nat.mod_lt n hbase)

theorem lt_iff (h : Positional base digit write) (hm : m < base ^ w) (hn : n < base ^ w) :
    write w m < write w n ↔ m < n := by
  constructor
  · intro hlt
    rcases Nat.lt_trichotomy m n with hmn | rfl | hnm
    · exact hmn
    · exact absurd hlt (List.lt_irrefl _)
    · exact absurd (List.lt_trans hlt (h.lt_of_lt hnm hm)) (List.lt_irrefl _)
  · exact fun hlt => h.lt_of_lt hlt hn

theorem inj (h : Positional base digit write) (hm : m < base ^ w) (hn : n < base ^ w) :
    write w m = write w n ↔ m = n := by
  constructor
  · intro heq
    have hmn := mt (h.lt_iff hm hn).2 (heq ▸ List.lt_irrefl _)
    have hnm := mt (h.lt_iff hn hm).2 (heq ▸ List.lt_irrefl _)
    omega
  · rintro rfl
    rfl

end Positional

theorem Bytes.positional_bigEndian : Positional 256 UInt8.ofNat bigEndian where
  nothing _ := rfl
  digits w n := by
    have hdigit : UInt8.ofNat n = UInt8.ofNat (n % 256) := by
      apply UInt8.toNat.inj
      simp
    rw [bigEndian, littleEndian, List.reverse_cons, hdigit]
    rfl
  rising i j hlt hj := by
    rw [UInt8.lt_iff_toNat_lt, UInt8.toNat_ofNat', UInt8.toNat_ofNat']
    omega

namespace Hex

def digitByte (n : Nat) : UInt8 :=
  UInt8.ofNat (Nat.digitChar n).toNat

theorem digitByte_lt {i j : Nat} (hlt : i < j) (hj : j < 16) : digitByte i < digitByte j := by
  have all : ∀ m n : Fin 16, m < n → digitByte m.val < digitByte n.val := by decide
  exact all ⟨i, by omega⟩ ⟨j, hj⟩ hlt

theorem utf8_digitChar {n : Nat} (h : n < 16) :
    String.utf8EncodeChar (Nat.digitChar n) = [digitByte n] := by
  have all : ∀ m : Fin 16, String.utf8EncodeChar (Nat.digitChar m.val) = [digitByte m.val] := by
    decide
  exact all ⟨n, h⟩

def stored (w n : Nat) : Bytes :=
  (fixed w n).flatMap String.utf8EncodeChar

theorem positional_stored : Positional 16 digitByte stored where
  nothing _ := rfl
  digits w n := by
    have hlast := utf8_digitChar (Nat.mod_lt n (by omega : 16 > 0))
    simp [stored, fixed, List.flatMap_append, hlast]
  rising _ _ := digitByte_lt

end Hex

end LedgerStore
