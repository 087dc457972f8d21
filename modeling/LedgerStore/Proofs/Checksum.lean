import Mathlib.Algebra.Group.Nat.Defs
import LedgerStore.Checksum

/-!
The check as a map: a register can be told from the one after any bytes, because the polynomial has
the bit that a shift takes away, and up to four bytes enter it as one number. The main statement is
that byte strings which differ in at most four bytes in a row have different checks.
-/

set_option autoImplicit false

namespace LedgerStore

/-- The byte strings differ, and only in the `n` places from `i` on. -/
structure Bytes.Burst (i n : Nat) (bs cs : Bytes) : Prop where
  length : cs.length = bs.length
  changed : cs ≠ bs
  confined : ∀ k, k < i ∨ i + n ≤ k → cs[k]? = bs[k]?

namespace Bytes.Burst

variable {i n : Nat} {bs cs : Bytes}

theorem part_eq (h : Burst i n bs cs) {a m : Nat} (apart : a + m ≤ i ∨ i + n ≤ a) :
    (cs.drop a).take m = (bs.drop a).take m := by
  apply List.ext_getElem?
  intro k
  simp only [List.getElem?_take, List.getElem?_drop]
  split
  · exact h.confined (a + k) (by omega)
  · rfl

theorem take_eq (h : Burst i n bs cs) {m : Nat} (hm : m ≤ i) : cs.take m = bs.take m := by
  have hpart := h.part_eq (a := 0) (.inl (Nat.zero_add m ▸ hm))
  rwa [List.drop_zero, List.drop_zero] at hpart

theorem drop_eq (h : Burst i n bs cs) {a : Nat} (ha : i + n ≤ a) : cs.drop a = bs.drop a := by
  apply List.ext_getElem?
  intro k
  rw [List.getElem?_drop, List.getElem?_drop]
  exact h.confined (a + k) (by omega)

theorem part_ne (h : Burst i n bs cs) : (cs.drop i).take n ≠ (bs.drop i).take n := by
  intro heq
  apply h.changed
  rw [← List.take_append_drop i cs, ← List.take_append_drop n (cs.drop i), List.drop_drop,
    h.take_eq (Nat.le_refl i), heq, h.drop_eq (Nat.le_refl _), ← List.drop_drop,
    List.take_append_drop, List.take_append_drop]

theorem drop (h : Burst i n bs cs) {a : Nat} (ha : a ≤ i) :
    Burst (i - a) n (bs.drop a) (cs.drop a) where
  length := by rw [List.length_drop, List.length_drop, h.length]
  changed heq := by
    apply h.changed
    rw [← List.take_append_drop a cs, h.take_eq ha, heq, List.take_append_drop]
  confined k hk := by
    rw [List.getElem?_drop, List.getElem?_drop]
    exact h.confined (a + k) (by omega)

end Bytes.Burst

theorem Bytes.burst_set {bs : Bytes} {i : Nat} (hi : i < bs.length) {b : UInt8} (hb : b ≠ bs[i]) :
    Burst i 1 bs (bs.set i b) where
  length := List.length_set
  changed heq := by
    have hget := congrArg (fun l : Bytes => l[i]?) heq
    rw [List.getElem?_set_self hi, List.getElem?_eq_getElem hi] at hget
    exact hb (Option.some.inj hget)
  confined k hk := List.getElem?_set_ne (by omega)

namespace Checksum

theorem toNat_halve (r : UInt32) : (r >>> 1).toNat = r.toNat / 2 := by
  simp [UInt32.toNat_shiftRight, Nat.shiftRight_eq_div_pow]

theorem low_bit (r : UInt32) : r &&& 1 = 1 ↔ r.toNat % 2 = 1 := by
  rw [← UInt32.toNat_inj]
  simp [UInt32.toNat_and, Nat.and_one_is_mod]

theorem eq_of_halve {r s : UInt32} (low : r.toNat % 2 = s.toNat % 2)
    (high : r >>> 1 = s >>> 1) : r = s := by
  have hhigh := congrArg UInt32.toNat high
  rw [toNat_halve, toNat_halve] at hhigh
  apply UInt32.toNat_inj.1
  omega

theorem halve_xor_ne (r s : UInt32) : (r >>> 1) ^^^ (s >>> 1) ≠ polynomial := by
  intro h
  have hr : (r >>> 1).toNat < 2 ^ 31 := by
    have := r.toNat_lt
    rw [toNat_halve]
    omega
  have hs : (s >>> 1).toNat < 2 ^ 31 := by
    have := s.toNat_lt
    rw [toNat_halve]
    omega
  have hlt := Nat.xor_lt_two_pow hr hs
  rw [← UInt32.toNat_xor, h] at hlt
  exact absurd hlt (by decide)

theorem shift_inj {r s : UInt32} (h : shift r = shift s) : r = s := by
  rw [shift, shift] at h
  by_cases hr : r &&& 1 = 1 <;> by_cases hs : s &&& 1 = 1
  · rw [if_pos hr, if_pos hs, UInt32.xor_left_inj] at h
    exact eq_of_halve (((low_bit r).1 hr).trans ((low_bit s).1 hs).symm) h
  · rw [if_pos hr, if_neg hs] at h
    refine absurd ?_ (halve_xor_ne r s)
    rw [← h, ← UInt32.xor_assoc, UInt32.xor_self, UInt32.zero_xor]
  · rw [if_neg hr, if_pos hs] at h
    refine absurd ?_ (halve_xor_ne s r)
    rw [h, ← UInt32.xor_assoc, UInt32.xor_self, UInt32.zero_xor]
  · rw [if_neg hr, if_neg hs] at h
    rw [low_bit] at hr hs
    exact eq_of_halve (by omega) h

theorem shifts_inj {n : Nat} {r s : UInt32} (h : shifts n r = shifts n s) : r = s := by
  induction n generalizing r s with
  | zero => exact h
  | succ n ih => exact shift_inj (ih h)

theorem step_left_inj {r s : UInt32} {b : UInt8} (h : step r b = step s b) : r = s :=
  (UInt32.xor_left_inj _).1 (shifts_inj h)

/-- The bytes that enter a register do not make it forget what it was. -/
theorem foldl_step_inj {bs : Bytes} {r s : UInt32} (h : bs.foldl step r = bs.foldl step s) :
    r = s := by
  induction bs generalizing r s with
  | nil => exact h
  | cons b bs ih => exact step_left_inj (ih h)

theorem shift_xor (r : UInt32) {w : Nat} (hw : 2 * w < 2 ^ 32) :
    shift (r ^^^ UInt32.ofNat (2 * w)) = shift r ^^^ UInt32.ofNat w := by
  have hdouble : (UInt32.ofNat (2 * w)).toNat = 2 * w := by
    rw [UInt32.toNat_ofNat', Nat.mod_eq_of_lt hw]
  have hsingle : (UInt32.ofNat w).toNat = w := by
    rw [UInt32.toNat_ofNat', Nat.mod_eq_of_lt (by omega)]
  have hhalf : (r ^^^ UInt32.ofNat (2 * w)) >>> 1 = (r >>> 1) ^^^ UInt32.ofNat w := by
    rw [← UInt32.toNat_inj, toNat_halve, UInt32.toNat_xor, UInt32.toNat_xor, toNat_halve, hdouble,
      hsingle, Nat.xor_div_two, Nat.mul_div_cancel_left w Nat.two_pos]
  have hlow : (r ^^^ UInt32.ofNat (2 * w)) &&& 1 = 1 ↔ r &&& 1 = 1 := by
    rw [low_bit, low_bit, UInt32.toNat_xor, hdouble, Nat.xor_mod_two_eq_one]
    omega
  rw [shift, shift, hhalf]
  by_cases hr : r &&& 1 = 1
  · rw [if_pos hr, if_pos (hlow.2 hr), UInt32.xor_assoc, UInt32.xor_assoc, UInt32.xor_comm polynomial]
  · rw [if_neg hr, if_neg (hr ∘ hlow.1)]

theorem shifts_xor (n : Nat) (r : UInt32) {w : Nat} (hw : 2 ^ n * w < 2 ^ 32) :
    shifts n (r ^^^ UInt32.ofNat (2 ^ n * w)) = shifts n r ^^^ UInt32.ofNat w := by
  induction n generalizing r with
  | zero => rw [Nat.pow_zero, Nat.one_mul]; rfl
  | succ n ih =>
    rw [Nat.pow_succ', Nat.mul_assoc] at hw ⊢
    rw [shifts, shifts, shift_xor r hw, ih _ (by omega)]

theorem shifts_add (m n : Nat) (r : UInt32) : shifts (m + n) r = shifts n (shifts m r) := by
  induction m generalizing r with
  | zero => rw [Nat.zero_add]; rfl
  | succ m ih => rw [Nat.succ_add, shifts, shifts, ih]

theorem xor_digit {b w : Nat} (hb : b < 2 ^ 8) : b ^^^ 2 ^ 8 * w = b + 2 ^ 8 * w := by
  rw [Nat.add_comm]
  apply Nat.eq_of_testBit_eq
  intro i
  rw [Nat.testBit_xor, Nat.testBit_two_pow_mul, Nat.testBit_two_pow_mul_add w hb]
  by_cases hi : i < 8
  · simp [hi, Nat.not_le.2 hi]
  · have hle := Nat.pow_le_pow_right Nat.two_pos (Nat.not_lt.1 hi)
    simp [hi, Nat.not_lt.1 hi, Nat.testBit_lt_two_pow (Nat.lt_of_lt_of_le hb hle)]

/-- A byte that enters a register is the lowest digit of a number that enters it as a whole. -/
theorem step_xor (r : UInt32) (b : UInt8) {w : Nat} (hw : 256 * w < 2 ^ 32) :
    step r b ^^^ UInt32.ofNat w = shifts 8 (r ^^^ UInt32.ofNat (b.toNat + 256 * w)) := by
  have hb := b.toNat_lt
  have hdigit : b.toUInt32 ^^^ UInt32.ofNat (256 * w) = UInt32.ofNat (b.toNat + 256 * w) := by
    rw [← UInt32.toNat_inj, UInt32.toNat_xor, UInt8.toNat_toUInt32, UInt32.toNat_ofNat',
      UInt32.toNat_ofNat', Nat.mod_eq_of_lt hw, Nat.mod_eq_of_lt (by omega)]
    exact xor_digit hb
  have hshifts : shifts 8 (r ^^^ b.toUInt32 ^^^ UInt32.ofNat (256 * w)) = _ := shifts_xor 8 _ hw
  rw [step, ← hshifts, UInt32.xor_assoc, hdigit]

theorem foldl_step_eq {bs : Bytes} (h : bs.length ≤ 4) (r : UInt32) :
    bs.foldl step r = shifts (8 * bs.length) (r ^^^ UInt32.ofNat (Bytes.valueLE bs)) := by
  induction bs generalizing r with
  | nil => simp [Bytes.valueLE, shifts]
  | cons b bs ih =>
    have hspan : 256 * Bytes.span bs.length ≤ 2 ^ 32 := by
      rw [← Bytes.span_succ]
      exact Nat.pow_le_pow_right (by decide) h
    have hvalue := Bytes.valueLE_lt bs
    rw [List.length_cons] at h ⊢
    calc (b :: bs).foldl step r
        = shifts (8 * bs.length) (step r b ^^^ UInt32.ofNat (Bytes.valueLE bs)) := ih (by omega) _
      _ = shifts (8 + 8 * bs.length) (r ^^^ UInt32.ofNat (Bytes.valueLE (b :: bs))) := by
        rw [step_xor r b (by omega), shifts_add, Bytes.valueLE]
      _ = shifts (8 * (bs.length + 1)) (r ^^^ UInt32.ofNat (Bytes.valueLE (b :: bs))) := by
        rw [Nat.mul_succ, Nat.add_comm 8]

theorem foldl_step_right_inj {u v : Bytes} {r : UInt32} (hlen : u.length = v.length)
    (hfour : u.length ≤ 4) (h : u.foldl step r = v.foldl step r) : u = v := by
  have hlt : ∀ bs : Bytes, bs.length ≤ 4 → Bytes.valueLE bs < 2 ^ 32 := fun bs hbs =>
    Nat.lt_of_lt_of_le (Bytes.valueLE_lt bs) (Nat.pow_le_pow_right (by decide) hbs)
  have hword : UInt32.ofNat (Bytes.valueLE u) = UInt32.ofNat (Bytes.valueLE v) := by
    rw [foldl_step_eq hfour, foldl_step_eq (hlen ▸ hfour), hlen] at h
    exact (UInt32.xor_right_inj r).1 (shifts_inj h)
  have hvalue := congrArg UInt32.toNat hword
  rw [UInt32.toNat_ofNat', UInt32.toNat_ofNat', Nat.mod_eq_of_lt (hlt u hfour),
    Nat.mod_eq_of_lt (hlt v (hlen ▸ hfour))] at hvalue
  rw [← Bytes.littleEndian_valueLE u, ← Bytes.littleEndian_valueLE v, hvalue, hlen]

/-- No burst in up to four bytes leaves the check as it was. -/
theorem crc32c_burst_ne {i n : Nat} {bs cs : Bytes} (h : Bytes.Burst i n bs cs) (hn : n ≤ 4) :
    crc32c cs ≠ crc32c bs := by
  intro heq
  have hregister := (UInt32.xor_left_inj _).1 heq
  have hlength : ((cs.drop i).take n).length = ((bs.drop i).take n).length := by
    simp only [List.length_take, List.length_drop, h.length]
  have hfour : ((cs.drop i).take n).length ≤ 4 := Nat.le_trans (List.length_take_le _ _) hn
  rw [← List.take_append_drop i cs, ← List.take_append_drop i bs,
    ← List.take_append_drop n (cs.drop i), ← List.take_append_drop n (bs.drop i), List.drop_drop,
    List.drop_drop, h.take_eq (Nat.le_refl i), h.drop_eq (Nat.le_refl _)] at hregister
  simp only [register, List.foldl_append] at hregister
  exact h.part_ne (foldl_step_right_inj hlength hfour (foldl_step_inj hregister))

theorem crc32c_set_ne {bs : Bytes} {i : Nat} (hi : i < bs.length) {b : UInt8} (hb : b ≠ bs[i]) :
    crc32c (bs.set i b) ≠ crc32c bs :=
  crc32c_burst_ne (Bytes.burst_set hi hb) (Nat.le_add_left 1 3)

end Checksum

end LedgerStore
