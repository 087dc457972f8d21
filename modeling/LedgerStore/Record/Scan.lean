import LedgerStore.Record

/-!
Reading all records of a byte string that may be damaged anywhere. Where no record stands the
reading goes on at the next magic; a record that the end cuts off ends it.
-/

set_option autoImplicit false

namespace LedgerStore.Record

/-- The bytes from the first magic on, and their offset when the given ones start at `offset`. -/
def seek (offset : Nat) : Bytes → Nat × Bytes
  | [] => (offset, [])
  | b :: bs => if magic.isPrefixOf (b :: bs) then (offset, b :: bs) else seek (offset + 1) bs

theorem length_seek_le (offset : Nat) (bs : Bytes) : (seek offset bs).2.length ≤ bs.length := by
  induction bs generalizing offset with
  | nil => simp [seek]
  | cons b bs ih =>
    rw [seek]
    split
    · exact Nat.le_refl _
    · exact Nat.le_succ_of_le (ih (offset + 1))

inductive Finding
  | record (offset : Nat) (r : Record)
  | badMagic (offset : Nat)
  /-- A record of `need` bytes of which the end of the bytes leaves fewer. -/
  | torn (offset need available : Nat)
  | corrupt (offset : Nat) (defect : Defect)
  deriving DecidableEq, Repr

def Finding.record? : Finding → Option Record
  | record _ r => some r
  | _ => none

def findings (offset : Nat) (bs : Bytes) : List Finding :=
  if _short : (bs.take Header.width).length < Header.width then []
  else
    let next := seek (offset + 1) bs.tail
    if bs.take magic.length ≠ magic then .badMagic offset :: findings next.1 next.2
    else
      let need := Header.width + (Header.ofBytes bs).length.toNat
      let whole := bs.take need
      if whole.length < need then [.torn offset need bs.length]
      else
        match decode whole with
        | .ok r => .record offset r :: findings (offset + need) (bs.drop need)
        | .error defect => .corrupt offset defect :: findings next.1 next.2
termination_by bs.length
decreasing_by
  all_goals
    have := length_seek_le (offset + 1) bs.tail
    simp only [List.length_take, List.length_tail, List.length_drop, Header.width] at *
    omega

def scan (bs : Bytes) : List Record :=
  (findings 0 bs).filterMap Finding.record?

end LedgerStore.Record
