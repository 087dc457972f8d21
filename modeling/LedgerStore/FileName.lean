import LedgerStore.Hex

set_option autoImplicit false

namespace LedgerStore

structure FileName where
  before : List Char
  after : List Char

namespace FileName

/-- The name of the file with a sequence, of which the low 64 bits are written. -/
def render (f : FileName) (sequence : Nat) : String :=
  String.ofList (f.before ++ Hex.fixed 16 sequence ++ f.after)

def sequenceBound : Nat := 0x10000000000000000

/-- The next sequence. The last word is followed by zero. -/
@[irreducible]
def next (sequence : Nat) : Nat :=
  (sequence + 1) % sequenceBound

theorem next_eq {n : Nat} (h : n + 1 < sequenceBound) : next n = n + 1 := by
  rw [next, Nat.mod_eq_of_lt h]

theorem next_last {n : Nat} (h : n + 1 = sequenceBound) : next n = 0 := by
  rw [next, h, Nat.mod_self]

theorem next_lt (n : Nat) : next n < sequenceBound := by
  rw [next]
  exact Nat.mod_lt _ (by decide)

theorem le_next_iff {n : Nat} : n ≤ next n ↔ n + 1 < sequenceBound := by
  constructor
  · intro hle
    have hlt := next_lt n
    by_cases hlast : n + 1 = sequenceBound
    · rw [next_last hlast] at hle
      rw [Nat.le_zero.1 hle] at hlast
      exact absurd hlast (by decide)
    · omega
  · intro h
    rw [next_eq h]
    exact Nat.le_succ n

/-- A sequence that stays or goes on to the next one does not fall, unless it goes on from the
last. -/
theorem le_of_step {n m : Nat} (h : m = n ∨ m = next n) (hn : n < sequenceBound)
    (hlast : n + 1 = sequenceBound → m = n) : n ≤ m := by
  by_cases hfull : n + 1 = sequenceBound
  · exact Nat.le_of_eq (hlast hfull).symm
  · rcases h with rfl | rfl
    · exact Nat.le_refl m
    · rw [le_next_iff]
      omega

/-- The sequence in a name of this form, which may have any count of digits. -/
def sequence? (f : FileName) (name : String) : Option Nat := do
  let rest ← f.before.isPrefixOf? name.toList
  let middle ← f.after.isSuffixOf? rest
  let n ← Hex.read? middle
  if n < sequenceBound then some n else none

end FileName

end LedgerStore
