set_option autoImplicit false

namespace LedgerStore.Hex

def fixed : Nat → Nat → List Char
  | 0, _ => []
  | w + 1, n => fixed w (n / 16) ++ [Nat.digitChar (n % 16)]

@[simp] theorem length_fixed (w n : Nat) : (fixed w n).length = w := by
  induction w generalizing n with
  | zero => rfl
  | succ w ih => simp [fixed, ih]

def text (w n : Nat) : String :=
  String.ofList (fixed w n)

def digitValue? (c : Char) : Option Nat :=
  if '0' ≤ c ∧ c ≤ '9' then some (c.toNat - '0'.toNat)
  else if 'a' ≤ c ∧ c ≤ 'f' then some (c.toNat - 'a'.toNat + 10)
  else if 'A' ≤ c ∧ c ≤ 'F' then some (c.toNat - 'A'.toNat + 10)
  else none

theorem digitValue?_digitChar {n : Nat} (h : n < 16) : digitValue? (Nat.digitChar n) = some n := by
  have all : ∀ m : Fin 16, digitValue? (Nat.digitChar m.val) = some m.val := by decide
  exact all ⟨n, h⟩

/-- The number that a run of digits denotes when `acc` stands before them. -/
def digits? (acc : Nat) : List Char → Option Nat
  | [] => some acc
  | c :: cs =>
    match digitValue? c with
    | some d => digits? (acc * 16 + d) cs
    | none => none

/-- Reads a number: at least one digit, after at most one plus sign. -/
def read? : List Char → Option Nat
  | [] => none
  | '+' :: [] => none
  | '+' :: cs => digits? 0 cs
  | cs => digits? 0 cs

def list (bs : List UInt8) : String :=
  "[" ++ ", ".intercalate (bs.map fun b => text 2 b.toNat) ++ "]"

end LedgerStore.Hex
