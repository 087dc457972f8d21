set_option autoImplicit false

namespace LedgerStore

inductive PermitSource
  | unlimited
  /-- Permits are granted so many nanoseconds apart; each is granted in the end. -/
  | spaced (interval : Nat)
  | counted (left : Nat)
  deriving DecidableEq, Repr

namespace PermitSource

/-- Nanoseconds between permits at a rate per second, which counts as one if it is zero. -/
def interval (perSecond : Nat) : Nat :=
  1000000000 / max perSecond 1

/-- The source for a configured rate, where zero means no limit. -/
def ofRate (perSecond : Nat) : PermitSource :=
  if perSecond = 0 then .unlimited else .spaced (interval perSecond)

def acquire : PermitSource → Option PermitSource
  | unlimited => some unlimited
  | spaced interval => some (spaced interval)
  | counted 0 => none
  | counted (left + 1) => some (counted left)

def grant : PermitSource → PermitSource
  | counted left => counted (left + 1)
  | source => source

end PermitSource

end LedgerStore
