import LedgerStore.Bytes

/-!
The cyclic redundancy check CRC-32C: the generator polynomial with its bits reversed, the register
preset to ones and complemented at the end.
-/

set_option autoImplicit false

namespace LedgerStore.Checksum

def polynomial : UInt32 := 0x82F63B78

def shift (r : UInt32) : UInt32 :=
  if r &&& 1 = 1 then (r >>> 1) ^^^ polynomial else r >>> 1

def shifts : Nat → UInt32 → UInt32
  | 0, r => r
  | n + 1, r => shifts n (shift r)

def step (r : UInt32) (b : UInt8) : UInt32 :=
  shifts 8 (r ^^^ b.toUInt32)

def register (bs : Bytes) : UInt32 :=
  bs.foldl step 0xFFFFFFFF

def crc32c (bs : Bytes) : UInt32 :=
  register bs ^^^ 0xFFFFFFFF

end LedgerStore.Checksum
