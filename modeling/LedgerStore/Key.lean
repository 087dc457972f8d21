import LedgerStore.Bytes

/-!
Keys of entries: a ledger and an entry number in it, both signed 64-bit words, ordered by ledger
and then by entry. A key is stored as sixteen bytes, both words most significant byte first.
-/

set_option autoImplicit false

namespace LedgerStore

structure Key where
  ledger : Int64
  entry : Int64
  deriving DecidableEq, Repr

namespace Key

def width : Nat := 16

instance : LT Key :=
  ⟨fun a b => a.ledger < b.ledger ∨ (a.ledger = b.ledger ∧ a.entry < b.entry)⟩

theorem lt_def (a b : Key) :
    a < b ↔ a.ledger < b.ledger ∨ (a.ledger = b.ledger ∧ a.entry < b.entry) := Iff.rfl

instance (a b : Key) : Decidable (a < b) :=
  inferInstanceAs (Decidable (_ ∨ _))

theorem lt_irrefl (a : Key) : ¬ a < a := by
  rw [lt_def]
  rintro (h | ⟨_, h⟩) <;> exact Int64.lt_irrefl h

theorem lt_trans {a b c : Key} (hab : a < b) (hbc : b < c) : a < c := by
  rw [lt_def] at *
  rcases hab with h | ⟨h, h2⟩
  · rcases hbc with g | ⟨g, _⟩
    · exact Or.inl (Int64.lt_trans h g)
    · exact Or.inl (g ▸ h)
  · rcases hbc with g | ⟨g, g2⟩
    · exact Or.inl (h ▸ g)
    · exact Or.inr ⟨h.trans g, Int64.lt_trans h2 g2⟩

theorem lt_or_eq_or_gt (a b : Key) : a < b ∨ a = b ∨ b < a := by
  obtain ⟨al, ae⟩ := a
  obtain ⟨bl, be⟩ := b
  simp only [lt_def, Key.mk.injEq, Int64.lt_iff_toInt_lt, ← Int64.toInt_inj]
  omega

def le (a b : Key) : Bool :=
  decide (a < b) || decide (a = b)

def bytes (k : Key) : Bytes :=
  Bytes.bigEndian 8 k.ledger.toUInt64.toNat ++ Bytes.bigEndian 8 k.entry.toUInt64.toNat

@[simp] theorem length_bytes (k : Key) : k.bytes.length = width := by
  simp [bytes, width]

/-- The signed word whose bits are the first eight bytes. -/
def word (bs : Bytes) : Int64 :=
  (UInt64.ofNat (Bytes.valueBE (bs.take 8))).toInt64

def ofBytes? (bs : Bytes) : Option Key :=
  if bs.length < width then none
  else some ⟨word bs, word (bs.drop 8)⟩

def sorted (ks : List Key) : List Key :=
  ks.mergeSort le

def sortedByBytes (ks : List Key) : List Key :=
  ks.mergeSort fun a b => decide (a.bytes ≤ b.bytes)

def text (k : Key) : String :=
  s!"({k.ledger.toInt}, {k.entry.toInt})"

end Key

end LedgerStore
