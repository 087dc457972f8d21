import Mathlib.Data.List.Infix
import Mathlib.Data.Prod.Lex
import LedgerStore.Proofs.Digits
import LedgerStore.Proofs.Index
import LedgerStore.Proofs.Record.RoundTrip

set_option autoImplicit false

namespace LedgerStore

namespace Bytes

theorem bigEndian_word_lt_iff (a b : UInt64) :
    bigEndian 8 a.toNat < bigEndian 8 b.toNat ↔ a.toNat < b.toNat :=
  positional_bigEndian.lt_iff a.toNat_lt b.toNat_lt

theorem bigEndian_word_inj (a b : UInt64) :
    bigEndian 8 a.toNat = bigEndian 8 b.toNat ↔ a.toNat = b.toNat :=
  positional_bigEndian.inj a.toNat_lt b.toNat_lt

end Bytes

namespace Key

/-- The two words of a key, read without a sign. Such pairs are ordered by their first parts. -/
def unsigned (k : Key) : Nat ×ₗ Nat :=
  toLex (k.ledger.toUInt64.toNat, k.entry.toUInt64.toNat)

theorem bytes_lt_iff (a b : Key) : a.bytes < b.bytes ↔ a.unsigned < b.unsigned := by
  rw [bytes, bytes, Bytes.append_lt_append_iff (by simp), Bytes.bigEndian_word_lt_iff,
    Bytes.bigEndian_word_lt_iff, Bytes.bigEndian_word_inj, unsigned, unsigned,
    Prod.Lex.toLex_lt_toLex]

theorem bytes_le_iff (a b : Key) : a.bytes ≤ b.bytes ↔ a.unsigned ≤ b.unsigned := by
  rw [← List.not_lt, bytes_lt_iff, not_lt]

theorem bytes_inj {a b : Key} : a.bytes = b.bytes ↔ a = b := by
  constructor
  · intro h
    have ha := ofBytes?_append a []
    rw [h, ofBytes?_append b []] at ha
    exact (Option.some.inj ha).symm
  · rintro rfl
    rfl

theorem unsigned_word_inj {x y : Int64} : x.toUInt64.toNat = y.toUInt64.toNat ↔ x = y := by
  constructor
  · intro h
    have hback := congrArg UInt64.toInt64 (UInt64.toNat_inj.1 h)
    rwa [Int64.toInt64_toUInt64, Int64.toInt64_toUInt64] at hback
  · rintro rfl
    rfl

theorem unsigned_inj {a b : Key} : a.unsigned = b.unsigned ↔ a = b := by
  obtain ⟨al, ae⟩ := a
  obtain ⟨bl, be⟩ := b
  simp [unsigned, unsigned_word_inj]

def NonNegative (k : Key) : Prop :=
  0 ≤ k.ledger ∧ 0 ≤ k.entry

instance (k : Key) : Decidable k.NonNegative :=
  inferInstanceAs (Decidable (_ ∧ _))

theorem unsigned_word_lt_iff {x y : Int64} (hx : 0 ≤ x) (hy : 0 ≤ y) :
    x.toUInt64.toNat < y.toUInt64.toNat ↔ x < y := by
  have hx' := Int64.le_iff_toInt_le.1 hx
  have hy' := Int64.le_iff_toInt_le.1 hy
  rw [Int64.toInt_zero] at hx' hy'
  rw [Int64.toNat_toUInt64_of_le hx, Int64.toNat_toUInt64_of_le hy, ← Int64.toNat_toInt,
    ← Int64.toNat_toInt, Int64.lt_iff_toInt_lt]
  omega

theorem unsigned_lt_iff {a b : Key} (ha : a.NonNegative) (hb : b.NonNegative) :
    a.unsigned < b.unsigned ↔ a < b := by
  rw [unsigned, unsigned, Prod.Lex.toLex_lt_toLex, lt_def, unsigned_word_inj,
    unsigned_word_lt_iff ha.1 hb.1, unsigned_word_lt_iff ha.2 hb.2]

/-! Sorting. Both orders are linear, so that a list can be arranged in one way only. -/

theorem le_iff {a b : Key} : le a b = true ↔ ¬ b < a := by
  have htotal := lt_or_eq_or_gt a b
  have hasymm : a < b → ¬ b < a := lt_asymm
  have hirrefl : a = b → ¬ b < a := fun h => not_lt_of_eq h.symm
  rw [le, Bool.or_eq_true, decide_eq_true_eq, decide_eq_true_eq]
  tauto

theorem not_lt_trans {a b c : Key} (hab : ¬ b < a) (hbc : ¬ c < b) : ¬ c < a := by
  intro hca
  rcases lt_or_eq_or_gt b c with hlt | rfl | hgt
  · exact hab (lt_trans hlt hca)
  · exact hab hca
  · exact hbc hgt

theorem not_lt_total (a b : Key) : ¬ b < a ∨ ¬ a < b :=
  or_not_of_imp fun h => lt_asymm h

theorem not_lt_antisymm {a b : Key} (hab : ¬ b < a) (hba : ¬ a < b) : a = b := by
  rcases lt_or_eq_or_gt a b with hlt | heq | hgt
  · exact absurd hlt hba
  · exact heq
  · exact absurd hgt hab

structure Arranges (before : Key → Key → Prop) (ks out : List Key) : Prop where
  same : out.Perm ks
  ordered : out.Pairwise before

theorem arranges_sorted (ks : List Key) : Arranges (fun a b => ¬ b < a) ks (sorted ks) where
  same := List.mergeSort_perm _ _
  ordered := by
    have htrans : ∀ a b c, le a b = true → le b c = true → le a c = true := by
      simp only [le_iff]
      exact fun _ _ _ => not_lt_trans
    have htotal : ∀ a b, (le a b || le b a) = true := by
      simp only [Bool.or_eq_true, le_iff]
      exact not_lt_total
    exact (List.pairwise_mergeSort htrans htotal ks).imp le_iff.1

theorem arranges_sortedByBytes (ks : List Key) :
    Arranges (fun a b => a.bytes ≤ b.bytes) ks (sortedByBytes ks) where
  same := List.mergeSort_perm _ _
  ordered := by
    refine (List.pairwise_mergeSort (fun a b c => ?_) (fun a b => ?_) ks).imp of_decide_eq_true
    · simp only [decide_eq_true_eq, bytes_le_iff]
      exact le_trans
    · simp only [Bool.or_eq_true, decide_eq_true_eq, bytes_le_iff]
      exact le_total _ _

/-- Without negative words there is one arrangement for both orders. -/
theorem Arranges.eq {ks out out' : List Key} (h : ∀ k ∈ ks, k.NonNegative)
    (hbytes : Arranges (fun a b => a.bytes ≤ b.bytes) ks out)
    (hkeys : Arranges (fun a b => ¬ b < a) ks out') : out = out' := by
  have hmem : ∀ k ∈ out, k.NonNegative := fun k hk => h k (hbytes.same.mem_iff.1 hk)
  have hordered : out.Pairwise fun a b => ¬ b < a := by
    refine hbytes.ordered.imp_of_mem fun {a b} ha hb hle => ?_
    rwa [← unsigned_lt_iff (hmem b hb) (hmem a ha), not_lt, ← bytes_le_iff]
  exact List.Perm.eq_of_pairwise (fun _ _ _ _ => not_lt_antisymm) hordered hkeys.ordered
    (hbytes.same.trans hkeys.same.symm)

/-- The keys of a ledger stand side by side. -/
def Grouped (ks : List Key) : Prop :=
  ∀ ledger, (ks.filter fun k => k.ledger = ledger) <:+: ks

theorem unsigned_ledger_le {a b : Key} (h : a.bytes ≤ b.bytes) :
    a.ledger.toUInt64.toNat ≤ b.ledger.toUInt64.toNat := by
  rw [bytes_le_iff, unsigned, unsigned, Prod.Lex.toLex_le_toLex] at h
  rcases h with hlt | ⟨heq, -⟩
  · exact Nat.le_of_lt hlt
  · exact Nat.le_of_eq heq

theorem filter_begins {ks : List Key} (h : ks.Pairwise fun a b => a.bytes ≤ b.bytes) {ledger : Int64}
    (hle : ∀ k ∈ ks, ledger.toUInt64.toNat ≤ k.ledger.toUInt64.toNat) :
    (ks.filter fun k => k.ledger = ledger) <+: ks := by
  induction ks with
  | nil => exact List.prefix_rfl
  | cons k ks ih =>
    obtain ⟨hfirst, hrest⟩ := List.pairwise_cons.1 h
    by_cases hk : k.ledger = ledger
    · rw [List.filter_cons_of_pos (by simpa using hk), List.prefix_cons_inj]
      exact ih hrest fun other hother => hle other (List.mem_cons_of_mem _ hother)
    · have hnone : (k :: ks).filter (fun k => k.ledger = ledger) = [] := by
        rw [List.filter_eq_nil_iff]
        intro other hother
        have hfar : k.ledger.toUInt64.toNat ≤ other.ledger.toUInt64.toNat := by
          rcases List.mem_cons.1 hother with rfl | hother
          · exact Nat.le_refl _
          · exact unsigned_ledger_le (hfirst other hother)
        have hlow := hle k List.mem_cons_self
        have hne := mt unsigned_word_inj.1 hk
        rw [decide_eq_true_eq, ← unsigned_word_inj]
        omega
      rw [hnone]
      exact List.nil_prefix

theorem grouped_of_ordered {ks : List Key} (h : ks.Pairwise fun a b => a.bytes ≤ b.bytes) :
    Grouped ks := by
  intro ledger
  induction ks with
  | nil => exact List.infix_rfl
  | cons k ks ih =>
    obtain ⟨hfirst, hrest⟩ := List.pairwise_cons.1 h
    by_cases hk : k.ledger = ledger
    · refine (filter_begins h fun other hother => ?_).isInfix
      rcases List.mem_cons.1 hother with rfl | hother
      · rw [hk]
      · exact hk ▸ unsigned_ledger_le (hfirst other hother)
    · rw [List.filter_cons_of_neg (by simpa using hk)]
      exact (ih hrest).trans (List.suffix_cons k ks).isInfix

theorem ofBytes?_eq_none {bs : Bytes} : ofBytes? bs = none ↔ bs.length < 16 := by
  by_cases h : bs.length < width
  · exact iff_of_true (if_pos h) h
  · rw [ofBytes?, if_neg h]
    exact iff_of_false (Option.some_ne_none _) h

/-- Stored keys sort as the pairs of their words do, read without a sign. Without negative words this
is the order of keys, and both orders arrange every list in the same way; any list in the order of
stored forms keeps the keys of each ledger together. A key is read back from its stored form,
whatever follows it, and nothing is read from less than sixteen bytes. -/
theorem byte_order :
    (∀ a b : Key, (a.bytes < b.bytes ↔ a.unsigned < b.unsigned) ∧
      (a.bytes = b.bytes ↔ a.unsigned = b.unsigned)) ∧
    (∀ a b : Key, a.NonNegative → b.NonNegative → (a.bytes < b.bytes ↔ a < b)) ∧
    (∀ ks : List Key, Arranges (fun a b => a.bytes ≤ b.bytes) ks (sortedByBytes ks) ∧
      Arranges (fun a b => ¬ b < a) ks (sorted ks) ∧
      ((∀ k ∈ ks, k.NonNegative) → sortedByBytes ks = sorted ks) ∧
      ∀ out, Arranges (fun a b => a.bytes ≤ b.bytes) ks out → Grouped out) ∧
    (∀ (k : Key) (rest : Bytes), ofBytes? (k.bytes ++ rest) = some k) ∧
    ∀ bs : Bytes, ofBytes? bs = none ↔ bs.length < 16 := by
  refine ⟨fun a b => ⟨bytes_lt_iff a b, ?_⟩, fun a b ha hb => ?_, fun ks => ?_, ofBytes?_append,
    fun bs => ofBytes?_eq_none⟩
  · rw [bytes_inj, unsigned_inj]
  · rw [bytes_lt_iff, unsigned_lt_iff ha hb]
  · have hbytes := arranges_sortedByBytes ks
    have hkeys := arranges_sorted ks
    exact ⟨hbytes, hkeys, fun h => Arranges.eq h hbytes hkeys,
      fun out hout => grouped_of_ordered hout.ordered⟩

theorem byte_order_small :
    let ks : List Key := [⟨300, 7⟩, ⟨1, 256⟩, ⟨2, 0⟩, ⟨1, 1⟩]
    ((⟨1, 1⟩ : Key).bytes < (⟨1, 256⟩ : Key).bytes ↔ (⟨1, 1⟩ : Key) < ⟨1, 256⟩) ∧
      sortedByBytes ks = sorted ks ∧
      Grouped (sortedByBytes [⟨1, -1⟩, ⟨-2, 3⟩, ⟨1, 0⟩, ⟨-2, -2⟩]) := by
  intro ks
  have hks : ∀ k ∈ ks, k.NonNegative := by decide
  obtain ⟨-, hpairs, hlists, -, -⟩ := byte_order
  obtain ⟨-, -, hsame, -⟩ := hlists ks
  obtain ⟨hbytes, -, -, hgrouped⟩ := hlists [⟨1, -1⟩, ⟨-2, 3⟩, ⟨1, 0⟩, ⟨-2, -2⟩]
  exact ⟨hpairs _ _ (by decide) (by decide), hsame hks, hgrouped _ hbytes⟩

/-- A negative entry number comes last in the order of stored forms and first in that of keys. -/
example : (⟨1, 0⟩ : Key).bytes < (⟨1, -1⟩ : Key).bytes ∧ (⟨1, -1⟩ : Key) < ⟨1, 0⟩ := by decide

end Key

end LedgerStore
