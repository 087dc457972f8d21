import Mathlib.Data.Nat.Init
import LedgerStore.Proofs.Record.RoundTrip

/-!
Places where a scan finds no record. It goes on behind their first byte, so that a stretch of such
places is read as if it were not there; the main statement is about a stretch that begins with at
most one record and holds no other.
-/

set_option autoImplicit false

namespace LedgerStore.Record

def declared (bs : Bytes) : Nat :=
  Header.width + (Header.ofBytes bs).length.toNat

/-- At the beginning of the bytes the scan finds no record, neither a whole nor a torn one. -/
inductive Skipped (bs : Bytes) : Prop
  | short (few : bs.length < Header.width)
  | unmarked (other : bs.take magic.length ≠ magic)
  | defective (whole : declared bs ≤ bs.length) (defect : Defect)
      (found : decode (bs.take (declared bs)) = .error defect)

theorem scan_nil_of_short {bs : Bytes} (h : bs.length < Header.width) : scan bs = [] := by
  have hshort : (bs.take Header.width).length < Header.width := by
    rw [List.length_take]
    omega
  rw [scan, findings, dif_pos hshort]
  rfl

theorem findings_of_width {bs : Bytes} (h : Header.width ≤ bs.length) (offset : Nat) :
    findings offset bs =
      if bs.take magic.length ≠ magic then
        .badMagic offset :: findings (seek (offset + 1) bs.tail).1 (seek (offset + 1) bs.tail).2
      else if bs.length < declared bs then [.torn offset (declared bs) bs.length]
      else
        match decode (bs.take (declared bs)) with
        | .ok r => .record offset r :: findings (offset + declared bs) (bs.drop (declared bs))
        | .error defect => .corrupt offset defect ::
            findings (seek (offset + 1) bs.tail).1 (seek (offset + 1) bs.tail).2 := by
  have hroom : ¬ (bs.take Header.width).length < Header.width := by
    rw [List.length_take]
    omega
  have hneed : (bs.take (declared bs)).length < declared bs ↔ bs.length < declared bs := by
    rw [List.length_take]
    omega
  rw [findings, dif_neg hroom]
  dsimp only
  rw [← declared]
  by_cases hlen : bs.length < declared bs
  · rw [if_pos (hneed.2 hlen), if_pos hlen]
  · have hwhole := mt hneed.1 hlen
    cases decode (bs.take (declared bs)) with
    | ok r => rw [if_neg hwhole, if_neg hlen]
    | error defect => rw [if_neg hwhole, if_neg hlen]

theorem scan_of_width {bs : Bytes} (h : Header.width ≤ bs.length) :
    scan bs =
      if bs.take magic.length ≠ magic then scan (seek 1 bs.tail).2
      else if bs.length < declared bs then []
      else
        match decode (bs.take (declared bs)) with
        | .ok r => r :: scan (bs.drop (declared bs))
        | .error _ => scan (seek 1 bs.tail).2 := by
  rw [scan, findings_of_width h]
  split
  · exact filterMap_findings _ _
  split
  · rfl
  · cases decode (bs.take (declared bs)) with
    | ok r => exact congrArg (r :: ·) (filterMap_findings _ _)
    | error defect => exact filterMap_findings _ _

theorem isPrefixOf_magic {bs : Bytes} : magic.isPrefixOf bs = true ↔ bs.take magic.length = magic := by
  rw [List.isPrefixOf_iff_prefix, List.prefix_iff_eq_take, eq_comm]

/-- Going on to the next magic loses no record. -/
theorem scan_seek (offset : Nat) (bs : Bytes) : scan (seek offset bs).2 = scan bs := by
  induction bs generalizing offset with
  | nil => rfl
  | cons b bs ih =>
    rw [seek]
    split
    · rfl
    next hmark =>
      rw [isPrefixOf_magic] at hmark
      rw [ih]
      by_cases hlen : Header.width ≤ (b :: bs).length
      · rw [scan_of_width hlen, if_pos hmark, List.tail_cons, ih]
      · have hshort : bs.length < Header.width := by
          rw [List.length_cons] at hlen
          omega
        rw [scan_nil_of_short hshort, scan_nil_of_short (by omega)]

theorem Skipped.scan_tail {bs : Bytes} (h : Skipped bs) : scan bs.tail = scan bs := by
  by_cases hlen : Header.width ≤ bs.length
  · rw [scan_of_width hlen, scan_seek]
    cases h with
    | short few => omega
    | unmarked other => rw [if_pos other]
    | defective whole defect found =>
      have hwhole : ¬ bs.length < declared bs := by omega
      rw [if_neg hwhole, found, ite_self]
  · have hshort : bs.tail.length < Header.width := by
      rw [List.length_tail]
      omega
    rw [scan_nil_of_short hshort, scan_nil_of_short (by omega)]

/-- A scan reads on behind a stretch in which it finds nothing. -/
theorem scan_drop {bs : Bytes} {m n : Nat} (hmn : m ≤ n)
    (h : ∀ k, m ≤ k → k < n → Skipped (bs.drop k)) : scan (bs.drop n) = scan (bs.drop m) := by
  induction n, hmn using Nat.le_induction with
  | base => rfl
  | succ n hmn ih =>
    rw [← List.tail_drop, (h n hmn (Nat.lt_succ_self n)).scan_tail]
    exact ih fun k hk hlt => h k hk (Nat.lt_succ_of_lt hlt)

theorem scan_drop_unmarked {bs : Bytes} {n : Nat}
    (h : ∀ k < n, (bs.drop k).take magic.length ≠ magic) : scan (bs.drop n) = scan bs :=
  scan_drop (Nat.zero_le n) fun k _ hk => .unmarked (h k hk)

/-- No magic that stands in part before the bytes ends in them: they begin as a magic does. -/
def Begins (bs : Bytes) : Prop :=
  ∀ b ∈ bs.head?, b = 0x42

theorem begins_written (rs : List Record) : Begins (written rs) := by
  cases rs with
  | nil => simp [Begins]
  | cons r rs => simp [Begins, bytes, Header.bytes, header, magic]

theorem Begins.of_append {bs rest : Bytes} (h : Begins (bs ++ rest)) : Begins bs := by
  cases bs with
  | nil => simp [Begins]
  | cons b bs => exact h

theorem take_magic_append {bs back : Bytes} (hne : bs ≠ []) (hno : ¬ magic <+: bs)
    (hback : Begins back) : (bs ++ back).take magic.length ≠ magic := by
  intro heq
  have hpos := List.length_pos_iff.2 hne
  have hmark : magic <+: bs ++ back := List.prefix_iff_eq_take.2 heq.symm
  by_cases hlen : magic.length ≤ bs.length
  · exact hno (List.prefix_of_prefix_length_le hmark (List.prefix_append _ _) hlen)
  · have hget : back.head? = magic[bs.length]? := by
      have := congrArg (fun l : Bytes => l[bs.length]?) heq
      rwa [List.getElem?_take_of_lt (by omega), List.getElem?_append_right (Nat.le_refl _),
        Nat.sub_self, ← List.head?_eq_getElem?] at this
    have hlater : ∀ n < magic.length, 0 < n → ∃ b ∈ magic[n]?, b ≠ 0x42 := by decide
    obtain ⟨b, hb, hother⟩ := hlater bs.length (by omega) hpos
    exact hother (hback b (by rwa [hget]))

theorem scan_gap {gap back : Bytes} (clean : ¬ magic <:+: gap) (hback : Begins back) :
    scan (gap ++ back) = scan back := by
  have hskip : scan ((gap ++ back).drop gap.length) = scan (gap ++ back) := by
    refine scan_drop_unmarked fun k hk => ?_
    rw [List.drop_append_of_le_length (Nat.le_of_lt hk)]
    refine take_magic_append (by simp; omega) (fun hmark => clean ?_) hback
    exact hmark.isInfix.trans (List.drop_suffix k gap).isInfix
  rw [List.drop_left] at hskip
  exact hskip.symm

structure Contained (bs back : Bytes) : Prop where
  start : declared bs ≤ bs.length ∨ Skipped (bs ++ back)
  /-- Behind the first byte there is no record, neither a whole nor a torn one. -/
  inside : ∀ k, 0 < k → k < bs.length → Skipped (bs.drop k ++ back)

theorem declared_append {bs : Bytes} (h : Header.width ≤ bs.length) (back : Bytes) :
    declared (bs ++ back) = declared bs := by
  rw [Header.width] at h
  have hdrop : ∀ n ≤ 8, (bs ++ back).drop n = bs.drop n ++ back := fun n hn =>
    List.drop_append_of_le_length (by omega)
  have htake : ∀ n ≤ 8, (bs.drop n ++ back).take 4 = (bs.drop n).take 4 := fun n hn =>
    List.take_append_of_le_length (by rw [List.length_drop]; omega)
  have hfirst : (bs ++ back).take 4 = bs.take 4 := htake 0 (by omega)
  rw [declared, declared, Header.ofBytes, Header.ofBytes, hfirst, hdrop 4 (by omega), hdrop 8 (by omega),
    htake 4 (by omega), htake 8 (by omega)]

theorem scan_contained {bs back : Bytes} (hlen : Header.width ≤ bs.length)
    (h : Contained bs back) : ∃ x : List Record, x.length ≤ 1 ∧ (Skipped (bs ++ back) → x = []) ∧
      scan (bs ++ back) = x ++ scan back := by
  have hpast : (bs ++ back).drop bs.length = back := List.drop_left
  have hinside : ∀ k, 0 < k → k < bs.length → Skipped ((bs ++ back).drop k) := by
    intro k hk hlt
    rw [List.drop_append_of_le_length (Nat.le_of_lt hlt)]
    exact h.inside k hk hlt
  by_cases hstart : Skipped (bs ++ back)
  · refine ⟨[], Nat.zero_le 1, fun _ => rfl, ?_⟩
    have hskip : scan ((bs ++ back).drop bs.length) = scan (bs ++ back) := by
      refine scan_drop (Nat.zero_le bs.length) fun k _ hlt => ?_
      rcases Nat.eq_zero_or_pos k with rfl | hk
      · exact hstart
      · exact hinside k hk hlt
    rw [hpast] at hskip
    exact hskip.symm
  · have hdeclared : declared bs ≤ bs.length := h.start.resolve_right hstart
    have hwhole := declared_append hlen back
    have hlong : (bs ++ back).length = bs.length + back.length := List.length_append
    have hmark : (bs ++ back).take magic.length = magic :=
      Decidable.byContradiction fun hne => hstart (.unmarked hne)
    cases hread : decode ((bs ++ back).take (declared (bs ++ back))) with
    | error defect => exact absurd (.defective (by omega) defect hread) hstart
    | ok q =>
      have hrest : scan ((bs ++ back).drop (declared bs)) = scan back := by
        rw [← scan_drop hdeclared fun k hk hlt => hinside k ?_ hlt, hpast]
        have : 0 < declared bs := by rw [declared, Header.width]; omega
        omega
      refine ⟨[q], Nat.le_refl 1, fun h => absurd h hstart, ?_⟩
      rw [scan_of_width (by omega), if_neg (not_not_intro hmark), if_neg (by omega), hread]
      dsimp only
      rw [hwhole, hrest]
      rfl

end LedgerStore.Record
