import LedgerStore.Journal
import LedgerStore.Proofs.Record.Skipping

/-!
Records strewn over other bytes. Where these hold no magic, a scan finds the records and nothing
else, and a cut costs the records that it meets or lets go. The main statement is that the reading
of a file takes it apart at its records.
-/

set_option autoImplicit false

namespace LedgerStore.Record

/-- A record and the other bytes that stand before it. -/
structure Piece where
  gap : Bytes
  record : Record
  deriving DecidableEq, Repr

namespace Piece

def bytes (p : Piece) : Bytes :=
  p.gap ++ p.record.bytes

structure Sound (p : Piece) : Prop where
  clean : ¬ magic <:+: p.gap
  fits : p.record.Fits

theorem Sound.scan_append {p : Piece} (sound : p.Sound) (rest : Bytes) :
    scan (p.bytes ++ rest) = p.record :: scan rest := by
  have hbegins : Begins (p.record.bytes ++ rest) := by
    simp [Begins, Record.bytes, Header.bytes, header, magic]
  rw [bytes, List.append_assoc, scan_gap sound.clean hbegins, Record.scan_append sound.fits]

end Piece

def strewn (ps : List Piece) : Bytes :=
  ps.flatMap Piece.bytes

@[simp] theorem strewn_nil : strewn [] = [] := rfl

@[simp] theorem strewn_cons (p : Piece) (ps : List Piece) :
    strewn (p :: ps) = p.bytes ++ strewn ps := rfl

theorem scan_strewn_append {ps : List Piece} (sound : ∀ p ∈ ps, p.Sound) (rest : Bytes) :
    scan (strewn ps ++ rest) = ps.map Piece.record ++ scan rest := by
  induction ps with
  | nil => rfl
  | cons p ps ih =>
    have hrest := ih fun q hq => sound q (List.mem_cons_of_mem p hq)
    rw [strewn_cons, List.append_assoc, (sound p List.mem_cons_self).scan_append, hrest]
    rfl

/-- Bytes that end before a record is whole: none of the gap before it is a magic. -/
def Broken (bs : Bytes) : Prop :=
  ∃ gap part : Bytes, ¬ magic <:+: gap ∧ Torn part ∧ bs = gap ++ part

theorem broken_of_clean {gap : Bytes} (clean : ¬ magic <:+: gap) : Broken gap :=
  ⟨gap, [], clean, torn_nil, (List.append_nil gap).symm⟩

theorem Torn.begins {bs : Bytes} (torn : Torn bs) : Begins bs := by
  obtain ⟨r, -, rest, -, heq⟩ := torn
  have h := begins_written [r]
  rw [written_cons, heq, List.append_assoc] at h
  exact h.of_append

theorem scan_broken {bs : Bytes} (broken : Broken bs) : scan bs = [] := by
  obtain ⟨gap, part, clean, torn, rfl⟩ := broken
  rw [scan_gap clean torn.begins, scan_torn torn]

theorem torn_of_part {r : Record} (fits : r.Fits) {bs : Bytes} (h : bs <+: r.bytes)
    (hne : bs ≠ r.bytes) : Torn bs := by
  obtain ⟨rest, heq⟩ := h
  refine ⟨r, fits, rest, ?_, heq.symm⟩
  intro hrest
  rw [hrest, List.append_nil] at heq
  exact hne heq

theorem Piece.Sound.broken_take {p : Piece} (sound : p.Sound) {k : Nat} (hk : k < p.bytes.length) :
    Broken (p.bytes.take k) := by
  rw [Piece.bytes, List.length_append] at hk
  rw [Piece.bytes, List.take_append]
  have hclean : ¬ magic <:+: p.gap.take k := fun h =>
    sound.clean (h.trans (List.take_prefix k p.gap).isInfix)
  refine ⟨_, _, hclean, torn_of_part sound.fits (List.take_prefix _ _) ?_, rfl⟩
  intro heq
  have hlen := congrArg List.length heq
  have hpos := List.length_pos_iff.2 (bytes_ne_nil p.record)
  simp at hlen; omega

/-- A cut leaves the pieces that lie wholly before it and less than one more record. -/
theorem take_strewn {ps : List Piece} {tail : Bytes} (sound : ∀ p ∈ ps, p.Sound)
    (clean : ¬ magic <:+: tail) (k : Nat) :
    ∃ m ≤ ps.length, (∃ rest, Broken rest ∧
        (strewn ps ++ tail).take k = strewn (ps.take m) ++ rest) ∧
      ∀ n ≤ ps.length, (strewn (ps.take n)).length ≤ k ↔ n ≤ m := by
  induction ps generalizing k with
  | nil =>
    have hclean : ¬ magic <:+: tail.take k := fun h =>
      clean (h.trans (List.take_prefix k tail).isInfix)
    exact ⟨0, Nat.le_refl 0, ⟨_, broken_of_clean hclean, rfl⟩, by simp⟩
  | cons p ps ih =>
    have hp := sound p List.mem_cons_self
    by_cases hk : p.bytes.length ≤ k
    · obtain ⟨m, hm, ⟨rest, hrest, heq⟩, hwhole⟩ :=
        ih (fun q hq => sound q (List.mem_cons_of_mem p hq)) (k - p.bytes.length)
      refine ⟨m + 1, Nat.succ_le_succ hm, ⟨rest, hrest, ?_⟩, ?_⟩
      · rw [strewn_cons, List.append_assoc, List.take_append, List.take_of_length_le hk, heq]
        simp
      · intro n hn
        cases n with
        | zero => simp
        | succ n =>
          have hn := hwhole n (by simpa using hn)
          simp only [List.take_succ_cons, strewn_cons, List.length_append]
          omega
    · refine ⟨0, Nat.zero_le _, ⟨_, hp.broken_take (Nat.lt_of_not_le hk), ?_⟩, ?_⟩
      · rw [strewn_cons, List.append_assoc, List.take_append_of_le_length (by omega)]
        rfl
      · intro n hn
        cases n with
        | zero => simp
        | succ n => simp; omega

theorem readFile_eq {h : Host} {path : Path} {bs : Bytes} (hfault : h.fault = .clear)
    (hread : h.disk.read path = .ok bs) :
    ∃ h', readFile path h = .ok (scan bs) h' ∧ h'.disk = h.disk := by
  have hlines : ∀ (lines : List LogLine) (g : Host), (lines.foldl Host.note g).disk = g.disk := by
    intro lines
    induction lines with
    | nil => simp
    | cons line lines ih => simp [ih, Host.note]
  have hbytes : (Host.read path).during path "failed to read journal file" h = .ok bs h.spent := by
    simp [Call.during, Host.read, Host.ask, Host.atomic, Host.call, hfault, hread, Except.map,
      Host.spent]
  unfold readFile
  simp only [bind, EStateM.bind, hbytes]
  exact ⟨_, rfl, hlines _ _⟩

structure Compositional (read : Bytes → List Record) : Prop where
  file : ∀ (h : Host) (path : Path) (bs : Bytes), h.fault = .clear → h.disk.read path = .ok bs →
    ∃ h', readFile path h = .ok (read bs) h' ∧ h'.disk = h.disk
  front : ∀ (gap : Bytes) (rs : List Record) (rest : Bytes), ¬ magic <:+: gap → rs ≠ [] →
    (∀ r ∈ rs, r.Fits) → read (gap ++ (written rs ++ rest)) = rs ++ read rest
  part : ∀ (r : Record) (bs : Bytes), r.Fits → bs <+: r.bytes → bs ≠ r.bytes → read bs = []
  cut : ∀ (ps : List Piece) (tail : Bytes) (k : Nat), (∀ p ∈ ps, p.Sound) → ¬ magic <:+: tail →
    ∃ m ≤ ps.length, read ((strewn ps ++ tail).take k) = (ps.take m).map Piece.record ∧
      ∀ n ≤ ps.length, (strewn (ps.take n)).length ≤ k ↔ n ≤ m
  garbage : ∀ (ps : List Piece) (tail : Bytes), (∀ p ∈ ps, p.Sound) → ¬ magic <:+: tail →
    read (strewn ps ++ tail) = ps.map Piece.record

theorem scan_compositional : Compositional scan where
  file _ _ _ := readFile_eq
  front gap rs rest clean hne fits := by
    have hbegins : Begins (written rs ++ rest) := by
      cases rs with
      | nil => exact absurd rfl hne
      | cons r rs => simp [Begins, bytes, Header.bytes, header, magic]
    rw [scan_gap clean hbegins, scan_written_append fits]
  part r bs fits hprefix hne := scan_torn (torn_of_part fits hprefix hne)
  cut ps tail k sound clean := by
    obtain ⟨m, hm, ⟨rest, broken, heq⟩, hwhole⟩ := take_strewn sound clean k
    have sound' : ∀ p ∈ ps.take m, p.Sound := fun p hp => sound p (List.mem_of_mem_take hp)
    refine ⟨m, hm, ?_, hwhole⟩
    rw [heq, scan_strewn_append sound', scan_broken broken, List.append_nil]
  garbage ps tail sound clean := by
    rw [scan_strewn_append sound, scan_broken (broken_of_clean clean), List.append_nil]

/-- A value holds a magic, and the bytes in front of the record end with a part of one. -/
theorem scan_compositional_marked :
    let r : Record := ⟨⟨1, 2⟩, magic ++ [7]⟩
    let p : Piece := ⟨[9, 0x42, 0x4B, 0x4A], r⟩
    scan (p.gap ++ (written [r, r] ++ magic)) = [r, r] ++ scan magic ∧
      (∃ m ≤ 2, scan ((strewn [p, p] ++ [0x42]).take 47) = ([p, p].take m).map Piece.record ∧
        ∀ n ≤ 2, (strewn ([p, p].take n)).length ≤ 47 ↔ n ≤ m) ∧
      scan (strewn [p, p] ++ [0x42]) = [r, r] := by
  intro r p
  have fits : r.Fits := .of_length (by decide)
  have sound : ∀ q ∈ [p, p], q.Sound := by
    simp only [List.forall_mem_cons]
    exact ⟨⟨by decide, fits⟩, ⟨by decide, fits⟩, by simp⟩
  exact ⟨scan_compositional.front p.gap [r, r] magic (by decide) (by simp) (by simpa using fits),
    scan_compositional.cut [p, p] [0x42] 47 sound (by decide),
    scan_compositional.garbage [p, p] [0x42] sound (by decide)⟩

end LedgerStore.Record
