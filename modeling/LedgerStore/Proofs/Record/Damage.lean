import LedgerStore.Proofs.Record.Burst

set_option autoImplicit false

namespace LedgerStore.Record

/-- The scan refuses a record in which one byte outside of its length is another. -/
theorem skipped_set {r : Record} (fits : r.Fits) {i : Nat} (hi : i < r.bytes.length) {b : UInt8}
    (hb : b ≠ r.bytes[i]) (hlength : i < 4 ∨ 8 ≤ i) (back : Bytes) :
    Skipped (r.bytes.set i b ++ back) := by
  have hown : declared (r.bytes.set i b) = (r.bytes.set i b).length :=
    declared_burst fits (Bytes.burst_set hi hb) (by omega)
  have hroom : Header.width ≤ (r.bytes.set i b).length := by
    rw [List.length_set, length_bytes]
    omega
  have hdeclared := (declared_append hroom back).trans hown
  cases hread : decode ((r.bytes.set i b ++ back).take (declared (r.bytes.set i b ++ back))) with
  | error defect =>
    refine .defective ?_ defect hread
    rw [hdeclared, List.length_append]
    omega
  | ok q =>
    have hq := (bytes_of_decode hread).2
    rw [hdeclared, List.take_left, ← declared, hown, List.take_length] at hq
    exact absurd hq.symm (bytes_set_ne hi hb)

theorem contained_of_unmarked {bs : Bytes} {rs : List Record} (h : ¬ magic <:+: bs.tail)
    (start : declared bs ≤ bs.length ∨ Skipped (bs ++ written rs)) : Contained bs (written rs) where
  start := start
  inside k hk hlt := by
    refine .unmarked (take_magic_append ?_ (fun hpre => h ?_) (begins_written rs))
    · rw [ne_eq, List.drop_eq_nil_iff]
      omega
    · obtain ⟨k, rfl⟩ := Nat.exists_eq_succ_of_ne_zero (Nat.ne_of_gt hk)
      rw [← List.drop_tail] at hpre
      exact hpre.isInfix.trans (List.drop_suffix k bs.tail).isInfix

/-- One damaged byte costs at most the record it lies in, where no bytes of that record pass for
another one. It can alter the record only if it is one of the four bytes of its length. -/
theorem scan_damaged {front back : List Record} {r : Record}
    (short : ∀ q ∈ front ++ r :: back, q.value.length < 2 ^ 31) {i : Nat} (hi : i < r.bytes.length)
    {b : UInt8} (hb : b ≠ r.bytes[i]) :
    scan ((written (front ++ r :: back)).set ((written front).length + i) b) =
        front ++ scan (r.bytes.set i b ++ written back) ∧
      (Contained (r.bytes.set i b) (written back) → ∃ x : List Record, x.length ≤ 1 ∧
        (i < 4 ∨ 8 ≤ i → x = []) ∧
        scan ((written (front ++ r :: back)).set ((written front).length + i) b) =
          front ++ x ++ back) := by
  have fits : ∀ q ∈ front ++ r :: back, q.Fits := fun q hq => .of_length (short q hq)
  have hfront : ∀ q ∈ front, q.Fits := fun q hq => fits q (List.mem_append_left _ hq)
  have hback : ∀ q ∈ back, q.Fits := fun q hq =>
    fits q (List.mem_append_right _ (List.mem_cons_of_mem _ hq))
  have hr : r.Fits := fits r (List.mem_append_right _ List.mem_cons_self)
  have hset : (written (front ++ r :: back)).set ((written front).length + i) b =
      written front ++ (r.bytes.set i b ++ written back) := by
    rw [written_append, written_cons, List.set_append_right _ _ (by omega), Nat.add_sub_cancel_left,
      List.set_append_left _ _ hi]
  have hscan := scan_written_append hfront (r.bytes.set i b ++ written back)
  rw [← hset] at hscan
  refine ⟨hscan, fun hcontained => ?_⟩
  have hwidth : Header.width ≤ (r.bytes.set i b).length := by
    rw [List.length_set, length_bytes]
    omega
  obtain ⟨x, hx, hskip, hrest⟩ := scan_contained hwidth hcontained
  refine ⟨x, hx, fun hlength => hskip (skipped_set hr hi hb hlength _), ?_⟩
  have hend := scan_written hback torn_nil
  rw [List.append_nil] at hend
  rw [hscan, hrest, hend, List.append_assoc]

theorem scan_damaged_value :
    let r : Record := ⟨⟨1, 1⟩, [2]⟩
    let back : List Record := [⟨⟨1, 2⟩, [3]⟩]
    Contained (r.bytes.set 32 9) (written back) ∧
      scan ((written (⟨⟨1, 0⟩, [1]⟩ :: r :: back)).set 65 9) = ⟨⟨1, 0⟩, [1]⟩ :: back := by
  intro r back
  have hcontained : Contained (r.bytes.set 32 9) (written back) :=
    contained_of_unmarked (by decide +kernel) (.inl (by decide +kernel))
  have hshort : ∀ q ∈ [⟨⟨1, 0⟩, [1]⟩] ++ r :: back, q.value.length < 2 ^ 31 := by decide
  obtain ⟨x, -, hnone, hscan⟩ := (scan_damaged hshort (i := 32) (by decide) (b := 9)
    (by decide +kernel)).2 hcontained
  rw [hnone (.inr (by decide))] at hscan
  exact ⟨hcontained, hscan⟩

/-- A length that became larger than the rest of the file makes the record a torn one. -/
theorem scan_longer :
    scan ((written [⟨⟨1, 0⟩, [1]⟩, ⟨⟨1, 1⟩, [2]⟩]).set 5 1) = [] := by
  rw [scan_of_width (by decide), if_neg (by decide), if_pos (by decide)]

/-- A value can hold the beginning of a record that is never complete. -/
theorem scan_half_inside :
    let r : Record := ⟨⟨1, 0⟩, magic ++ [255, 255, 255, 255, 0, 0, 0, 0, 0, 0, 0, 0]⟩
    scan ((written [r, ⟨⟨1, 1⟩, [2]⟩]).set 0 0) = [] := by
  intro r
  have hdrop : scan (((written [r, ⟨⟨1, 1⟩, [2]⟩]).set 0 0).drop 32) = _ :=
    scan_drop_unmarked (by decide +kernel)
  rw [← hdrop, scan_of_width (by decide), if_neg (by decide), if_pos (by decide)]

/-- A value can hold whole records. -/
theorem scan_whole_inside :
    let inside : List Record := [⟨⟨1, 1⟩, []⟩, ⟨⟨1, 2⟩, []⟩]
    scan ((written [⟨⟨1, 0⟩, written inside⟩]).set 0 0) = inside := by
  intro inside
  have hcheck : Checksum.crc32c (⟨⟨1, 0⟩, written inside⟩ : Record).payload = 1056980111 := by
    -- The register is taken on one record at a time: the kernel's recursion is as deep as the bytes.
    have h0 : (⟨1, 0⟩ : Key).bytes.foldl Checksum.step 0xFFFFFFFF = 1236382557 := by decide +kernel
    have h1 : (⟨⟨1, 1⟩, []⟩ : Record).bytes.foldl Checksum.step 1236382557 = 2513179163 := by
      decide +kernel
    have h2 : (⟨⟨1, 2⟩, []⟩ : Record).bytes.foldl Checksum.step 2513179163 = 3237987184 := by
      decide +kernel
    simp only [Checksum.crc32c, Checksum.register, payload, inside, written_cons, written_nil,
      List.append_nil, List.foldl_append, h0, h1, h2]
    decide
  have hbytes : (written [⟨⟨1, 0⟩, written inside⟩]).set 0 0 =
      (⟨magic, 80, 1056980111⟩ : Header).bytes.set 0 0 ++ (⟨1, 0⟩ : Key).bytes ++ written inside := by
    rw [written_cons, bytes, header, hcheck]
    rfl
  have hdrop : scan (((written [⟨⟨1, 0⟩, written inside⟩]).set 0 0).drop 32) = _ :=
    scan_drop_unmarked (by rw [hbytes]; decide)
  have hfits : ∀ r ∈ inside, r.Fits := fun r hr =>
    .of_length ((by decide : ∀ r ∈ inside, r.value.length < 2 ^ 31) r hr)
  rw [← hdrop, hbytes]
  exact scan_written hfits torn_nil

/-- Without a bound on what the damaged record holds, a byte can cost another record, or bring
records that were never written. -/
theorem damage_spreads :
    let r : Record := ⟨⟨1, 0⟩, [1]⟩
    let half : Record := ⟨⟨1, 0⟩, magic ++ [255, 255, 255, 255, 0, 0, 0, 0, 0, 0, 0, 0]⟩
    let whole : Record := ⟨⟨1, 0⟩, written [⟨⟨1, 1⟩, []⟩, ⟨⟨1, 2⟩, []⟩]⟩
    let q : Record := ⟨⟨1, 1⟩, [2]⟩
    (¬ ∃ x : List Record, x.length ≤ 1 ∧ scan ((written [r, q]).set 5 1) = x ++ [q]) ∧
      (¬ ∃ x : List Record, x.length ≤ 1 ∧ scan ((written [half, q]).set 0 0) = x ++ [q]) ∧
      ¬ ∃ x : List Record, x.length ≤ 1 ∧ scan ((written [whole]).set 0 0) = x := by
  intro r half whole q
  have hlost : ∀ x : List Record, [] ≠ x ++ [q] := fun x =>
    (List.append_ne_nil_of_right_ne_nil x (List.cons_ne_nil q [])).symm
  refine ⟨?_, ?_, ?_⟩
  · rw [scan_longer]
    exact fun ⟨x, _, h⟩ => hlost x h
  · rw [scan_half_inside]
    exact fun ⟨x, _, h⟩ => hlost x h
  · rw [scan_whole_inside]
    rintro ⟨x, hx, rfl⟩
    exact absurd hx (by decide)

end LedgerStore.Record
