import LedgerStore.Proofs.Record.Checked
import LedgerStore.Proofs.Record.Strewn
import LedgerStore.Proofs.Record.Unambiguous

/-!
The reading of bytes that may be anything, turn by turn, and the places of the records it finds.
Every read of a turn is checked; the main statement is that none fails, that the turns end, and that
each record found stands in the bytes as it would be written, with no two of them overlapping.
-/

set_option autoImplicit false

namespace LedgerStore.Record

inductive Turn
  | done
  | last (found : Finding)
  | next (found : Finding) (offset : Nat)

def Turn.onward (found : Finding) : Option Nat → Turn
  | none => last found
  | some offset => next found offset

def recordTurn (bs : Bytes) (offset need : Nat) : Option Turn :=
  if bs.length < offset + need then some (.last (.torn offset need (bs.length - offset)))
  else do
    let whole ← bs.slice? offset (offset + need)
    match ← decodeChecked whole with
    | .ok r => some (.next (.record offset r) (offset + need))
    | .error defect =>
      let further ← nextMagic bs (offset + 1)
      some (.onward (.corrupt offset defect) further)

def turn (bs : Bytes) (offset : Nat) : Option Turn :=
  if bs.length < offset + Header.width then some .done
  else do
    let mark ← bs.slice? offset (offset + 4)
    if mark ≠ magic then
      let further ← nextMagic bs (offset + 1)
      some (.onward (.badMagic offset) further)
    else
      let length ← bs.slice? (offset + 4) (offset + 8)
      recordTurn bs offset (Header.width + (UInt32.ofNat (Bytes.valueLE length)).toNat)

def Turn.findings (bs : Bytes) : Turn → List Finding
  | done => []
  | last found => [found]
  | next found offset => found :: Record.findings offset (bs.drop offset)

/-- What a turn at an offset can be: it goes on further behind, and a record that it finds is
stored at the offset, up to where it goes on. -/
def Turn.Sound (bs : Bytes) (offset : Nat) : Turn → Prop
  | done => True
  | last found => found.record? = none
  | next found further => offset < further ∧ further ≤ bs.length ∧
      ∀ r, found.record? = some r →
        r.Fits ∧ found = .record offset r ∧ further = offset + r.bytes.length ∧
          bs.slice? offset further = some r.bytes

theorem seek_drop {bs : Bytes} (start : Nat) (h : start ≤ bs.length) :
    start ≤ (seek start (bs.drop start)).1 ∧ (seek start (bs.drop start)).1 ≤ bs.length ∧
      (seek start (bs.drop start)).2 = bs.drop (seek start (bs.drop start)).1 := by
  induction hn : bs.length - start generalizing start with
  | zero =>
    have hnil : bs.drop start = [] := List.drop_eq_nil_iff.2 (by omega)
    rw [hnil]
    exact ⟨Nat.le_refl _, h, hnil.symm⟩
  | succ n ih =>
    have hcons : bs.drop start = bs[start] :: bs.drop (start + 1) :=
      List.drop_eq_getElem_cons (by omega)
    rw [hcons, seek, ← hcons]
    split
    · exact ⟨Nat.le_refl _, h, rfl⟩
    · obtain ⟨hle, hrest⟩ := ih (start + 1) (by omega) (by omega)
      exact ⟨by omega, hrest⟩

/-- A turn that finds no record goes on at the next magic, or ends the reading. -/
theorem onward_sought (bs : Bytes) (o : Nat) (ho : o < bs.length) (found : Finding)
    (hnone : found.record? = none) :
    ∃ next, nextMagic bs (o + 1) = some next ∧ (Turn.onward found next).Sound bs o ∧
      (Turn.onward found next).findings bs =
        found :: findings (seek (o + 1) (bs.drop o).tail).1 (seek (o + 1) (bs.drop o).tail).2 := by
  obtain ⟨hle, hlength, hrest⟩ := seek_drop (o + 1) ho
  rw [nextMagic, magicFrom_eq _ _ _ rfl, List.tail_drop]
  refine ⟨_, rfl, ?_⟩
  rw [sought]
  split
  next hnil =>
    rw [hnil]
    refine ⟨show found.record? = none from hnone, ?_⟩
    rw [Turn.onward, Turn.findings, findings, dif_pos (by decide)]
  next hfound =>
    rw [hrest]
    exact ⟨⟨hle, hlength, by simp [hnone]⟩, rfl⟩

theorem bytes_of_decode_take {bs : Bytes} (hwhole : declared bs ≤ bs.length) {r : Record}
    (h : decode (bs.take (declared bs)) = .ok r) :
    r.Fits ∧ r.bytes = bs.take (declared bs) ∧ r.bytes.length = declared bs := by
  have hlength : (bs.take (declared bs)).length = declared bs := by
    rw [List.length_take, Nat.min_eq_left hwhole]
  have hwidth : Header.width ≤ (bs.take (declared bs)).length := by
    rw [hlength]
    exact Nat.le_add_right _ _
  have hsame := declared_append hwidth (bs.drop (declared bs))
  rw [List.take_append_drop] at hsame
  obtain ⟨fits, hstored⟩ := bytes_of_decode h
  rw [← declared, ← hsame, List.take_take, Nat.min_self] at hstored
  exact ⟨fits, hstored, by rw [hstored, hlength]⟩

theorem recordTurn_eq {bs : Bytes} {o : Nat} (hroom : o + Header.width ≤ bs.length)
    (hmark : (bs.drop o).take magic.length = magic) :
    ∃ t, recordTurn bs o (declared (bs.drop o)) = some t ∧ t.Sound bs o ∧
      t.findings bs = findings o (bs.drop o) := by
  have hwidth : Header.width = 16 := rfl
  have hpos : Header.width ≤ declared (bs.drop o) := Nat.le_add_right _ _
  rw [findings_of_width (by rw [List.length_drop]; omega), if_neg (not_not_intro hmark)]
  by_cases htorn : bs.length < o + declared (bs.drop o)
  · rw [recordTurn, if_pos htorn, if_pos (by rw [List.length_drop]; omega), List.length_drop]
    exact ⟨_, rfl, rfl, rfl⟩
  · have hslice : bs.slice? o (o + declared (bs.drop o)) =
        some ((bs.drop o).take (declared (bs.drop o))) := by
      rw [Bytes.slice?_of_le (Nat.le_add_right _ _) (by omega), Nat.add_sub_cancel_left]
    rw [recordTurn, if_neg htorn, if_neg (by rw [List.length_drop]; omega), hslice]
    simp only [Option.bind_eq_bind, Option.bind_some, decodeChecked_eq]
    cases hread : decode ((bs.drop o).take (declared (bs.drop o))) with
    | ok r =>
      obtain ⟨fits, hstored, hlength⟩ := bytes_of_decode_take (by rw [List.length_drop]; omega) hread
      refine ⟨_, rfl, ⟨by omega, by omega, ?_⟩, by rw [List.drop_drop]; rfl⟩
      rintro q hq
      cases Option.some.inj hq
      exact ⟨fits, rfl, by rw [hlength], by rw [hslice, hstored]⟩
    | error defect =>
      obtain ⟨further, hfurther, hsound, hfindings⟩ :=
        onward_sought bs o (by omega) (.corrupt o defect) rfl
      dsimp only
      rw [hfurther]
      exact ⟨_, rfl, hsound, hfindings⟩

/-- A turn has a result at every offset, and it is what the scan does there. -/
theorem turn_eq (bs : Bytes) (o : Nat) :
    ∃ t, turn bs o = some t ∧ t.Sound bs o ∧ t.findings bs = findings o (bs.drop o) := by
  have hwidth : Header.width = 16 := rfl
  by_cases hshort : bs.length < o + Header.width
  · have hfew : ((bs.drop o).take Header.width).length < Header.width := by
      rw [List.length_take, List.length_drop]
      omega
    rw [turn, if_pos hshort, findings, dif_pos hfew]
    exact ⟨_, rfl, True.intro, rfl⟩
  · have hmark : bs.slice? o (o + 4) = some ((bs.drop o).take magic.length) := by
      rw [Bytes.slice?_of_le (by omega) (by omega), Nat.add_sub_cancel_left]
      rfl
    have hlength : bs.slice? (o + 4) (o + 8) = some (((bs.drop o).drop 4).take 4) := by
      rw [Bytes.slice?_of_le (by omega) (by omega), List.drop_drop]
      congr 2
      omega
    rw [turn, if_neg hshort, hmark]
    simp only [Option.bind_eq_bind, Option.bind_some, hlength]
    split
    next hother =>
      obtain ⟨further, hfurther, hsound, hfindings⟩ :=
        onward_sought bs o (by omega) (.badMagic o) rfl
      rw [hfurther, findings_of_width (by rw [List.length_drop]; omega), if_pos hother]
      exact ⟨_, rfl, hsound, hfindings⟩
    next hmagic => exact recordTurn_eq (by omega) (Decidable.not_not.1 hmagic)

inductive Loop (bs : Bytes) : Nat → List Finding → Prop
  | done {offset : Nat} (here : turn bs offset = some .done) : Loop bs offset []
  | last {offset : Nat} {found : Finding} (here : turn bs offset = some (.last found)) :
      Loop bs offset [found]
  | next {offset further : Nat} {found : Finding} {rest : List Finding}
      (here : turn bs offset = some (.next found further)) (behind : Loop bs further rest) :
      Loop bs offset (found :: rest)

theorem turn_sound {bs : Bytes} {o : Nat} {t : Turn} (h : turn bs o = some t) : t.Sound bs o := by
  obtain ⟨t', ht, hsound, -⟩ := turn_eq bs o
  rw [h] at ht
  cases Option.some.inj ht
  exact hsound

theorem loop_findings (bs : Bytes) (o : Nat) : Loop bs o (findings o (bs.drop o)) := by
  -- What is left behind the offset decreases.
  induction hn : bs.length - o using Nat.strongRecOn generalizing o with
  | ind n ih =>
    obtain ⟨t, ht, hsound, hfindings⟩ := turn_eq bs o
    rw [← hfindings]
    cases t with
    | done => exact .done ht
    | last found => exact .last ht
    | next found further =>
      obtain ⟨hlt, hle, -⟩ := hsound
      exact .next ht (ih (bs.length - further) (by omega) further rfl)

def Finding.placed? : Finding → Option (Nat × Record)
  | record offset r => some (offset, r)
  | _ => none

theorem Finding.record?_eq (found : Finding) : found.record? = found.placed?.map Prod.snd := by
  cases found <;> rfl

theorem places_scan (bs : Bytes) :
    ((findings 0 bs).filterMap Finding.placed?).map Prod.snd = scan bs := by
  rw [List.map_filterMap, scan]
  exact congrArg (List.filterMap · _) (funext fun found => found.record?_eq.symm)

/-- The stored form of the record stands at the place, and its length fits. -/
def Placed (bs : Bytes) (p : Nat × Record) : Prop :=
  p.2.Fits ∧ bs.slice? p.1 (p.1 + p.2.bytes.length) = some p.2.bytes

theorem Loop.places {bs : Bytes} {o : Nat} {fs : List Finding} (h : Loop bs o fs) :
    (∀ p ∈ fs.filterMap Finding.placed?, o ≤ p.1 ∧ Placed bs p) ∧
      (fs.filterMap Finding.placed?).Pairwise fun p q => p.1 + p.2.bytes.length ≤ q.1 := by
  -- The bound goes along: what the turns behind find stands behind what this one takes up.
  induction h with
  | done here => simp
  | @last o found here =>
    have hnone : found.record? = none := turn_sound here
    rw [Finding.record?_eq, Option.map_eq_none_iff] at hnone
    simp [hnone]
  | @next o further found rest here behind ih =>
    obtain ⟨hlt, hle, hrecord⟩ := turn_sound here
    obtain ⟨hplaced, hapart⟩ := ih
    cases hfound : found.record? with
    | none =>
      rw [Finding.record?_eq, Option.map_eq_none_iff] at hfound
      rw [List.filterMap_cons_none hfound]
      exact ⟨fun p hp => ⟨by have := (hplaced p hp).1; omega, (hplaced p hp).2⟩, hapart⟩
    | some r =>
      obtain ⟨fits, rfl, rfl, hslice⟩ := hrecord r hfound
      have hcons : (Finding.record o r :: rest).filterMap Finding.placed? =
          (o, r) :: rest.filterMap Finding.placed? := rfl
      rw [hcons]
      constructor
      · intro p hp
        rcases List.mem_cons.1 hp with rfl | hp
        · exact ⟨Nat.le_refl _, fits, hslice⟩
        · exact ⟨by have := (hplaced p hp).1; omega, (hplaced p hp).2⟩
      · exact List.pairwise_cons.2 ⟨fun p hp => (hplaced p hp).1, hapart⟩

/-- A record whose length does not fit is found nowhere. -/
theorem fits_of_mem_scan {bs : Bytes} {r : Record} (h : r ∈ scan bs) : r.Fits := by
  rw [← places_scan] at h
  obtain ⟨p, hp, rfl⟩ := List.mem_map.1 h
  exact ((loop_findings bs 0).places.1 p hp).2.1

structure Grounded (bs : Bytes) (found : List Record) : Prop where
  file : ∀ (h : Host) (path : Path), h.fault = .clear → h.disk.read path = .ok bs →
    ∃ h', readFile path h = .ok found h' ∧ h'.disk = h.disk
  within : ∀ offset, ∃ t, turn bs offset = some t
  rises : ∀ offset finding further, turn bs offset = some (.next finding further) →
    offset < further ∧ further ≤ bs.length
  ends : Loop bs 0 (findings 0 bs) ∧ (findings 0 bs).filterMap Finding.record? = found
  places : ∃ ps : List (Nat × Record), ps.map Prod.snd = found ∧
    (∀ p ∈ ps, ∀ limit, p.2.value.length ≤ limit → ∃ stored, p.2.encode limit = .ok stored ∧
      bs.slice? p.1 (p.1 + stored.length) = some stored) ∧
    ps.Pairwise fun p q => p.1 + p.2.bytes.length ≤ q.1

theorem scan_grounded (bs : Bytes) : Grounded bs (scan bs) where
  file _ _ := readFile_eq
  within offset := by
    obtain ⟨t, ht, -⟩ := turn_eq bs offset
    exact ⟨t, ht⟩
  rises offset finding further h := by
    obtain ⟨hlt, hle, -⟩ := turn_sound h
    exact ⟨hlt, hle⟩
  ends := ⟨loop_findings bs 0, rfl⟩
  places := by
    obtain ⟨hplaced, hapart⟩ := (loop_findings bs 0).places
    exact ⟨_, places_scan bs, fun p hp limit hlimit =>
      ⟨p.2.bytes, encode_eq_ok_iff.2 ⟨hlimit, rfl⟩, (hplaced p hp).2.2⟩, hapart⟩

end LedgerStore.Record
