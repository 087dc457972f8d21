import LedgerStore.Proofs.Archive.Site
import LedgerStore.Proofs.Journal.Session

set_option autoImplicit false

namespace LedgerStore.Journal

def pages (n : Nat) : List (List Record) → List Tape
  | [] => []
  | rs :: more => ⟨n, Record.written rs⟩ :: pages (n + 1) more

theorem pages_append (n : Nat) (front back : List (List Record)) :
    pages n (front ++ back) = pages n front ++ pages (n + front.length) back := by
  induction front generalizing n with
  | nil => rfl
  | cons rs front ih =>
    rw [List.cons_append, pages, pages, ih, List.cons_append, List.length_cons, Nat.add_assoc,
      Nat.add_comm 1]

theorem mem_pages {n : Nat} {rss : List (List Record)} {t : Tape} :
    t ∈ pages n rss ↔ ∃ i rs, rss[i]? = some rs ∧ t = ⟨n + i, Record.written rs⟩ := by
  induction rss generalizing n with
  | nil => simp [pages]
  | cons rs rss ih =>
    rw [pages, List.mem_cons, ih]
    constructor
    · rintro (rfl | ⟨i, qs, hi, rfl⟩)
      · exact ⟨0, rs, rfl, rfl⟩
      · exact ⟨i + 1, qs, hi, by rw [Nat.add_assoc, Nat.add_comm 1]⟩
    · rintro ⟨i, qs, hi, rfl⟩
      cases i with
      | zero =>
        cases hi
        exact Or.inl rfl
      | succ i => exact Or.inr ⟨i, qs, hi, by rw [Nat.add_assoc, Nat.add_comm 1]⟩

theorem records_pages {n : Nat} {rss : List (List Record)} (fits : ∀ r ∈ rss.flatten, r.Fits) :
    (pages n rss).flatMap Tape.records = rss.flatten := by
  induction rss generalizing n with
  | nil => rfl
  | cons rs rss ih =>
    have hread := Record.scan_written
      (fun r hr => fits r (List.mem_append_left _ hr)) Record.torn_nil
    rw [List.append_nil] at hread
    rw [pages, List.flatMap_cons, ih fun r hr => fits r (List.mem_append_right _ hr)]
    exact congrArg (· ++ rss.flatten) hread

/-- The tapes of a spool are old ones and behind them pages that a writer has filled since it was
`w`: all `full` ones, and the one with the records `new`. -/
structure Filled (old : List Tape) (w : Writer) (full : List (List Record)) (new : List Record)
    (s : Spool) : Prop where
  front : s.front = old ++ pages w.sequence full
  last : s.last = ⟨w.sequence + full.length, Record.written new⟩
  writer : ∃ handle, s.writer = { w with
    sequence := w.sequence + full.length, size := (Record.written new).length, handle }
  room : ∀ rs ∈ full ++ [new], (Record.written rs).length ≤ w.rotation ∨ rs.length = 1
  fits : ∀ r ∈ (full ++ [new]).flatten, r.Fits

namespace Filled

variable {old : List Tape} {w : Writer} {full : List (List Record)} {new : List Record}
  {s : Spool} (h : Filled old w full new s)

include h

theorem tapes : s.tapes = old ++ pages w.sequence (full ++ [new]) := by
  rw [Spool.tapes, h.front, h.last, pages_append, List.append_assoc]
  rfl

theorem next (handle : Handle) (hle : s.writer.sequence ≤ FileName.next s.writer.sequence) :
    Filled old w (full ++ [new]) [] (s.next handle) where
  front := h.tapes
  last := by
    obtain ⟨_, hw⟩ := h.writer
    rw [Spool.next, FileName.next_eq (FileName.le_next_iff.1 hle), hw, List.length_append]
    rfl
  writer := by
    obtain ⟨_, hw⟩ := h.writer
    refine ⟨handle, ?_⟩
    rw [Spool.next, FileName.next_eq (FileName.le_next_iff.1 hle), hw, List.length_append]
    rfl
  room rs hrs := by
    rcases List.mem_append.1 hrs with hrs | hrs
    · exact h.room rs hrs
    · rw [List.mem_singleton.1 hrs]
      exact Or.inl (Nat.zero_le _)
  fits := by
    rw [List.flatten_append]
    simpa using h.fits

theorem write {r : Record} (hr : r.Fits)
    (hroom : (Record.written (new ++ [r])).length ≤ w.rotation ∨ (new ++ [r]).length = 1) :
    Filled old w full (new ++ [r]) (s.write r.bytes) where
  front := h.front
  last := by
    rw [Spool.write, Spool.spill, h.last]
    simp
  writer := by
    obtain ⟨handle, hw⟩ := h.writer
    refine ⟨handle, ?_⟩
    rw [Spool.write, hw]
    simp
  room rs hrs := by
    rcases List.mem_append.1 hrs with hrs | hrs
    · exact h.room rs (List.mem_append_left _ hrs)
    · rwa [List.mem_singleton.1 hrs]
  fits q hq := by
    have hmem : q ∈ (full ++ [new]).flatten ∨ q = r := by
      simpa [or_assoc] using hq
    rcases hmem with hq | rfl
    · exact h.fits q hq
    · exact hr

/-- A record goes into the same file if that does not become too long, or if it is empty. -/
theorem room_here {r : Record} (hfits : s.writer.mustRoll r.bytes.length = false) :
    (Record.written (new ++ [r])).length ≤ w.rotation ∨ (new ++ [r]).length = 1 := by
  obtain ⟨_, hw⟩ := h.writer
  rw [Writer.mustRoll, hw, Bool.and_eq_false_iff, decide_eq_false_iff_not,
    decide_eq_false_iff_not] at hfits
  dsimp only at hfits
  rcases hfits with hempty | hshort
  · refine Or.inr ?_
    cases new with
    | nil => rfl
    | cons q qs =>
      rw [Record.written_cons, List.length_append] at hempty
      have := List.length_pos_iff.2 q.bytes_ne_nil
      omega
  · refine Or.inl ?_
    rw [Record.written_append, List.length_append, Record.written_cons, Record.written_nil,
      List.append_nil]
    omega

theorem passed {task : Task} {ok : Bool} {s' : Spool} (hp : s.Passed task ok s')
    (hfits : ∀ r ∈ task.records, r.Fits) (hle : s.writer.sequence ≤ s'.writer.sequence) :
    ∃ full' new', Filled old w full' new' s' ∧ (full' ++ [new']).flatten =
      (full ++ [new]).flatten ++ (if ok then task.records else []) := by
  cases hp with
  | synced => exact ⟨full, new, h, by simp [Task.records]⟩
  | rolled handle => exact ⟨_, [], h.next handle hle, by simp [Task.records]⟩
  | appended r room =>
    have hr : r.Fits := hfits r List.mem_cons_self
    cases room with
    | here fits => exact ⟨full, _, h.write hr (h.room_here fits), by simp [Task.records]⟩
    | next handle must =>
      exact ⟨_, _, (h.next handle hle).write hr (Or.inr rfl), by simp [Task.records]⟩
  | refused task => exact ⟨full, new, h, by simp⟩
  | stranded r handle must => exact ⟨_, [], h.next handle hle, by simp⟩

end Filled

def Session.Fills (x : Session) (dir : Place) (rest : Place → Option Bytes) (old : List Tape)
    (w : Writer) : Prop :=
  ∃ s full new, x.On dir rest s ∧ Filled old w full new s ∧ x.accepted = (full ++ [new]).flatten

namespace Session

variable {x : Session} {dir : Place} {rest : Place → Option Bytes} {old : List Tape}
  {w : Writer}

theorem Fills.turn (h : x.Fills dir rest old w) {t : Turn} (ht : t.Proper)
    (hrange : x.InRange t) : (x.turn t).Fills dir rest old w := by
  obtain ⟨s, full, new, hon, hfilled, haccepted⟩ := h
  obtain ⟨s', hpassed, hmore, hready⟩ := hon.turn ht
  obtain ⟨hle, hon'⟩ := hready hrange
  obtain ⟨full', new', hfilled', hflat⟩ := hfilled.passed hpassed ht.fits hle
  exact ⟨s', full', new', hon', hfilled', by rw [hmore, haccepted, hflat]⟩

theorem Fills.run (h : x.Fills dir rest old w) {ts : List Turn} (hts : ∀ t ∈ ts, t.Proper)
    (hwithin : x.Within ts) : (x.run ts).Fills dir rest old w :=
  run_induction (P := (Fills · dir rest old w)) (fun _ _ h ht hrange => h.turn ht hrange) h hts
    hwithin

end Session

namespace Spool.On

variable {dir : Place} {rest : Place → Option Bytes} {s s' : Spool} {d d' : Disk}

end Spool.On

namespace Session

structure Appended (before : Host) (dir : Place) (w : Writer) (x : Session) : Prop where
  /-- Replay answers what it did, and behind that the records whose appends ended well. -/
  recovered : ∃ rs after after', recover w.dir (before.facing []) = .ok rs after ∧
    recover w.dir (x.host.facing []) = .ok (rs ++ x.accepted) after'
  kept : ∀ p bs, before.disk.bytesAt? p = some bs → bs ≠ [] → x.host.disk.bytesAt? p = some bs
  size : x.host.disk.lengthAt x.writer.path = .ok x.writer.size
  /-- A file that the writer fills is not too long, or it holds one record. -/
  filled : ∀ n, w.sequence ≤ n → n ≤ x.writer.sequence → ∃ rs,
    x.host.disk.bytesAt? (placeOf dir n) = some (Record.written rs) ∧
      ((Record.written rs).length ≤ w.rotation ∨ rs.length = 1)

variable {dir : Place} {ts : List Tape} {h h' : Host} {floor rotation maxValue : Nat}
  {w : Writer}

theorem opened {path : Path} (hd : Tapes path dir ts h.disk)
    (hroom : ∀ t ∈ ts, t.bytes ≠ [] → t.sequence + 1 < FileName.sequenceBound)
    (hfloor : floor < FileName.sequenceBound)
    (hopen : Writer.start path floor rotation maxValue h = .ok w h') :
    (w.dir = path ∧ w.rotation = rotation ∧ floor ≤ w.sequence ∧ ∀ t ∈ ts, t.sequence ≤ w.sequence) ∧
      ∃ old, (ts = old ∨ ts = old ++ [{ sequence := w.sequence }]) ∧
        (⟨w, h', []⟩ : Session).Fills dir h.disk.bytesAt? old w := by
  have hrun := Spool.ensures_start (· ∈ h.faults) hd hroom hfloor rotation maxValue h
    ⟨rfl, fun _ hf => hf⟩
  rw [hopen] at hrun
  obtain ⟨hdir, hrotation, -, hstart, habove, hsize, old, hold, hon⟩ := hrun
  refine ⟨⟨hdir, hrotation, hstart, habove⟩, old, hold, _, [], [], ⟨rfl, hon.disk⟩, ?_, rfl⟩
  exact
    { front := (List.append_nil old).symm
      last := rfl
      writer := ⟨w.handle, congrArg (fun n => { w with size := n }) hsize⟩
      room := by simp
      fits := by simp }

theorem Fills.recover {old : List Tape} {x : Session} {rest : Place → Option Bytes}
    (hx : x.Fills dir rest old w) : ∃ after, Journal.recover w.dir (x.host.facing []) =
      .ok (old.flatMap Tape.records ++ x.accepted) after := by
  obtain ⟨s, full, new, hon, hfilled, haccepted⟩ := hx
  obtain ⟨handle, hw⟩ := hfilled.writer
  obtain ⟨after, hafter⟩ := hon.disk.tapes.recover (m := x.host) rfl
  rw [hfilled.tapes, List.flatMap_append, records_pages hfilled.fits, ← haccepted, hw] at hafter
  exact ⟨after, hafter⟩

theorem Fills.appended {old : List Tape} {x : Session} (hd : Tapes w.dir dir ts h.disk)
    (hold : ts = old ∨ ts = old ++ [{ sequence := w.sequence }])
    (hx : x.Fills dir h.disk.bytesAt? old w) : x.Appended h dir w := by
  obtain ⟨after', hafter⟩ := hx.recover
  obtain ⟨s, full, new, hon, hfilled, -⟩ := hx
  obtain ⟨handle, hw⟩ := hfilled.writer
  have htapes : Tapes w.dir dir s.tapes x.host.disk := by
    have := hon.disk.tapes
    rwa [hw] at this
  exact {
    recovered := by
      have hempty : ts.flatMap Tape.records = old.flatMap Tape.records := by
        rcases hold with rfl | rfl
        · rfl
        · have hnil : Tape.records { sequence := w.sequence } = [] := Record.scan_torn Record.torn_nil
          rw [List.flatMap_append, List.flatMap_singleton, hnil, List.append_nil]
      obtain ⟨after, hbefore⟩ := hd.recover (m := h) rfl
      exact ⟨_, after, after', hempty ▸ hbefore, hafter⟩
    kept p bs hp hne := by
      by_cases hthere : ∃ t ∈ s.tapes, p = placeOf dir t.sequence
      · obtain ⟨t, ht, rfl⟩ := hthere
        have hasc := htapes.files.ascending
        rw [hfilled.tapes, List.pairwise_append] at hasc
        obtain ⟨v, hv, hs, rfl⟩ := hd.of_bytesAt? (htapes.files.bounded ht) hp
        -- What was there is an old tape, since each page was new or empty.
        have hvold : v ∈ old := by
          rcases hold with rfl | rfl
          · exact hv
          · refine (List.mem_append.1 hv).resolve_right fun hv => hne ?_
            rw [List.mem_singleton.1 hv]
        rw [← hs]
        exact htapes.bytesAt? (hfilled.tapes ▸ List.mem_append_left _ hvold)
      · exact (hon.disk.rest p fun t ht heq => hthere ⟨t, ht, heq⟩).trans hp
    size := by
      have hlength := hon.disk.lengthAt
      rw [hfilled.last] at hlength
      rw [hon.writer, hlength, hw]
    filled n hn hle := by
      rw [hon.writer, hw] at hle
      dsimp only at hle
      obtain ⟨i, rfl⟩ := Nat.exists_eq_add_of_le hn
      have hi : i < (full ++ [new]).length := by
        rw [List.length_append, List.length_singleton]
        omega
      refine ⟨(full ++ [new])[i], ?_, hfilled.room _ (List.getElem_mem hi)⟩
      have hpage : ⟨w.sequence + i, Record.written (full ++ [new])[i]⟩ ∈
          pages w.sequence (full ++ [new]) :=
        mem_pages.2 ⟨i, _, List.getElem?_eq_getElem hi, rfl⟩
      have hmem := List.mem_append_right old hpage
      rw [← hfilled.tapes] at hmem
      have hthere := htapes.bytesAt? hmem
      exact hthere }

/-- The beginning of a record that declares more bytes than are there. -/
def half : Bytes :=
  [0x42, 0x4B, 0x4A, 0x52, 0xFF, 0, 0, 0]

end Session

end LedgerStore.Journal
