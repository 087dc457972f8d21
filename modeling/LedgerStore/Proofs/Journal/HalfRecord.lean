import LedgerStore.Proofs.Journal.Appends
import LedgerStore.Proofs.Record.Damage

set_option autoImplicit false

namespace LedgerStore

namespace Record

theorem scan_few {bs : Bytes} {rs : List Record} (few : bs.length < magic.length)
    (fits : ∀ r ∈ rs, r.Fits) : scan (bs ++ written rs) = rs := by
  have clean : ¬ magic <:+: bs := fun h => by
    have := h.length_le
    omega
  have hrest := scan_written fits torn_nil
  rw [List.append_nil] at hrest
  rw [scan_gap clean (begins_written rs), hrest]

/-- A part of a record that holds its length is a torn record for the scan, which ends there. -/
theorem scan_half {r : Record} (fits : r.Fits) {k : Nat} (hk : 8 ≤ k) {back : Bytes}
    (hshort : k + back.length < r.bytes.length) : scan (r.bytes.take k ++ back) = [] := by
  have hlen : (r.bytes.take k ++ back).length = k + back.length := by
    rw [List.length_append, List.length_take, Nat.min_eq_left (by omega)]
  by_cases hroom : Header.width ≤ (r.bytes.take k ++ back).length
  · have hfront : ∀ n ≤ 8, (r.bytes.take k ++ back).take n = r.bytes.take n := by
      intro n hn
      rw [List.take_append_of_le_length (by rw [List.length_take]; omega), List.take_take,
        Nat.min_eq_left (by omega)]
    have hword : ((r.bytes.take k ++ back).drop 4).take 4 = (r.bytes.drop 4).take 4 := by
      rw [List.take_drop, List.take_drop, hfront 8 (Nat.le_refl 8)]
    have hdeclared : declared (r.bytes.take k ++ back) = r.bytes.length := by
      have hr := declared_length fits []
      rw [List.append_nil] at hr
      rw [← hr, declared, Header.ofBytes, hword]
      rfl
    have hmark : (r.bytes.take k ++ back).take magic.length = magic := by
      have hr := magic_begins r []
      rw [List.append_nil] at hr
      rw [hfront magic.length (by decide)]
      exact hr
    rw [scan_of_width hroom, if_neg (not_not_intro hmark), if_pos (by omega)]
  · exact scan_nil_of_short (by omega)

end Record

namespace Journal

namespace Session

variable {x : Session} {dir : Place} {rest : Place → Option Bytes} {s : Spool}

/-- A failed append leaves the tapes as they were, or a part of the record behind them. -/
theorem On.append_failed (h : x.On dir rest s) {r : Record} {faults : List Fault}
    (hfail : x.serves ⟨.append r, faults⟩ = false) :
    (x.turn ⟨.append r, faults⟩).accepted = x.accepted ∧
      (x.InRange ⟨.append r, faults⟩ →
        s.writer.sequence ≤ (x.turn ⟨.append r, faults⟩).writer.sequence ∧
        ∃ s' k, (s' = s ∨ ∃ handle, s' = s.next handle) ∧ k < r.bytes.length ∧
          (x.turn ⟨.append r, faults⟩).On dir rest (s'.spill (r.bytes.take k))) := by
  have hrun := Spool.ensures_append r (x.writer, x.host.facing faults)
    (And.intro h.writer (Host.holds_facing h.disk faults))
  have hpos := List.length_pos_iff.2 r.bytes_ne_nil
  have hbounded := h.disk.bounded
  rw [serves, call, Task.run] at hfail
  rw [InRange, h.writer, Session.turn, call, Task.run]
  revert hfail hrun
  cases Writer.append r (x.writer, x.host.facing faults) with
  | ok u y =>
    intro hserves
    cases hserves
  | error e y =>
    intro _ hrun
    refine ⟨rfl, fun hrange => ?_⟩
    rcases hrun with hstays | ⟨s', k, hroom, hk, -, hwriter, hon⟩
    · refine ⟨Nat.le_of_eq (congrArg _ hstays.1).symm, s, 0, Or.inl rfl, hpos, hstays.1, ?_⟩
      rw [List.take_zero, Spool.spill_nil]
      exact hstays.2.disk
    · have hs' : s' = s ∨ ∃ handle, s' = s.next handle := by
        cases hroom with
        | here fits => exact Or.inl rfl
        | next handle full => exact Or.inr ⟨handle, rfl⟩
      have hle : s.writer.sequence ≤ y.1.sequence := by
        refine FileName.le_of_step ?_ hbounded hrange
        rw [hwriter]
        rcases hs' with rfl | ⟨handle, rfl⟩
        · exact Or.inl rfl
        · exact Or.inr rfl
      exact ⟨hle, s', k, hs', hk, (hon hle).1, (hon hle).2.disk⟩

end Session

/-- What has become of the tapes after a file with some bytes at its end: the records `rs` behind
them, and then pages that the writer has filled. -/
inductive Resumed (front : List Tape) (n : Nat) (bytes : Bytes) (s : Spool) (rs : List Record) :
    List Record → Prop
  | same (before : s.front = front) (last : s.last = ⟨n, bytes ++ Record.written rs⟩)
    (fits : ∀ r ∈ rs, r.Fits) : Resumed front n bytes s rs []
  | later {w : Writer} {full : List (List Record)} {new : List Record}
    (filled : Filled (front ++ [⟨n, bytes ++ Record.written rs⟩]) w full new s)
    (fits : ∀ r ∈ rs, r.Fits) : Resumed front n bytes s rs (full ++ [new]).flatten

namespace Resumed

variable {front : List Tape} {n : Nat} {bytes : Bytes} {s : Spool} {rs more : List Record}

theorem records (h : Resumed front n bytes s rs more) : s.tapes.flatMap Tape.records =
    front.flatMap Tape.records ++ Record.scan (bytes ++ Record.written rs) ++ more := by
  cases h with
  | same before last fits =>
    rw [Spool.tapes, before, last, List.flatMap_append, List.flatMap_singleton, List.append_nil]
    rfl
  | later filled fits =>
    rw [filled.tapes, List.flatMap_append, List.flatMap_append, List.flatMap_singleton,
      records_pages filled.fits]
    rfl

theorem fits (h : Resumed front n bytes s rs more) : ∀ r ∈ rs, r.Fits := by
  cases h with
  | same before last fits => exact fits
  | later filled fits => exact fits

theorem next (before : s.front = front) (last : s.last = ⟨n, bytes ++ Record.written rs⟩)
    (handle : Handle) :
    Filled (front ++ [⟨n, bytes ++ Record.written rs⟩]) (s.next handle).writer [] []
      (s.next handle) where
  front := by
    rw [Spool.next, Spool.tapes, before, last]
    exact (List.append_nil _).symm
  last := rfl
  writer := ⟨handle, rfl⟩
  room := by simp
  fits := by simp

theorem passed (h : Resumed front n bytes s rs more) {task : Task} {ok : Bool} {s' : Spool}
    (hp : s.Passed task ok s') (hfits : ∀ r ∈ task.records, r.Fits)
    (hle : s.writer.sequence ≤ s'.writer.sequence) :
    ∃ rs' more', Resumed front n bytes s' rs' more' ∧
      rs' ++ more' = rs ++ more ++ (if ok then task.records else []) := by
  cases h with
  | later filled fits =>
    obtain ⟨full', new', hfilled', hflat⟩ := filled.passed hp hfits hle
    exact ⟨rs, _, .later hfilled' fits, by rw [hflat, List.append_assoc]⟩
  | same before last fits =>
    cases hp with
    | synced => exact ⟨rs, [], .same before last fits, by simp [Task.records]⟩
    | rolled handle => exact ⟨rs, _, .later (next before last handle) fits, by simp [Task.records]⟩
    | appended r room =>
      have hr : r.Fits := hfits r List.mem_cons_self
      cases room with
      | here small =>
        refine ⟨rs ++ [r], [], .same before ?_ ?_, by simp [Task.records]⟩
        · rw [Spool.write, Spool.spill, last]
          simp
        · intro q hq
          rcases List.mem_append.1 hq with hq | hq
          · exact fits q hq
          · rwa [List.mem_singleton.1 hq]
      | next handle full =>
        exact ⟨rs, _, .later ((next before last handle).write hr (Or.inr rfl)) fits,
          by simp [Task.records]⟩
    | refused task => exact ⟨rs, [], .same before last fits, by simp⟩
    | stranded r handle full => exact ⟨rs, _, .later (next before last handle) fits, by simp⟩

end Resumed

namespace Session

variable {x : Session} {dir : Place} {rest : Place → Option Bytes} {old : List Tape} {w : Writer}

def Resumes (x : Session) (path : Path) (dir : Place) (rest : Place → Option Bytes)
    (front : List Tape) (n : Nat) (bytes : Bytes) (accepted : List Record) : Prop :=
  ∃ s rs more, s.writer.dir = path ∧ x.On dir rest s ∧ Resumed front n bytes s rs more ∧
    x.accepted = accepted ++ (rs ++ more)

theorem Resumes.turn {path : Path} {front : List Tape} {n : Nat} {bytes : Bytes}
    {accepted : List Record} (h : x.Resumes path dir rest front n bytes accepted) {t : Turn}
    (ht : t.Proper) (hrange : x.InRange t) :
    (x.turn t).Resumes path dir rest front n bytes accepted := by
  obtain ⟨s, rs, more, hdir, hon, hresumed, haccepted⟩ := h
  obtain ⟨s', hpassed, hmore, hready⟩ := hon.turn ht
  obtain ⟨hle, hon'⟩ := hready hrange
  obtain ⟨rs', more', hresumed', hflat⟩ := hresumed.passed hpassed ht.fits hle
  exact ⟨s', rs', more', hpassed.dir.trans hdir, hon', hresumed',
    by rw [hmore, haccepted, hflat, List.append_assoc]⟩

theorem Fills.append_failed (h : x.Fills dir rest old w) {r : Record} {faults : List Fault}
    (hfail : x.serves ⟨.append r, faults⟩ = false)
    (hrange : x.InRange ⟨.append r, faults⟩) :
    ∃ k < r.bytes.length, ∃ full new, (∀ q ∈ (full ++ [new]).flatten, q.Fits) ∧
      x.accepted = (full ++ [new]).flatten ∧
      (x.turn ⟨.append r, faults⟩).host.disk.lengthAt (x.turn ⟨.append r, faults⟩).writer.path =
        .ok ((x.turn ⟨.append r, faults⟩).writer.size + k) ∧
      (x.turn ⟨.append r, faults⟩).Resumes w.dir dir rest (old ++ pages w.sequence full)
        (w.sequence + full.length) (Record.written new ++ r.bytes.take k) x.accepted := by
  obtain ⟨s, full, new, hon, hfilled, haccepted⟩ := h
  obtain ⟨hsame, hleft⟩ := hon.append_failed hfail
  obtain ⟨hle, s', k, hs', hk, hon'⟩ := hleft hrange
  rw [hon'.writer] at hle
  -- The part of the record is in the file of `s'`, which may be a new one.
  have hfilled' : ∃ full' new', Filled old w full' new' s' ∧
      x.accepted = (full' ++ [new']).flatten := by
    rcases hs' with rfl | ⟨handle, rfl⟩
    · exact ⟨full, new, hfilled, haccepted⟩
    · exact ⟨_, [], hfilled.next handle hle, by simp [haccepted]⟩
  obtain ⟨full', new', hfilled', haccepted'⟩ := hfilled'
  obtain ⟨handle, hw⟩ := hfilled'.writer
  refine ⟨k, hk, full', new', hfilled'.fits, haccepted', ?_, ?_⟩
  · have hlength := hon'.disk.lengthAt
    rw [Spool.spill_bytes, hfilled'.last, List.length_append, List.length_take,
      Nat.min_eq_left (Nat.le_of_lt hk)] at hlength
    rw [hon'.writer, hlength, Spool.spill_writer, hw]
  · refine ⟨_, [], [], ?_, hon', .same hfilled'.front ?_ nofun, ?_⟩
    · rw [Spool.spill_writer, hw]
    · rw [Spool.spill, hfilled'.last, Record.written_nil, List.append_nil]
    · rw [hsame, List.append_nil, List.append_nil]

/-- What replay makes of records that are appended after a failed append. Of the record that failed
`k` bytes are in the file. The records `same` that come behind them in that file are all found if
these are less than the magic, and all lost if they declare more bytes than follow. -/
theorem resumed_run {path : Path} {ts : List Tape} {h h' : Host} (hd : Tapes path dir ts h.disk)
    (hroom : ∀ t ∈ ts, t.bytes ≠ [] → t.sequence + 1 < FileName.sequenceBound)
    {floor rotation maxValue : Nat} (hfloor : floor < FileName.sequenceBound)
    (hopen : Writer.start path floor rotation maxValue h = .ok w h') {before : List Turn}
    (hbefore : ∀ t ∈ before, t.Proper) (hx : x = (⟨w, h', []⟩ : Session).run before) {r : Record}
    (hr : r.Fits) {faults : List Fault} (hfail : x.serves ⟨.append r, faults⟩ = false)
    {since : List Turn} (hsince : ∀ t ∈ since, t.Proper)
    (hwithin : (⟨w, h', []⟩ : Session).Within (before ++ ⟨.append r, faults⟩ :: since))
    {y z : Session} (hy : y = x.turn ⟨.append r, faults⟩) (hz : z = y.run since) :
    ∃ k < r.bytes.length, ∃ rs after same later after',
      y.host.disk.lengthAt y.writer.path = .ok (y.writer.size + k) ∧
        recover path (x.host.facing []) = .ok rs after ∧
        z.accepted = x.accepted ++ (same ++ later) ∧
        recover path (z.host.facing []) =
          .ok (rs ++ Record.scan (r.bytes.take k ++ Record.written same) ++ later) after' ∧
        (k < Record.magic.length → Record.scan (r.bytes.take k ++ Record.written same) = same) ∧
        (8 ≤ k → k + (Record.written same).length < r.bytes.length →
          Record.scan (r.bytes.take k ++ Record.written same) = []) := by
  subst hx hy hz
  obtain ⟨hbegun, hmid, hlast⟩ := within_append.1 hwithin
  obtain ⟨⟨hdir, -⟩, old, hold, hopened⟩ := opened hd hroom hfloor hopen
  have hfills := hopened.run hbefore hbegun
  subst hdir
  obtain ⟨after, hafter⟩ := hfills.recover
  obtain ⟨k, hk, full, new, hfits, haccepted, hlength, hresumes⟩ := hfills.append_failed hfail hmid
  have hrun := run_induction (P := (Resumes · _ _ _ _ _ _ _))
    (fun _ _ h ht hrange => h.turn ht hrange) hresumes hsince hlast
  obtain ⟨s, same, later, hpath, hon, hresumed, hmore⟩ := hrun
  obtain ⟨after', hafter'⟩ := hon.disk.tapes.recover (m := _) rfl
  have hfull : ∀ q ∈ full.flatten, q.Fits := fun q hq => hfits q (by simp [hq])
  have hnew : ∀ q ∈ new, q.Fits := fun q hq => hfits q (by simp [hq])
  -- Only the file with the part in it is not read as it was written.
  have hrecords : s.tapes.flatMap Tape.records = old.flatMap Tape.records ++
      (((⟨w, h', []⟩ : Session).run before).accepted) ++
        Record.scan (r.bytes.take k ++ Record.written same) ++ later := by
    rw [hresumed.records, List.append_assoc (Record.written new), Record.scan_written_append hnew,
      List.flatMap_append, records_pages hfull, haccepted]
    simp
  rw [hrecords, hpath] at hafter'
  refine ⟨k, hk, _, after, same, later, after', hlength, hafter, hmore, hafter', fun hfew => ?_,
    fun hlong hshort => Record.scan_half hr hlong hshort⟩
  refine Record.scan_few ?_ hresumed.fits
  rw [List.length_take]
  omega

theorem resumed_run_small :
    let path := Site.small.config.journalDir
    let r : Record := ⟨⟨1, 1⟩, List.replicate 80 7⟩
    ∃ w h', Writer.start path 0 1000 100 { disk := Site.smallDisk } = .ok w h' ∧
      ∃ x, x = (⟨w, h', []⟩ : Session).run [⟨.append ⟨⟨1, 0⟩, [1]⟩, []⟩] ∧
      ∃ z, z = (x.turn ⟨.append r, [.cut 20 "full"]⟩).run [⟨.append ⟨⟨1, 2⟩, [2]⟩, []⟩] ∧
      ∃ k < r.bytes.length, ∃ rs after same later after',
        recover path (x.host.facing []) = .ok rs after ∧
        z.accepted = x.accepted ++ (same ++ later) ∧
        recover path (z.host.facing []) =
          .ok (rs ++ Record.scan (r.bytes.take k ++ Record.written same) ++ later) after' := by
  intro path r
  have hrun : endedWith (fun w h' =>
      decide (((⟨w, h', []⟩ : Session).run [⟨.append ⟨⟨1, 0⟩, [1]⟩, []⟩]).serves
          ⟨.append r, [.cut 20 "full"]⟩ = false ∧
        (⟨w, h', []⟩ : Session).Within [⟨.append ⟨⟨1, 0⟩, [1]⟩, []⟩,
          ⟨.append r, [.cut 20 "full"]⟩, ⟨.append ⟨⟨1, 2⟩, [2]⟩, []⟩]))
      (Writer.start path 0 1000 100 { disk := Site.smallDisk }) = true := by decide +kernel
  have hempty : Tapes path Site.small.journalDir [] Site.smallDisk :=
    ⟨Site.small_vacant.sound, Site.small_vacant.logs, .nil Site.small_vacant.journal⟩
  have hproper : ∀ q : Record, q.Fits → ∀ t ∈ [(⟨.append q, []⟩ : Turn)], t.Proper := by
    intro q hq t ht
    rw [List.mem_singleton.1 ht]
    exact ⟨List.forall_mem_singleton.2 hq, nofun⟩
  obtain ⟨w, h', hopen, hchecked⟩ := ok_of_endedWith hrun
  obtain ⟨hfail, hwithin⟩ := of_decide_eq_true hchecked
  obtain ⟨k, hk, rs, after, same, later, after', -, hafter, hmore, hafter', -⟩ :=
    resumed_run hempty (List.forall_mem_nil _) (by decide) hopen
      (hproper ⟨⟨1, 0⟩, [1]⟩ (.of_length (by decide))) rfl (.of_length (by decide)) hfail
      (hproper ⟨⟨1, 2⟩, [2]⟩ (.of_length (by decide))) hwithin rfl rfl
  exact ⟨w, h', hopen, _, rfl, _, rfl, k, hk, rs, after, same, later, after', hafter, hmore,
    hafter'⟩

/-- A record whose append ends well is lost behind a part of one whose append failed. -/
theorem half_hides :
    let path := Site.small.config.journalDir
    let turns : List Turn :=
      [⟨.append ⟨⟨1, 1⟩, List.replicate 80 7⟩, [.cut 20 "full"]⟩, ⟨.append ⟨⟨1, 2⟩, [2]⟩, []⟩]
    ∃ w h' after, Writer.start path 0 1000 100 { disk := Site.smallDisk } = .ok w h' ∧
      ((⟨w, h', []⟩ : Session).run turns).accepted = [⟨⟨1, 2⟩, [2]⟩] ∧
      recover path (((⟨w, h', []⟩ : Session).run turns).host.facing []) = .ok [] after := by
  intro path turns
  have hrun : endedWith (fun w h' =>
      decide (((⟨w, h', []⟩ : Session).run turns).accepted = [⟨⟨1, 2⟩, [2]⟩]) &&
        endedWith (fun rs _ => decide (rs = []))
          (recover path (((⟨w, h', []⟩ : Session).run turns).host.facing [])))
      (Writer.start path 0 1000 100 { disk := Site.smallDisk }) = true := by decide +kernel
  obtain ⟨w, h', hopen, hchecked⟩ := ok_of_endedWith hrun
  obtain ⟨haccepted, hread⟩ := Bool.and_eq_true_iff.1 hchecked
  obtain ⟨rs, after, hafter, hnone⟩ := ok_of_endedWith hread
  obtain rfl := of_decide_eq_true hnone
  exact ⟨w, h', after, hopen, of_decide_eq_true haccepted, hafter⟩

end Session

end Journal

end LedgerStore
