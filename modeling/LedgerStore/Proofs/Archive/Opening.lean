import LedgerStore.Proofs.Archive.Engine
import LedgerStore.Proofs.Archive.Reading

set_option autoImplicit false

namespace LedgerStore

variable {mood : Mood} {s : Site} {a : Archive}

namespace Archive.On

variable {d : Disk} (h : a.On s d)

include h

theorem logged : d.Leads s.config.journalDir s.journalDir ∧
    Numbered Volume.sequence Volume.Holds Journal.fileName s.journalDir a.journal d :=
  ⟨h.logs, Shelf.numbered.1 h.journal⟩

theorem saved : d.Leads s.config.dataDir s.dataDir ∧
    Numbered Volume.sequence Volume.Holds Checkpoint.fileName s.dataDir a.checkpoints d :=
  ⟨h.data, Shelf.numbered.1 h.checkpoints⟩

end Archive.On

structure Archive.Below (a : Archive) (n : Nat) : Prop where
  journal : ∀ v ∈ a.journal, v.sequence < n
  checkpoints : ∀ c ∈ a.checkpoints, c.sequence < n

/-- What an opening makes of an archive: it stays, or there is a new file. -/
inductive Archive.Reopen (a : Archive) : Archive → Prop
  | same : Reopen a a
  | fresh (n : Nat) (least : ∀ m, a.Below m → n ≤ m) : Reopen a (a.extend n)

theorem Archive.Reopen.writes {a a' : Archive} (h : a.Reopen a') : a'.writes = a.writes := by
  cases h with
  | same => rfl
  | fresh n least => exact a.writes_extend n

namespace Checkpoint

theorem ensures_latest :
    Ensures (Host.Holds mood (a.On s)) (latest s.config.dataDir)
      (fun best h => best = (a.checkpoints.getLast?.map fun v =>
        (v.sequence, s.config.dataDir / fileName.render v.sequence)) ∧ h.Holds mood (a.On s))
      (Host.Failed mood (a.On s)) := by
  refine Host.Looks.ensures fun d hd => ⟨_, looks_latest, _, hd.data.lists, ?_⟩
  rw [hd.checkpoints.highest_checkpoint, Option.map_map]
  rfl

end Checkpoint

theorem EntryLog.ensures_loadCheckpoint :
    Ensures (Host.Holds mood (a.On s)) (loadCheckpoint s.config.dataDir)
      (fun r h => r = (a.first, Index.replay {} a.newest.records) ∧ h.Holds mood (a.On s))
      (Host.Failed mood (a.On s)) := by
  refine Ensures.bind Checkpoint.ensures_latest fun best => Ensures.fact fun hbest => ?_
  cases hlast : a.checkpoints.getLast? with
  | none =>
    have hnew : a.newest = { sequence := 0 } := by rw [Archive.newest, hlast]; rfl
    rw [hbest, hlast, Archive.first, hnew]
    exact Ensures.pure fun h hh => ⟨rfl, hh⟩
  | some v =>
    rw [hbest, hlast, Archive.first, Archive.newest_of_getLast? hlast]
    refine Ensures.bind (Record.ensures_readFile (fun d hd => hd.saved)
      (List.mem_of_getLast? hlast) fun f hf => hf.scan) fun rs => Ensures.fact fun hrs => ?_
    refine Ensures.bind (M := fun _ => Host.Holds mood (a.On s))
      (Ensures.note fun h hh => hh.note _) fun _ => ?_
    exact Ensures.pure fun h hh => ⟨by rw [hrs], hh⟩

theorem Archive.first_cases {n : Nat} (h : First Volume.sequence Volume.Holds a.journal n)
    (hbound : ∀ v ∈ a.journal, v.sequence + 1 < FileName.sequenceBound) :
    a.journal = [] ∧ n = 0 ∨ a.journal ≠ [] ∧
      (n = a.current.sequence ∧ a.current.tail = [] ∨ n = a.current.sequence + 1) := by
  have hcurrent : ∀ front v, a.journal = front ++ [v] → a.current = v := fun front v hj =>
    Archive.current_of_getLast? (by simp [hj])
  generalize hj : a.journal = vs at h
  cases h with
  | zero => exact Or.inl ⟨rfl, rfl⟩
  | last front v f hf hempty =>
    rw [hcurrent front v hj]
    exact Or.inr ⟨by simp, Or.inl ⟨rfl, (hf.nil hempty).2⟩⟩
  | next front v f hf hfull =>
    rw [hcurrent front v hj]
    exact Or.inr ⟨by simp, Or.inr (FileName.next_eq (hbound v (by simp [hj])))⟩

namespace Journal.Writer

variable (mood s) in
/-- The file to write is the last one again, if that is empty, or else a new one. -/
theorem ensures_openFirst {n m : Nat} (hm : a.Below m) (hb : m < FileName.sequenceBound)
    (hfirst : First Volume.sequence Volume.Holds a.journal n) :
    ∃ a', a.Reopen a' ∧ Ensures (Host.Holds mood (a.On s))
      (openFile (s.config.journalDir / fileName.render (max n a.first)))
      (fun handle => Host.Holds mood fun d => ∀ size, At
        { dir := s.config.journalDir, sequence := max n a.first, handle, size,
          rotation := s.config.rotationBytes, maxValue := s.config.maxValueSize } s a' d)
      (Host.Failed mood (a.On s)) := by
  have hn := Archive.first_cases hfirst fun v hv => by
    have := hm.journal v hv
    omega
  by_cases hlast : a.journal ≠ [] ∧ max n a.first = a.current.sequence ∧ a.current.tail = []
  · obtain ⟨hne, hseq, htail⟩ := hlast
    rw [hseq]
    refine ⟨a, .same, Ensures.during (Host.ensures_atomic fun d hd => ?_) _ _⟩
    have hfirst : a.first ≤ a.current.sequence := hseq ▸ Nat.le_max_right n a.first
    have hready : a.Open := ⟨hne, fun c hc =>
      Nat.le_trans (Archive.le_first hd.checkpoints.ascending hc) hfirst, htail⟩
    obtain ⟨f, hf, -⟩ := hd.journal.stored _ hready.mem
    obtain ⟨id, hid, -⟩ := Disk.fileAt?_eq_some.1 hf
    exact ⟨_, _, hd.logs.openAppend_file hid, fun size => ⟨hd, hready, rfl, rfl, rfl, id, rfl, hid⟩⟩
  · have hleast : ∀ m, a.Below m → max n a.first ≤ m := by
      intro m hm
      have hfirst := a.first_le fun c hc => Nat.le_of_lt (hm.checkpoints c hc)
      rcases hn with ⟨-, hn⟩ | ⟨hne, hn⟩
      · omega
      · have hcur := hm.journal _ (Archive.current_mem hne)
        omega
    have hbound := hleast m hm
    refine ⟨a.extend (max n a.first), .fresh _ hleast,
      Ensures.during (Host.ensures_atomic fun d hd => ?_) _ _⟩
    have hlt : ∀ v ∈ a.journal, v.sequence < max n a.first := by
      intro v hv
      have hne := List.ne_nil_of_mem hv
      have hle := Archive.le_current hd.journal.ascending hv
      rcases hn with ⟨hnil, -⟩ | ⟨-, ⟨hn, htail⟩ | hn⟩
      · exact absurd hnil hne
      · have : max n a.first ≠ a.current.sequence := fun heq => hlast ⟨hne, heq, htail⟩
        omega
      · omega
    have habs := hd.journal.absent (by omega) fun v hv => Nat.ne_of_lt (hlt v hv)
    refine ⟨_, _, hd.logs.openAppend_new habs, fun size => ?_⟩
    have hready : (a.extend (max n a.first)).Open :=
      { nonempty := by simp [Archive.extend]
        covers := fun c hc => by
          rw [Archive.current_extend]
          exact Nat.le_trans (Archive.le_first hd.checkpoints.ascending hc) (Nat.le_max_right _ _)
        clean := by rw [Archive.current_extend] }
    exact
      { on := hd.extend (by omega) hlt
        ready := hready
        sequence := by rw [Archive.current_extend]
        dir := rfl
        limit := rfl
        handle := ⟨_, rfl, by
          rw [Disk.node?_create (Place.names_child _ _), Site.journalPlace, if_pos rfl]⟩ }

theorem ensures_start {m : Nat} (hm : a.Below m) (hb : m < FileName.sequenceBound) :
    Ensures (Host.Holds mood (a.On s))
      (start s.config.journalDir a.first s.config.rotationBytes s.config.maxValueSize)
      (fun w h => ∃ a', a.Reopen a' ∧ h.Holds mood (w.At s a'))
      (fun h => ∃ a', a.Reopen a' ∧ h.Failed mood (a'.On s)) := by
  have hmake : Ensures (Host.Holds mood (a.On s)) (Host.createDirectories s.config.journalDir)
      (fun _ => Host.Holds mood (a.On s)) (Host.Failed mood (a.On s)) :=
    Host.ensures_createDirectories fun d hd => ⟨_, hd.logs.reaches⟩
  refine Ensures.bind ((hmake.during _ _).weaken (fun _ => id) (fun _ _ => id)
    fun h hh => ⟨a, .same, hh⟩) fun _ => ?_
  refine Ensures.bind ((ensures_list fun d hd => hd.logged).weaken (fun _ => id) (fun _ _ => id)
    fun h hh => ⟨a, .same, hh⟩) fun files => Ensures.fact fun hfiles => ?_
  rw [hfiles]
  refine Ensures.bind ((ensures_firstSequence fun d hd => hd.logged).weaken (fun _ => id) (fun _ _ => id)
    fun h hh => ⟨a, .same, hh⟩) fun n => Ensures.fact fun hn => ?_
  obtain ⟨a', ha', hopen⟩ := ensures_openFirst mood s hm hb hn
  refine Ensures.bind (hopen.weaken (fun _ => id) (fun _ _ => id) fun h hh => ⟨a, .same, hh⟩)
    fun handle => ?_
  refine Ensures.bind (((Host.ensures_length handle).during _ _).weaken (fun _ => id)
    (fun _ h hh => hh.imp fun _ hd => hd.2) fun h hh => ⟨a', ha', hh.imp fun d hd => (hd 0).on⟩) fun size => ?_
  exact Ensures.pure fun h hh => ⟨a', ha', hh.imp fun d hd => hd size⟩

end Journal.Writer

/-- An opening answers an engine with the index of the archive, at the end of it. -/
theorem EntryLog.ensures_start {m : Nat} (hm : a.Below m) (hb : m < FileName.sequenceBound) :
    Ensures (Host.Holds mood (a.On s)) (start s.config)
      (fun e h => ∃ a', a.Reopen a' ∧ h.Holds mood (e.At s a'))
      (fun h => ∃ a', a.Reopen a' ∧ h.Failed mood (a'.On s)) := by
  have hmake : Ensures (Host.Holds mood (a.On s)) (Host.createDirectories s.config.dataDir)
      (fun _ => Host.Holds mood (a.On s)) (Host.Failed mood (a.On s)) :=
    Host.ensures_createDirectories fun d hd => ⟨_, hd.data.reaches⟩
  refine Ensures.bind ((hmake.during _ _).weaken (fun _ => id) (fun _ _ => id)
    fun h hh => ⟨a, .same, hh⟩) fun _ => ?_
  refine Ensures.bind (M := fun _ => Host.Holds mood (a.On s))
    (Ensures.note fun h hh => hh.note _) fun _ => ?_
  refine Ensures.bind (ensures_loadCheckpoint.weaken (fun _ => id) (fun _ _ => id)
    fun h hh => ⟨a, .same, hh⟩) fun r => Ensures.fact fun hr => ?_
  rw [hr]
  have hrecover : Ensures (Host.Holds mood (a.On s)) (Journal.recoverFrom s.config.journalDir a.first)
      (fun rs h => rs = a.live.flatMap (·.records) ∧ h.Holds mood (a.On s))
      (Host.Failed mood (a.On s)) :=
    Journal.ensures_recoverFrom (fun d hd => hd.logged) (fun v f hf => hf.scan) a.first
  refine Ensures.bind (hrecover.weaken (fun _ => id) (fun _ _ => id)
    fun h hh => ⟨a, .same, hh⟩) fun rs => Ensures.fact fun hrs => ?_
  have hindex : (Index.replay {} a.newest.records).replay rs = a.index := by
    rw [hrs, ← Index.replay_append, Archive.index, Archive.writes, List.map_append,
      List.map_flatMap]
    rfl
  have hfinish : Ensures (Host.Holds mood (a.On s))
      (do
        let writer ← Journal.Writer.start s.config.journalDir a.first s.config.rotationBytes
          s.config.maxValueSize
        return { dataDir := s.config.dataDir, journalDir := s.config.journalDir, index := a.index,
                 writer : EntryLog })
      (fun e h => ∃ a', a.Reopen a' ∧ h.Holds mood (e.At s a'))
      (fun h => ∃ a', a.Reopen a' ∧ h.Failed mood (a'.On s)) := by
    refine Ensures.bind (Journal.Writer.ensures_start hm hb) fun w => Ensures.pure fun h hh => ?_
    obtain ⟨a', ha', hw⟩ := hh
    refine ⟨a', ha', hw.imp fun d hd => ⟨hd, ?_, rfl, rfl⟩⟩
    rw [Archive.index, Archive.index, ha'.writes]
  dsimp only
  rw [hindex]
  split
  · exact Ensures.bind (M := fun _ => Host.Holds mood (a.On s))
      (Ensures.note fun h hh => hh.note _) fun _ => hfinish
  · exact hfinish

end LedgerStore
