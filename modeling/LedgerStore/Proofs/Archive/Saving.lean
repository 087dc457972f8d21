import LedgerStore.Proofs.Archive.Opening
import LedgerStore.Proofs.Checkpoint.Drafting

set_option autoImplicit false

namespace LedgerStore

/-- What a step of saving makes of an archive. A published checkpoint agrees with the writes that
it covers, and only what it covers goes afterwards. -/
inductive Archive.Tidy (a : Archive) : Archive → Prop
  | stay : Tidy a a
  | publish (v : Volume) (whole : v.Whole) (above : ∀ c ∈ a.checkpoints, c.sequence < v.sequence)
      (reached : v.sequence ≤ a.current.sequence)
      (agree : Write.Digest v.writes (a.covered v.sequence)) :
      Tidy a (a.publish v)
  | trim (n : Nat) (below : n < a.first) : Tidy a (a.trim n)
  | discard (n : Nat) (below : n < a.first) : Tidy a (a.discard n)

namespace Archive.Tidy

variable {a a' : Archive}

theorem last? (h : a.Tidy a') (ha : Ascending a.journal) (key : Key) :
    Write.last? a'.writes key = Write.last? a.writes key := by
  cases h with
  | stay => rfl
  | publish v whole above reached agree =>
    exact Archive.last?_publish ha (a.first_le fun c hc => Nat.le_of_lt (above c hc)) agree.last key
  | trim n below => rw [writes_trim below]
  | discard n below => rw [writes_discard below]

theorem index (h : a.Tidy a') (ha : Ascending a.journal) : a'.index = a.index :=
  Write.replay_congr (h.last? ha)

theorem current (h : a.Tidy a') (ha : a.Open) : a'.current = a.current := by
  cases h with
  | stay => rfl
  | publish v whole above reached agree => rfl
  | trim n below => exact ha.current_trim (Nat.lt_of_lt_of_le below ha.first_le)
  | discard n below => rfl

end Archive.Tidy

namespace Checkpoint

structure Plan.For (p : Plan) (s : Site) (a : Archive) : Prop where
  dataDir : p.dataDir = s.config.dataDir
  journalDir : p.journalDir = s.config.journalDir
  reached : p.sequence ≤ a.current.sequence

/-- The plan is still to be published, and its records agree with the writes that it covers. -/
structure Plan.Due (p : Plan) (a : Archive) : Prop where
  above : ∀ c ∈ a.checkpoints, c.sequence < p.sequence
  fits : ∀ r ∈ p.records, r.Fits
  agree : ∃ ws : List Write, ws.map (·.record) = p.records ∧
    Write.Digest ws (a.covered p.sequence)

def Plan.Wants (p : Plan) (s : Site) (handle : Handle) (bs : Bytes) (d : Disk) : Prop :=
  ∀ id, handle = .file id → d.node? (s.temporaryPlace p.sequence) = some (.file id) ∧
    (d.data id).bytes ++ bs = Record.written p.records

def Stage.Good (p : Plan) (a : Archive) : Stage → Prop
  | .create => p.Due a
  | .write _ _ _ => p.Due a
  | .accept _ _ _ => p.Due a
  | .sync _ => p.Due a
  | .publish => p.Due a
  | .openDirectory => p.sequence ≤ a.first
  | .syncDirectory => p.sequence ≤ a.first
  | .listJournals => p.sequence ≤ a.first
  | .trim names _ => p.sequence ≤ a.first ∧
      ∀ name ∈ names, ∃ n < p.sequence, Journal.fileName.sequence? name = some n
  | .listCheckpoints _ => p.sequence ≤ a.first
  | .discard names _ _ => p.sequence ≤ a.first ∧ ∀ name ∈ names, stale p.sequence name = true

def Stage.Draft (p : Plan) (s : Site) : Stage → Disk → Prop
  | .write handle buffer rest => p.Wants s handle (buffer ++ Record.written rest)
  | .accept handle bs rest => p.Wants s handle (bs ++ Record.written rest)
  | .sync handle => p.Wants s handle []
  | .publish => fun d => ∃ id, d.node? (s.temporaryPlace p.sequence) = some (.file id) ∧
      (d.data id).bytes = Record.written p.records ∧ (d.data id).bytes.length ≤ (d.data id).synced
  | _ => fun _ => True

def Plan.Saves (p : Plan) (w : Journal.Writer) (mood : Mood) (s : Site) (a : Archive)
    (st : Stage) (h : Host) : Prop :=
  (p.For s a ∧ st.Good p a) ∧ h.Holds mood fun d => w.At s a d ∧ st.Draft p s d

variable {p : Plan} {w : Journal.Writer} {mood : Mood} {s : Site} {a : Archive}

theorem Plan.steady_file (p : Plan) (s : Site) (G : FileData → Prop) (id : Nat) :
    s.Steady fun d => d.node? (s.temporaryPlace p.sequence) = some (.file id) ∧ G (d.data id) where
  change d n other f hd hn h := by
    have hne : id ≠ other := fun heq =>
      s.journalPlace_ne_temporary n p.sequence (hd.apart _ _ other hn (heq ▸ h.1))
    refine ⟨h.1, ?_⟩
    rw [Disk.data_change (hd.there _ _ hn), if_neg hne]
    exact h.2
  create d n hd h := by
    have hne := (s.journalPlace_ne_temporary n p.sequence).symm
    refine ⟨by rw [Disk.node?_create (s.names_journalPlace n), if_neg hne, h.1], ?_⟩
    rw [Disk.data_create_of_lt (hd.there _ _ h.1)]
    exact h.2

theorem Plan.steady_wants (p : Plan) (s : Site) (handle : Handle) (bs : Bytes) :
    s.Steady (p.Wants s handle bs) where
  change d n other f hd hn h id hid :=
    (p.steady_file s (fun data => data.bytes ++ bs = Record.written p.records) id).change
      d n other f hd hn (h id hid)
  create d n hd h id hid :=
    (p.steady_file s (fun data => data.bytes ++ bs = Record.written p.records) id).create
      d n hd (h id hid)

theorem Stage.steady (p : Plan) (s : Site) (st : Stage) : s.Steady (st.Draft p s) := by
  cases st with
  | write handle buffer rest => exact p.steady_wants s handle _
  | accept handle bs rest => exact p.steady_wants s handle _
  | sync handle => exact p.steady_wants s handle _
  | publish =>
    have hfile := p.steady_file s fun data =>
      data.bytes = Record.written p.records ∧ data.bytes.length ≤ data.synced
    exact
      { change := fun d n other f hd hn ⟨id, h⟩ => ⟨id, (hfile id).change d n other f hd hn h⟩
        create := fun d n hd ⟨id, h⟩ => ⟨id, (hfile id).create d n hd h⟩ }
  | _ => exact ⟨fun _ _ _ _ _ _ _ => trivial, fun _ _ _ _ => trivial⟩

theorem Stage.Good.congr {a' : Archive} {st : Stage} (h : st.Good p a)
    (hc : a'.checkpoints = a.checkpoints) (hw : a'.covered p.sequence = a.covered p.sequence) :
    st.Good p a' := by
  have hfirst : a'.first = a.first := by rw [Archive.first, Archive.first, Archive.newest, hc]; rfl
  have hdue : p.Due a → p.Due a' := fun hd => ⟨hc ▸ hd.above, hd.fits, hw ▸ hd.agree⟩
  cases st with
  | create => exact hdue h
  | write handle buffer rest => exact hdue h
  | accept handle bs rest => exact hdue h
  | sync handle => exact hdue h
  | publish => exact hdue h
  | trim names removed => exact ⟨hfirst ▸ h.1, h.2⟩
  | discard names journals removed => exact ⟨hfirst ▸ h.1, h.2⟩
  | _ => exact (hfirst ▸ h : p.sequence ≤ a'.first)

theorem beside_temporary (w : Journal.Writer) (s : Site) (a : Archive) (n : Nat) :
    Beside (s.temporaryPlace n) (w.At s a) where
  sound _ hd := hd.on.sound
  change _ _ f hd hid := hd.change_elsewhere (s.elsewhere_temporaryPlace n) hid f
  create _ hd hn := hd.create_elsewhere (s.elsewhere_temporaryPlace n) hn

/-- What holds after a step, which saving may have come to its end with. Then the checkpoint is
published, or a newer one is. -/
def Plan.Stepped (p : Plan) (w : Journal.Writer) (mood : Mood) (s : Site) (a : Archive) :
    Option Stage → Host → Prop
  | some st => fun h => ∃ a', a.Tidy a' ∧ p.Saves w mood s a' st h
  | none => fun h => ∃ a', a.Tidy a' ∧ p.sequence ≤ a'.first ∧ h.Holds mood (w.At s a')

theorem Plan.For.temporary (hp : p.For s a) :
    p.temporary = s.config.dataDir / temporaryName p.sequence := by
  rw [Plan.temporary, hp.dataDir]

theorem Plan.For.final (hp : p.For s a) :
    p.final = s.config.dataDir / fileName.render p.sequence := by
  rw [Plan.final, hp.dataDir]

theorem ensures_publish (hp : p.For s a) (hdue : p.Due a) :
    ∃ a', a.Tidy a' ∧ p.For s a' ∧ p.sequence ≤ a'.first ∧
      Ensures (Host.Holds mood fun d => w.At s a d ∧ Stage.publish.Draft p s d)
        (Host.rename p.temporary p.final) (fun _ => Host.Holds mood (w.At s a'))
        (Host.Holds mood (w.At s a)) := by
  obtain ⟨ws, hws, hagree⟩ := hdue.agree
  have hrecords : (⟨p.sequence, ws, [], []⟩ : Volume).records = p.records := by
    simp [Volume.records, Volume.writes, hws]
  have hkeep : Write.Digest (⟨p.sequence, ws, [], []⟩ : Volume).writes
      (a.covered p.sequence) := by simpa [Volume.writes] using hagree
  refine ⟨a.publish ⟨p.sequence, ws, [], []⟩,
    .publish _ ⟨rfl, rfl⟩ hdue.above hp.reached hkeep, ⟨hp.dataDir, hp.journalDir, hp.reached⟩,
    by rw [Archive.first, Archive.newest_publish], ?_⟩
  rw [hp.temporary, hp.final]
  have hrename : Ensures (Host.Holds mood fun d => w.At s a d ∧ Stage.publish.Draft p s d)
      (Host.rename (s.config.dataDir / temporaryName p.sequence)
        (s.config.dataDir / fileName.render p.sequence))
      (fun _ => Host.Holds mood (w.At s (a.publish ⟨p.sequence, ws, [], []⟩)))
      (Host.Holds mood fun d => w.At s a d ∧ Stage.publish.Draft p s d) := by
    refine Host.ensures_alter_or fun d hd d' hrun => ?_
    obtain ⟨hat, id, hid, hbytes, hsynced⟩ := hd
    have hbound : p.sequence < FileName.sequenceBound :=
      Nat.lt_of_le_of_lt hp.reached (hat.on.journal.bounded hat.ready.mem)
    have habs := hat.on.checkpoints.absent hbound fun c hc => Nat.ne_of_lt (hdue.above c hc)
    rw [hat.on.data.rename_div hid (by simp) (by rw [habs]; simp)] at hrun
    cases hrun
    refine hat.publish (s.elsewhere_temporaryPlace _) hid hdue.above hp.reached ?_ ⟨rfl, rfl⟩
    exact
      { bytes := by rw [hrecords, hbytes, List.append_nil]
        synced := by rw [hws, ← hbytes]; exact hsynced
        fits := by rw [hrecords]; exact hdue.fits
        torn := Record.torn_nil }
  exact hrename.weaken (fun _ => id) (fun _ _ => id) fun h hh => hh.imp fun d hd => hd.1

theorem ensures_trim (hp : p.For s a) {name : String} {n : Nat} (hn : n < p.sequence)
    (hs : Journal.fileName.sequence? name = some n) :
    Ensures (Host.Holds mood (w.At s a)) (Host.remove (p.journalDir / name))
      (fun _ => Host.Holds mood (w.At s (a.trim n))) (Host.Holds mood (w.At s a)) := by
  rw [hp.journalDir]
  refine Host.ensures_alter_or fun d hd d' hrun => ?_
  rcases hd.on.logs.remove_cases name with ⟨e, he⟩ | ⟨node, hnode, hdir, hok⟩
  · rw [he] at hrun; cases hrun
  · rw [hok] at hrun
    cases hrun
    obtain ⟨v, hv, rfl, rfl⟩ :=
      hd.on.logged.2.canonical (Disk.mem_names.2 ⟨node, hnode⟩) hs
    exact hd.trim hv (Nat.lt_of_lt_of_le hn hp.reached)

variable (mood w) in
theorem ensures_discard (hp : p.For s a) (hfirst : p.sequence ≤ a.first) {name : String}
    (hs : stale p.sequence name = true) :
    ∃ a', a.Tidy a' ∧ p.For s a' ∧ p.sequence ≤ a'.first ∧
      Ensures (Host.Holds mood (w.At s a)) (Host.remove (p.dataDir / name))
        (fun _ => Host.Holds mood (w.At s a')) (Host.Holds mood (w.At s a)) := by
  rw [hp.dataDir]
  cases hseq : fileName.sequence? name with
  | some n =>
    have hn : n < p.sequence := by simpa [stale, hseq] using hs
    have hlt : n < a.first := Nat.lt_of_lt_of_le hn hfirst
    refine ⟨a.discard n, .discard n hlt, ⟨hp.dataDir, hp.journalDir, hp.reached⟩,
      by rwa [Archive.first, Archive.newest_discard hlt], ?_⟩
    refine Host.ensures_alter_or fun d hd d' hrun => ?_
    rcases hd.on.data.remove_cases name with ⟨e, he⟩ | ⟨node, hnode, hdir, hok⟩
    · rw [he] at hrun; cases hrun
    · rw [hok] at hrun
      cases hrun
      obtain ⟨v, hv, rfl, rfl⟩ :=
        hd.on.saved.2.canonical (Disk.mem_names.2 ⟨node, hnode⟩) hseq
      exact hd.discard hv
  | none =>
    have hb : fileName.before <+: name.toList := by
      simp only [stale, hseq, Bool.and_eq_true, List.isPrefixOf_iff_prefix] at hs
      exact hs.1
    refine ⟨a, .stay, hp, hfirst, Host.ensures_alter_or fun d hd d' hrun => ?_⟩
    rcases hd.on.data.remove_cases name with ⟨e, he⟩ | ⟨node, hnode, hdir, hok⟩
    · rw [he] at hrun; cases hrun
    · rw [hok] at hrun
      cases hrun
      exact hd.unlink_elsewhere (s.elsewhere_unfinished hseq hb) (by simpa [hnode] using hdir)

theorem ensures_trimming (hp : p.For s a) (names : List String) (removed pick : Nat)
    (hgood : (Stage.trim names removed).Good p a) :
    Ensures (Host.Holds mood (w.At s a)) (p.step pick (.trim names removed))
      (p.Stepped w mood s a) (Host.Holds mood (w.At s a)) := by
  cases names with
  | nil =>
    exact Ensures.pure fun h hh => ⟨a, .stay, ⟨hp, hgood.1⟩, hh.imp fun d hd => ⟨hd, trivial⟩⟩
  | cons name names =>
    obtain ⟨hfirst, hnames⟩ := hgood
    obtain ⟨n, hn, hs⟩ := hnames name List.mem_cons_self
    have hlt : n < a.first := Nat.lt_of_lt_of_le hn hfirst
    refine Ensures.peek (fun h hh => hh.disk.ready) fun hready => ?_
    have hcur : (a.trim n).current = a.current :=
      hready.current_trim (Nat.lt_of_lt_of_le hn hp.reached)
    refine Ensures.bind ((ensures_trim hp hn hs).during _ _) fun _ => Ensures.pure fun h hh => ?_
    exact ⟨a.trim n, .trim n hlt, ⟨⟨hp.dataDir, hp.journalDir, hcur ▸ hp.reached⟩, hfirst,
      fun x hx => hnames x (List.mem_cons_of_mem _ hx)⟩, hh.imp fun d hd => ⟨hd, trivial⟩⟩

theorem ensures_discarding (hp : p.For s a) (names : List String) (journals removed pick : Nat)
    (hgood : (Stage.discard names journals removed).Good p a) :
    Ensures (Host.Holds mood (w.At s a)) (p.step pick (.discard names journals removed))
      (p.Stepped w mood s a) (Host.Holds mood (w.At s a)) := by
  cases names with
  | nil =>
    refine Ensures.bind (M := fun _ => Host.Holds mood (w.At s a))
      (Ensures.note fun h hh => hh.note _) fun _ => ?_
    exact Ensures.pure fun h hh => ⟨a, .stay, hgood.1, hh⟩
  | cons name names =>
    obtain ⟨hfirst, hnames⟩ := hgood
    obtain ⟨a', ha', hp', hfirst', hremove⟩ :=
      ensures_discard w mood hp hfirst (hnames _ (Stage.picked_mem pick name names))
    refine Ensures.bind (hremove.during _ _) fun _ => Ensures.pure fun h hh => ?_
    exact ⟨a', ha', ⟨hp', hfirst', fun x hx => hnames x (List.mem_of_mem_erase hx)⟩,
      hh.imp fun d hd => ⟨hd, trivial⟩⟩

theorem Stage.Onward.saves {C : Prop} {st : Stage} {h : Host}
    (hst : st.Onward C (s.temporaryPlace p.sequence) (Record.written p.records) (w.At s a) mood h)
    (hp : p.For s a) (hdue : p.Due a) : p.Saves w mood s a st h := by
  obtain ⟨hdrafts, -, hh⟩ := hst
  rcases hdrafts with hdrafts | rfl
  · cases hdrafts <;> exact ⟨⟨hp, hdue⟩, hh⟩
  · exact ⟨⟨hp, hdue⟩, hh⟩

theorem ensures_draft (hp : p.For s a) (hdue : p.Due a) {st : Stage} (hst : st.Drafts)
    (pick : Nat) :
    Ensures (Host.Holds mood fun d => w.At s a d ∧ st.Draft p s d) (p.step pick st)
      (p.Stepped w mood s a) (Host.Holds mood (w.At s a)) := by
  have hdraft : Ensures (Host.Holds mood fun d => w.At s a d ∧
      st.Drafted (s.temporaryPlace p.sequence) (Record.written p.records) d) (p.step pick st) _ _ :=
    ensures_drafting p (beside_temporary w s a p.sequence) hst False.elim pick
  refine hdraft.weaken (fun h hh => ?_) ?_ fun h hh => hh.1
  · cases hst <;> exact hh
  · rintro _ h ⟨st', rfl, hst'⟩
    exact ⟨a, .stay, hst'.saves hp hdue⟩

/-- A step keeps what saving relies on. If it ends with an error the archive is as it was. -/
theorem ensures_step (p : Plan) (pick : Nat) (st : Stage) :
    Ensures (p.Saves w mood s a st) (p.step pick st) (p.Stepped w mood s a)
      (Host.Holds mood (w.At s a)) := by
  refine Ensures.fact fun hfacts => ?_
  obtain ⟨hp, hgood⟩ := hfacts
  have hquiet : ∀ h : Host, (h.Holds mood fun d => w.At s a d ∧ True) → h.Holds mood (w.At s a) :=
    fun h hh => hh.imp fun d hd => hd.1
  cases st with
  | create =>
    have hcreate : Ensures (Host.Holds mood (w.At s a)) (p.step pick .create) _ _ :=
      ensures_create (beside_temporary w s a p.sequence) (fun d hd => hp.dataDir ▸ hd.on.data)
        (fun _ => id) False.elim pick
    refine hcreate.weaken hquiet ?_ fun h hh => hh.1
    rintro _ h ⟨st', rfl, hst'⟩
    exact ⟨a, .stay, hst'.saves hp hgood⟩
  | write handle buffer records => exact ensures_draft hp hgood (.write ..) pick
  | accept handle bs records => exact ensures_draft hp hgood (.accept ..) pick
  | sync handle => exact ensures_draft hp hgood (.sync ..) pick
  | publish =>
    obtain ⟨a', ha', hp', hfirst, hrename⟩ := ensures_publish hp hgood
    refine Ensures.bind (hrename.during _ _) fun _ => ?_
    exact Ensures.pure fun h hh => ⟨a', ha', ⟨hp', hfirst⟩, hh.imp fun d hd => ⟨hd, trivial⟩⟩
  | openDirectory =>
    refine Ensures.bind (((Host.ensures_ask_or fun d hd _ _ => hd).during _ _).weaken
      (fun _ => id) (fun _ _ => id) hquiet) fun _ => ?_
    exact Ensures.pure fun h hh => ⟨a, .stay, ⟨hp, hgood⟩, hh⟩
  | syncDirectory =>
    refine Ensures.bind (((Host.ensures_ask_or fun d hd _ _ => hd).during _ _).weaken
      (fun _ => id) (fun _ _ => id) hquiet) fun _ => ?_
    exact Ensures.pure fun h hh => ⟨a, .stay, ⟨hp, hgood⟩, hh⟩
  | listJournals =>
    simp only [Plan.step, hp.journalDir]
    refine Ensures.bind ((Journal.ensures_list fun d hd => hd.1.on.logged).weaken (fun _ => id)
      (fun _ _ => id) fun h hh => hquiet h hh.1) fun files => Ensures.fact fun hfiles => ?_
    refine Ensures.pure fun h hh => ⟨a, .stay, ⟨hp, hgood, ?_⟩, hh⟩
    intro name hname
    obtain ⟨file, hfile, rfl⟩ := List.mem_map.1 hname
    have hlt := List.mem_takeWhile_imp hfile
    have hmem := (List.takeWhile_sublist _).mem hfile
    rw [hfiles] at hmem
    obtain ⟨v, hv, rfl⟩ := List.mem_map.1 hmem
    exact ⟨v.sequence, of_decide_eq_true hlt, hh.disk.1.on.logged.2.sequence? hv⟩
  | trim names removed =>
    exact (ensures_trimming hp names removed pick hgood).weaken hquiet (fun _ _ => id) fun _ => id
  | listCheckpoints journals =>
    refine Ensures.bind (((Host.ensures_ask_or fun d hd _ _ => hd).during _ _).weaken
      (fun _ => id) (fun _ _ => id) hquiet) fun names => ?_
    exact Ensures.pure fun h hh => ⟨a, .stay, ⟨hp, hgood, fun name hname =>
      (List.mem_filter.1 hname).2⟩, hh⟩
  | discard names journals removed =>
    exact (ensures_discarding hp names journals removed pick hgood).weaken hquiet (fun _ _ => id)
      fun _ => id

end Checkpoint

end LedgerStore
