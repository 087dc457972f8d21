import LedgerStore.Proofs.Archive.Reading
import LedgerStore.Proofs.Archive.Site
import LedgerStore.Proofs.Checkpoint.Drafting

set_option autoImplicit false

namespace LedgerStore

def Highest (kind : Nat → Prop) : Option Nat → Prop
  | none => ∀ n, ¬ kind n
  | some m => kind m ∧ ∀ n, kind n → n ≤ m

theorem Path.div_inj {path : Path} {a b : String} (h : path / a = path / b) : a = b := by
  have hnames := congrArg Path.names h
  exact List.singleton_inj.1 (List.append_cancel_left hnames)

namespace Checkpoint

/-- A directory in which every checkpoint has the name that its sequence gives. -/
structure Folder (path : Path) (dir : Place) (d : Disk) : Prop where
  sound : d.WellFormed
  leads : d.Leads path dir
  canonical : ∀ name ∈ d.names dir, ∀ n, fileName.sequence? name = some n →
    name = fileName.render n

def placeOf (dir : Place) (n : Nat) : Place :=
  dir.child (fileName.render n)

def draftOf (dir : Place) (n : Nat) : Place :=
  dir.child (temporaryName n)

def Published (dir : Place) (d : Disk) (n : Nat) : Prop :=
  n < FileName.sequenceBound ∧ d.node? (placeOf dir n) ≠ none

theorem Folder.mem_parsed {path : Path} {dir : Place} {d : Disk} (hd : Folder path dir d) {n : Nat}
    {name : String} : (n, name) ∈ fileName.parsed (d.names dir) ↔
      Published dir d n ∧ name = fileName.render n := by
  rw [FileName.mem_parsed]
  constructor
  · rintro ⟨hmem, hs⟩
    obtain rfl := hd.canonical name hmem n hs
    obtain ⟨node, hnode⟩ := Disk.mem_names.1 hmem
    refine ⟨⟨FileName.sequence?_lt hs, ?_⟩, rfl⟩
    rw [placeOf, hnode]
    exact nofun
  · rintro ⟨⟨hn, hthere⟩, rfl⟩
    exact ⟨Disk.mem_names.2 (Option.ne_none_iff_exists'.1 hthere), fileName.sequence?_render hn⟩

def Newest (path : Path) (dir : Place) (d : Disk) (found : Option (Nat × Path)) : Prop :=
  ∃ best, found = best.map (fun n => (n, path / fileName.render n)) ∧
    Highest (Published dir d) best

theorem Folder.ensures_latest {path : Path} {dir : Place} {d : Disk} {mood : Mood}
    (hd : Folder path dir d) :
    Ensures (Host.Holds mood (· = d)) (latest path)
      (fun found h => Newest path dir d found ∧ h.Holds mood (· = d))
      (Host.Failed mood (· = d)) := by
  have hanswer := hd.leads.lists
  refine (looks_latest.run mood).weaken (fun _ => id) ?_ fun m hm => ⟨hm.1, hm.2 ⟨_, _, hanswer, rfl⟩⟩
  rintro _ m ⟨⟨names, hnames, rfl⟩, hm⟩
  obtain rfl := hnames.unique hanswer
  refine ⟨?_, hm⟩
  rcases highest_cases (d.names dir) with ⟨hnone, hnil⟩ | ⟨⟨n, name⟩, hbest, hmem, hmax⟩
  · refine ⟨none, by rw [hnone]; rfl, fun n hn => ?_⟩
    have hmem := hd.mem_parsed.2 ⟨hn, rfl⟩
    rw [hnil] at hmem
    cases hmem
  · obtain ⟨hn, rfl⟩ := hd.mem_parsed.1 hmem
    exact ⟨some n, by rw [hbest]; rfl, hn, fun k hk => hmax _ (hd.mem_parsed.2 ⟨hk, rfl⟩)⟩

theorem Newest.ne_draft {path : Path} {dir : Place} {d : Disk} {found : Option (Nat × Path)}
    (h : Newest path dir d found) {n : Nat} {file : Path} (hfound : found = some (n, file)) (k : Nat) :
    file ≠ path / temporaryName k := by
  obtain ⟨best, rfl, hbest⟩ := h
  cases best with
  | none => cases hfound
  | some m =>
    cases hfound
    intro heq
    have hs := fileName.sequence?_render hbest.1.1
    rw [Path.div_inj heq, sequence?_temporaryName] at hs
    cases hs

/-! The steps of publishing are those of saving up to the sync of the directory. -/

inductive Stage.Publishes : Stage → Prop
  | create : Publishes .create
  | draft {st : Stage} (h : st.Drafts) : Publishes st
  | publish : Publishes .publish
  | openDirectory : Publishes .openDirectory
  | syncDirectory : Publishes .syncDirectory

def Stage.Underway (st : Stage) : Prop :=
  st.Publishes ∨ st = .listJournals

def Torn (place : Place) (d d' : Disk) : Prop :=
  d' = d ∨ ∃ id kept, d.node? place = some (.file id) ∧
    d' = d.change id fun f => { f with bytes := f.bytes.take kept }

namespace Plan

def issue (p : Plan) : Action Host Path := do
  (Host.rename p.temporary p.final).during p.final "failed to publish checkpoint"
  syncDirectory p.dataDir
  return p.final

def draft (p : Plan) (handle : Handle) (buffer : Bytes) (records : List Record) :
    Action Host Path := do
  let buffer ← writeAll handle p.temporary buffer records
  (flush handle buffer).during p.temporary "checkpoint flush failed"
  (Host.sync handle).during p.temporary "checkpoint sync failed"
  p.issue

def left (p : Plan) : Stage → Action Host Path
  | .create => do
    let handle ← (Host.openFresh p.temporary).during p.temporary "failed to create checkpoint file"
    p.draft handle [] p.records
  | .write handle buffer records => p.draft handle buffer records
  | .accept handle bs records => do
    let buffer ← (accept handle [] bs).during p.temporary "checkpoint write failed"
    p.draft handle buffer records
  | .sync handle => do
    (Host.sync handle).during p.temporary "checkpoint sync failed"
    p.issue
  | .publish => p.issue
  | .openDirectory => do
    syncDirectory p.dataDir
    return p.final
  | .syncDirectory => do
    Host.syncDirectory.during p.dataDir "directory sync failed"
    return p.final
  | _ => return p.final

def leftAfter (p : Plan) : Option Stage → Action Host Path
  | some st => p.left st
  | none => return p.final

theorem write_eq (p : Plan) : write p.dataDir p.sequence p.records = p.left .create := by
  simp only [write, writeFile, left, draft, issue, bind_assoc]
  rfl

/-- What is left to do is a step and what is left to do after it. -/
theorem left_step (p : Plan) {st : Stage} (hst : st.Publishes) :
    p.left st = p.step 0 st >>= p.leftAfter := by
  cases hst with
  | create => simp only [left, step, leftAfter, bind_assoc, pure_bind]
  | draft hdraft =>
    cases hdraft with
    | write handle buffer records =>
      cases records with
      | nil => simp only [left, step, leftAfter, draft, writeAll, bind_assoc, pure_bind]
      | cons r records =>
        simp only [left, step, draft, writeAll, gather]
        split
        · simp only [during_pure, leftAfter, left, draft, pure_bind]
        · split
          · simp only [leftAfter, left, draft, bind_assoc, pure_bind]
          · simp only [during_bind, leftAfter, left, draft, bind_assoc, pure_bind]
    | accept handle bs records => simp only [left, step, leftAfter, bind_assoc, pure_bind]
    | sync handle => simp only [left, step, leftAfter, bind_assoc, pure_bind]
  | publish => simp only [left, step, leftAfter, issue, syncDirectory, bind_assoc, pure_bind]
  | openDirectory => simp only [left, step, leftAfter, syncDirectory, bind_assoc, pure_bind]
  | syncDirectory => simp only [left, step, leftAfter, bind_assoc, pure_bind]

inductive Reaches (p : Plan) (h : Host) : Stage → Host → Prop
  | start : p.Reaches h .create h
  | step {st st' : Stage} {m m' : Host} (there : p.Reaches h st m) (going : st.Publishes)
    (run : p.step 0 st m = .ok (some st') m') : p.Reaches h st' m'

def Fails (p : Plan) (h m : Host) : Prop :=
  ∃ st m' e, p.Reaches h st m' ∧ st.Publishes ∧ p.step 0 st m' = .error e m

/-- Publishing stops before it is done. The process ends between two calls, and any part of what
was written to the draft is there; or a call fails. -/
inductive Stops (p : Plan) (dir : Place) (h : Host) : Host → Prop
  | ended {st : Stage} {m : Host} {d : Disk} (there : p.Reaches h st m) (going : st.Publishes)
    (torn : Torn (draftOf dir p.sequence) m.disk d) : p.Stops dir h { m with disk := d }
  | failed {m : Host} (fails : p.Fails h m) : p.Stops dir h m

theorem underway_step (p : Plan) {st : Stage} (hst : st.Publishes) :
    Ensures (fun _ => True) (p.step 0 st) (fun next _ => ∃ st', next = some st' ∧ st'.Underway)
      (fun _ => True) := by
  have hgo : ∀ {st' : Stage}, st'.Publishes → ∃ x, some st' = some x ∧ x.Underway :=
    fun h => ⟨_, rfl, Or.inl h⟩
  cases hst with
  | create => exact Ensures.answer fun _ => hgo (.draft (.write ..))
  | draft hdraft =>
    cases hdraft with
    | write handle buffer records =>
      cases records with
      | nil => exact Ensures.answer fun _ => hgo (.draft (.sync _))
      | cons r records =>
        simp only [step]
        split
        · exact Ensures.pure fun _ _ => hgo (.draft (.write ..))
        · split
          · exact Ensures.answer fun _ => hgo (.draft (.write ..))
          · exact Ensures.answer fun _ => hgo (.draft (.accept ..))
    | accept handle bs records => exact Ensures.answer fun _ => hgo (.draft (.write ..))
    | sync handle => exact Ensures.answer fun _ => hgo .publish
  | publish => exact Ensures.answer fun _ => hgo .openDirectory
  | openDirectory => exact Ensures.answer fun _ => hgo .syncDirectory
  | syncDirectory => exact Ensures.answer fun _ => ⟨_, rfl, Or.inr rfl⟩

theorem ensures_left (p : Plan) (h : Host) (st : Stage) (hst : st.Underway) :
    Ensures (p.Reaches h st) (p.left st)
      (fun path m => path = p.final ∧ p.Reaches h .listJournals m) (p.Fails h) := by
  -- A stage can come after itself, with a shorter list: the induction is on the distance.
  induction st using Stage.nearer_wellFounded.induction with
  | _ st ih =>
    rcases hst with hst | rfl
    · have hstep : Ensures (p.Reaches h st) (p.step 0 st)
          (fun next m => ∀ st', next = some st' → p.Reaches h st' m) (p.Fails h) := by
        intro m hm
        cases hrun : p.step 0 st m with
        | ok next m' =>
          rintro st' rfl
          exact .step hm hst hrun
        | error e m' => exact ⟨st, m, e, hm, hst, hrun⟩
      have hnext := (hstep.and (p.nearer_step 0 st)).and (p.underway_step hst)
      rw [p.left_step hst]
      refine Ensures.bind hnext fun next => ?_
      rintro m ⟨⟨hreach, hnearer⟩, st', rfl, hst'⟩
      exact ih st' (hnearer st' rfl) hst' m (hreach st' rfl)
    · exact Ensures.pure fun m hm => ⟨rfl, hm⟩

end Plan

/-! What a stage relies on, of the files that were there when publishing began. -/

namespace Plan

variable (p : Plan) (dir : Place) (d₀ : Disk)

structure Unpublished (d : Disk) : Prop where
  sound : d.WellFormed
  leads : d.Leads p.dataDir dir
  kept : ∀ q, q ≠ draftOf dir p.sequence → d₀.Agree d q

structure Issued (d : Disk) : Prop where
  sound : d.WellFormed
  leads : d.Leads p.dataDir dir
  kept : ∀ q, q ≠ draftOf dir p.sequence → q ≠ placeOf dir p.sequence → d₀.Agree d q
  whole : Finished (placeOf dir p.sequence) (Record.written p.records) d

/-- Nothing stands in the way of publishing. -/
structure Clear : Prop where
  draft : d₀.Free (draftOf dir p.sequence)
  final : d₀.node? (placeOf dir p.sequence) ≠ some .directory

structure Spared (d : Disk) : Prop where
  sound : d.WellFormed
  leads : d.Leads p.dataDir dir
  kept : ∀ q, q ≠ draftOf dir p.sequence → q ≠ placeOf dir p.sequence → d₀.Agree d q
  final : d₀.Agree d (placeOf dir p.sequence) ∨
    Finished (placeOf dir p.sequence) (Record.written p.records) d

end Plan

def Stage.Relies (p : Plan) (dir : Place) (d₀ : Disk) : Stage → Disk → Prop
  | .create => (· = d₀)
  | .openDirectory => p.Issued dir d₀
  | .syncDirectory => p.Issued dir d₀
  | .listJournals => p.Issued dir d₀
  | st => fun d => p.Unpublished dir d₀ d ∧
    st.Drafted (draftOf dir p.sequence) (Record.written p.records) d

structure Stage.Stands (p : Plan) (dir : Place) (d₀ : Disk) (mood : Mood) (st : Stage) (h : Host) :
    Prop where
  file : p.Clear dir d₀ → st.handle? ≠ some .full
  holds : h.Holds mood (st.Relies p dir d₀)

theorem placeOf_ne_draft (dir : Place) {n : Nat} (hn : n < FileName.sequenceBound) (k : Nat) :
    placeOf dir n ≠ draftOf dir k := by
  intro heq
  have hs := fileName.sequence?_render hn
  rw [Place.child_inj.1 heq, sequence?_temporaryName] at hs
  cases hs

variable {p : Plan} {dir : Place} {d₀ d : Disk} {mood : Mood}

theorem Plan.Unpublished.beside : Beside (draftOf dir p.sequence) (p.Unpublished dir d₀) where
  sound _ hd := hd.sound
  change _ id f hd hid :=
    { sound := hd.sound.change id f
      leads := hd.leads.keeps (Disk.keeps_change _ id f)
      kept := fun q hq => (hd.kept q hq).trans (Disk.agree_change hd.sound hid f hq) }
  create _ hd hn :=
    have hnames := dir.names_child (temporaryName p.sequence)
    { sound := hd.sound.create hnames
      leads := hd.leads.keeps (Disk.keeps_create hnames (hn ▸ nofun))
      kept := fun q hq => (hd.kept q hq).trans (Disk.agree_create hd.sound hnames hq) }

theorem Plan.Unpublished.spared (h : p.Unpublished dir d₀ d) (hn : p.sequence < FileName.sequenceBound) :
    p.Spared dir d₀ d :=
  ⟨h.sound, h.leads, fun q hq _ => h.kept q hq, Or.inl (h.kept _ (placeOf_ne_draft dir hn _))⟩

theorem Plan.Issued.spared (h : p.Issued dir d₀ d) : p.Spared dir d₀ d :=
  ⟨h.sound, h.leads, h.kept, Or.inr h.whole⟩

theorem Folder.unpublished (hd : Folder p.dataDir dir d₀) : p.Unpublished dir d₀ d₀ :=
  ⟨hd.sound, hd.leads, fun q _ => .refl d₀ q⟩

theorem Stage.Onward.stands {st : Stage} {h : Host}
    (hst : st.Onward (p.Clear dir d₀) (draftOf dir p.sequence) (Record.written p.records)
      (p.Unpublished dir d₀) mood h) : st.Stands p dir d₀ mood h := by
  obtain ⟨hdrafts, hfile, hh⟩ := hst
  rcases hdrafts with hdrafts | rfl
  · cases hdrafts <;> exact ⟨hfile, hh⟩
  · exact ⟨hfile, hh⟩

theorem Stage.Relies.spared (hd : Folder p.dataDir dir d₀) (hn : p.sequence < FileName.sequenceBound)
    {st : Stage} (hst : st.Underway) (h : st.Relies p dir d₀ d) : p.Spared dir d₀ d := by
  rcases hst with hst | rfl
  · cases hst with
    | create =>
      obtain rfl : d = d₀ := h
      exact hd.unpublished.spared hn
    | draft hdraft => cases hdraft <;> exact h.1.spared hn
    | publish => exact h.1.spared hn
    | openDirectory => exact Plan.Issued.spared h
    | syncDirectory => exact Plan.Issued.spared h
  · exact Plan.Issued.spared h

/-- The draft takes the checkpoint's name, from whatever file had it. -/
theorem Plan.Unpublished.issue (h : p.Unpublished dir d₀ d) {id : Nat}
    (hid : d.node? (draftOf dir p.sequence) = some (.file id))
    (hbytes : (d.data id).bytes = Record.written p.records)
    (hsynced : (d.data id).bytes.length ≤ (d.data id).synced)
    (hfinal : d.node? (placeOf dir p.sequence) ≠ some .directory)
    (hne : placeOf dir p.sequence ≠ draftOf dir p.sequence) :
    p.Issued dir d₀ (d.move (draftOf dir p.sequence) (placeOf dir p.sequence) (.file id)) := by
  have hold : (draftOf dir p.sequence).names ≠ [] := dir.names_child _
  have hnew : (placeOf dir p.sequence).names ≠ [] := dir.names_child _
  refine ⟨h.sound.move hold hnew hid, ?_, fun q hdraft hplace =>
    (h.kept q hdraft).trans (Disk.agree_move hold hnew hid hdraft hplace), id, ?_, hbytes, hsynced⟩
  · refine h.leads.keeps ((Disk.keeps_unlink hold (by rw [hid]; nofun)).trans
      (Disk.keeps_link hnew ?_ _))
    rw [Disk.node?_unlink hold, if_neg hne]
    exact hfinal
  · rw [Disk.node?_move hold hnew, if_pos rfl]

theorem ensures_rename (hn : p.sequence < FileName.sequenceBound) :
    Ensures (Host.Holds mood (Stage.publish.Relies p dir d₀)) (Host.rename p.temporary p.final)
      (fun _ => Host.Holds mood (p.Issued dir d₀))
      (Host.FailedIf mood (p.Clear dir d₀) (Stage.publish.Relies p dir d₀)) := by
  have hne := placeOf_ne_draft dir hn p.sequence
  refine Ensures.failedIf (Host.ensures_alter_or fun d hd d' hrun => ?_) fun hclear hcalm => ?_
  · obtain ⟨hun, id, hid, hbytes, hsynced⟩ := hd
    by_cases hdir : d.node? (placeOf dir p.sequence) = some .directory
    · rw [Plan.temporary, Plan.final, hun.leads.rename_onto hid hdir] at hrun
      cases hrun
    · rw [Plan.temporary, Plan.final, hun.leads.rename_div hid nofun hdir] at hrun
      cases hrun
      exact hun.issue hid hbytes hsynced hdir hne
  · have hrename : Ensures (Host.Holds mood (Stage.publish.Relies p dir d₀))
        (Host.rename p.temporary p.final) (fun _ => Host.Holds mood (p.Issued dir d₀))
        (Host.Failed mood (Stage.publish.Relies p dir d₀)) := by
      refine Host.ensures_alter fun d hd => ?_
      obtain ⟨hun, id, hid, hbytes, hsynced⟩ := hd
      have hdir : d.node? (placeOf dir p.sequence) ≠ some .directory := by
        rw [(hun.kept _ hne).node]
        exact hclear.final
      exact ⟨_, hun.leads.rename_div hid nofun hdir, hun.issue hid hbytes hsynced hdir hne⟩
    exact hrename.weaken (fun _ => id) (fun _ _ => id) fun h hh => hh.2 hcalm

theorem ensures_publishing (hd : Folder p.dataDir dir d₀) (hn : p.sequence < FileName.sequenceBound)
    {st : Stage} (hst : st.Publishes) :
    Ensures (st.Stands p dir d₀ mood) (p.step 0 st)
      (fun next h => ∃ st', next = some st' ∧ st'.Stands p dir d₀ mood h)
      (Host.FailedIf mood (p.Clear dir d₀) (p.Spared dir d₀)) := by
  have hbeside : Beside (draftOf dir p.sequence) (p.Unpublished dir d₀) := Plan.Unpublished.beside
  have hfail : ∀ h : Host, h.FailedIf mood (p.Clear dir d₀) (p.Unpublished dir d₀) →
      h.FailedIf mood (p.Clear dir d₀) (p.Spared dir d₀) :=
    fun h hh => ⟨hh.1.imp fun d hd' => hd'.spared hn, hh.2⟩
  have hissued : ∀ h : Host, h.Failed mood (p.Issued dir d₀) →
      h.FailedIf mood (p.Clear dir d₀) (p.Spared dir d₀) :=
    fun h hh => ⟨hh.1.imp fun d hd' => hd'.spared, fun _ => hh.2⟩
  cases hst with
  | create =>
    have hfree : p.Clear dir d₀ → ∀ d, d = d₀ → d.Free (draftOf dir p.sequence) :=
      fun hclear d heq => heq ▸ hclear.draft
    have hcreate : Ensures (Host.Holds mood (· = d₀)) (p.step 0 .create) _ _ :=
      ensures_create hbeside (fun d hd' => hd'.leads) (by rintro d rfl; exact hd.unpublished) hfree 0
    refine hcreate.weaken (fun h hh => hh.holds) ?_ hfail
    rintro _ h ⟨st', rfl, hst'⟩
    exact ⟨st', rfl, hst'.stands⟩
  | draft hdraft =>
    refine Ensures.peek (fun h hh => hh.file) fun hfile => ?_
    have hstep : Ensures (Host.Holds mood fun d => p.Unpublished dir d₀ d ∧
        st.Drafted (draftOf dir p.sequence) (Record.written p.records) d) (p.step 0 st) _ _ :=
      ensures_drafting p hbeside hdraft hfile 0
    refine hstep.weaken (fun h hh => ?_) ?_ hfail
    · cases hdraft <;> exact hh.holds
    · rintro _ h ⟨st', rfl, hst'⟩
      exact ⟨st', rfl, hst'.stands⟩
  | publish =>
    refine Ensures.bind (((ensures_rename hn).during _ _).weaken (fun h hh => hh.holds)
      (fun _ _ => id) fun h hh => ⟨hh.1.imp fun d hd' => hd'.1.spared hn, hh.2⟩) fun _ => ?_
    exact Ensures.pure fun h hh => ⟨_, rfl, fun _ => nofun, hh⟩
  | openDirectory =>
    have hopen : Ensures (Host.Holds mood (p.Issued dir d₀)) (Host.openDirectory p.dataDir)
        (fun _ => Host.Holds mood (p.Issued dir d₀)) (Host.Failed mood (p.Issued dir d₀)) :=
      Host.ensures_ask fun d hd' => ⟨(), by rw [hd'.leads.locate]; rfl, hd'⟩
    refine Ensures.bind ((hopen.during _ _).weaken (fun h hh => hh.holds) (fun _ _ => id) hissued)
      fun _ => ?_
    exact Ensures.pure fun h hh => ⟨_, rfl, fun _ => nofun, hh⟩
  | syncDirectory =>
    have hsync : Ensures (Host.Holds mood (p.Issued dir d₀)) Host.syncDirectory
        (fun _ => Host.Holds mood (p.Issued dir d₀)) (Host.Failed mood (p.Issued dir d₀)) :=
      Host.ensures_ask fun d hd' => ⟨(), rfl, hd'⟩
    refine Ensures.bind ((hsync.during _ _).weaken (fun h hh => hh.holds) (fun _ _ => id) hissued)
      fun _ => ?_
    exact Ensures.pure fun h hh => ⟨_, rfl, fun _ => nofun, hh⟩

theorem Plan.Reaches.stands {h m : Host} {st : Stage} (hreach : p.Reaches h st m)
    (hd : Folder p.dataDir dir h.disk) (hn : p.sequence < FileName.sequenceBound) :
    st.Underway ∧ st.Stands p dir h.disk (· ∈ h.faults) m := by
  induction hreach with
  | start => exact ⟨Or.inl .create, fun _ => nofun, rfl, fun _ hf => hf⟩
  | @step st st' m m' _ going run ih =>
    have hstep := ((ensures_publishing hd hn going).and (p.underway_step going)) m ih.2
    rw [run] at hstep
    obtain ⟨⟨_, ⟨⟩, hstands⟩, _, ⟨⟩, hunderway⟩ := hstep
    exact ⟨hunderway, hstands⟩

theorem Plan.Fails.spared {h m : Host} (hfails : p.Fails h m) (hd : Folder p.dataDir dir h.disk)
    (hn : p.sequence < FileName.sequenceBound) :
    m.FailedIf (· ∈ h.faults) (p.Clear dir h.disk) (p.Spared dir h.disk) := by
  obtain ⟨st, m', e, hthere, hgoing, hrun⟩ := hfails
  have hstep := ensures_publishing hd hn hgoing m' (hthere.stands hd hn).2
  rwa [hrun] at hstep

theorem Plan.Spared.torn {d' : Disk} (h : p.Spared dir d₀ d)
    (hn : p.sequence < FileName.sequenceBound) (ht : Torn (draftOf dir p.sequence) d d') :
    p.Spared dir d₀ d' := by
  rcases ht with rfl | ⟨id, kept, hid, rfl⟩
  · exact h
  · have hagree := fun q => Disk.agree_change h.sound hid
      (fun f => { f with bytes := f.bytes.take kept }) (q := q)
    have hne := placeOf_ne_draft dir hn p.sequence
    refine ⟨h.sound.change id _, h.leads.keeps (Disk.keeps_change d id _),
      fun q hdraft hplace => (h.kept q hdraft hplace).trans (hagree q hdraft), ?_⟩
    refine h.final.imp (fun hfinal => hfinal.trans (hagree _ hne)) ?_
    rintro ⟨other, hother, hwhole⟩
    have happart : other ≠ id := fun heq => hne (h.sound.apart _ _ id (heq ▸ hother) hid)
    refine ⟨other, hother, ?_⟩
    rwa [Disk.data_change (h.sound.there _ _ hid), if_neg happart]

theorem Plan.Stops.spared {h m : Host} (hstop : p.Stops dir h m)
    (hd : Folder p.dataDir dir h.disk) (hn : p.sequence < FileName.sequenceBound) :
    p.Spared dir h.disk m.disk := by
  cases hstop with
  | ended there going torn =>
    obtain ⟨hunderway, hstands⟩ := there.stands hd hn
    exact (Stage.Relies.spared hd hn hunderway hstands.holds.disk).torn hn torn
  | failed fails => exact (fails.spared hd hn).1.disk

theorem Plan.Spared.published (h : p.Spared dir d₀ d) {n : Nat} (hne : n ≠ p.sequence)
    (hn : p.sequence < FileName.sequenceBound) : Published dir d n ↔ Published dir d₀ n := by
  refine and_congr_right fun hbound => ?_
  have hplace : placeOf dir n ≠ placeOf dir p.sequence := fun heq =>
    hne (fileName.render_inj hbound hn (Place.child_inj.1 heq))
  rw [(h.kept _ (placeOf_ne_draft dir hbound _) hplace).node]

theorem Plan.Issued.published (h : p.Issued dir d₀ d) (hn : p.sequence < FileName.sequenceBound)
    (n : Nat) : Published dir d n ↔ n = p.sequence ∨ Published dir d₀ n := by
  by_cases hne : n = p.sequence
  · obtain ⟨id, hid, -⟩ := h.whole
    rw [hne]
    exact iff_of_true ⟨hn, by rw [hid]; nofun⟩ (Or.inl rfl)
  · rw [h.spared.published hne hn, or_iff_right hne]

theorem Plan.Spared.folder (h : p.Spared dir d₀ d) (hd : Folder p.dataDir dir d₀)
    (hn : p.sequence < FileName.sequenceBound) : Folder p.dataDir dir d where
  sound := h.sound
  leads := h.leads
  canonical name hmem n hs := by
    by_cases hfinal : name = fileName.render p.sequence
    · have hseq := fileName.sequence?_render hn
      rw [← hfinal, hs] at hseq
      rw [hfinal, Option.some.inj hseq]
    · have hdraft : dir.child name ≠ draftOf dir p.sequence := by
        intro heq
        rw [Place.child_inj.1 heq, sequence?_temporaryName] at hs
        cases hs
      have hkept := h.kept _ hdraft fun heq => hfinal (Place.child_inj.1 heq)
      obtain ⟨node, hnode⟩ := Disk.mem_names.1 hmem
      exact hd.canonical name (Disk.mem_names.2 ⟨node, hkept.node ▸ hnode⟩) n hs

theorem Plan.Issued.load {m : Host} (h : p.Issued dir d₀ m.disk) (fits : ∀ r ∈ p.records, r.Fits) :
    m.Answers (load p.final) p.records := by
  have hat : ∀ d, d = m.disk → d.Leads p.dataDir dir ∧
      ∃ f, d.fileAt? (dir.child (fileName.render p.sequence)) = some f ∧
        Record.scan f.bytes = p.records := by
    rintro d rfl
    obtain ⟨id, hid, hbytes, -⟩ := h.whole
    refine ⟨h.leads, _, Disk.fileAt?_of_node? hid, ?_⟩
    rw [hbytes]
    simpa using Record.scan_written fits Record.torn_nil
  obtain ⟨_, after, hrun, rfl, -⟩ := Host.answers_calm (P := (· = m.disk)) m rfl
    (Record.ensures_readFile_at hat) fun h hh => hh.2
  exact ⟨after, hrun⟩

theorem Folder.latest {path : Path} {m : Host} (hd : Folder path dir m.disk) :
    ∃ found, m.Answers (latest path) found ∧ Newest path dir m.disk found := by
  obtain ⟨found, after, hrun, hnewest, -⟩ :=
    Host.answers_calm (P := (· = m.disk)) m rfl hd.ensures_latest fun h hh => hh.2
  exact ⟨found, ⟨after, hrun⟩, hnewest⟩

/-- What a published checkpoint gives: it reads back, and is found unless there is a newer one. -/
structure Plan.Done (p : Plan) (dir : Place) (d₀ : Disk) (path : Path) (m : Host) : Prop where
  named : path = p.final
  load : m.Answers (load path) p.records
  latest : ∃ best, m.Answers (latest p.dataDir) (some (best, p.dataDir / fileName.render best)) ∧
    Highest (fun n => n = p.sequence ∨ Published dir d₀ n) (some best)
  kept : ∀ q, q ≠ draftOf dir p.sequence → q ≠ placeOf dir p.sequence → d₀.Agree m.disk q

structure Plan.Harmless (p : Plan) (dir : Place) (d₀ : Disk) (m : Host) : Prop where
  kept : ∀ q, q ≠ draftOf dir p.sequence → q ≠ placeOf dir p.sequence → d₀.Agree m.disk q
  final : d₀.Agree m.disk (placeOf dir p.sequence) ∨
    Finished (placeOf dir p.sequence) (Record.written p.records) m.disk
  latest : ∃ found, m.Answers (latest p.dataDir) found ∧ Newest p.dataDir dir m.disk found
  undrafted : ∀ faults n path after,
    Checkpoint.latest p.dataDir (m.facing faults) = .ok (some (n, path)) after →
      path ≠ p.temporary

theorem Plan.Issued.done {m : Host} (h : p.Issued dir d₀ m.disk) (hd : Folder p.dataDir dir d₀)
    (hn : p.sequence < FileName.sequenceBound) (fits : ∀ r ∈ p.records, r.Fits) :
    p.Done dir d₀ p.final m where
  named := rfl
  load := h.load fits
  latest := by
    obtain ⟨_, hrun, best, rfl, hbest⟩ := (h.spared.folder hd hn).latest
    have hpublished := funext fun n => propext (h.published hn n)
    rw [hpublished] at hbest
    cases best with
    | none => exact absurd (Or.inl rfl) (hbest p.sequence)
    | some best => exact ⟨best, hrun, hbest⟩
  kept := h.kept

theorem Plan.Spared.harmless {m : Host} (h : p.Spared dir d₀ m.disk) (hd : Folder p.dataDir dir d₀)
    (hn : p.sequence < FileName.sequenceBound) : p.Harmless dir d₀ m where
  kept := h.kept
  final := h.final
  latest := (h.folder hd hn).latest
  undrafted faults n path after hrun := by
    have hlatest := (h.folder hd hn).ensures_latest (m.facing faults)
      (Host.holds_facing (P := (· = m.disk)) rfl faults)
    rw [hrun] at hlatest
    exact hlatest.1.ne_draft rfl p.sequence

/-- Publishing is all or nothing: it answers when the checkpoint is there, an error is a stop, which
without faults comes only if something stands in the way, and no stop does harm. -/
theorem publish_all_or_nothing (p : Plan) (dir : Place) (h : Host)
    (hd : Folder p.dataDir dir h.disk) (hn : p.sequence < FileName.sequenceBound)
    (fits : ∀ r ∈ p.records, r.Fits) :
    (∀ path m, write p.dataDir p.sequence p.records h = .ok path m → p.Done dir h.disk path m) ∧
      (∀ e m, write p.dataDir p.sequence p.records h = .error e m →
        p.Stops dir h m ∧ (p.Clear dir h.disk → ∃ f ∈ h.faults, f ≠ .clear)) ∧
      ∀ m, p.Stops dir h m → p.Harmless dir h.disk m := by
  have hwrite := p.ensures_left h .create (Or.inl .create) h .start
  rw [← p.write_eq] at hwrite
  refine ⟨fun path m hrun => ?_, fun e m hrun => ?_, fun m hm => (hm.spared hd hn).harmless hd hn⟩
  · rw [hrun] at hwrite
    obtain ⟨rfl, hreach⟩ := hwrite
    exact Plan.Issued.done (hreach.stands hd hn).2.holds.disk hd hn fits
  · rw [hrun] at hwrite
    refine ⟨.failed hwrite, fun hclear => ?_⟩
    have hfault := (hwrite.spared hd hn).2 hclear
    simpa [Mood.Calm] using hfault

def leftDisk : Disk :=
  ((Site.smallDisk.create (placeOf Site.small.dataDir 1)).1.create (draftOf Site.small.dataDir 2)).1

theorem folder_leftDisk : Folder Site.small.config.dataDir Site.small.dataDir leftDisk where
  sound :=
    have hempty : Site.smallDisk.WellFormed := Site.small_vacant.sound
    (hempty.create (Place.names_child _ _)).create (Place.names_child _ _)
  leads := ⟨by decide +kernel, by decide +kernel⟩
  canonical name hmem n hs := by
    have hall : ∀ name ∈ leftDisk.names Site.small.dataDir, ∀ n ∈ fileName.sequence? name,
      name = fileName.render n := by decide +kernel
    exact hall name hmem n hs

theorem publish_all_or_nothing_small :
    let p : Plan := ⟨Site.small.config.dataDir, Site.small.config.journalDir, 2, [⟨⟨1, 0⟩, [7]⟩]⟩
    (∃ path m, write p.dataDir p.sequence p.records { disk := leftDisk } = .ok path m ∧
      p.Done Site.small.dataDir leftDisk path m) ∧
    ∃ e m, write p.dataDir p.sequence p.records
        { disk := leftDisk, faults := [.clear, .cut 5 "full"] } = .error e m ∧
      p.Harmless Site.small.dataDir leftDisk m := by
  intro p
  have hn : p.sequence < FileName.sequenceBound := by decide
  have hfits : ∀ r ∈ p.records, r.Fits := by
    have hshort : ∀ r ∈ p.records, r.value.length < 2 ^ 31 := by decide
    exact fun r hr => .of_length (hshort r hr)
  constructor
  · obtain ⟨hdone, hstop, -⟩ := publish_all_or_nothing p Site.small.dataDir { disk := leftDisk }
      folder_leftDisk hn hfits
    cases hrun : write p.dataDir p.sequence p.records { disk := leftDisk } with
    | ok path m => exact ⟨path, m, rfl, hdone path m hrun⟩
    | error e m =>
      have hclear : p.Clear Site.small.dataDir leftDisk :=
        ⟨⟨by decide +kernel, by decide +kernel⟩, by decide +kernel⟩
      obtain ⟨f, hf, -⟩ := (hstop e m hrun).2 hclear
      cases hf
  · obtain ⟨-, hstop, hharmless⟩ := publish_all_or_nothing p Site.small.dataDir
      { disk := leftDisk, faults := [.clear, .cut 5 "full"] } folder_leftDisk hn hfits
    have hfails : (match write p.dataDir p.sequence p.records
        { disk := leftDisk, faults := [.clear, .cut 5 "full"] } with
      | .ok _ _ => false
      | .error _ _ => true) = true := by decide +kernel
    cases hrun : write p.dataDir p.sequence p.records
        { disk := leftDisk, faults := [.clear, .cut 5 "full"] } with
    | ok path m => rw [hrun] at hfails; cases hfails
    | error e m => exact ⟨e, m, rfl, hharmless m (hstop e m hrun).1⟩

end Checkpoint

end LedgerStore
