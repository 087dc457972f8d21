import LedgerStore.Config
import LedgerStore.Proofs.Archive.Basic
import LedgerStore.Proofs.Archive.Listing

set_option autoImplicit false

namespace LedgerStore

structure Site where
  config : Config
  dataDir : Place
  journalDir : Place

namespace Site

def journalPlace (s : Site) (n : Nat) : Place :=
  s.journalDir.child (Journal.fileName.render n)

def checkpointPlace (s : Site) (n : Nat) : Place :=
  s.dataDir.child (Checkpoint.fileName.render n)

def temporaryPlace (s : Site) (n : Nat) : Place :=
  s.dataDir.child (Checkpoint.temporaryName n)

theorem names_journalPlace (s : Site) (n : Nat) : (s.journalPlace n).names ≠ [] :=
  Place.names_child _ _

theorem names_checkpointPlace (s : Site) (n : Nat) : (s.checkpointPlace n).names ≠ [] :=
  Place.names_child _ _

structure Elsewhere (s : Site) (p : Place) : Prop where
  journal : Outside Journal.fileName s.journalDir p
  checkpoint : Outside Checkpoint.fileName s.dataDir p
  names : p.names ≠ []

theorem outside_journalPlace (s : Site) (n : Nat) :
    Outside Checkpoint.fileName s.dataDir (s.journalPlace n) :=
  Outside.child (Checkpoint.sequence?_journal n)

theorem outside_checkpointPlace (s : Site) (n : Nat) :
    Outside Journal.fileName s.journalDir (s.checkpointPlace n) :=
  Outside.child (Journal.sequence?_eq_none (FileName.before_begins_render _ n))

theorem elsewhere_temporaryPlace (s : Site) (n : Nat) : s.Elsewhere (s.temporaryPlace n) where
  journal := Outside.child (Journal.sequence?_eq_none (Checkpoint.before_begins_temporaryName n))
  checkpoint := Outside.child (Checkpoint.sequence?_temporaryName n)
  names := s.dataDir.names_child _

theorem journalPlace_ne_temporary (s : Site) (n m : Nat) :
    s.journalPlace n ≠ s.temporaryPlace m := by
  intro heq
  have hj := FileName.before_begins_render Journal.fileName n
  rw [Place.name_eq_of_child heq] at hj
  exact Journal.before_apart hj (Checkpoint.before_begins_temporaryName m)

theorem elsewhere_unfinished (s : Site) {name : String}
    (hn : Checkpoint.fileName.sequence? name = none)
    (hb : Checkpoint.fileName.before <+: name.toList) : s.Elsewhere (s.dataDir.child name) where
  journal := Outside.child (Journal.sequence?_eq_none hb)
  checkpoint := Outside.child hn
  names := s.dataDir.names_child _

end Site

/-- The files in the directories say what the archive says. -/
structure Archive.On (a : Archive) (s : Site) (d : Disk) : Prop where
  sound : d.WellFormed
  data : d.Leads s.config.dataDir s.dataDir
  logs : d.Leads s.config.journalDir s.journalDir
  journal : Shelf Journal.fileName s.journalDir a.journal d
  checkpoints : Shelf Checkpoint.fileName s.dataDir a.checkpoints d
  whole : ∀ v ∈ a.checkpoints, v.Whole

structure Site.Vacant (s : Site) (d : Disk) : Prop where
  sound : d.WellFormed
  data : d.Leads s.config.dataDir s.dataDir
  logs : d.Leads s.config.journalDir s.journalDir
  journal : ∀ name ∈ d.names s.journalDir, Journal.fileName.sequence? name = none
  checkpoints : ∀ name ∈ d.names s.dataDir, Checkpoint.fileName.sequence? name = none

theorem Shelf.nil {kind : FileName} {dir : Place} {d : Disk}
    (h : ∀ name ∈ d.names dir, kind.sequence? name = none) : Shelf kind dir [] d :=
  Shelf.numbered.2 (Numbered.nil h)

theorem Site.Vacant.on {s : Site} {d : Disk} (h : s.Vacant d) : Archive.On {} s d where
  sound := h.sound
  data := h.data
  logs := h.logs
  journal := .nil h.journal
  checkpoints := .nil h.checkpoints
  whole v hv := by cases hv

def Site.small : Site where
  config := Config.ephemeral ⟨"", []⟩
  dataDir := ⟨0, ["data"]⟩
  journalDir := ⟨0, ["journal"]⟩

def Site.smallDisk : Disk where
  nodes := [(⟨0, ["data"]⟩, .directory), (⟨0, ["journal"]⟩, .directory)]

theorem Site.small_vacant : Site.small.Vacant Site.smallDisk where
  sound := .of_directories (by decide)
  data := ⟨by decide, by decide⟩
  logs := ⟨by decide, by decide⟩
  journal := by decide
  checkpoints := by decide

namespace Archive.On

variable {a : Archive} {s : Site} {d : Disk}

theorem change_elsewhere (h : a.On s d) {p : Place} {id : Nat} (hp : s.Elsewhere p)
    (hid : d.node? p = some (.file id)) (f : FileData → FileData) : a.On s (d.change id f) where
  sound := h.sound.change id f
  data := h.data.keeps (Disk.keeps_change d id f)
  logs := h.logs.keeps (Disk.keeps_change d id f)
  journal := h.journal.change_outside h.sound hp.journal hid f
  checkpoints := h.checkpoints.change_outside h.sound hp.checkpoint hid f
  whole := h.whole

theorem create_elsewhere (h : a.On s d) {p : Place} (hp : s.Elsewhere p)
    (hn : d.node? p = none) : a.On s (d.create p).1 := by
  have hkeeps : d.Keeps (d.create p).1 := Disk.keeps_create hp.names (by simp [hn])
  exact
    { sound := h.sound.create hp.names
      data := h.data.keeps hkeeps
      logs := h.logs.keeps hkeeps
      journal := h.journal.create_outside h.sound hp.journal hp.names
      checkpoints := h.checkpoints.create_outside h.sound hp.checkpoint hp.names
      whole := h.whole }

theorem unlink_elsewhere (h : a.On s d) {p : Place} (hp : s.Elsewhere p)
    (hn : d.node? p ≠ some .directory) : a.On s (d.unlink p) := by
  have hkeeps : d.Keeps (d.unlink p) := Disk.keeps_unlink hp.names hn
  exact
    { sound := h.sound.unlink hp.names
      data := h.data.keeps hkeeps
      logs := h.logs.keeps hkeeps
      journal := h.journal.unlink_outside hp.journal hp.names
      checkpoints := h.checkpoints.unlink_outside hp.checkpoint hp.names
      whole := h.whole }

theorem amend (h : a.On s d) (ha : a.Open) {id : Nat}
    (hid : d.node? (s.journalPlace a.current.sequence) = some (.file id))
    {f : FileData → FileData} {v : Volume} (hs : v.sequence = a.current.sequence)
    (hf : ∀ data, a.current.Holds data → v.Holds (f data)) :
    (a.amend v).On s (d.change id f) where
  sound := h.sound.change id f
  data := h.data.keeps (Disk.keeps_change d id f)
  logs := h.logs.keeps (Disk.keeps_change d id f)
  journal := by
    have hj := h.journal
    rw [ha.split] at hj
    exact hj.change h.sound hid hs hf
  checkpoints := h.checkpoints.change_outside h.sound (s.outside_journalPlace _) hid f
  whole := h.whole

theorem extend (h : a.On s d) {n : Nat} (hn : n < FileName.sequenceBound)
    (hlast : ∀ v ∈ a.journal, v.sequence < n) :
    (a.extend n).On s (d.create (s.journalPlace n)).1 := by
  have habs := h.journal.absent hn fun v hv => Nat.ne_of_lt (hlast v hv)
  have hnames := s.names_journalPlace n
  have hkeeps : d.Keeps (d.create (s.journalPlace n)).1 :=
    Disk.keeps_create hnames (by rw [Site.journalPlace, habs]; simp)
  exact
    { sound := h.sound.create hnames
      data := h.data.keeps hkeeps
      logs := h.logs.keeps hkeeps
      journal := h.journal.create h.sound hn hlast
      checkpoints := h.checkpoints.create_outside h.sound (s.outside_journalPlace n) hnames
      whole := h.whole }

theorem publish (h : a.On s d) {old : Place} {id : Nat} (ho : s.Elsewhere old)
    (hid : d.node? old = some (.file id)) {v : Volume} (hn : v.sequence < FileName.sequenceBound)
    (hlast : ∀ c ∈ a.checkpoints, c.sequence < v.sequence) (hv : v.Holds (d.data id))
    (hw : v.Whole) :
    (a.publish v).On s (d.move old (s.checkpointPlace v.sequence) (.file id)) := by
  have hnames := s.names_checkpointPlace v.sequence
  have habs := h.checkpoints.absent hn fun c hc => Nat.ne_of_lt (hlast c hc)
  have habs' : (d.unlink old).node? (s.checkpointPlace v.sequence) = none := by
    rw [Disk.node?_unlink ho.names, Site.checkpointPlace, habs, ite_self]
  have hkeeps : d.Keeps (d.move old (s.checkpointPlace v.sequence) (.file id)) :=
    (Disk.keeps_unlink ho.names (by simp [hid])).trans
      (Disk.keeps_link hnames (by simp [habs']) _)
  exact
    { sound := h.sound.move ho.names hnames hid
      data := h.data.keeps hkeeps
      logs := h.logs.keeps hkeeps
      journal := h.journal.move_outside ho.journal (s.outside_checkpointPlace _) ho.names hnames hid
      checkpoints := h.checkpoints.publish ho.checkpoint ho.names hid hn hlast hv
      whole := fun c hc => by
        rcases List.mem_append.1 hc with hc | hc
        · exact h.whole c hc
        · rw [List.mem_singleton.1 hc]
          exact hw }

theorem trim (h : a.On s d) {v : Volume} (hv : v ∈ a.journal) :
    (a.trim v.sequence).On s (d.unlink (s.journalPlace v.sequence)) := by
  have hnames := s.names_journalPlace v.sequence
  obtain ⟨f, hf, -⟩ := h.journal.stored v hv
  obtain ⟨id, hid, -⟩ := Disk.fileAt?_eq_some.1 hf
  have hkeeps : d.Keeps (d.unlink (s.journalPlace v.sequence)) :=
    Disk.keeps_unlink hnames (by rw [Site.journalPlace, hid]; simp)
  exact
    { sound := h.sound.unlink hnames
      data := h.data.keeps hkeeps
      logs := h.logs.keeps hkeeps
      journal := h.journal.unlink hv
      checkpoints := h.checkpoints.unlink_outside (s.outside_journalPlace _) hnames
      whole := h.whole }

theorem discard (h : a.On s d) {v : Volume} (hv : v ∈ a.checkpoints) :
    (a.discard v.sequence).On s (d.unlink (s.checkpointPlace v.sequence)) := by
  have hnames := s.names_checkpointPlace v.sequence
  obtain ⟨f, hf, -⟩ := h.checkpoints.stored v hv
  obtain ⟨id, hid, -⟩ := Disk.fileAt?_eq_some.1 hf
  have hkeeps : d.Keeps (d.unlink (s.checkpointPlace v.sequence)) :=
    Disk.keeps_unlink hnames (by rw [Site.checkpointPlace, hid]; simp)
  exact
    { sound := h.sound.unlink hnames
      data := h.data.keeps hkeeps
      logs := h.logs.keeps hkeeps
      journal := h.journal.unlink_outside (s.outside_checkpointPlace _) hnames
      checkpoints := h.checkpoints.unlink hv
      whole := fun c hc => h.whole c (List.mem_of_mem_filter hc) }

/-- A crash takes nothing from the checkpoints, and of the journal only what was not synced. -/
theorem cut (h : a.On s d) (keep : Nat → Nat) :
    ∃ g : Volume → Volume, (∀ v ∈ a.journal, v.Cut (g v)) ∧ (a.cut g).On s (d.cut keep) := by
  obtain ⟨g, hg, hjournal⟩ := h.journal.cut keep
  obtain ⟨g', hg', hcheckpoints⟩ := h.checkpoints.cut keep
  have hsame : a.checkpoints.map g' = a.checkpoints := by
    exact (List.map_congr_left fun v hv => (hg' v hv).eq_of_whole (h.whole v hv)).trans
      (List.map_id' _)
  exact ⟨g, hg,
    { sound := h.sound.cut keep
      data := h.data.keeps fun _ hp => hp
      logs := h.logs.keeps fun _ hp => hp
      journal := hjournal
      checkpoints := hsame ▸ hcheckpoints
      whole := h.whole }⟩

end Archive.On

end LedgerStore
