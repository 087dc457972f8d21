import LedgerStore.Proofs.Archive.Reading
import LedgerStore.Proofs.Archive.Site
import LedgerStore.Proofs.Journal.Removal

set_option autoImplicit false

namespace LedgerStore.Journal

structure Readable (path : Path) (dir : Place) (d : Disk) : Prop where
  sound : d.WellFormed
  leads : d.Leads path dir
  once : (d.names dir).Nodup
  stored : ∀ name ∈ d.names dir, fileName.sequence? name ≠ none →
    ∃ f, d.fileAt? (dir.child name) = some f

def In (dir : Place) (d : Disk) (file : File) : Prop :=
  file.2 ∈ d.names dir ∧ fileName.sequence? file.2 = some file.1

def recordsIn (dir : Place) (d : Disk) (file : File) : List Record :=
  match d.fileAt? (dir.child file.2) with
  | some f => Record.scan f.bytes
  | none => []

structure Trimmed (dir : Place) (gone : List File) (d d' : Disk) : Prop where
  removed : ∀ file ∈ gone, d'.node? (dir.child file.2) = none
  kept : ∀ q, (∀ file ∈ gone, q ≠ dir.child file.2) → d.Agree d' q

structure Cleared (path : Path) (dir : Place) (gone : List File) (d d' : Disk) : Prop
    extends Trimmed dir gone d d' where
  sound : d'.WellFormed
  leads : d'.Leads path dir
  once : (d'.names dir).Nodup

variable {path : Path} {dir : Place} {d d' : Disk} {mood : Mood} {gone fs : List File} {s : Nat}

namespace Readable

theorem cleared (hd : Readable path dir d) (h : d.Loses path dir (gone.map (·.2)) d') :
    Cleared path dir gone d d' := by
  obtain ⟨rfl, hleads⟩ := h
  exact
    { sound := hd.sound.without dir _
      leads := hleads
      once := Disk.nodup_without hd.once _
      removed := fun file hfile => Disk.node?_without (List.mem_map_of_mem hfile)
      kept := fun q hq => Disk.agree_without (List.forall_mem_map.2 hq) }

theorem reads (hd : Readable path dir d) {file : File} (hfile : In dir d file) :
    ∃ f, d.fileAt? (dir.child file.2) = some f ∧ Record.scan f.bytes = recordsIn dir d file := by
  obtain ⟨f, hf⟩ := hd.stored file.2 hfile.1 (by rw [hfile.2]; nofun)
  exact ⟨f, hf, by rw [recordsIn, hf]⟩

theorem ensures_list (hd : Readable path dir d) :
    Ensures (Host.Holds mood (· = d)) (list path)
      (fun found h => found = files (d.names dir) ∧ h.Holds mood (· = d))
      (Host.Failed mood (· = d)) := by
  have hat : ∀ d', d' = d → d'.Leads path dir ∧ files (d'.names dir) = files (d.names dir) := by
    rintro _ rfl
    exact ⟨hd.leads, rfl⟩
  exact ensures_list_at hat

theorem recovers {m : Host} (hd : Readable path dir m.disk)
    (hfs : Listed (fun file => In dir m.disk file ∧ s ≤ file.1) fs) :
    m.Answers (recoverFrom path s) (fs.flatMap (recordsIn dir m.disk)) := by
  have hsame : (files (m.disk.names dir)).filter (fun file => s ≤ file.1) = fs :=
    (((listed_files hd.once).filter _).congr fun file => by simp [In]).unique hfs
  have hreads : Reads m.disk path (fs.map id) (fs.flatMap (recordsIn dir m.disk)) := by
    refine reads_map fun file hfile => ?_
    obtain ⟨f, hf, hscan⟩ := hd.reads ((hfs.mem file).1 hfile).1
    exact ⟨f.bytes, hd.leads.read_div hf, hscan⟩
  rw [List.map_id] at hreads
  exact (looks_recoverFrom s).answers ⟨_, ⟨_, hd.leads.lists, rfl⟩, hsame ▸ hreads⟩

end Readable

namespace Cleared

theorem mem_iff (h : Cleared path dir gone d d') (file : File) :
    In dir d' file ↔ In dir d file ∧ ∀ other ∈ gone, other.2 ≠ file.2 := by
  by_cases hgone : ∀ other ∈ gone, other.2 ≠ file.2
  · have hkept := h.kept (dir.child file.2) fun other hother heq =>
      hgone other hother (Place.child_inj.1 heq).symm
    rw [In, In, Disk.mem_names, Disk.mem_names, hkept.node]
    exact (and_iff_left hgone).symm
  · refine iff_of_false (fun hin => ?_) fun hin => hgone hin.2
    push Not at hgone
    obtain ⟨other, hother, heq⟩ := hgone
    obtain ⟨node, hnode⟩ := Disk.mem_names.1 hin.1
    rw [← heq, h.removed other hother] at hnode
    cases hnode

theorem agree (h : Cleared path dir gone d d') {file : File} (hfile : In dir d' file) :
    d.Agree d' (dir.child file.2) :=
  h.kept _ fun other hother heq => ((h.mem_iff file).1 hfile).2 other hother (Place.child_inj.1 heq).symm

theorem recordsIn (h : Cleared path dir gone d d') {file : File} (hfile : In dir d' file) :
    recordsIn dir d' file = Journal.recordsIn dir d file := by
  rw [Journal.recordsIn, Journal.recordsIn, (h.agree hfile).file]

theorem readable (h : Cleared path dir gone d d') (hd : Readable path dir d) :
    Readable path dir d' where
  sound := h.sound
  leads := h.leads
  once := h.once
  stored name hmem hs := by
    obtain ⟨n, hn⟩ := Option.ne_none_iff_exists'.1 hs
    have hfile : In dir d' (n, name) := ⟨hmem, hn⟩
    obtain ⟨f, hf⟩ := hd.stored name ((h.mem_iff _).1 hfile).1.1 hs
    exact ⟨f, (h.agree hfile).file.trans hf⟩

end Cleared

theorem ensures_removeBefore (hd : Readable path dir d)
    (hfs : Listed (fun file => In dir d file ∧ file.1 < s) fs) :
    Ensures (Host.Holds mood (· = d)) (removeBefore path s)
      (fun n h => n = fs.length ∧ h.Holds mood (Cleared path dir fs d))
      (fun h => ∃ gone, gone <+: fs ∧ h.Failed mood (Cleared path dir gone d)) := by
  have hfiles : d.Files dir (fs.map (·.2)) := by
    constructor
    · refine hfs.once.map_on fun a ha b hb heq => ?_
      have hsa := ((hfs.mem a).1 ha).1.2
      have hsb := ((hfs.mem b).1 hb).1.2
      rw [heq, hsb] at hsa
      exact Prod.ext (Option.some.inj hsa).symm heq
    · refine List.forall_mem_map.2 fun file hmem => ?_
      obtain ⟨f, hf, -⟩ := hd.reads ((hfs.mem file).1 hmem).1
      obtain ⟨id, hid, -⟩ := Disk.fileAt?_eq_some.1 hf
      exact ⟨id, hid⟩
  refine Ensures.bind (hd.ensures_list.weaken (fun _ => id) (fun _ _ => id)
    fun h hh => ⟨[], List.nil_prefix, hh.imp ?_⟩) fun found => Ensures.fact fun hfound => ?_
  · rintro _ rfl
    exact hd.cleared hd.leads.loses_nil
  · have hlisted := listed_files hd.once
    have hsame : found.takeWhile (fun file => file.1 < s) = fs := by
      rw [hfound, (hlisted.split s).2]
      exact ((hlisted.filter _).congr fun file => by simp [In]).unique hfs
    rw [hsame]
    refine (ensures_removeAll hd.leads "failed to remove journal file" _).weaken (fun _ => id) ?_ ?_
    · rintro n h ⟨hn, hh⟩
      exact ⟨by rw [hn, List.length_map], hh.imp fun _ => hd.cleared⟩
    · rintro h ⟨names, hprefix, hh, hfault⟩
      obtain ⟨gone, hgone, rfl⟩ := List.prefix_map_iff.1 hprefix
      exact ⟨gone, hgone, hh.imp fun _ => hd.cleared, hfault hfiles⟩

/-- A trimming below a sequence leaves the files from the sequence on. -/
theorem Cleared.above (h : Cleared path dir gone d d')
    (hgone : ∀ file ∈ gone, In dir d file ∧ file.1 < s) (file : File) :
    In dir d file ∧ s ≤ file.1 ↔ In dir d' file ∧ s ≤ file.1 := by
  rw [h.mem_iff]
  refine ⟨fun hfile => ⟨⟨hfile.1, fun other hother heq => ?_⟩, hfile.2⟩,
    fun hfile => ⟨hfile.1.1, hfile.2⟩⟩
  obtain ⟨⟨-, hs⟩, hlt⟩ := hgone other hother
  rw [heq, hfile.1.2, Option.some.injEq] at hs
  omega

theorem Cleared.recovers {m m' : Host} {t : Nat} (h : Cleared path dir gone m.disk m'.disk)
    (hd : Readable path dir m.disk)
    (hfs : Listed (fun file => In dir m'.disk file ∧ t ≤ file.1) fs) :
    m'.Answers (recoverFrom path t) (fs.flatMap (Journal.recordsIn dir m.disk)) := by
  have hrecords : fs.flatMap (Journal.recordsIn dir m'.disk) =
      fs.flatMap (Journal.recordsIn dir m.disk) := by
    rw [List.flatMap_def, List.flatMap_def]
    exact congrArg List.flatten (List.map_congr_left fun file hfile =>
      h.recordsIn ((hfs.mem file).1 hfile).1)
  exact hrecords ▸ (h.readable hd).recovers hfs

/-- Trimming splits a journal exactly at a sequence: what is replayed is what the files below it
hold, lowest first, and then what is replayed from it on. Trimming removes files below it, lowest
first and none else, and all of them if it answers; what is replayed from it on stays. -/
theorem trims_exactly {m : Host} (hd : Readable path dir m.disk) (s : Nat) :
    ∃ below rest, Listed (fun file => In dir m.disk file ∧ file.1 < s) below ∧
      m.Answers (recoverFrom path s) rest ∧
      m.Answers (recover path) (below.flatMap (recordsIn dir m.disk) ++ rest) ∧
      (∀ n m', removeBefore path s m = .ok n m' →
        n = below.length ∧ Trimmed dir below m.disk m'.disk ∧
          (∀ file, In dir m'.disk file → s ≤ file.1) ∧
          m'.Answers (recoverFrom path s) rest ∧ m'.Answers (recover path) rest) ∧
      ∀ e m', removeBefore path s m = .error e m' →
        (∃ gone, gone <+: below ∧ Trimmed dir gone m.disk m'.disk) ∧
          m'.Answers (recoverFrom path s) rest ∧ ∃ f ∈ m.faults, f ≠ .clear := by
  have hlisted := listed_files hd.once
  have hbelow : Listed (fun file => In dir m.disk file ∧ file.1 < s)
      ((files (m.disk.names dir)).filter fun file => file.1 < s) :=
    (hlisted.filter _).congr fun file => by simp [In]
  have habove : Listed (fun file => In dir m.disk file ∧ s ≤ file.1)
      ((files (m.disk.names dir)).filter fun file => s ≤ file.1) :=
    (hlisted.filter _).congr fun file => by simp [In]
  have hall : Listed (fun file => In dir m.disk file ∧ 0 ≤ file.1) (files (m.disk.names dir)) :=
    hlisted.congr fun file => by simp [In]
  have hsplit := (hlisted.split s).1
  set below := (files (m.disk.names dir)).filter fun file => file.1 < s
  set above := (files (m.disk.names dir)).filter fun file => s ≤ file.1
  have hgone : ∀ gone, gone <+: below → ∀ file ∈ gone, In dir m.disk file ∧ file.1 < s :=
    fun gone hgone file hfile => (hbelow.mem file).1 (hgone.subset hfile)
  have htrim : Ensures (Host.Holds (· ∈ m.faults) (· = m.disk)) _ _ _ :=
    ensures_removeBefore hd hbelow
  have hremove := htrim m ⟨rfl, fun _ hf => hf⟩
  refine ⟨below, above.flatMap (recordsIn dir m.disk), hbelow, hd.recovers habove, ?_,
    fun n m' hrun => ?_, fun e m' hrun => ?_⟩
  · rw [← List.flatMap_append, hsplit]
    exact hd.recovers hall
  · rw [hrun] at hremove
    obtain ⟨hn, hcleared, -⟩ := hremove
    have hrest := habove.congr (hcleared.above (hgone below List.prefix_rfl))
    have hnone : ∀ file, In dir m'.disk file → s ≤ file.1 := by
      intro file hfile
      obtain ⟨hin, hnot⟩ := (hcleared.mem_iff file).1 hfile
      by_contra hlt
      exact hnot file ((hbelow.mem file).2 ⟨hin, Nat.lt_of_not_le hlt⟩) rfl
    have hwhole : Listed (fun file => In dir m'.disk file ∧ 0 ≤ file.1) above :=
      hrest.congr fun file => and_congr_right fun hfile => iff_of_true (hnone file hfile) file.1.zero_le
    exact ⟨hn, hcleared.toTrimmed, hnone, hcleared.recovers hd hrest, hcleared.recovers hd hwhole⟩
  · rw [hrun] at hremove
    obtain ⟨gone, hprefix, ⟨hcleared, -⟩, hfault⟩ := hremove
    have hrest := habove.congr (hcleared.above (hgone gone hprefix))
    exact ⟨⟨gone, hprefix, hcleared.toTrimmed⟩, hcleared.recovers hd hrest,
      by simpa [Mood.Calm] using hfault⟩

/-- A journal with three files, of which one has an odd name, among others. -/
def oddDisk : Disk :=
  let dir := Site.small.journalDir
  let d := (Site.smallDisk.create (dir.child (fileName.render 4))).1
  let d := (d.create (dir.child "journal-a.log")).1
  let d := (d.create (dir.child "notes")).1
  (d.create (dir.child "journal-1.log")).1.change 0 fun f =>
    { f with bytes := Record.bytes ⟨⟨1, 0⟩, [7]⟩ }

theorem readable_oddDisk : Readable Site.small.config.journalDir Site.small.journalDir oddDisk where
  sound :=
    have hempty : Site.smallDisk.WellFormed := Site.small_vacant.sound
    have hnames := Place.names_child Site.small.journalDir
    ((((hempty.create (hnames _)).create (hnames _)).create (hnames _)).create (hnames _)).change _ _
  leads := ⟨by decide +kernel, by decide +kernel⟩
  once := by decide +kernel
  stored name hmem _ := by
    have hall : ∀ name ∈ oddDisk.names Site.small.journalDir,
        (oddDisk.fileAt? (Site.small.journalDir.child name)).isSome := by decide +kernel
    exact Option.isSome_iff_exists.1 (hall name hmem)

theorem trims_exactly_odd :
    let path := Site.small.config.journalDir
    let m : Host := { disk := oddDisk }
    ∃ below rest m', m.Answers (recover path)
        (below.flatMap (recordsIn Site.small.journalDir oddDisk) ++ rest) ∧
      removeBefore path 10 m = .ok below.length m' ∧
      Trimmed Site.small.journalDir below oddDisk m'.disk ∧ m'.Answers (recover path) rest := by
  intro path m
  obtain ⟨below, rest, -, -, hrecover, hok, herror⟩ :=
    trims_exactly (m := m) readable_oddDisk 10
  cases hrun : removeBefore path 10 m with
  | ok n m' =>
    obtain ⟨rfl, htrimmed, -, -, hrest⟩ := hok n m' hrun
    exact ⟨below, rest, m', hrecover, rfl, htrimmed, hrest⟩
  | error e m' =>
    obtain ⟨-, -, f, hf, -⟩ := herror e m' hrun
    cases hf

end LedgerStore.Journal
