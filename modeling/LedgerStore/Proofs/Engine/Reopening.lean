import LedgerStore.Engine.EntryLog
import LedgerStore.Proofs.Archive.Reading
import LedgerStore.Proofs.Archive.Site
import LedgerStore.Proofs.Disk.Making
import LedgerStore.Proofs.Record.Skipping

/-!
Opening the engine again. An opening that ends well changes no file; it makes the directories that
are missing and at most one empty file. Opening once more, without a write, gives the same engine
and changes nothing at all: all files are read again, the empty one adds no record, and the
sequence to write is chosen as before, since the empty file is used again.
-/

set_option autoImplicit false

namespace LedgerStore

def Unnumbered (name : String) : Prop :=
  Checkpoint.fileName.sequence? name = none ∧ Journal.fileName.sequence? name = none

namespace Disk

variable {d d' : Disk} {path : Path} {dir : Place} {names names' : List String}

theorem lists_empty (d : Disk) (h : path.isEmpty = true) : d.Lists path [] :=
  Or.inr ⟨⟨.missing, by rw [Disk.list, Disk.find, if_pos h]; rfl, rfl⟩, rfl⟩

theorem list_eq_ok (h : d.list path = .ok names) : ∃ dir, d.Leads path dir ∧ names = d.names dir := by
  rw [Disk.list] at h
  cases hfind : d.find path with
  | error e => rw [hfind] at h; cases h
  | ok dir =>
    simp only [hfind, bind, Except.bind] at h
    cases hexpect : d.expectDirectory dir with
    | error e => rw [hexpect] at h; cases h
    | ok u =>
      rw [hexpect] at h
      cases h
      exact ⟨dir, ⟨hfind, expectDirectory_eq_ok.1 hexpect⟩, rfl⟩

theorem Rooted.names_eq_nil (hd : d.Rooted) (h : d.node? dir ≠ some .directory) :
    d.names dir = [] := by
  rw [List.eq_nil_iff_forall_not_mem]
  intro name hname
  obtain ⟨node, hnode⟩ := mem_names.1 hname
  exact h (hd dir name (by rw [hnode]; nofun))

theorem Reaches.lists (hr : d.Reaches path dir) :
    d.Lists path (if path.isEmpty then [] else d.names dir) := by
  split
  · next hempty => exact d.lists_empty hempty
  · next hne => exact (hr.leads (by simpa using hne)).lists

namespace Furnished

variable {way : Place → Prop}

theorem free (h : Furnished way d d') : Furnished (fun q => way q ∧ d.node? q = none) d d' := by
  induction h with
  | refl => exact .refl
  | @make d' p name before above free onWay ih =>
    refine ih.make above free ⟨onWay, ?_⟩
    by_contra hthere
    obtain ⟨node, hnode⟩ := Option.ne_none_iff_exists'.1 hthere
    rw [before.extension.node _ _ hnode] at free
    cases free

theorem parsed {kind : FileName} (h : Furnished way d d')
    (hway : ∀ q, way q → Outside kind dir q) :
    kind.parsed (d'.names dir) = kind.parsed (d.names dir) := by
  induction h with
  | refl => rfl
  | make _ _ _ onWay ih => rw [parsed_link (hway _ onWay), ih]

theorem unnumbered {steps : List Step} (h : Furnished (OnWay steps) d d')
    (hway : d.Passable Unnumbered {} steps) :
    Furnished (fun q => ∃ (p : Place) (name : String), q = p.child name ∧ Unnumbered name) d d' := by
  refine h.free.mono ?_
  rintro q ⟨⟨front, name, rest, rfl, rfl⟩, hfree⟩
  rcases hway.named with hthere | hname
  · rw [hthere] at hfree; cases hfree
  · exact ⟨_, name, rfl, hname⟩

theorem listed (h : Furnished (OnWay path.steps) d d') (hd : d.Rooted)
    (hway : d.Passable Unnumbered {} path.steps) (hr : d'.Reaches path dir)
    (hl : d.Lists path names) (hl' : d'.Lists path names') :
    Journal.fileName.parsed names' = Journal.fileName.parsed names := by
  have hparsed : Journal.fileName.parsed (d'.names dir) = Journal.fileName.parsed (d.names dir) := by
    refine (h.unnumbered hway).parsed ?_
    rintro _ ⟨p, name, rfl, hname⟩
    exact Outside.child hname.2
  obtain rfl := hl'.unique hr.lists
  by_cases hempty : path.isEmpty = true
  · rw [if_pos hempty, hl.unique (d.lists_empty hempty)]
  · rw [if_neg hempty, hparsed]
    by_cases hthere : d.node? dir = some .directory
    · have hdir : dir = Place.follow {} path.steps := follow_of_walk hr.walk
      rw [hdir] at hthere
      have hr₀ : d.Reaches path dir := ⟨hdir ▸ hway.walk hd rfl hthere, hdir ▸ hthere⟩
      rw [hl.unique hr₀.lists, if_neg hempty]
    · rw [hd.names_eq_nil hthere]
      rcases hl with hok | ⟨-, hnil⟩
      · obtain ⟨dir', hleads, rfl⟩ := list_eq_ok hok
        have hsame : dir' = dir := by
          have hwalk := h.extension.keeps.walk hleads.walk
          exact Except.ok.inj (hwalk.symm.trans hr.walk)
        exact absurd (hsame ▸ hleads.there) hthere
      · rw [hnil]

end Furnished

/-- A file opened for appending is there, as it was or new, and opens again without a change. -/
theorem Reaches.openAppend_cases (hr : d.Reaches path dir) {name : String} {handle : Handle}
    (hrun : d.openAppend (path / name) = .ok (handle, d')) :
    (d' = d ∨ d.node? (dir.child name) = none ∧ d' = (d.create (dir.child name)).1) ∧
      d'.openAppend (path / name) = .ok (handle, d') := by
  cases hnode : d.node? (dir.child name) with
  | none =>
    rw [hr.openAppend_new hnode] at hrun
    cases hrun
    have hnames := dir.names_child name
    have hkeeps := keeps_create hnames (d := d) (by rw [hnode]; nofun)
    refine ⟨Or.inr ⟨rfl, rfl⟩, (hr.keeps hkeeps).openAppend_file ?_⟩
    rw [node?_create hnames, if_pos rfl]
  | some node =>
    cases node with
    | directory =>
      simp only [Disk.openAppend, hr.find_div, bind, Except.bind, hnode] at hrun
      cases hrun
    | full =>
      have hopen := hr.openAppend_full hnode
      rw [hopen] at hrun
      cases hrun
      exact ⟨Or.inl rfl, hopen⟩
    | file id =>
      have hopen := hr.openAppend_file hnode
      rw [hopen] at hrun
      cases hrun
      exact ⟨Or.inl rfl, hopen⟩

end Disk

theorem Host.ensures_made (mood : Mood) {d : Disk} {path : Path} :
    Ensures (Holds mood (· = d)) (createDirectories path)
      (fun _ => Holds mood fun d' => Disk.createDirectories path d = .ok () d') (fun _ => True) := by
  have hmake : Ensures (· = d) (Disk.createDirectories path)
      (fun _ d' => Disk.createDirectories path d = .ok () d') (fun _ => True) := by
    intro s hs
    rw [hs]
    cases Disk.createDirectories path d with
    | ok u made => exact rfl
    | error e made => exact trivial
  exact (ensures_call hmake).weaken (fun _ => id) (fun _ _ => id) fun _ _ => trivial

namespace Journal

variable {d d' : Disk} {path : Path} {dir : Place} {rs : List Record}

theorem Reads.mono {fs : List File} (h : Reads d path fs rs) (hd : d.Extends d') :
    Reads d' path fs rs := by
  induction fs generalizing rs with
  | nil => exact h
  | cons file fs ih =>
    obtain ⟨first, ⟨bs, hbs, hfirst⟩, more, hmore, rfl⟩ := h
    exact ⟨first, ⟨bs, hd.read hbs, hfirst⟩, more, ih hmore, rfl⟩

theorem Reads.insert {front back : List File} {file : File} (h : Reads d path (front ++ back) rs)
    (hempty : d.read (path / file.2) = .ok []) : Reads d path (front ++ file :: back) rs := by
  induction front generalizing rs with
  | nil => exact ⟨[], ⟨[], hempty, Record.scan_nil_of_short (by decide)⟩, rs, h, rfl⟩
  | cons other front ih =>
    obtain ⟨first, hfirst, more, hmore, rfl⟩ := h
    exact ⟨first, hfirst, more, ih hmore, rfl⟩

theorem Reads.insert_filter {front back : List File} {file : File} (keep : File → Bool)
    (h : Reads d path ((front ++ back).filter keep) rs) (hempty : d.read (path / file.2) = .ok []) :
    Reads d path ((front ++ file :: back).filter keep) rs := by
  rw [List.filter_append] at h ⊢
  by_cases hkeep : keep file = true
  · rw [List.filter_cons_of_pos hkeep]
    exact h.insert hempty
  · rwa [List.filter_cons_of_neg hkeep]

structure Grown (path : Path) (dir : Place) (sequence : Nat) (d made d' : Disk) : Prop where
  furnished : Disk.Furnished (Disk.OnWay path.steps) d made
  reaches : made.Reaches path dir
  opened : d' = made ∨ made.node? (dir.child (fileName.render sequence)) = none ∧
    d' = (made.create (dir.child (fileName.render sequence))).1

inductive Added (path : Path) (sequence : Nat) (d' : Disk) (fs : List File) : List File → Prop
  | same : Added path sequence d' fs fs
  | more {front back : List File} {file : File} (split : fs = front ++ back)
    (numbered : file.1 = sequence % FileName.sequenceBound)
    (empty : d'.read (path / file.2) = .ok []) (short : d'.lengthAt (path / file.2) = .ok 0) :
    Added path sequence d' fs (front ++ file :: back)

namespace Grown

variable {made : Disk} {sequence : Nat} {names : List String}
  (h : Grown path dir sequence d made d')

include h

theorem extension (hd : d.WellFormed) : made.Extends d' := by
  rcases h.opened with rfl | ⟨hfree, rfl⟩
  · exact .refl _
  · exact .create (h.furnished.wellFormed hd) (dir.names_child _) hfree

theorem find (hd : d.WellFormed) :
    d'.find (path / fileName.render sequence) = .ok (dir.child (fileName.render sequence)) :=
  (h.reaches.keeps (h.extension hd).keeps).find_div _

theorem fresh (hd : d.WellFormed) {p : Place} (hp : d.node? p = none) (hp' : d'.node? p ≠ none) :
    d'.node? p = some .directory ∧ Disk.OnWay path.steps p ∨
      p = dir.child (fileName.render sequence) ∧ d'.fileAt? p = some {} := by
  by_cases hmade : made.node? p = none
  · rcases h.opened with rfl | ⟨-, rfl⟩
    · exact absurd hmade hp'
    · have hnames := dir.names_child (fileName.render sequence)
      rw [Disk.node?_create hnames] at hp'
      split at hp'
      · next heq =>
        refine Or.inr ⟨heq, ?_⟩
        rw [Disk.fileAt?_create (h.furnished.wellFormed hd) hnames, if_pos heq]
      · exact absurd hmade hp'
  · obtain ⟨hdir, hway⟩ := h.furnished.fresh hp hmade
    exact Or.inl ⟨(h.extension hd).node p _ hdir, hway⟩

theorem checkpoints (hway : d.Passable Unnumbered {} path.steps) (other : Place) :
    Checkpoint.fileName.parsed (d'.names other) = Checkpoint.fileName.parsed (d.names other) := by
  have hmade : Checkpoint.fileName.parsed (made.names other) =
      Checkpoint.fileName.parsed (d.names other) := by
    refine (h.furnished.unnumbered hway).parsed ?_
    rintro _ ⟨p, name, rfl, hname⟩
    exact Outside.child hname.1
  rcases h.opened with rfl | ⟨-, rfl⟩
  · exact hmade
  · rw [← hmade]
    exact Disk.parsed_link (Outside.child (Checkpoint.sequence?_journal sequence)) made _

theorem listed (hd : d.WellFormed) (hnames : made.Lists path names) :
    ∃ names', d'.Lists path names' ∧ Added path sequence d' (files names) (files names') := by
  rcases h.opened with rfl | ⟨hfree, rfl⟩
  · exact ⟨names, hnames, .same⟩
  · have hwf := h.furnished.wellFormed hd
    have hdir := dir.names_child (fileName.render sequence)
    have hr' := h.reaches.keeps (h.extension hd).keeps
    refine ⟨_, hr'.lists, ?_⟩
    by_cases hempty : path.isEmpty = true
    · rw [hnames.unique (made.lists_empty hempty), if_pos hempty]
      exact .same
    · have hleads := hr'.leads (by simpa using hempty)
      have hparsed : fileName.parsed
          ((made.create (dir.child (fileName.render sequence))).1.names dir) =
          (sequence % FileName.sequenceBound, fileName.render sequence) ::
            fileName.parsed (made.names dir) :=
        Disk.parsed_link_child (fileName.sequence?_render_mod sequence) hfree _
      obtain ⟨front, back, hfront, hback⟩ := files_insert hparsed
      have hfile : (made.create (dir.child (fileName.render sequence))).1.fileAt?
          (dir.child (fileName.render sequence)) = some {} := by
        rw [Disk.fileAt?_create hwf hdir, if_pos rfl]
      have hread := hleads.read_div hfile
      have hshort := hleads.lengthAt_div hfile
      rw [hnames.unique h.reaches.lists, if_neg hempty, if_neg hempty, hfront]
      exact .more hback rfl hread hshort

end Grown

theorem Added.reads {sequence : Nat} {fs fs' : List File} (h : Added path sequence d' fs fs')
    (hd : d.Extends d') (keep : File → Bool) (hreads : Reads d path (fs.filter keep) rs) :
    Reads d' path (fs'.filter keep) rs := by
  cases h with
  | same => exact hreads.mono hd
  | more split _ empty _ => exact (split ▸ hreads.mono hd).insert_filter keep empty

namespace Writer

theorem FirstIs.mono {fs : List File} {n : Nat} (h : FirstIs d path fs n) (hd : d.Extends d') :
    FirstIs d' path fs n := by
  rw [FirstIs] at h ⊢
  cases hlast : fs.getLast? with
  | none => rwa [hlast] at h
  | some file =>
    rw [hlast] at h
    obtain ⟨size, hsize, hn⟩ := h
    exact ⟨size, hd.lengthAt hsize, hn⟩

/-- The sequence is chosen again where an empty file with it has come in between. -/
theorem FirstIs.again {names names' : List String} {n floor : Nat}
    (h : FirstIs d path (files names) n) (hd : d.Extends d') (hfloor : floor < FileName.sequenceBound)
    (hadded : Added path (max n floor) d' (files names) (files names')) :
    ∃ m, FirstIs d' path (files names') m ∧ max m floor = max n floor := by
  have hbound : ∀ file ∈ files names, file.1 < FileName.sequenceBound := fun file hfile =>
    FileName.sequence?_lt (FileName.mem_parsed.1 ((perm_files names).mem_iff.1 hfile)).2
  have hsorted := sorted_files names'
  generalize files names' = fs' at hadded hsorted
  cases hadded with
  | same => exact ⟨n, h.mono hd, rfl⟩
  | @more front back file split numbered empty short =>
    rw [split] at h hbound
    rcases List.eq_nil_or_concat' back with rfl | ⟨back, last, rfl⟩
    · -- The new file is the last one.
      refine ⟨file.1, ?_, ?_⟩
      · rw [FirstIs, List.getLast?_concat]
        exact ⟨0, short, rfl⟩
      · rw [List.append_nil] at h hbound
        rcases List.eq_nil_or_concat' front with rfl | ⟨front, last, rfl⟩
        · obtain rfl : n = 0 := h
          rw [Nat.zero_max, Nat.mod_eq_of_lt hfloor] at numbered
          omega
        · rw [FirstIs, List.getLast?_concat] at h
          obtain ⟨size, -, hn⟩ := h
          have hlast := hbound last (by simp)
          have hle : last.1 ≤ file.1 := by
            have hle := (List.pairwise_append.1 hsorted).2.2 last (by simp) file (by simp)
            rcases File.le_iff.1 hle with hlt | ⟨heq, -⟩ <;> omega
          have hlt : n < FileName.sequenceBound := by
            split at hn
            · exact hn ▸ hlast
            · exact hn ▸ FileName.next_lt _
          rw [Nat.mod_eq_of_lt (by omega)] at numbered
          -- Behind the last word comes zero, and then the sequence is the floor.
          have hn : n = last.1 ∨ n = last.1 + 1 ∨ n = 0 ∧ last.1 + 1 = FileName.sequenceBound := by
            split at hn
            · exact Or.inl hn
            · by_cases hnext : last.1 + 1 < FileName.sequenceBound
              · exact Or.inr (Or.inl (hn.trans (FileName.next_eq hnext)))
              · have heq : last.1 + 1 = FileName.sequenceBound := by omega
                exact Or.inr (Or.inr ⟨hn.trans (FileName.next_last heq), heq⟩)
          omega
    · -- The last file is the one that was last before.
      refine ⟨n, ?_, rfl⟩
      rw [← List.append_assoc, FirstIs, List.getLast?_concat] at h
      rw [FirstIs, ← List.cons_append, ← List.append_assoc, List.getLast?_concat]
      obtain ⟨size, hsize, hn⟩ := h
      exact ⟨size, hd.lengthAt hsize, hn⟩

/-- How a writer was started: the directory was made, the files in it were listed and settled the
sequence, and the file was opened. -/
def Started (path : Path) (floor rotation maxValue : Nat) (d d' : Disk) (w : Writer) : Prop :=
  ∃ made names n, Disk.createDirectories path d = .ok () made ∧ made.Lists path names ∧
    FirstIs made path (files names) n ∧
    made.openAppend (path / fileName.render (max n floor)) = .ok (w.handle, d') ∧
    w = ⟨path, max n floor, w.handle, d'.length w.handle, rotation, maxValue⟩

theorem ensures_started {mood : Mood} (floor rotation maxValue : Nat) :
    Ensures (Host.Holds mood (· = d)) (start path floor rotation maxValue)
      (fun w h => Started path floor rotation maxValue d h.disk w) (fun _ => True) := by
  refine Ensures.bind ((Host.ensures_made mood).during _ _) fun _ => Ensures.each fun made hmade => ?_
  refine Ensures.bind ((looks_list.run mood).weaken (fun _ => id) (fun _ _ => id)
    fun _ _ => trivial) fun fs => Ensures.fact ?_
  rintro ⟨names, hnames, rfl⟩
  refine Ensures.bind (((looks_firstSequence _).run mood).weaken (fun _ => id) (fun _ _ => id)
    fun _ _ => trivial) fun n => Ensures.fact fun hn => ?_
  refine Ensures.bind (M := fun handle => Host.Holds mood fun d' =>
      made.openAppend (path / fileName.render (max n floor)) = .ok (handle, d'))
    (((Host.ensures_atomic_or ?_).during _ _).weaken (fun _ => id) (fun _ _ => id)
      fun _ _ => trivial) fun handle => ?_
  · rintro _ rfl handle d' hrun
    exact hrun
  · refine Ensures.bind (((Host.ensures_length handle).during _ _).weaken (fun _ => id) (fun _ _ => id)
      fun _ _ => trivial) fun size => Ensures.pure ?_
    rintro h ⟨⟨rfl, hopen⟩, -⟩
    exact ⟨made, names, n, hmade, hnames, hn, hopen, rfl⟩

theorem looks_start (hr : d.Reaches path dir) {names : List String} (hnames : d.Lists path names)
    {n : Nat} (hn : FirstIs d path (files names) n) {floor : Nat} {handle : Handle}
    (hopen : d.openAppend (path / fileName.render (max n floor)) = .ok (handle, d))
    (rotation maxValue : Nat) :
    Host.Looks d (start path floor rotation maxValue)
      (· = ⟨path, max n floor, handle, d.length handle, rotation, maxValue⟩) := by
  refine ((Host.looks_createDirectories hr).during _ _).step (a := ()) trivial ?_
  refine looks_list.step ⟨names, hnames, rfl⟩ ?_
  refine (looks_firstSequence _).step hn ?_
  refine ((Host.Looks.still hopen).during _ _).step rfl ?_
  exact (Host.Looks.ask.during _ _).step rfl (Host.Looks.pure _)

theorem Started.grown {floor rotation maxValue : Nat} {w : Writer}
    (h : Started path floor rotation maxValue d d' w) (hr : d.Rooted) :
    ∃ made dir, Grown path dir w.sequence d made d' := by
  obtain ⟨made, names, n, hmake, -, -, hopen, hw⟩ := h
  obtain ⟨hfurnished, dir, hdir⟩ := Disk.createDirectories_furnished hr hmake
  have hsequence : w.sequence = max n floor := by rw [hw]
  exact ⟨made, dir, hfurnished, hdir, hsequence ▸ (hdir.openAppend_cases hopen).1⟩

theorem Started.again {floor rotation maxValue : Nat} {w : Writer}
    (h : Started path floor rotation maxValue d d' w) (hd : d.WellFormed) (hr : d.Rooted)
    (hfloor : floor < FileName.sequenceBound) :
    Host.Looks d' (start path floor rotation maxValue) (· = w) := by
  obtain ⟨made, names, n, hmake, hnames, hn, hopen, hw⟩ := h
  obtain ⟨hfurnished, dir, hdir⟩ := Disk.createDirectories_furnished hr hmake
  obtain ⟨hcases, hreopen⟩ := hdir.openAppend_cases hopen
  have hgrown : Grown path dir (max n floor) d made d' := ⟨hfurnished, hdir, hcases⟩
  have hext := hgrown.extension hd
  obtain ⟨names', hnames', hadded⟩ := hgrown.listed hd hnames
  obtain ⟨m, hm, hmax⟩ := hn.again hext hfloor hadded
  rw [hw]
  rw [← hmax] at hreopen ⊢
  exact looks_start (hdir.keeps hext.keeps) hnames' hm hreopen rotation maxValue

end Writer

end Journal

namespace EntryLog

variable {d d' : Disk} {config : Config} {dataDir : Path}

def Loads (d : Disk) (dataDir : Path) (r : Nat × Index) : Prop :=
  ∃ names, d.Lists dataDir names ∧
    match Checkpoint.highest names with
    | none => r = (0, {})
    | some best => ∃ bs, d.read (dataDir / best.2) = .ok bs ∧
        r = (best.1, Index.replay {} (Record.scan bs))

theorem looks_loadCheckpoint : Host.Looks d (loadCheckpoint dataDir) (Loads d dataDir) := by
  refine (Host.Looks.bind (S := fun best r =>
      match best with
      | none => r = (0, {})
      | some best => ∃ rs, (∃ bs, d.read best.2 = .ok bs ∧ Record.scan bs = rs) ∧
          ∃ _ : Unit, True ∧ r = (best.1, Index.replay {} rs))
    Checkpoint.looks_latest fun best _ => ?_).congr fun r => ?_
  · cases best with
    | none => exact Host.Looks.pure _
    | some best =>
      exact Host.Looks.bind Record.looks_readFile fun rs _ =>
        Host.Looks.bind (Host.Looks.note _) fun _ _ => Host.Looks.pure _
  · constructor
    · rintro ⟨_, ⟨names, hnames, rfl⟩, hr⟩
      refine ⟨names, hnames, ?_⟩
      cases hbest : Checkpoint.highest names with
      | none => rwa [hbest] at hr
      | some best =>
        rw [hbest] at hr
        obtain ⟨rs, ⟨bs, hbs, rfl⟩, -, -, hr⟩ := hr
        exact ⟨bs, hbs, hr⟩
    · rintro ⟨names, hnames, hr⟩
      refine ⟨_, ⟨names, hnames, rfl⟩, ?_⟩
      cases hbest : Checkpoint.highest names with
      | none => rwa [hbest] at hr
      | some best =>
        rw [hbest] at hr
        obtain ⟨bs, hbs, hr⟩ := hr
        exact ⟨_, ⟨bs, hbs, rfl⟩, ⟨⟩, trivial, hr⟩

theorem Loads.bounded {r : Nat × Index} (h : Loads d dataDir r) : r.1 < FileName.sequenceBound := by
  obtain ⟨names, -, hr⟩ := h
  rcases Checkpoint.highest_cases names with ⟨hbest, -⟩ | ⟨best, hbest, hmem, -⟩
  · rw [hbest] at hr
    rw [hr]
    decide
  · rw [hbest] at hr
    obtain ⟨bs, -, rfl⟩ := hr
    exact FileName.sequence?_lt (FileName.mem_parsed.1 hmem).2

theorem Loads.mono {r : Nat × Index} (h : Loads d dataDir r) (hd : d.Extends d') {dir : Place}
    (hr : d.Reaches dataDir dir) (hparsed : Checkpoint.fileName.parsed (d'.names dir) =
      Checkpoint.fileName.parsed (d.names dir)) : Loads d' dataDir r := by
  obtain ⟨names, hnames, hload⟩ := h
  refine ⟨_, (hr.keeps hd.keeps).lists, ?_⟩
  have hbest : Checkpoint.highest (if dataDir.isEmpty then [] else d'.names dir) =
      Checkpoint.highest names := by
    rw [hnames.unique hr.lists]
    split
    · rfl
    · rw [Checkpoint.highest_eq, Checkpoint.highest_eq, hparsed]
  rw [hbest]
  cases hhighest : Checkpoint.highest names with
  | none => rwa [hhighest] at hload
  | some best =>
    rw [hhighest] at hload
    obtain ⟨bs, hbs, hr⟩ := hload
    exact ⟨bs, hd.read hbs, hr⟩

def Opened (config : Config) (d d' : Disk) (e : EntryLog) : Prop :=
  ∃ d₁ names first saved rs, Disk.createDirectories config.dataDir d = .ok () d₁ ∧
    Loads d₁ config.dataDir (first, saved) ∧ d₁.Lists config.journalDir names ∧
    Journal.Reads d₁ config.journalDir
      ((Journal.files names).filter fun file => first ≤ file.1) rs ∧
    Journal.Writer.Started config.journalDir first config.rotationBytes config.maxValueSize d₁ d'
      e.writer ∧
    e = ⟨config.dataDir, config.journalDir, saved.replay rs, e.writer⟩

theorem ensures_opened {mood : Mood} :
    Ensures (Host.Holds mood (· = d)) (start config) (fun e h => Opened config d h.disk e)
      (fun _ => True) := by
  refine Ensures.bind ((Host.ensures_made mood).during _ _) fun _ => Ensures.each fun d₁ hmade => ?_
  refine Ensures.bind (M := fun _ => Host.Holds mood (· = d₁))
    (Ensures.note fun h hh => hh.note _) fun _ => ?_
  refine Ensures.bind ((looks_loadCheckpoint.run mood).weaken (fun _ => id) (fun _ _ => id)
    fun _ _ => trivial) fun r => Ensures.fact fun hload => ?_
  obtain ⟨first, saved⟩ := r
  dsimp only
  refine Ensures.bind (((Journal.looks_recoverFrom first).run mood).weaken (fun _ => id)
    (fun _ _ => id) fun _ _ => trivial) fun rs => Ensures.fact ?_
  rintro ⟨_, ⟨names, hnames, rfl⟩, hreads⟩
  have hfinish : Ensures (Host.Holds mood (· = d₁))
      (do
        let writer ← Journal.Writer.start config.journalDir first config.rotationBytes
          config.maxValueSize
        return { dataDir := config.dataDir, journalDir := config.journalDir,
                 index := saved.replay rs, writer : EntryLog })
      (fun e h => Opened config d h.disk e) (fun _ => True) :=
    Ensures.bind (Journal.Writer.ensures_started _ _ _) fun w => Ensures.pure fun h hw =>
      ⟨d₁, names, first, saved, rs, hmade, hload, hnames, hreads, hw, rfl⟩
  split
  · exact Ensures.bind (M := fun _ => Host.Holds mood (· = d₁))
      (Ensures.note fun h hh => hh.note _) fun _ => hfinish
  · exact hfinish

theorem looks_start {dir : Place} {names : List String} {first : Nat} {saved : Index}
    {rs : List Record} {w : Journal.Writer} (hr : d.Reaches config.dataDir dir)
    (hload : Loads d config.dataDir (first, saved)) (hnames : d.Lists config.journalDir names)
    (hreads : Journal.Reads d config.journalDir
      ((Journal.files names).filter fun file => first ≤ file.1) rs)
    (hw : Host.Looks d (Journal.Writer.start config.journalDir first config.rotationBytes
      config.maxValueSize) (· = w)) :
    Host.Looks d (start config)
      (· = ⟨config.dataDir, config.journalDir, saved.replay rs, w⟩) := by
  refine ((Host.looks_createDirectories hr).during _ _).step (a := ()) trivial ?_
  refine (Host.Looks.note _).step (a := ()) trivial ?_
  refine looks_loadCheckpoint.step hload ?_
  refine (Journal.looks_recoverFrom first).step ⟨_, ⟨names, hnames, rfl⟩, hreads⟩ ?_
  have hfinish : Host.Looks d
      (do
        let writer ← Journal.Writer.start config.journalDir first config.rotationBytes
          config.maxValueSize
        return { dataDir := config.dataDir, journalDir := config.journalDir,
                 index := saved.replay rs, writer : EntryLog })
      (· = ⟨config.dataDir, config.journalDir, saved.replay rs, w⟩) :=
    hw.step rfl (Host.Looks.pure _)
  dsimp only
  split
  · exact (Host.Looks.note _).step (a := ()) trivial hfinish
  · exact hfinish

/-- What an opening makes: nothing that was there is changed, and what is new are directories on the
ways of the two paths and at most one file, which is empty and is the file to write. -/
structure Spares (config : Config) (e : EntryLog) (d d' : Disk) : Prop where
  kept : ∀ p, d.node? p ≠ none → d.Agree d' p
  fresh : ∃ q, d'.find e.writer.path = .ok q ∧ ∀ p, d.node? p = none → d'.node? p ≠ none →
    (d'.node? p = some .directory ∧
      (Disk.OnWay config.dataDir.steps p ∨ Disk.OnWay config.journalDir.steps p)) ∨
    (p = q ∧ d'.fileAt? p = some {})

theorem Opened.spares {e : EntryLog} (h : Opened config d d' e) (hd : d.WellFormed)
    (hr : d.Rooted) : Spares config e d d' := by
  obtain ⟨d₁, names, first, saved, rs, hmake, -, -, -, hwriter, -⟩ := h
  obtain ⟨hdata, -⟩ := Disk.createDirectories_furnished hr hmake
  obtain ⟨made, dir, hgrown⟩ := hwriter.grown (hdata.rooted hr)
  have hwf := hdata.wellFormed hd
  have hext := hgrown.furnished.extension.trans (hgrown.extension hwf)
  have hpath : e.writer.path = config.journalDir / Journal.fileName.render e.writer.sequence := by
    obtain ⟨_, _, _, _, _, _, _, hw⟩ := hwriter
    rw [Journal.Writer.path, hw]
  refine ⟨fun p hp => (hdata.extension.trans hext).agree hp, _, hpath ▸ hgrown.find hwf,
    fun p hp hp' => ?_⟩
  by_cases hmade : d₁.node? p = none
  · exact (hgrown.fresh hwf hmade hp').imp (fun hnew => ⟨hnew.1, Or.inr hnew.2⟩) id
  · obtain ⟨hdir, hway⟩ := hdata.fresh hp hmade
    exact Or.inl ⟨hext.node p _ hdir, Or.inl hway⟩

theorem Opened.again {e : EntryLog} (h : Opened config d d' e) (hd : d.WellFormed) (hr : d.Rooted)
    (hway : ∀ d₁, Disk.createDirectories config.dataDir d = .ok () d₁ →
      d₁.Passable Unnumbered {} config.journalDir.steps) :
    Host.Looks d' (start config) (· = e) := by
  obtain ⟨d₁, names₁, first, saved, rs, hmake, hload, hnames₁, hreads, hwriter, he⟩ := h
  obtain ⟨hdata, dataDir, hdataDir⟩ := Disk.createDirectories_furnished hr hmake
  have hr₁ := hdata.rooted hr
  have hd₁ := hdata.wellFormed hd
  have hway₁ := hway d₁ hmake
  have hagain := hwriter.again hd₁ hr₁ hload.bounded
  obtain ⟨made, names, n, hmade, hnames, -, hopen, hw⟩ := hwriter
  obtain ⟨hfurnished, dir, hdir⟩ := Disk.createDirectories_furnished hr₁ hmade
  have hgrown : Journal.Grown config.journalDir dir (max n first) d₁ made d' :=
    ⟨hfurnished, hdir, (hdir.openAppend_cases hopen).1⟩
  have hext := hgrown.extension hd₁
  have hext₁ := hfurnished.extension.trans hext
  obtain ⟨names', hnames', hadded⟩ := hgrown.listed hd₁ hnames
  have hfiles : Journal.files names = Journal.files names₁ :=
    congrArg (List.mergeSort · Journal.File.le) (hfurnished.listed hr₁ hway₁ hdir hnames₁ hnames)
  have hload' := hload.mono hext₁ hdataDir (hgrown.checkpoints hway₁ dataDir)
  have hreads' := hadded.reads hext _ (hfiles ▸ hreads.mono hfurnished.extension)
  rw [he]
  exact looks_start (hdataDir.keeps hext₁.keeps) hload' hnames' hreads' hagain

theorem passable_of_root {root : Path} {d₁ : Disk} (hr : d.Rooted)
    (hdata : config.dataDir = root / "data") (hjournal : config.journalDir = root / "journal")
    (hmake : Disk.createDirectories config.dataDir d = .ok () d₁) :
    d₁.Passable Unnumbered {} config.journalDir.steps := by
  obtain ⟨-, dir, hdir⟩ := Disk.createDirectories_furnished hr hmake
  have hwalk := hdir.walk
  rw [hdata, Path.steps_div, Disk.walk_append] at hwalk
  cases hroot : d₁.walk {} root.steps with
  | error e => rw [hroot] at hwalk; cases hwalk
  | ok q =>
    rw [hroot] at hwalk
    rw [hjournal, Path.steps_div]
    exact .of_walk hroot (Disk.walk_cons_eq_ok.1 hwalk).1 ⟨by decide, by decide⟩

def openings (config : Config) : Nat → Action Host (List EntryLog)
  | 0 => return []
  | n + 1 => do
    let e ← start config
    let more ← openings config n
    return e :: more

theorem looks_openings {e : EntryLog} (h : Host.Looks d (start config) (· = e)) (n : Nat) :
    Host.Looks d (openings config n) (· = List.replicate n e) := by
  induction n with
  | zero => exact Host.Looks.pure []
  | succ n ih => exact h.step rfl (ih.step rfl (Host.Looks.pure _))

/-- Opening does no harm and can be repeated. An opening that ends well spares what is there; each of
any number of openings after it answers the same engine and changes nothing, and fails only if a
fault befalls a call. -/
theorem opens_again {h h' : Host} {e : EntryLog} (hd : h.disk.WellFormed) (hr : h.disk.Rooted)
    (hway : ∀ d₁, Disk.createDirectories config.dataDir h.disk = .ok () d₁ →
      d₁.Passable Unnumbered {} config.journalDir.steps)
    (hopen : start config h = .ok e h') :
    Spares config e h.disk h'.disk ∧
      ∀ n faults, (∀ es after, openings config n (h'.facing faults) = .ok es after →
          es = List.replicate n e ∧ after.disk = h'.disk) ∧
        ∀ cause after, openings config n (h'.facing faults) = .error cause after →
          after.disk = h'.disk ∧ ∃ f ∈ faults, f ≠ .clear := by
  have hrun : Ensures (Host.Holds (· ∈ h.faults) (· = h.disk)) (start config)
      (fun e h' => Opened config h.disk h'.disk e) (fun _ => True) := ensures_opened
  have hopened := hrun h ⟨rfl, fun _ hf => hf⟩
  rw [hopen] at hopened
  have hlooks := hopened.again hd hr hway
  refine ⟨hopened.spares hd hr, fun n faults => ?_⟩
  obtain ⟨hok, herror⟩ := (looks_openings hlooks n).facing faults
  exact ⟨hok, fun cause after hrun => (herror cause after hrun).imp_right fun hf => hf ⟨_, rfl⟩⟩

def wornDisk : Disk :=
  let logs := (Site.smallDisk.create (Site.small.journalDir.child (Journal.fileName.render 0))).1
  let torn := logs.change 0 fun f => { f with bytes := [0x42, 0x4B] }
  let saved := (torn.create (Site.small.dataDir.child (Checkpoint.fileName.render 3))).1
  (saved.create (Site.small.dataDir.child (Checkpoint.temporaryName 5))).1

theorem wornDisk_wellFormed : wornDisk.WellFormed :=
  have hsmall : Site.smallDisk.WellFormed := Site.small_vacant.sound
  have hnames := Place.names_child
  (((hsmall.create (hnames _ _)).change _ _).create (hnames _ _)).create (hnames _ _)

theorem wornDisk_rooted : wornDisk.Rooted := by
  have hempty : Disk.Rooted {} := fun p name h =>
    absurd (Disk.node?_of_names (p.names_child name)) h
  have hlogs : (Disk.link {} (Place.child {} "journal") .directory).Rooted :=
    hempty.link rfl (by decide) _
  have hsmall : ((Disk.link {} (Place.child {} "journal") .directory).link
      (Place.child {} "data") .directory).Rooted := hlogs.link rfl (by decide) _
  have htorn : Disk.Rooted ((Site.smallDisk.create
      (Site.small.journalDir.child (Journal.fileName.render 0))).1.change 0 fun f =>
        { f with bytes := [0x42, 0x4B] }) :=
    hsmall.create (by decide) (by decide +kernel)
  exact (htorn.create (by decide +kernel) (by decide +kernel)).create (by decide +kernel)
    (by decide +kernel)

theorem opens_again_worn :
    ∃ e h' after, start Site.small.config { disk := wornDisk } = .ok e h' ∧
      e.writer.sequence = 3 ∧ Spares Site.small.config e wornDisk h'.disk ∧
      openings Site.small.config 2 (h'.facing []) = .ok [e, e] after ∧ after.disk = h'.disk := by
  have hrun : (EStateM.run' (start Site.small.config) { disk := wornDisk }).map
      (·.writer.sequence) = some 3 := by decide +kernel
  delta EStateM.run' EStateM.run at hrun
  cases hopen : start Site.small.config { disk := wornDisk } with
  | error cause h' => rw [hopen] at hrun; cases hrun
  | ok e h' =>
    rw [hopen] at hrun
    obtain ⟨hspares, hagain⟩ := opens_again wornDisk_wellFormed wornDisk_rooted
      (fun _ hmake => passable_of_root wornDisk_rooted rfl rfl hmake) hopen
    obtain ⟨hok, herror⟩ := hagain 2 []
    cases hmore : openings Site.small.config 2 (h'.facing []) with
    | error cause after =>
      obtain ⟨-, f, hf, -⟩ := herror cause after hmore
      cases hf
    | ok es after =>
      obtain ⟨rfl, hdisk⟩ := hok es after hmore
      exact ⟨e, h', after, rfl, Option.some.inj hrun, hspares, hmore, hdisk⟩

end EntryLog

end LedgerStore
