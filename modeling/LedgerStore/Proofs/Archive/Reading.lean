import LedgerStore.Proofs.Archive.Listing
import LedgerStore.Proofs.Host

set_option autoImplicit false

namespace LedgerStore

/-- The names in a directory, of which there are none if it is missing. -/
def Disk.Lists (d : Disk) (path : Path) (names : List String) : Prop :=
  d.list path = .ok names ∨ (∃ e, d.list path = .error e ∧ e.kind = .notFound) ∧ names = []

theorem Disk.Lists.unique {d : Disk} {path : Path} {names names' : List String}
    (h : d.Lists path names) (h' : d.Lists path names') : names = names' := by
  rcases h with h | ⟨⟨e, h, -⟩, hnil⟩
  · rcases h' with h' | ⟨⟨e', h', -⟩, -⟩
    · exact Except.ok.inj (h.symm.trans h')
    · cases h.symm.trans h'
  · rcases h' with h' | ⟨-, hnil'⟩
    · cases h.symm.trans h'
    · exact hnil.trans hnil'.symm

theorem Disk.Leads.lists {d : Disk} {path : Path} {dir : Place} (hl : d.Leads path dir) :
    d.Lists path (d.names dir) :=
  Or.inl hl.list

variable {mood : Mood} {P : Disk → Prop}

namespace Host

theorem list_cases (m : Host) (path : Path) :
    (∃ names, m.disk.list path = .ok names ∧ list path m = .ok names m.spent) ∨
      (∃ e, m.disk.list path = .error e ∧ list path m = .error e m.spent) ∨
      ∃ e, list path m = .error e m.spent ∧ e.kind = .other ∧ m.fault ≠ .clear := by
  unfold list ask atomic call
  cases hf : m.fault with
  | clear =>
    cases hl : m.disk.list path with
    | ok names => exact Or.inl ⟨names, rfl, by simp only [hl]; rfl⟩
    | error e => exact Or.inr (Or.inl ⟨e, rfl, by simp only [hl]; rfl⟩)
  | refuse reason => exact Or.inr (Or.inr ⟨_, rfl, rfl, nofun⟩)
  | cut kept reason => exact Or.inr (Or.inr ⟨_, rfl, rfl, nofun⟩)

theorem looks_listing {α : Type} {d : Disk} {path : Path} (what : String) (f : List String → α)
    {act : Action Host α} (hact : ∀ h, act h =
      match list path h with
      | .ok names h => .ok (f names) h
      | .error e h => if e.kind = .notFound then .ok (f []) h else .error (e.onFile path.text what) h) :
    Looks d act (fun a => ∃ names, d.Lists path names ∧ a = f names) where
  one := by
    rintro _ _ ⟨names, hnames, rfl⟩ ⟨names', hnames', rfl⟩
    rw [hnames.unique hnames']
  run mood := by
    rintro m ⟨rfl, hfaults⟩
    have hm : m.Holds mood (· = m.disk) := ⟨rfl, hfaults⟩
    rw [hact]
    rcases list_cases m path with ⟨names, hl, heq⟩ | ⟨e, hl, heq⟩ | ⟨e, heq, hkind, hfault⟩
    · rw [heq]
      exact ⟨⟨names, .inl hl, rfl⟩, hm.spent rfl⟩
    · simp only [heq]
      by_cases hkind : e.kind = .notFound
      · rw [if_pos hkind]
        exact ⟨⟨[], .inr ⟨⟨e, hl, hkind⟩, rfl⟩, rfl⟩, hm.spent rfl⟩
      · rw [if_neg hkind]
        refine ⟨hm.spent rfl, ?_⟩
        rintro ⟨_, names, hok | ⟨⟨e', he', hkind'⟩, -⟩, -⟩
        · cases hl.symm.trans hok
        · cases hl.symm.trans he'
          exact absurd hkind' hkind
    · simp only [heq, hkind]
      exact ⟨hm.spent rfl, fun _ => (hm.failed hfault).2⟩

theorem looks_createDirectories {d : Disk} {path : Path} {dir : Place} (hr : d.Reaches path dir) :
    Looks d (createDirectories path) (fun _ => True) where
  one _ _ _ _ := rfl
  run mood := by
    have hmake : Ensures (· = d) (Disk.createDirectories path) (fun _ d' => d' = d)
        (fun _ => False) := by
      rintro _ rfl
      rw [hr.createDirectories]
    refine (ensures_call hmake).weaken (fun _ => id) (fun _ _ hh => ⟨trivial, hh⟩) fun m hm => ?_
    rcases hm with hfalse | hfail
    · exact hfalse.disk.elim
    · exact ⟨hfail.1, fun _ => hfail.2⟩

theorem ensures_createDirectories {path : Path} (hP : ∀ d, P d → ∃ dir, d.Reaches path dir) :
    Ensures (Holds mood P) (createDirectories path) (fun _ => Holds mood P) (Failed mood P) := by
  have hlooks : ∀ d, P d → ∃ R, Looks d (createDirectories path) R ∧ R () := by
    intro d hd
    obtain ⟨dir, hr⟩ := hP d hd
    exact ⟨_, looks_createDirectories hr, trivial⟩
  exact (Looks.ensures hlooks).weaken (fun _ => id) (fun _ _ hh => hh.2) fun _ => id

theorem ensures_length (handle : Handle) :
    Ensures (Holds mood P) (length handle) (fun n h => h.Holds mood fun d => n = d.length handle ∧ P d)
      (Failed mood P) :=
  ensures_ask fun d hd => ⟨d.length handle, rfl, rfl, hd⟩

end Host

theorem Record.looks_readFile {d : Disk} {path : Path} :
    Host.Looks d (readFile path) (fun rs => ∃ bs, d.read path = .ok bs ∧ scan bs = rs) := by
  refine (Host.Looks.bind (Host.Looks.ask.during _ _) fun bs _ =>
    Host.Looks.bind (Host.Looks.notes _) fun _ _ => Host.Looks.pure _).congr fun rs => ?_
  constructor
  · rintro ⟨bs, hbs, -, -, rfl⟩
    exact ⟨bs, hbs, rfl⟩
  · rintro ⟨bs, hbs, rfl⟩
    exact ⟨bs, hbs, ⟨⟩, trivial, rfl⟩

theorem Record.ensures_readFile_at {path : Path} {dir : Place} {name : String} {rs : List Record}
    (hP : ∀ d, P d → d.Leads path dir ∧ ∃ f, d.fileAt? (dir.child name) = some f ∧ scan f.bytes = rs) :
    Ensures (Host.Holds mood P) (readFile (path / name))
      (fun found h => found = rs ∧ h.Holds mood P) (Host.Failed mood P) := by
  refine Host.Looks.ensures fun d hd => ⟨_, looks_readFile, ?_⟩
  obtain ⟨hl, f, hf, hscan⟩ := hP d hd
  exact ⟨f.bytes, hl.read_div hf, hscan⟩

namespace Journal

variable {path : Path} {dir : Place}

theorem looks_list {d : Disk} :
    Host.Looks d (list path) (fun fs => ∃ names, d.Lists path names ∧ fs = files names) := by
  have hnil : files [] = [] := by simp [files]
  exact Host.looks_listing "failed to read journal directory" files fun h => by rw [hnil]; rfl

theorem ensures_list_at {fs : List File}
    (hP : ∀ d, P d → d.Leads path dir ∧ files (d.names dir) = fs) :
    Ensures (Host.Holds mood P) (list path) (fun found h => found = fs ∧ h.Holds mood P)
      (Host.Failed mood P) :=
  Host.Looks.ensures fun d hd =>
    ⟨_, looks_list, _, (hP d hd).1.lists, (hP d hd).2.symm⟩

def Reads (d : Disk) (path : Path) : List File → List Record → Prop
  | [], rs => rs = []
  | file :: rest, rs =>
    ∃ first, (∃ bs, d.read (path / file.2) = .ok bs ∧ Record.scan bs = first) ∧
      ∃ more, Reads d path rest more ∧ rs = first ++ more

theorem looks_readAll {d : Disk} (fs : List File) :
    Host.Looks d (readAll path fs) (Reads d path fs) := by
  induction fs with
  | nil => exact Host.Looks.pure []
  | cons file rest ih =>
    exact Host.Looks.bind Record.looks_readFile fun _ _ =>
      Host.Looks.bind ih fun _ _ => Host.Looks.pure _

theorem looks_recoverFrom {d : Disk} (first : Nat) :
    Host.Looks d (recoverFrom path first) (fun rs => ∃ fs, (∃ names, d.Lists path names ∧
      fs = files names) ∧ Reads d path (fs.filter fun file => first ≤ file.1) rs) :=
  Host.Looks.bind looks_list fun _ _ => looks_readAll _

theorem reads_map {U : Type} {d : Disk} {file : U → File} {records : U → List Record} {us : List U}
    (h : ∀ u ∈ us, ∃ bs, d.read (path / (file u).2) = .ok bs ∧ Record.scan bs = records u) :
    Reads d path (us.map file) (us.flatMap records) := by
  induction us with
  | nil => rfl
  | cons u us ih =>
    exact ⟨_, h u List.mem_cons_self, _, ih fun x hx => h x (List.mem_cons_of_mem _ hx),
      List.flatMap_cons⟩

theorem ensures_readAll_at {U : Type} {file : U → File} {records : U → List Record} {us : List U}
    (hP : ∀ d, P d → d.Leads path dir ∧
      ∀ u ∈ us, ∃ f, d.fileAt? (dir.child (file u).2) = some f ∧ Record.scan f.bytes = records u) :
    Ensures (Host.Holds mood P) (readAll path (us.map file))
      (fun rs h => rs = us.flatMap records ∧ h.Holds mood P) (Host.Failed mood P) := by
  refine Host.Looks.ensures fun d hd => ⟨_, looks_readAll _, reads_map fun u hu => ?_⟩
  obtain ⟨hl, hfiles⟩ := hP d hd
  obtain ⟨f, hf, hscan⟩ := hfiles u hu
  exact ⟨f.bytes, hl.read_div hf, hscan⟩

end Journal

namespace Journal.Writer

theorem firstSequence_concat (path : Path) (front : List File) (file : File) :
    firstSequence path (front ++ [file]) = firstSequence path [file] := by
  induction front with
  | nil => rfl
  | cons other front ih =>
    rw [← ih]
    cases front <;> rfl

def FirstIs (d : Disk) (path : Path) (fs : List File) (n : Nat) : Prop :=
  match fs.getLast? with
  | none => n = 0
  | some file => ∃ size, d.lengthAt (path / file.2) = .ok size ∧
    n = if size = 0 then file.1 else FileName.next file.1

theorem looks_firstSequence {d : Disk} {path : Path} (fs : List File) :
    Host.Looks d (firstSequence path fs) (FirstIs d path fs) := by
  rcases List.eq_nil_or_concat' fs with rfl | ⟨front, file, rfl⟩
  · exact Host.Looks.pure 0
  · rw [firstSequence_concat]
    refine (Host.Looks.bind (Host.Looks.ask.during _ _) fun size _ => Host.Looks.pure _).congr
      fun n => ?_
    rw [FirstIs, List.getLast?_concat]

end Journal.Writer

theorem Checkpoint.looks_latest {d : Disk} {path : Path} :
    Host.Looks d (latest path) (fun best => ∃ names, d.Lists path names ∧
      best = (highest names).map fun best => (best.1, path / best.2)) :=
  Host.looks_listing "failed to read data directory"
    (fun names => (highest names).map fun best => (best.1, path / best.2)) fun _ => rfl

section Numbered

variable {V : Type} {sequence : V → Nat} {holds : V → FileData → Prop} {kind : FileName}
  {path : Path} {dir : Place} {vs : List V}

theorem Record.ensures_readFile
    (hP : ∀ d, P d → d.Leads path dir ∧ Numbered sequence holds kind dir vs d) {v : V} (hv : v ∈ vs)
    {rs : List Record} (hscan : ∀ f, holds v f → scan f.bytes = rs) :
    Ensures (Host.Holds mood P) (readFile (path / kind.render (sequence v)))
      (fun found h => found = rs ∧ h.Holds mood P) (Host.Failed mood P) := by
  have hat : ∀ d, P d → d.Leads path dir ∧
      ∃ f, d.fileAt? (dir.child (kind.render (sequence v))) = some f ∧ scan f.bytes = rs := by
    intro d hd
    obtain ⟨hl, hnumbered⟩ := hP d hd
    obtain ⟨f, hf, hholds⟩ := hnumbered.stored v hv
    exact ⟨hl, f, hf, hscan f hholds⟩
  exact ensures_readFile_at hat

namespace Journal

variable (hP : ∀ d, P d → d.Leads path dir ∧ Numbered sequence holds fileName dir vs d)

include hP

theorem ensures_list :
    Ensures (Host.Holds mood P) (list path)
      (fun files h => files = (vs.map fun v => fileName.label (sequence v)) ∧ h.Holds mood P)
      (Host.Failed mood P) := by
  exact ensures_list_at fun d hd => (hP d hd).imp_right Numbered.files_journal

theorem ensures_readAll {records : V → List Record}
    (hscan : ∀ v f, holds v f → Record.scan f.bytes = records v) {us : List V} (hus : us ⊆ vs) :
    Ensures (Host.Holds mood P) (readAll path (us.map fun v => fileName.label (sequence v)))
      (fun rs h => rs = us.flatMap records ∧ h.Holds mood P) (Host.Failed mood P) := by
  refine ensures_readAll_at fun d hd => (hP d hd).imp_right fun hnumbered v hv => ?_
  obtain ⟨f, hf, hholds⟩ := hnumbered.stored v (hus hv)
  exact ⟨f, hf, hscan v f hholds⟩

theorem ensures_recoverFrom {records : V → List Record}
    (hscan : ∀ v f, holds v f → Record.scan f.bytes = records v) (first : Nat) :
    Ensures (Host.Holds mood P) (recoverFrom path first)
      (fun rs h => rs = (vs.filter fun v => first ≤ sequence v).flatMap records ∧ h.Holds mood P)
      (Host.Failed mood P) := by
  refine Ensures.bind (ensures_list hP) fun files => Ensures.fact fun hfiles => ?_
  rw [hfiles, List.filter_map]
  exact ensures_readAll hP hscan fun v hv => List.mem_of_mem_filter hv

end Journal

/-- The sequence that comes first after some files: that of the last one, if it is empty, or else
the next. -/
inductive First (sequence : V → Nat) (holds : V → FileData → Prop) : List V → Nat → Prop
  | zero : First sequence holds [] 0
  | last (front : List V) (v : V) (f : FileData) (there : holds v f) (empty : f.bytes = []) :
    First sequence holds (front ++ [v]) (sequence v)
  | next (front : List V) (v : V) (f : FileData) (there : holds v f) (full : f.bytes ≠ []) :
    First sequence holds (front ++ [v]) (FileName.next (sequence v))

theorem Journal.Writer.ensures_firstSequence
    (hP : ∀ d, P d → d.Leads path dir ∧ Numbered sequence holds fileName dir vs d) :
    Ensures (Host.Holds mood P)
      (firstSequence path (vs.map fun v => fileName.label (sequence v)))
      (fun n h => First sequence holds vs n ∧ h.Holds mood P) (Host.Failed mood P) := by
  rcases List.eq_nil_or_concat' vs with rfl | ⟨front, v, rfl⟩
  · exact Ensures.pure fun h hh => ⟨.zero, hh⟩
  · rw [List.map_append, List.map_singleton, firstSequence_concat]
    refine Ensures.bind (M := fun size h => (∃ f, holds v f ∧ f.bytes.length = size) ∧
      h.Holds mood P) (Ensures.during ?_ _ _) fun size => ?_
    · refine (Host.ensures_ask fun d hd => ?_).weaken (fun _ => id) (fun _ _ => Host.Holds.answer)
        fun _ => id
      obtain ⟨hl, hnumbered⟩ := hP d hd
      obtain ⟨f, hf, hholds⟩ := hnumbered.stored v (by simp)
      exact ⟨_, hl.lengthAt_div hf, ⟨f, hholds, rfl⟩, hd⟩
    · refine Ensures.fact fun ⟨f, hholds, hsize⟩ => Ensures.pure fun h hh => ⟨?_, hh⟩
      by_cases h0 : size = 0
      · rw [if_pos h0]
        exact .last front v f hholds (List.eq_nil_of_length_eq_zero (hsize.trans h0))
      · rw [if_neg h0]
        exact .next front v f hholds fun hnil => h0 (by rw [← hsize, hnil, List.length_nil])

end Numbered

end LedgerStore
