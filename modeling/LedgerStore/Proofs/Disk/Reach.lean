import Mathlib.Data.List.TakeWhile
import LedgerStore.Proofs.Disk.Directory

set_option autoImplicit false

namespace LedgerStore.Disk

structure Leads (d : Disk) (path : Path) (dir : Place) : Prop where
  find : d.find path = .ok dir
  there : d.node? dir = some .directory

structure Free (d : Disk) (p : Place) : Prop where
  directory : d.node? p ≠ some .directory
  device : d.node? p ≠ some .full

def Keeps (d d' : Disk) : Prop :=
  ∀ p, d.node? p = some .directory → d'.node? p = some .directory

theorem Keeps.trans {d d' d'' : Disk} (h : d.Keeps d') (h' : d'.Keeps d'') : d.Keeps d'' :=
  fun p hp => h' p (h p hp)

theorem keeps_change (d : Disk) (id : Nat) (f : FileData → FileData) : d.Keeps (d.change id f) :=
  fun _ h => h

theorem keeps_link {d : Disk} {p : Place} (hp : p.names ≠ []) (hn : d.node? p ≠ some .directory)
    (node : Node) : d.Keeps (d.link p node) := by
  intro q hq
  have hne : q ≠ p := fun h => hn (h ▸ hq)
  rw [node?_link hp, if_neg hne, hq]

theorem keeps_create {d : Disk} {p : Place} (hp : p.names ≠ [])
    (hn : d.node? p ≠ some .directory) : d.Keeps (d.create p).1 :=
  fun q hq => keeps_link hp hn _ q hq

theorem keeps_unlink {d : Disk} {p : Place} (hp : p.names ≠ [])
    (hn : d.node? p ≠ some .directory) : d.Keeps (d.unlink p) := by
  intro q hq
  have hne : q ≠ p := fun h => hn (h ▸ hq)
  rw [node?_unlink hp, if_neg hne, hq]

theorem expectDirectory_eq_ok {d : Disk} {p : Place} :
    d.expectDirectory p = .ok () ↔ d.node? p = some .directory := by
  rw [expectDirectory]
  cases d.node? p with
  | none => simp
  | some node => cases node <;> simp

theorem walk_cons_eq_ok {d : Disk} {p q : Place} {step : Step} {rest : List Step} :
    d.walk p (step :: rest) = .ok q ↔
      d.node? p = some .directory ∧ d.walk (p.after step) rest = .ok q := by
  rw [walk, ← expectDirectory_eq_ok]
  cases h : d.expectDirectory p with
  | error e => simp [bind, Except.bind]
  | ok u => simp [bind, Except.bind]

theorem walk_nothing {d : Disk} {p q : Place} {steps : List Step}
    (hs : ∀ step ∈ steps, step = .nothing) (hw : d.walk p steps = .ok q) : q = p := by
  induction steps with
  | nil => exact (Except.ok.inj hw).symm
  | cons step rest ih =>
    obtain ⟨-, hrest⟩ := walk_cons_eq_ok.1 hw
    rw [hs step List.mem_cons_self] at hrest
    exact ih (fun s h => hs s (List.mem_cons_of_mem _ h)) hrest

theorem Keeps.walk {d d' : Disk} (h : d.Keeps d') {p q : Place} {steps : List Step}
    (hw : d.walk p steps = .ok q) : d'.walk p steps = .ok q := by
  induction steps generalizing p with
  | nil => exact hw
  | cons step rest ih =>
    obtain ⟨hp, hrest⟩ := walk_cons_eq_ok.1 hw
    exact walk_cons_eq_ok.2 ⟨h p hp, ih hrest⟩

theorem Leads.keeps {d d' : Disk} {path : Path} {dir : Place} (hl : d.Leads path dir)
    (h : d.Keeps d') : d'.Leads path dir where
  there := h _ hl.there
  find := by
    have hf := hl.find
    rw [Disk.find] at hf ⊢
    by_cases he : path.isEmpty
    · rw [if_pos he] at hf; cases hf
    · rw [if_neg he] at hf ⊢
      exact h.walk hf

theorem isDirectory_eq_true {d : Disk} {steps : List Step} :
    d.isDirectory steps = true ↔ ∃ p, d.walk {} steps = .ok p ∧ d.node? p = some .directory := by
  rw [isDirectory]
  cases d.walk {} steps with
  | error e => simp
  | ok p => simp

/-- The steps of a path lead to a directory. They do so for the empty path too, which itself leads
nowhere. -/
structure Reaches (d : Disk) (path : Path) (dir : Place) : Prop where
  walk : d.walk {} path.steps = .ok dir
  there : d.node? dir = some .directory

namespace Reaches

variable {d : Disk} {path : Path} {dir : Place} (hr : d.Reaches path dir)

include hr

theorem keeps {d' : Disk} (h : d.Keeps d') : d'.Reaches path dir :=
  ⟨h.walk hr.walk, h _ hr.there⟩

theorem leads (hne : path.isEmpty = false) : d.Leads path dir where
  find := by rw [Disk.find, if_neg (by simp [hne]), hr.walk]
  there := hr.there

theorem find_div (name : String) : d.find (path / name) = .ok (dir.child name) := by
  have h1 : d.walk dir [.down name] = .ok (dir.child name) :=
    walk_cons_eq_ok.2 ⟨hr.there, rfl⟩
  rw [Disk.find, Path.isEmpty_div, Path.steps_div, walk_append, hr.walk]
  exact h1

theorem openAppend_file {name : String} {id : Nat}
    (h : d.node? (dir.child name) = some (.file id)) :
    d.openAppend (path / name) = .ok (.file id, d) := by
  simp only [Disk.openAppend, hr.find_div, bind, Except.bind, h]

theorem openAppend_full {name : String} (h : d.node? (dir.child name) = some .full) :
    d.openAppend (path / name) = .ok (.full, d) := by
  simp only [Disk.openAppend, hr.find_div, bind, Except.bind, h]

theorem openAppend_new {name : String} (h : d.node? (dir.child name) = none) :
    d.openAppend (path / name) = .ok (.file d.files.length, (d.create (dir.child name)).1) := by
  simp only [Disk.openAppend, hr.find_div, bind, Except.bind, h]
  rfl

theorem makeDirectory_error : ∃ e, d.makeDirectory path.steps.reverse = .error e := by
  have hsplit : path.steps = (path.steps.reverse.dropWhile (· = .nothing)).reverse ++
      (path.steps.reverse.takeWhile (· = .nothing)).reverse := by
    rw [← List.reverse_append, List.takeWhile_append_dropWhile, List.reverse_reverse]
  have hstay : ∀ step ∈ (path.steps.reverse.takeWhile (· = .nothing)).reverse, step = .nothing := by
    intro step hs
    simpa using List.mem_takeWhile_imp (List.mem_reverse.1 hs)
  have hw := hr.walk
  rw [hsplit, walk_append] at hw
  rw [makeDirectory]
  cases hp : d.walk {} (path.steps.reverse.dropWhile (· = .nothing)).reverse with
  | error e => exact ⟨e, rfl⟩
  | ok p =>
    rw [hp] at hw
    have hpd : p = dir := (walk_nothing hstay hw).symm
    refine ⟨.occupied, ?_⟩
    simp only [bind, Except.bind, hpd, hr.there]

theorem createDirectories : Disk.createDirectories path d = .ok () d := by
  obtain ⟨e, he⟩ := hr.makeDirectory_error
  have hd : d.isDirectory path.steps.reverse.reverse = true := by
    rw [List.reverse_reverse]
    exact isDirectory_eq_true.2 ⟨dir, hr.walk, hr.there⟩
  rw [Disk.createDirectories, provideAll, provide, he]
  simp only [hd, if_true]

end Reaches

namespace Leads

variable {d : Disk} {path : Path} {dir : Place} (hl : d.Leads path dir)

include hl

theorem isEmpty : path.isEmpty = false := by
  have hf := hl.find
  rw [Disk.find] at hf
  by_cases he : path.isEmpty
  · rw [if_pos he] at hf; cases hf
  · simpa using he

theorem walk : d.walk {} path.steps = .ok dir := by
  have hf := hl.find
  rwa [Disk.find, if_neg (by simp [hl.isEmpty])] at hf

theorem reaches : d.Reaches path dir :=
  ⟨hl.walk, hl.there⟩

theorem find_div (name : String) : d.find (path / name) = .ok (dir.child name) :=
  hl.reaches.find_div name

theorem list : d.list path = .ok (d.names dir) := by
  rw [Disk.list, hl.find]
  simp only [bind, Except.bind, expectDirectory_eq_ok.2 hl.there]

theorem locate : d.locate path = .ok .directory := by
  simp only [Disk.locate, hl.find, bind, Except.bind, hl.there]

theorem locate_div {name : String} {node : Node} :
    d.locate (path / name) = .ok node ↔ d.node? (dir.child name) = some node := by
  simp only [Disk.locate, hl.find_div, bind, Except.bind]
  cases d.node? (dir.child name) with
  | none => simp
  | some other => simp

theorem read_div {name : String} {f : FileData} (h : d.fileAt? (dir.child name) = some f) :
    d.read (path / name) = .ok f.bytes := by
  obtain ⟨id, hid, rfl⟩ := fileAt?_eq_some.1 h
  simp only [Disk.read, hl.locate_div.2 hid, bind, Except.bind]

theorem lengthAt_div {name : String} {f : FileData} (h : d.fileAt? (dir.child name) = some f) :
    d.lengthAt (path / name) = .ok f.bytes.length := by
  obtain ⟨id, hid, rfl⟩ := fileAt?_eq_some.1 h
  simp only [Disk.lengthAt, hl.locate_div.2 hid, bind, Except.bind]

theorem openAppend_file {name : String} {id : Nat}
    (h : d.node? (dir.child name) = some (.file id)) :
    d.openAppend (path / name) = .ok (.file id, d) :=
  hl.reaches.openAppend_file h

theorem openAppend_new {name : String} (h : d.node? (dir.child name) = none) :
    d.openAppend (path / name) = .ok (.file d.files.length, (d.create (dir.child name)).1) :=
  hl.reaches.openAppend_new h

/-- What opening a file to write it anew can do: it fails at a directory, it meets a full device, or
there is an empty file, which may be new. -/
theorem openFresh_cases (name : String) :
    (d.node? (dir.child name) = some .directory ∧ ∃ e, d.openFresh (path / name) = .error e) ∨
      (d.node? (dir.child name) = some .full ∧ d.openFresh (path / name) = .ok (.full, d)) ∨
      (∃ id, d.node? (dir.child name) = some (.file id) ∧
        d.openFresh (path / name) = .ok (.file id, d.change id fun _ => {})) ∨
      (d.node? (dir.child name) = none ∧ d.openFresh (path / name) =
        .ok (.file d.files.length, (d.create (dir.child name)).1.change d.files.length fun _ => {})) := by
  simp only [Disk.openFresh, Disk.openAppend, hl.find_div, bind, Except.bind]
  cases h : d.node? (dir.child name) with
  | none => exact Or.inr (Or.inr (Or.inr ⟨rfl, rfl⟩))
  | some node =>
    cases node with
    | directory => exact Or.inl ⟨rfl, _, rfl⟩
    | full => exact Or.inr (Or.inl ⟨rfl, rfl⟩)
    | file id => exact Or.inr (Or.inr (Or.inl ⟨id, rfl, rfl⟩))

theorem rename_div {old new : String} {node : Node} (ho : d.node? (dir.child old) = some node)
    (hd : node ≠ .directory) (hn : d.node? (dir.child new) ≠ some .directory) :
    d.rename (path / old) (path / new) = .ok (d.move (dir.child old) (dir.child new) node) := by
  simp only [Disk.rename, hl.locate_div.2 ho, hl.find_div, bind, Except.bind]
  rw [if_neg (by simp [hd, hn])]
  rfl

theorem rename_onto {old new : String} {node : Node} (ho : d.node? (dir.child old) = some node)
    (hn : d.node? (dir.child new) = some .directory) :
    d.rename (path / old) (path / new) = .error .isDirectory := by
  simp only [Disk.rename, hl.locate_div.2 ho, hl.find_div, bind, Except.bind]
  rw [if_pos (Or.inr hn)]

/-- What a removal by path can do: it fails, or a name that was there is gone. -/
theorem remove_cases (name : String) :
    (∃ e, d.remove (path / name) = .error e) ∨
      ∃ node, d.node? (dir.child name) = some node ∧ node ≠ .directory ∧
        d.remove (path / name) = .ok (d.unlink (dir.child name)) := by
  simp only [Disk.remove, hl.find_div, bind, Except.bind]
  cases h : d.node? (dir.child name) with
  | none => exact Or.inl ⟨_, rfl⟩
  | some node =>
    cases node with
    | directory => exact Or.inl ⟨_, rfl⟩
    | file id => exact Or.inr ⟨_, rfl, by simp, rfl⟩
    | full => exact Or.inr ⟨_, rfl, by simp, rfl⟩

theorem remove_div {name : String} {id : Nat} (h : d.node? (dir.child name) = some (.file id)) :
    d.remove (path / name) = .ok (d.unlink (dir.child name)) := by
  simp only [Disk.remove, hl.find_div, bind, Except.bind, h]

end Leads

end LedgerStore.Disk
