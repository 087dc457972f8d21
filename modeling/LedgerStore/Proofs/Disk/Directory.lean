import Mathlib.Data.List.Infix
import LedgerStore.Disk

set_option autoImplicit false

namespace LedgerStore

namespace Place

def child (p : Place) (name : String) : Place :=
  p.after (.down name)

theorem child_inj {p : Place} {a b : String} : p.child a = p.child b ↔ a = b := by
  simp [child, after]

theorem name_eq_of_child {p q : Place} {a b : String} (h : p.child a = q.child b) : a = b := by
  simp only [child, after, mk.injEq] at h
  exact List.singleton_inj.1 (List.append_inj_right' h.2 rfl)

theorem names_child (p : Place) (name : String) : (p.child name).names ≠ [] := by
  simp [child, after]

theorem nameOf?_eq_some {p q : Place} {name : String} :
    p.nameOf? q = some name ↔ q = p.child name := by
  obtain ⟨pa, pn⟩ := p
  obtain ⟨qa, qn⟩ := q
  have hiff : pn.isPrefixOf? qn = some [name] ↔ qn = pn ++ [name] := by
    rw [List.isPrefixOf?_eq_some_iff_append_eq, eq_comm]
  simp only [child, after, Place.mk.injEq, ← hiff]
  rw [nameOf?]
  split
  · next other heq =>
    rw [heq]
    by_cases ha : qa = pa
    · simp [ha]
    · simp [ha]
  · next hne =>
    constructor
    · intro h; cases h
    · rintro ⟨-, h⟩
      exact absurd h (hne name)

end Place

namespace Disk

theorem node?_of_names {d : Disk} {p : Place} (h : p.names ≠ []) :
    d.node? p = d.nodes.lookup p := by
  rw [node?, if_neg h]

theorem lookup_filter_ne (nodes : List (Place × Node)) (p q : Place) :
    (nodes.filter fun e => e.1 != p).lookup q = if q = p then none else nodes.lookup q := by
  induction nodes with
  | nil => simp
  | cons e rest ih =>
    obtain ⟨r, node⟩ := e
    by_cases hr : r = p
    · subst hr
      rw [List.filter_cons_of_neg (by simp), ih]
      by_cases hq : q = r
      · rw [if_pos hq, if_pos hq]
      · have hb : (q == r) = false := by simpa using hq
        rw [if_neg hq, if_neg hq, List.lookup_cons, hb]
    · rw [List.filter_cons_of_pos (by simpa using hr), List.lookup_cons, List.lookup_cons, ih]
      by_cases hq : q = p
      · have hb : (q == r) = false := by simpa [hq] using fun h => hr h.symm
        rw [hb, if_pos hq]
      · simp [hq]

theorem node?_link {d : Disk} {p : Place} (hp : p.names ≠ []) (node : Node) (q : Place) :
    (d.link p node).node? q = if q = p then some node else d.node? q := by
  by_cases hq : q.names = []
  · have hne : q ≠ p := fun h => hp (h ▸ hq)
    rw [if_neg hne, node?, node?, if_pos hq, if_pos hq]
  · rw [node?_of_names hq, node?_of_names hq, link, List.lookup_cons]
    by_cases h : q = p
    · simp [h]
    · have hb : (q == p) = false := by simpa using h
      simp only [hb, if_neg h]
      rw [lookup_filter_ne, if_neg h]

theorem node?_unlink {d : Disk} {p : Place} (hp : p.names ≠ []) (q : Place) :
    (d.unlink p).node? q = if q = p then none else d.node? q := by
  by_cases hq : q.names = []
  · have hne : q ≠ p := fun h => hp (h ▸ hq)
    rw [if_neg hne, node?, node?, if_pos hq, if_pos hq]
  · rw [node?_of_names hq, node?_of_names hq]
    exact lookup_filter_ne _ _ _

@[simp] theorem node?_change (d : Disk) (id : Nat) (f : FileData → FileData) (p : Place) :
    (d.change id f).node? p = d.node? p := rfl

@[simp] theorem names_change (d : Disk) (id : Nat) (f : FileData → FileData) (p : Place) :
    (d.change id f).names p = d.names p := rfl

theorem lookup_isSome_iff {nodes : List (Place × Node)} {p : Place} :
    (∃ node, nodes.lookup p = some node) ↔ ∃ e ∈ nodes, e.1 = p := by
  induction nodes with
  | nil => simp
  | cons e rest ih =>
    obtain ⟨q, node⟩ := e
    rw [List.lookup_cons]
    by_cases h : p = q
    · simp [h]
    · have hb : (p == q) = false := by simpa using h
      have hq : ¬ q = p := fun hq => h hq.symm
      simp only [hb, ih, List.mem_cons]
      constructor
      · rintro ⟨e, he, rfl⟩
        exact ⟨e, Or.inr he, rfl⟩
      · rintro ⟨e, rfl | he, hp⟩
        · exact absurd hp hq
        · exact ⟨e, he, hp⟩

theorem mem_names {d : Disk} {p : Place} {name : String} :
    name ∈ d.names p ↔ ∃ node, d.node? (p.child name) = some node := by
  rw [node?_of_names (p.names_child name), lookup_isSome_iff, names, List.mem_filterMap]
  simp only [Place.nameOf?_eq_some]

theorem names_filter (nodes : List (Place × Node)) (p q : Place) :
    (nodes.filter fun e => e.1 != q).filterMap (fun e => p.nameOf? e.1) =
      (nodes.filterMap fun e => p.nameOf? e.1).filter fun name => p.child name != q := by
  rw [List.filter_filterMap, List.filterMap_filter]
  refine List.filterMap_congr fun e _ => ?_
  cases h : p.nameOf? e.1 with
  | none => simp
  | some name =>
    have he := Place.nameOf?_eq_some.1 h
    simp only [Option.filter_some, ← he]

theorem names_unlink (d : Disk) (p q : Place) :
    (d.unlink q).names p = (d.names p).filter fun name => p.child name != q :=
  names_filter d.nodes p q

theorem names_link (d : Disk) (p q : Place) (node : Node) :
    (d.link q node).names p =
      (p.nameOf? q).toList ++ (d.names p).filter fun name => p.child name != q := by
  have h := names_filter d.nodes p q
  cases hn : p.nameOf? q with
  | none => simp [names, link, List.filterMap_cons_none, hn, h]
  | some name => simp [names, link, List.filterMap_cons_some, hn, h]

/-- No two names lead to one file, and each file they lead to is there. -/
structure WellFormed (d : Disk) : Prop where
  there : ∀ p id, d.node? p = some (.file id) → id < d.files.length
  apart : ∀ p q id, d.node? p = some (.file id) → d.node? q = some (.file id) → p = q

theorem WellFormed.of_directories {d : Disk} (h : ∀ e ∈ d.nodes, e.2 = .directory) :
    d.WellFormed := by
  have hno : ∀ p id, d.node? p ≠ some (.file id) := by
    intro p id hp
    rw [node?] at hp
    split at hp
    · cases hp
    · obtain ⟨front, rest, hnodes, -⟩ := List.lookup_eq_some_iff.1 hp
      cases h (p, .file id) (by simp [hnodes])
  exact ⟨fun p id hp => absurd hp (hno p id), fun p q id hp => absurd hp (hno p id)⟩

theorem data_change {d : Disk} {id : Nat} (h : id < d.files.length) (f : FileData → FileData)
    (other : Nat) : (d.change id f).data other = if other = id then f (d.data id) else d.data other := by
  simp only [data, change, List.getElem?_modify]
  by_cases ho : other = id
  · subst ho
    simp [List.getElem?_eq_getElem h]
  · have : ¬ id = other := fun h => ho h.symm
    simp [ho, this]

@[simp] theorem length_files_change (d : Disk) (id : Nat) (f : FileData → FileData) :
    (d.change id f).files.length = d.files.length := by
  simp [change]

theorem WellFormed.change {d : Disk} (hd : d.WellFormed) (id : Nat) (f : FileData → FileData) :
    (d.change id f).WellFormed where
  there p id' h := by simpa using hd.there p id' h
  apart := hd.apart

theorem WellFormed.unlink {d : Disk} (hd : d.WellFormed) {p : Place} (hp : p.names ≠ []) :
    (d.unlink p).WellFormed where
  there q id h := by
    rw [node?_unlink hp] at h
    split at h
    · cases h
    · exact hd.there q id h
  apart q r id hq hr := by
    rw [node?_unlink hp] at hq hr
    split at hq
    · cases hq
    · split at hr
      · cases hr
      · exact hd.apart q r id hq hr

theorem node?_create {d : Disk} {p : Place} (hp : p.names ≠ []) (q : Place) :
    (d.create p).1.node? q = if q = p then some (.file d.files.length) else d.node? q :=
  node?_link hp _ q

theorem WellFormed.create {d : Disk} (hd : d.WellFormed) {p : Place} (hp : p.names ≠ []) :
    (d.create p).1.WellFormed := by
  have hlen : (d.create p).1.files.length = d.files.length + 1 := by simp [Disk.create]
  constructor
  · intro q id h
    rw [node?_create hp] at h
    split at h
    · cases h; omega
    · have := hd.there q id h; omega
  · intro q r id hq hr
    rw [node?_create hp] at hq hr
    split at hq
    · cases hq
      split at hr
      · next h1 h2 => rw [h1, h2]
      · have := hd.there r _ hr; omega
    · split at hr
      · cases hr
        have := hd.there q _ hq; omega
      · exact hd.apart q r id hq hr

def move (d : Disk) (old new : Place) (node : Node) : Disk :=
  (d.unlink old).link new node

theorem node?_move {d : Disk} {old new : Place} (ho : old.names ≠ []) (hn : new.names ≠ [])
    (node : Node) (q : Place) :
    (d.move old new node).node? q =
      if q = new then some node else if q = old then none else d.node? q := by
  rw [move, node?_link hn, node?_unlink ho]

theorem WellFormed.move {d : Disk} (hd : d.WellFormed) {old new : Place} (ho : old.names ≠ [])
    (hn : new.names ≠ []) {id : Nat} (hid : d.node? old = some (.file id)) :
    (d.move old new (.file id)).WellFormed := by
  constructor
  · intro q id' h
    rw [node?_move ho hn] at h
    split at h
    · cases h; exact hd.there old _ hid
    · split at h
      · cases h
      · exact hd.there q id' h
  · intro q r id' hq hr
    rw [node?_move ho hn] at hq hr
    split at hq
    · cases hq
      split at hr
      · next h1 h2 => rw [h1, h2]
      · split at hr
        · cases hr
        · next hne => exact absurd (hd.apart r old _ hr hid) hne
    · split at hq
      · cases hq
      · next hne =>
        split at hr
        · cases hr
          exact absurd (hd.apart q old _ hq hid) hne
        · split at hr
          · cases hr
          · exact hd.apart q r id' hq hr

def fileAt? (d : Disk) (p : Place) : Option FileData :=
  match d.node? p with
  | some (.file id) => some (d.data id)
  | _ => none

theorem fileAt?_of_node? {d : Disk} {p : Place} {id : Nat} (h : d.node? p = some (.file id)) :
    d.fileAt? p = some (d.data id) := by
  rw [fileAt?, h]

theorem fileAt?_eq_some {d : Disk} {p : Place} {f : FileData} :
    d.fileAt? p = some f ↔ ∃ id, d.node? p = some (.file id) ∧ d.data id = f := by
  rw [fileAt?]
  split
  · next id h => simp [h]
  · next hne =>
    constructor
    · intro h; cases h
    · rintro ⟨id, h, -⟩
      exact absurd h (hne id)

theorem WellFormed.mem_files {d : Disk} (hd : d.WellFormed) {p : Place} {f : FileData}
    (hf : d.fileAt? p = some f) : f ∈ d.files := by
  obtain ⟨id, hid, rfl⟩ := fileAt?_eq_some.1 hf
  rw [data, List.getElem?_eq_getElem (hd.there p id hid)]
  exact List.getElem_mem _

theorem fileAt?_change {d : Disk} (hd : d.WellFormed) {p : Place} {id : Nat}
    (hp : d.node? p = some (.file id)) (f : FileData → FileData) (q : Place) :
    (d.change id f).fileAt? q = if q = p then some (f (d.data id)) else d.fileAt? q := by
  have hlt := hd.there p id hp
  by_cases hq : q = p
  · have : (d.change id f).node? q = some (.file id) := hq ▸ hp
    rw [fileAt?_of_node? this, data_change hlt, if_pos rfl, if_pos hq]
  · rw [if_neg hq, fileAt?, fileAt?, node?_change]
    split
    · next other h =>
      have hne : other ≠ id := fun he => hq (hd.apart q p id (he ▸ h) hp)
      rw [data_change hlt, if_neg hne]
    · rfl

theorem fileAt?_unlink {d : Disk} {p : Place} (hp : p.names ≠ []) (q : Place) :
    (d.unlink p).fileAt? q = if q = p then none else d.fileAt? q := by
  rw [fileAt?, node?_unlink hp]
  by_cases hq : q = p
  · rw [if_pos hq, if_pos hq]
  · rw [if_neg hq, if_neg hq]; rfl

theorem data_create_of_lt {d : Disk} {id : Nat} (h : id < d.files.length) (p : Place) :
    (d.create p).1.data id = d.data id := by
  simp [data, Disk.create, List.getElem?_append_left h]

theorem fileAt?_create {d : Disk} (hd : d.WellFormed) {p : Place} (hp : p.names ≠ []) (q : Place) :
    (d.create p).1.fileAt? q = if q = p then some {} else d.fileAt? q := by
  by_cases hq : q = p
  · have : (d.create p).1.node? q = some (.file d.files.length) := by rw [node?_create hp, if_pos hq]
    rw [fileAt?_of_node? this, if_pos hq]
    simp [data, Disk.create]
  · rw [if_neg hq, fileAt?, fileAt?, node?_create hp, if_neg hq]
    split
    · next id h => rw [data_create_of_lt (hd.there q id h)]
    · rfl

theorem fileAt?_move {d : Disk} {old new : Place} (ho : old.names ≠ [])
    (hn : new.names ≠ []) {id : Nat} (hid : d.node? old = some (.file id)) (q : Place) :
    (d.move old new (.file id)).fileAt? q =
      if q = new then d.fileAt? old else if q = old then none else d.fileAt? q := by
  rw [fileAt?, node?_move ho hn]
  by_cases hq : q = new
  · rw [if_pos hq, if_pos hq, fileAt?_of_node? hid]; rfl
  · rw [if_neg hq, if_neg hq]
    by_cases hqo : q = old
    · rw [if_pos hqo, if_pos hqo]
    · rw [if_neg hqo, if_neg hqo]; rfl

/-- Two file systems have the same at a place: the same node, and the same file if it is one. -/
structure Agree (d d' : Disk) (p : Place) : Prop where
  node : d'.node? p = d.node? p
  file : d'.fileAt? p = d.fileAt? p

theorem Agree.refl (d : Disk) (p : Place) : d.Agree d p :=
  ⟨rfl, rfl⟩

theorem Agree.trans {d d' d'' : Disk} {p : Place} (h : d.Agree d' p) (h' : d'.Agree d'' p) :
    d.Agree d'' p :=
  ⟨h'.node.trans h.node, h'.file.trans h.file⟩

theorem agree_change {d : Disk} (hd : d.WellFormed) {p q : Place} {id : Nat}
    (hp : d.node? p = some (.file id)) (f : FileData → FileData) (hq : q ≠ p) :
    d.Agree (d.change id f) q :=
  ⟨rfl, by rw [fileAt?_change hd hp, if_neg hq]⟩

theorem agree_create {d : Disk} (hd : d.WellFormed) {p q : Place} (hp : p.names ≠ [])
    (hq : q ≠ p) : d.Agree (d.create p).1 q :=
  ⟨by rw [node?_create hp, if_neg hq], by rw [fileAt?_create hd hp, if_neg hq]⟩

theorem agree_unlink {d : Disk} {p q : Place} (hp : p.names ≠ []) (hq : q ≠ p) :
    d.Agree (d.unlink p) q :=
  ⟨by rw [node?_unlink hp, if_neg hq], by rw [fileAt?_unlink hp, if_neg hq]⟩

theorem agree_move {d : Disk} {old new q : Place} (ho : old.names ≠ []) (hn : new.names ≠ [])
    {id : Nat} (hid : d.node? old = some (.file id)) (hold : q ≠ old) (hnew : q ≠ new) :
    d.Agree (d.move old new (.file id)) q :=
  ⟨by rw [node?_move ho hn, if_neg hnew, if_neg hold],
    by rw [fileAt?_move ho hn hid, if_neg hnew, if_neg hold]⟩

/-- What a crash leaves: of each file any part that is not shorter than its permanent part. -/
def cut (d : Disk) (keep : Nat → Nat) : Disk :=
  { d with
    files := d.files.mapIdx fun id f => { f with bytes := f.bytes.take (max (keep id) f.synced) } }

@[simp] theorem node?_cut (d : Disk) (keep : Nat → Nat) (p : Place) :
    (d.cut keep).node? p = d.node? p := rfl

theorem data_cut (d : Disk) (keep : Nat → Nat) (id : Nat) :
    (d.cut keep).data id =
      { d.data id with bytes := (d.data id).bytes.take (max (keep id) (d.data id).synced) } := by
  simp only [data, cut, List.getElem?_mapIdx]
  cases d.files[id]? with
  | none => simp
  | some f => rfl

theorem WellFormed.cut {d : Disk} (hd : d.WellFormed) (keep : Nat → Nat) :
    (d.cut keep).WellFormed where
  there p id h := by simpa [Disk.cut] using hd.there p id h
  apart := hd.apart

end Disk

end LedgerStore
