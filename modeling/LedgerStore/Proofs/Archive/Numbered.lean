import LedgerStore.Proofs.Disk.Reach
import LedgerStore.Proofs.FileName

set_option autoImplicit false

namespace LedgerStore

namespace FileName

def parsed (kind : FileName) (names : List String) : List (Nat × String) :=
  names.filterMap fun name => (kind.sequence? name).map (·, name)

def label (kind : FileName) (sequence : Nat) : Nat × String :=
  (sequence, kind.render sequence)

theorem mem_parsed {kind : FileName} {names : List String} {n : Nat} {name : String} :
    (n, name) ∈ kind.parsed names ↔ name ∈ names ∧ kind.sequence? name = some n := by
  simp only [parsed, List.mem_filterMap, Option.map_eq_some_iff, Prod.mk.injEq]
  constructor
  · rintro ⟨other, hm, m, hs, rfl, rfl⟩
    exact ⟨hm, hs⟩
  · rintro ⟨hm, hs⟩
    exact ⟨name, hm, n, hs, rfl, rfl⟩

theorem parsed_filter (kind : FileName) (names : List String) (keep : String → Bool) :
    kind.parsed (names.filter keep) = (kind.parsed names).filter fun f => keep f.2 := by
  rw [parsed, parsed, List.filterMap_filter, List.filter_filterMap]
  refine List.filterMap_congr fun name _ => ?_
  cases kind.sequence? name with
  | none => cases keep name <;> rfl
  | some n => simp [Option.filter]

end FileName

def Outside (kind : FileName) (dir p : Place) : Prop :=
  ∀ name, p = dir.child name → kind.sequence? name = none

theorem Outside.child {kind : FileName} {dir dir' : Place} {name : String}
    (h : kind.sequence? name = none) : Outside kind dir (dir'.child name) := by
  intro other heq
  rw [← Place.name_eq_of_child heq, h]

namespace Disk

theorem parsed_unlink (kind : FileName) (d : Disk) (dir p : Place) :
    kind.parsed ((d.unlink p).names dir) =
      (kind.parsed (d.names dir)).filter fun f => dir.child f.2 != p := by
  rw [names_unlink, FileName.parsed_filter]

theorem parsed_keep {kind : FileName} {dir p : Place} (h : Outside kind dir p) (d : Disk) :
    (kind.parsed (d.names dir)).filter (fun f => dir.child f.2 != p) =
      kind.parsed (d.names dir) := by
  rw [List.filter_eq_self]
  rintro ⟨n, name⟩ hf
  have hs := (FileName.mem_parsed.1 hf).2
  have hne : dir.child name ≠ p := by
    intro heq
    rw [h name heq.symm] at hs
    cases hs
  simpa using hne

theorem parsed_link {kind : FileName} {dir p : Place} (h : Outside kind dir p) (d : Disk)
    (node : Node) : kind.parsed ((d.link p node).names dir) = kind.parsed (d.names dir) := by
  have hfront : kind.parsed (dir.nameOf? p).toList = [] := by
    cases hn : dir.nameOf? p with
    | none => rfl
    | some name => simp [FileName.parsed, h name (Place.nameOf?_eq_some.1 hn)]
  rw [names_link]
  change List.filterMap _ (_ ++ _) = _
  rw [List.filterMap_append]
  change kind.parsed _ ++ kind.parsed _ = _
  rw [hfront, List.nil_append, FileName.parsed_filter, parsed_keep h]

theorem parsed_link_child {kind : FileName} {dir : Place} {name : String} {n : Nat}
    (hs : kind.sequence? name = some n) {d : Disk} (habs : d.node? (dir.child name) = none)
    (node : Node) : kind.parsed ((d.link (dir.child name) node).names dir) =
      (n, name) :: kind.parsed (d.names dir) := by
  have hname : dir.nameOf? (dir.child name) = some name := Place.nameOf?_eq_some.2 rfl
  have hfilter : (d.names dir).filter (fun other => dir.child other != dir.child name) =
      d.names dir := by
    rw [List.filter_eq_self]
    intro other hmem
    have hne : dir.child other ≠ dir.child name := by
      intro heq
      obtain ⟨node, hnode⟩ := mem_names.1 hmem
      rw [heq, habs] at hnode
      cases hnode
    simpa using hne
  rw [names_link, hname, hfilter]
  simp [FileName.parsed, hs]

theorem parsed_link_new {kind : FileName} {dir : Place} {n : Nat} (hn : n < FileName.sequenceBound)
    {d : Disk} (habs : d.node? (dir.child (kind.render n)) = none) (node : Node) :
    kind.parsed ((d.link (dir.child (kind.render n)) node).names dir) =
      kind.label n :: kind.parsed (d.names dir) :=
  parsed_link_child (kind.sequence?_render hn) habs node

end Disk

/-- The files of one kind in a directory are the given ones, in increasing order. -/
structure Numbered {V : Type} (sequence : V → Nat) (holds : V → FileData → Prop) (kind : FileName)
    (dir : Place) (vs : List V) (d : Disk) : Prop where
  ascending : vs.Pairwise fun a b => sequence a < sequence b
  named : (kind.parsed (d.names dir)).Perm (vs.map fun v => kind.label (sequence v))
  stored : ∀ v ∈ vs, ∃ f, d.fileAt? (dir.child (kind.render (sequence v))) = some f ∧ holds v f

namespace Numbered

variable {V : Type} {sequence : V → Nat} {holds : V → FileData → Prop} {kind : FileName}
  {dir : Place} {vs : List V} {d : Disk}

theorem nil (h : ∀ name ∈ d.names dir, kind.sequence? name = none) :
    Numbered sequence holds kind dir [] d where
  ascending := List.Pairwise.nil
  named := by
    have hnil : kind.parsed (d.names dir) = [] := by
      rw [FileName.parsed, List.filterMap_eq_nil_iff]
      intro name hn
      rw [h name hn]
      rfl
    rw [hnil]
    exact List.Perm.nil
  stored v hv := by cases hv

theorem sequence? (h : Numbered sequence holds kind dir vs d) {v : V} (hv : v ∈ vs) :
    kind.sequence? (kind.render (sequence v)) = some (sequence v) := by
  have hm : kind.label (sequence v) ∈ kind.parsed (d.names dir) :=
    h.named.mem_iff.2 (List.mem_map.2 ⟨v, hv, rfl⟩)
  exact (FileName.mem_parsed.1 hm).2

theorem bounded (h : Numbered sequence holds kind dir vs d) {v : V} (hv : v ∈ vs) :
    sequence v < FileName.sequenceBound :=
  FileName.sequence?_lt (h.sequence? hv)

/-- Every name of the kind is the one that the sequence of a file gives. -/
theorem canonical (h : Numbered sequence holds kind dir vs d) {name : String}
    (hm : name ∈ d.names dir) {n : Nat} (hs : kind.sequence? name = some n) :
    ∃ v ∈ vs, sequence v = n ∧ name = kind.render n := by
  have hmem := h.named.mem_iff.1 (FileName.mem_parsed.2 ⟨hm, hs⟩)
  obtain ⟨v, hv, hlabel⟩ := List.mem_map.1 hmem
  simp only [FileName.label, Prod.mk.injEq] at hlabel
  exact ⟨v, hv, hlabel.1, by rw [← hlabel.2, hlabel.1]⟩

theorem absent (h : Numbered sequence holds kind dir vs d) {n : Nat}
    (hn : n < FileName.sequenceBound) (hne : ∀ v ∈ vs, sequence v ≠ n) :
    d.node? (dir.child (kind.render n)) = none := by
  cases hnode : d.node? (dir.child (kind.render n)) with
  | none => rfl
  | some node =>
    obtain ⟨v, hv, hs, -⟩ := h.canonical (Disk.mem_names.2 ⟨node, hnode⟩) (kind.sequence?_render hn)
    exact absurd hs (hne v hv)

theorem place_inj (h : Numbered sequence holds kind dir vs d) {v w : V} (hv : v ∈ vs) (hw : w ∈ vs)
    (heq : dir.child (kind.render (sequence v)) = dir.child (kind.render (sequence w))) :
    sequence v = sequence w :=
  kind.render_inj (h.bounded hv) (h.bounded hw) (Place.child_inj.1 heq)

theorem place_ne (h : Numbered sequence holds kind dir vs d) {p : Place} (hp : Outside kind dir p)
    {v : V} (hv : v ∈ vs) : dir.child (kind.render (sequence v)) ≠ p := by
  intro heq
  have hs := h.sequence? hv
  rw [hp _ heq.symm] at hs
  cases hs

theorem place_ne_of_lt (h : Numbered sequence holds kind dir vs d) {v : V} {n : Nat}
    (hn : n < FileName.sequenceBound) (hv : v ∈ vs) (hlt : sequence v < n) :
    dir.child (kind.render (sequence v)) ≠ dir.child (kind.render n) := by
  intro heq
  have hs := kind.render_inj (h.bounded hv) hn (Place.child_inj.1 heq)
  omega

theorem ascending_concat (h : Numbered sequence holds kind dir vs d) {v : V}
    (hlast : ∀ w ∈ vs, sequence w < sequence v) :
    (vs ++ [v]).Pairwise fun a b => sequence a < sequence b := by
  rw [List.pairwise_append]
  refine ⟨h.ascending, List.pairwise_singleton _ _, ?_⟩
  intro w hw u hu
  rw [List.mem_singleton.1 hu]
  exact hlast w hw

theorem congr {d' : Disk} (h : Numbered sequence holds kind dir vs d)
    (hn : kind.parsed (d'.names dir) = kind.parsed (d.names dir))
    (hf : ∀ v ∈ vs, d'.fileAt? (dir.child (kind.render (sequence v))) =
      d.fileAt? (dir.child (kind.render (sequence v)))) : Numbered sequence holds kind dir vs d' where
  ascending := h.ascending
  named := hn ▸ h.named
  stored v hv := by rw [hf v hv]; exact h.stored v hv

theorem change {front back : List V} {v v' : V}
    (h : Numbered sequence holds kind dir (front ++ v :: back) d) (hd : d.WellFormed) {id : Nat}
    (hid : d.node? (dir.child (kind.render (sequence v))) = some (.file id))
    {f : FileData → FileData} (hs : sequence v' = sequence v)
    (hv : ∀ data, holds v data → holds v' (f data)) :
    Numbered sequence holds kind dir (front ++ v' :: back) (d.change id f) := by
  have hmem : v ∈ front ++ v :: back := by simp
  have hother : ∀ w ∈ front ++ v :: back, sequence w ≠ sequence v →
      ∃ data, (d.change id f).fileAt? (dir.child (kind.render (sequence w))) = some data ∧
        holds w data := by
    intro w hw hne
    rw [Disk.fileAt?_change hd hid, if_neg fun heq => hne (h.place_inj hw hmem heq)]
    exact h.stored w hw
  have hasc := h.ascending
  refine ⟨?_, ?_, ?_⟩
  · simpa only [List.pairwise_append, List.pairwise_cons, List.mem_cons, forall_eq_or_imp, hs]
      using hasc
  · simpa only [List.map_append, List.map_cons, hs, Disk.names_change] using h.named
  · intro w hw
    simp only [List.pairwise_append, List.pairwise_cons, List.mem_cons] at hasc
    rcases List.mem_append.1 hw with hw | hw
    · exact hother w (by simp [hw]) (Nat.ne_of_lt (hasc.2.2 w hw v (Or.inl rfl)))
    · rcases List.mem_cons.1 hw with rfl | hw
      · obtain ⟨data, hdata, hv'⟩ := h.stored v hmem
        obtain ⟨id', hid', rfl⟩ := Disk.fileAt?_eq_some.1 hdata
        rw [hid] at hid'
        cases hid'
        exact ⟨_, by rw [hs, Disk.fileAt?_change hd hid, if_pos rfl], hv _ hv'⟩
      · exact hother w (by simp [hw]) (Nat.ne_of_gt (hasc.2.1.1 w hw))

theorem create (h : Numbered sequence holds kind dir vs d) (hd : d.WellFormed) {v : V}
    (hn : sequence v < FileName.sequenceBound) (hlast : ∀ w ∈ vs, sequence w < sequence v)
    (hv : holds v {}) : Numbered sequence holds kind dir (vs ++ [v])
      (d.create (dir.child (kind.render (sequence v)))).1 := by
  have hnames := Place.names_child dir (kind.render (sequence v))
  have habs := h.absent hn fun w hw => Nat.ne_of_lt (hlast w hw)
  refine ⟨h.ascending_concat hlast, ?_, ?_⟩
  · change (kind.parsed ((d.link _ _).names dir)).Perm _
    rw [Disk.parsed_link_new hn habs, List.map_append]
    exact (h.named.cons _).trans (List.perm_append_singleton _ _).symm
  · intro w hw
    rw [Disk.fileAt?_create hd hnames]
    rcases List.mem_append.1 hw with hw | hw
    · rw [if_neg (h.place_ne_of_lt hn hw (hlast w hw))]
      exact h.stored w hw
    · rw [List.mem_singleton.1 hw, if_pos rfl]
      exact ⟨_, rfl, hv⟩

end Numbered

end LedgerStore
