import LedgerStore.Proofs.Archive.Numbered
import LedgerStore.Proofs.Archive.Volume

set_option autoImplicit false

namespace LedgerStore

/-- The files of one kind in a directory are some volumes, in increasing order. -/
structure Shelf (kind : FileName) (dir : Place) (vs : List Volume) (d : Disk) : Prop where
  ascending : vs.Pairwise fun a b => a.sequence < b.sequence
  named : (kind.parsed (d.names dir)).Perm (vs.map fun v => kind.label v.sequence)
  stored : ∀ v ∈ vs, ∃ f, d.fileAt? (dir.child (kind.render v.sequence)) = some f ∧ v.Holds f

namespace Shelf

variable {kind : FileName} {dir : Place} {vs : List Volume} {d : Disk}

theorem numbered :
    Shelf kind dir vs d ↔ Numbered Volume.sequence Volume.Holds kind dir vs d :=
  ⟨fun h => ⟨h.ascending, h.named, h.stored⟩, fun h => ⟨h.ascending, h.named, h.stored⟩⟩

theorem bounded (h : Shelf kind dir vs d) {v : Volume} (hv : v ∈ vs) :
    v.sequence < FileName.sequenceBound :=
  (numbered.1 h).bounded hv

theorem absent (h : Shelf kind dir vs d) {n : Nat} (hn : n < FileName.sequenceBound)
    (hne : ∀ v ∈ vs, v.sequence ≠ n) : d.node? (dir.child (kind.render n)) = none :=
  (numbered.1 h).absent hn hne

theorem place_inj (h : Shelf kind dir vs d) {v w : Volume} (hv : v ∈ vs) (hw : w ∈ vs)
    (heq : dir.child (kind.render v.sequence) = dir.child (kind.render w.sequence)) :
    v.sequence = w.sequence :=
  (numbered.1 h).place_inj hv hw heq

theorem place_ne (h : Shelf kind dir vs d) {p : Place} (hp : Outside kind dir p) {v : Volume}
    (hv : v ∈ vs) : dir.child (kind.render v.sequence) ≠ p :=
  (numbered.1 h).place_ne hp hv

theorem congr {d' : Disk} (h : Shelf kind dir vs d)
    (hn : kind.parsed (d'.names dir) = kind.parsed (d.names dir))
    (hf : ∀ v ∈ vs, d'.fileAt? (dir.child (kind.render v.sequence)) =
      d.fileAt? (dir.child (kind.render v.sequence))) : Shelf kind dir vs d' :=
  numbered.2 ((numbered.1 h).congr hn hf)

theorem change_outside (h : Shelf kind dir vs d) (hd : d.WellFormed) {p : Place} {id : Nat}
    (hp : Outside kind dir p) (hid : d.node? p = some (.file id)) (f : FileData → FileData) :
    Shelf kind dir vs (d.change id f) :=
  h.congr rfl fun v hv => by rw [Disk.fileAt?_change hd hid, if_neg (h.place_ne hp hv)]

theorem create_outside (h : Shelf kind dir vs d) (hd : d.WellFormed) {p : Place}
    (hp : Outside kind dir p) (hnames : p.names ≠ []) : Shelf kind dir vs (d.create p).1 :=
  h.congr (Disk.parsed_link hp d _) fun v hv => by
    rw [Disk.fileAt?_create hd hnames, if_neg (h.place_ne hp hv)]

theorem unlink_outside (h : Shelf kind dir vs d) {p : Place}
    (hp : Outside kind dir p) (hnames : p.names ≠ []) : Shelf kind dir vs (d.unlink p) :=
  h.congr (by rw [Disk.parsed_unlink, Disk.parsed_keep hp]) fun v hv => by
    rw [Disk.fileAt?_unlink hnames, if_neg (h.place_ne hp hv)]

theorem move_outside (h : Shelf kind dir vs d) {old new : Place} {id : Nat}
    (ho : Outside kind dir old) (hn : Outside kind dir new) (honames : old.names ≠ [])
    (hnnames : new.names ≠ []) (hid : d.node? old = some (.file id)) :
    Shelf kind dir vs (d.move old new (.file id)) := by
  have hu := h.unlink_outside ho honames
  refine h.congr ?_ fun v hv => ?_
  · rw [Disk.move, Disk.parsed_link hn, Disk.parsed_unlink, Disk.parsed_keep ho]
  · rw [Disk.fileAt?_move honames hnnames hid, if_neg (h.place_ne hn hv),
      if_neg (h.place_ne ho hv)]

theorem change {front back : List Volume} {v v' : Volume}
    (h : Shelf kind dir (front ++ v :: back) d) (hd : d.WellFormed) {id : Nat}
    (hid : d.node? (dir.child (kind.render v.sequence)) = some (.file id))
    {f : FileData → FileData} (hs : v'.sequence = v.sequence)
    (hv : ∀ data, v.Holds data → v'.Holds (f data)) :
    Shelf kind dir (front ++ v' :: back) (d.change id f) :=
  numbered.2 ((numbered.1 h).change hd hid hs hv)

theorem create (h : Shelf kind dir vs d) (hd : d.WellFormed) {n : Nat}
    (hn : n < FileName.sequenceBound) (hlast : ∀ v ∈ vs, v.sequence < n) :
    Shelf kind dir (vs ++ [{ sequence := n }]) (d.create (dir.child (kind.render n))).1 :=
  numbered.2 ((numbered.1 h).create hd hn hlast (Volume.holds_empty n))

theorem publish (h : Shelf kind dir vs d) {old : Place} {id : Nat}
    (ho : Outside kind dir old) (honames : old.names ≠ []) (hid : d.node? old = some (.file id))
    {v : Volume} (hn : v.sequence < FileName.sequenceBound)
    (hlast : ∀ w ∈ vs, w.sequence < v.sequence) (hv : v.Holds (d.data id)) :
    Shelf kind dir (vs ++ [v]) (d.move old (dir.child (kind.render v.sequence)) (.file id)) := by
  have hnames := Place.names_child dir (kind.render v.sequence)
  have habs := h.absent hn fun w hw => Nat.ne_of_lt (hlast w hw)
  have hu := h.unlink_outside ho honames
  have habs' : (d.unlink old).node? (dir.child (kind.render v.sequence)) = none := by
    rw [Disk.node?_unlink honames, habs, ite_self]
  refine ⟨(numbered.1 h).ascending_concat hlast, ?_, ?_⟩
  · rw [Disk.move, Disk.parsed_link_new hn habs', List.map_append]
    exact (hu.named.cons _).trans (List.perm_append_singleton _ _).symm
  · intro w hw
    rw [Disk.fileAt?_move honames hnames hid]
    rcases List.mem_append.1 hw with hw | hw
    · rw [if_neg ((numbered.1 h).place_ne_of_lt hn hw (hlast w hw)), if_neg (h.place_ne ho hw)]
      exact h.stored w hw
    · rw [List.mem_singleton.1 hw, if_pos rfl, Disk.fileAt?_of_node? hid]
      exact ⟨_, rfl, hv⟩

theorem unlink (h : Shelf kind dir vs d) {v : Volume} (hv : v ∈ vs) :
    Shelf kind dir (vs.filter fun w => w.sequence != v.sequence)
      (d.unlink (dir.child (kind.render v.sequence))) := by
  have hnames := Place.names_child dir (kind.render v.sequence)
  refine ⟨h.ascending.filter _, ?_, ?_⟩
  · rw [Disk.parsed_unlink]
    have hmap : (vs.map fun w => kind.label w.sequence).filter
          (fun f => dir.child f.2 != dir.child (kind.render v.sequence)) =
        (vs.filter fun w => w.sequence != v.sequence).map fun w => kind.label w.sequence := by
      rw [List.filter_map]
      congr 1
      refine List.filter_congr fun w hw => ?_
      by_cases hs : w.sequence = v.sequence
      · simp [FileName.label, hs]
      · have hne : dir.child (kind.render w.sequence) ≠ dir.child (kind.render v.sequence) :=
          fun heq => hs (h.place_inj hw hv heq)
        exact (bne_iff_ne.2 hne).trans (bne_iff_ne.2 hs).symm
    exact hmap ▸ h.named.filter _
  · intro w hw
    obtain ⟨hw, hne⟩ := List.mem_filter.1 hw
    rw [Disk.fileAt?_unlink hnames, if_neg fun heq => by simp [h.place_inj hw hv heq] at hne]
    exact h.stored w hw

theorem cut (h : Shelf kind dir vs d) (keep : Nat → Nat) :
    ∃ g : Volume → Volume, (∀ v ∈ vs, v.Cut (g v)) ∧ Shelf kind dir (vs.map g) (d.cut keep) := by
  have hcut : ∀ v ∈ vs, ∃ v', v.Cut v' ∧
      ∃ f, (d.cut keep).fileAt? (dir.child (kind.render v.sequence)) = some f ∧ v'.Holds f := by
    intro v hv
    obtain ⟨f, hf, hholds⟩ := h.stored v hv
    obtain ⟨id, hid, rfl⟩ := Disk.fileAt?_eq_some.1 hf
    obtain ⟨v', hv', hholds'⟩ := hholds.cut (Nat.le_max_right (keep id) (d.data id).synced)
    refine ⟨v', hv', _, Disk.fileAt?_of_node? (d.node?_cut keep _ ▸ hid), ?_⟩
    rwa [Disk.data_cut]
  choose! g hg hstored using hcut
  have hseq : ∀ v ∈ vs, (g v).sequence = v.sequence := fun v hv => (hg v hv).sequence
  refine ⟨g, hg, ?_, ?_, ?_⟩
  · rw [List.pairwise_map]
    exact h.ascending.imp_of_mem fun ha hb hlt => by rwa [hseq _ ha, hseq _ hb]
  · have hmap : (vs.map g).map (fun v => kind.label v.sequence) =
        vs.map fun v => kind.label v.sequence := by
      rw [List.map_map]
      exact List.map_congr_left fun v hv => by simp [hseq v hv]
    exact hmap ▸ h.named
  · intro w hw
    obtain ⟨v, hv, rfl⟩ := List.mem_map.1 hw
    rw [hseq v hv]
    exact hstored v hv

end Shelf

end LedgerStore
