import LedgerStore.Proofs.Disk.Reach
import LedgerStore.Proofs.Host

set_option autoImplicit false

namespace LedgerStore

namespace Disk

def without (d : Disk) (dir : Place) (names : List String) : Disk :=
  names.foldl (fun d name => d.unlink (dir.child name)) d

variable {d : Disk} {path : Path} {dir : Place} {names : List String}

theorem without_cons (d : Disk) (dir : Place) (name : String) (names : List String) :
    d.without dir (name :: names) = (d.unlink (dir.child name)).without dir names := rfl

theorem agree_without {q : Place} (h : ∀ name ∈ names, q ≠ dir.child name) :
    d.Agree (d.without dir names) q := by
  induction names generalizing d with
  | nil => exact .refl d q
  | cons name names ih =>
    have hfirst : d.Agree (d.unlink (dir.child name)) q :=
      agree_unlink (dir.names_child name) (h name List.mem_cons_self)
    exact hfirst.trans (ih fun other hother => h other (List.mem_cons_of_mem _ hother))

theorem node?_without {name : String} (h : name ∈ names) :
    (d.without dir names).node? (dir.child name) = none := by
  induction names generalizing d with
  | nil => cases h
  | cons first names ih =>
    rw [without_cons]
    by_cases hrest : name ∈ names
    · exact ih hrest
    · obtain rfl := (List.mem_cons.1 h).resolve_right hrest
      have hlast : (d.unlink (dir.child name)).Agree
          ((d.unlink (dir.child name)).without dir names) (dir.child name) :=
        agree_without fun other hother heq => hrest (Place.child_inj.1 heq ▸ hother)
      rw [hlast.node, node?_unlink (dir.names_child name), if_pos rfl]

theorem WellFormed.without (hd : d.WellFormed) (dir : Place) (names : List String) :
    (d.without dir names).WellFormed := by
  induction names generalizing d with
  | nil => exact hd
  | cons name names ih => exact ih (hd.unlink (dir.names_child name))

theorem nodup_without (h : (d.names dir).Nodup) (names : List String) :
    ((d.without dir names).names dir).Nodup := by
  induction names generalizing d with
  | nil => exact h
  | cons name names ih =>
    refine ih ?_
    rw [names_unlink]
    exact h.filter _

structure Loses (d : Disk) (path : Path) (dir : Place) (gone : List String) (d' : Disk) : Prop where
  left : d' = d.without dir gone
  leads : d'.Leads path dir

theorem Leads.loses_nil (hd : d.Leads path dir) : d.Loses path dir [] d :=
  ⟨rfl, hd⟩

theorem Loses.cons {d' : Disk} {name : String}
    (h : (d.unlink (dir.child name)).Loses path dir names d') :
    d.Loses path dir (name :: names) d' :=
  ⟨h.left, h.leads⟩

structure Files (d : Disk) (dir : Place) (names : List String) : Prop where
  once : names.Nodup
  file : ∀ name ∈ names, ∃ id, d.node? (dir.child name) = some (.file id)

theorem Files.tail {name : String} (h : d.Files dir (name :: names)) :
    (d.unlink (dir.child name)).Files dir names where
  once := (List.nodup_cons.1 h.once).2
  file other hother := by
    have hne : dir.child other ≠ dir.child name := fun heq =>
      (List.nodup_cons.1 h.once).1 (Place.child_inj.1 heq ▸ hother)
    obtain ⟨id, hid⟩ := h.file other (List.mem_cons_of_mem _ hother)
    exact ⟨id, (agree_unlink (dir.names_child name) hne).node.trans hid⟩

theorem Leads.ensures_remove {mood : Mood} (hd : d.Leads path dir) (name : String) :
    Ensures (Host.Holds mood (· = d)) (Host.remove (path / name))
      (fun _ => Host.Holds mood (d.Loses path dir [name]))
      (Host.FailedIf mood (∃ id, d.node? (dir.child name) = some (.file id)) (· = d)) := by
  have hthen : ∀ d', d' = d → ∀ d'', d'.remove (path / name) = .ok d'' →
      d.Loses path dir [name] d'' := by
    rintro _ rfl d'' hrun
    rcases hd.remove_cases name with ⟨e, he⟩ | ⟨node, hnode, hne, hok⟩
    · cases he.symm.trans hrun
    · cases hok.symm.trans hrun
      have hkeeps := keeps_unlink (dir.names_child name) (by rw [hnode]; exact mt Option.some.inj hne)
      exact ⟨rfl, hd.keeps hkeeps⟩
  refine Ensures.failedIf (Host.ensures_alter_or hthen) fun hfile hcalm => ?_
  refine (Host.ensures_alter fun d' hd' => ?_).weaken (fun _ => id) (fun _ _ => id)
    fun h hh => hh.2 hcalm
  obtain ⟨id, hid⟩ := hfile
  obtain rfl := hd'
  exact ⟨_, hd.remove_div hid, hthen _ rfl _ (hd.remove_div hid)⟩

end Disk

namespace Journal

/-- Names are removed one after another. If that stops, the first of them are gone. -/
theorem ensures_removeAll {mood : Mood} {d : Disk} {path : Path} {dir : Place}
    (hd : d.Leads path dir) (what : String) (names : List String) :
    Ensures (Host.Holds mood (· = d)) (removeAll path what names)
      (fun n h => n = names.length ∧ h.Holds mood (d.Loses path dir names))
      (fun h => ∃ gone, gone <+: names ∧
        h.FailedIf mood (d.Files dir names) (d.Loses path dir gone)) := by
  have hnothing : ∀ {d : Disk}, d.Leads path dir → ∀ d', d' = d → d.Loses path dir [] d' := by
    rintro d hd _ rfl
    exact hd.loses_nil
  induction names generalizing d with
  | nil => exact Ensures.pure fun h hh => ⟨rfl, hh.imp (hnothing hd)⟩
  | cons name names ih =>
    rw [removeAll]
    refine Ensures.bind (((hd.ensures_remove name).during _ _).weaken (fun _ => id)
      (fun _ _ => id) fun h hh => ?_) fun _ => Ensures.each fun d' hd' => ?_
    · exact ⟨[], List.nil_prefix, hh.1.imp (hnothing hd),
        fun hfiles => hh.2 (hfiles.file name List.mem_cons_self)⟩
    · obtain ⟨rfl, hleads⟩ := hd'
      refine Ensures.bind ((ih hleads).weaken (fun _ => id) (fun _ _ => id) ?_) fun n =>
        Ensures.fact fun hn => Ensures.pure fun h hh =>
          ⟨by rw [hn]; rfl, hh.imp fun _ => Disk.Loses.cons⟩
      rintro h ⟨gone, hprefix, hh, hfault⟩
      exact ⟨name :: gone, (List.prefix_cons_inj name).2 hprefix, hh.imp fun _ => Disk.Loses.cons,
        fun hfiles => hfault hfiles.tail⟩

end Journal

end LedgerStore
