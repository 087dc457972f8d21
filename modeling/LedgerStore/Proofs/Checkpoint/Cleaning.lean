import LedgerStore.Proofs.Archive.Site
import LedgerStore.Proofs.FileName
import LedgerStore.Proofs.Journal.Removal

set_option autoImplicit false

namespace LedgerStore.Checkpoint

structure Flat (path : Path) (dir : Place) (d : Disk) : Prop where
  leads : d.Leads path dir
  once : (d.names dir).Nodup
  regular : ∀ name ∈ d.names dir, ∃ f, d.fileAt? (dir.child name) = some f

/-- The name of a checkpoint below a sequence, or of an unfinished checkpoint. -/
def Superseded (s : Nat) (name : String) : Prop :=
  (∃ n, fileName.sequence? name = some n ∧ n < s) ∨
    ("checkpoint-".toList <+: name.toList ∧ ".tmp".toList <:+ name.toList)

theorem not_superseded {s n : Nat} {name : String} (hs : fileName.sequence? name = some n)
    (hn : s ≤ n) : ¬ Superseded s name := by
  rintro (⟨m, hm, hlt⟩ | ⟨-, hdraft⟩)
  · rw [hs] at hm
    cases hm
    omega
  · rw [sequence?_eq_none hdraft] at hs
    cases hs

theorem stale_iff {s : Nat} {name : String} : stale s name = true ↔ Superseded s name := by
  cases hs : fileName.sequence? name with
  | none =>
    rw [Superseded, or_iff_right (by simp [hs])]
    simp only [stale, hs, Bool.and_eq_true, List.isPrefixOf_iff_prefix, List.isSuffixOf_iff_suffix]
    rfl
  | some n =>
    simp only [stale, hs, decide_eq_true_eq]
    exact ⟨fun hn => Or.inl ⟨n, hs, hn⟩, fun h => Nat.lt_of_not_le fun hn => not_superseded hs hn h⟩

/-- Some superseded files of a directory are gone, and nothing else has changed. -/
structure Cleaned (dir : Place) (s : Nat) (gone : List String) (d d' : Disk) : Prop where
  once : gone.Nodup
  superseded : ∀ name ∈ gone, name ∈ d.names dir ∧ Superseded s name
  removed : ∀ name ∈ gone, d'.node? (dir.child name) = none
  kept : ∀ q, (∀ name ∈ gone, q ≠ dir.child name) → d.Agree d' q

def Spared (dir : Place) (s : Nat) (d d' : Disk) : Prop :=
  ∀ name n, fileName.sequence? name = some n → s ≤ n → d.Agree d' (dir.child name)

variable {path : Path} {dir : Place} {d d' : Disk} {mood : Mood} {s : Nat} {gone : List String}

theorem Cleaned.spared (h : Cleaned dir s gone d d') : Spared dir s d d' := by
  intro name n hs hn
  refine h.kept _ fun other hother heq => not_superseded hs hn ?_
  rw [Place.child_inj.1 heq]
  exact (h.superseded other hother).2

theorem mem_stale {name : String} : name ∈ (d.names dir).filter (stale s) ↔
    name ∈ d.names dir ∧ Superseded s name := by
  rw [List.mem_filter, stale_iff]

namespace Flat

theorem cleaned (hd : Flat path dir d) (hgone : gone <+: (d.names dir).filter (stale s))
    (h : d.Loses path dir gone d') : Cleaned dir s gone d d' where
  once := (hd.once.filter _).sublist hgone.sublist
  superseded _ hname := mem_stale.1 (hgone.subset hname)
  removed _ hname := h.left ▸ Disk.node?_without hname
  kept _ hq := h.left ▸ Disk.agree_without hq

theorem files (hd : Flat path dir d) : d.Files dir ((d.names dir).filter (stale s)) where
  once := hd.once.filter _
  file name hname := by
    obtain ⟨f, hf⟩ := hd.regular name (List.mem_filter.1 hname).1
    obtain ⟨id, hid, -⟩ := Disk.fileAt?_eq_some.1 hf
    exact ⟨id, hid⟩

/-- A cleaning that ends well has removed every superseded file, and one that fails the first of
them in the order of the listing. -/
theorem ensures_removeStale (hd : Flat path dir d) :
    Ensures (Host.Holds mood (· = d)) (removeStale path s)
      (fun n h => n = ((d.names dir).filter (stale s)).length ∧
        h.Holds mood (Cleaned dir s ((d.names dir).filter (stale s)) d))
      (fun h => ∃ gone, h.Failed mood (Cleaned dir s gone d)) := by
  have hlist : Ensures (Host.Holds mood (· = d)) (Host.list path)
      (fun names h => names = d.names dir ∧ h.Holds mood (· = d)) (Host.Failed mood (· = d)) :=
    (Host.ensures_ask fun d' hd' => ⟨d.names dir, hd' ▸ hd.leads.list, rfl, hd'⟩).weaken
      (fun _ => id) (fun _ _ => Host.Holds.answer) fun _ => id
  refine Ensures.bind ((hlist.during _ _).weaken (fun _ => id) (fun _ _ => id)
    fun h hh => ⟨[], hh.imp ?_⟩) fun names => Ensures.fact fun hnames => ?_
  · rintro _ rfl
    exact hd.cleaned List.nil_prefix hd.leads.loses_nil
  · rw [hnames]
    refine (Journal.ensures_removeAll hd.leads "failed to remove checkpoint" _).weaken (fun _ => id)
      ?_ ?_
    · rintro n h ⟨hn, hh⟩
      exact ⟨hn, hh.imp fun _ => hd.cleaned List.prefix_rfl⟩
    · rintro h ⟨gone, hgone, hh, hfault⟩
      exact ⟨gone, hh.imp fun _ => hd.cleaned hgone, hfault hd.files⟩

end Flat

/-- Names agree with sequences: each is read back from the name that it gives, for journal files and
for checkpoints, names of a kind are ordered as their sequences, and the name of a draft is that of no
checkpoint. A cleaning below a sequence removes the superseded files and counts them; if it fails, which
takes a fault, it has removed some of them. Either way nothing else has changed. -/
theorem cleans_exactly :
    (∀ n < FileName.sequenceBound, Journal.fileName.sequence? (Journal.fileName.render n) = some n ∧
      fileName.sequence? (fileName.render n) = some n ∧ fileName.sequence? (temporaryName n) = none) ∧
    (∀ kind : FileName, ∀ m < FileName.sequenceBound, ∀ n < FileName.sequenceBound,
      (FileName.nameBytes (kind.render m) < FileName.nameBytes (kind.render n) ↔ m < n)) ∧
    ∀ (path : Path) (dir : Place) (m : Host), Flat path dir m.disk → ∀ s,
      (∀ n m', removeStale path s m = .ok n m' →
        (∃ gone, n = gone.length ∧ Cleaned dir s gone m.disk m'.disk ∧
          ∀ name ∈ m.disk.names dir, Superseded s name → name ∈ gone) ∧
        Spared dir s m.disk m'.disk) ∧
      ∀ e m', removeStale path s m = .error e m' →
        (∃ gone, Cleaned dir s gone m.disk m'.disk) ∧ Spared dir s m.disk m'.disk ∧
        ∃ f ∈ m.faults, f ≠ .clear := by
  refine ⟨fun n hn => ⟨FileName.sequence?_render _ hn, FileName.sequence?_render _ hn,
    sequence?_temporaryName n⟩, fun kind m hm n hn => kind.render_lt_iff hm hn,
    fun path dir m hd s => ?_⟩
  have hclean : Ensures (Host.Holds (· ∈ m.faults) (· = m.disk)) (removeStale path s) _ _ :=
    hd.ensures_removeStale
  have hrun := hclean m ⟨rfl, fun _ hf => hf⟩
  constructor
  · intro n m' hok
    rw [hok] at hrun
    obtain ⟨hn, hcleaned, -⟩ := hrun
    exact ⟨⟨_, hn, hcleaned, fun name hname hs => mem_stale.2 ⟨hname, hs⟩⟩, hcleaned.spared⟩
  · intro e m' herror
    rw [herror] at hrun
    obtain ⟨gone, ⟨hcleaned, -⟩, hfault⟩ := hrun
    exact ⟨⟨gone, hcleaned⟩, hcleaned.spared, by simpa [Mood.Calm] using hfault⟩

def clutteredDisk : Disk :=
  [fileName.render 4, "checkpoint-A.dat", "checkpoint-+3.dat", "checkpoint-.dat", temporaryName 12,
    "notes.tmp"].foldl (fun d name => (d.create (Site.small.dataDir.child name)).1) Site.smallDisk

theorem flat_clutteredDisk : Flat Site.small.config.dataDir Site.small.dataDir clutteredDisk where
  leads := ⟨by decide +kernel, by decide +kernel⟩
  once := by decide +kernel
  regular name hname := by
    have hall : ∀ name ∈ clutteredDisk.names Site.small.dataDir,
        (clutteredDisk.fileAt? (Site.small.dataDir.child name)).isSome := by decide +kernel
    exact Option.isSome_iff_exists.1 (hall name hname)

theorem cleans_exactly_cluttered :
    let path := Site.small.config.dataDir
    let dir := Site.small.dataDir
    (fileName.sequence? (fileName.render 12) = some 12 ∧
      FileName.nameBytes (fileName.render 4) < FileName.nameBytes (fileName.render 12)) ∧
    (∃ m' gone, removeStale path 10 { disk := clutteredDisk } = .ok gone.length m' ∧
      Cleaned dir 10 gone clutteredDisk m'.disk ∧
      ∀ name ∈ clutteredDisk.names dir, Superseded 10 name → name ∈ gone) ∧
    ∃ e m' gone, removeStale path 10
        { disk := clutteredDisk, faults := [.clear, .clear, .refuse "busy"] } = .error e m' ∧
      Cleaned dir 10 gone clutteredDisk m'.disk ∧ Spared dir 10 clutteredDisk m'.disk := by
  intro path dir
  obtain ⟨hnames, horder, hclean⟩ := cleans_exactly
  refine ⟨⟨?_, ?_⟩, ?_, ?_⟩
  · exact (hnames 12 (by decide)).2.1
  · exact (horder fileName 4 (by decide) 12 (by decide)).2 (by decide)
  · obtain ⟨hok, herror⟩ := hclean path dir { disk := clutteredDisk } flat_clutteredDisk 10
    cases hrun : removeStale path 10 { disk := clutteredDisk } with
    | ok n m' =>
      obtain ⟨⟨gone, rfl, hcleaned, hall⟩, -⟩ := hok n m' hrun
      exact ⟨m', gone, rfl, hcleaned, hall⟩
    | error e m' =>
      obtain ⟨-, -, f, hf, -⟩ := herror e m' hrun
      cases hf
  · obtain ⟨-, herror⟩ := hclean path dir
      { disk := clutteredDisk, faults := [.clear, .clear, .refuse "busy"] } flat_clutteredDisk 10
    have hfails : (match removeStale path 10
        { disk := clutteredDisk, faults := [.clear, .clear, .refuse "busy"] } with
      | .ok _ _ => false
      | .error _ _ => true) = true := by decide +kernel
    cases hrun : removeStale path 10
        { disk := clutteredDisk, faults := [.clear, .clear, .refuse "busy"] } with
    | ok n m' => rw [hrun] at hfails; cases hfails
    | error e m' =>
      obtain ⟨⟨gone, hcleaned⟩, hspared, -⟩ := herror e m' hrun
      exact ⟨e, m', gone, rfl, hcleaned, hspared⟩

end LedgerStore.Checkpoint
