import LedgerStore.Proofs.Archive.Site
import LedgerStore.Proofs.Host

/-!
The writer on an archive: what each of its actions makes of the archive, and that none fails unless
a fault befalls a call or a value is too large. Facts about the file system that do not concern the
journal stay true under all of them.
-/

set_option autoImplicit false

namespace LedgerStore

/-- Facts about a file system that stay true when the journal is written. -/
structure Site.Steady (s : Site) (F : Disk → Prop) : Prop where
  change : ∀ d n id f, d.WellFormed → d.node? (s.journalPlace n) = some (.file id) → F d →
    F (d.change id f)
  create : ∀ d n, d.WellFormed → F d → F (d.create (s.journalPlace n)).1

namespace Journal.Writer

structure At (w : Writer) (s : Site) (a : Archive) (d : Disk) : Prop where
  on : a.On s d
  ready : a.Open
  sequence : w.sequence = a.current.sequence
  dir : w.dir = s.config.journalDir
  limit : w.maxValue = s.config.maxValueSize
  handle : ∃ id, w.handle = .file id ∧ d.node? (s.journalPlace w.sequence) = some (.file id)

def Holds (w : Writer) (mood : Mood) (s : Site) (F : Disk → Prop) (a : Archive) : Host → Prop :=
  Host.Holds mood fun d => w.At s a d ∧ F d

def Works (mood : Mood) (s : Site) (F : Disk → Prop) (a : Archive) (t : Writer × Host) : Prop :=
  t.1.Holds mood s F a t.2

theorem At.amend {w : Writer} {s : Site} {a : Archive} {d : Disk} (h : w.At s a d) {id : Nat}
    (hid : w.handle = .file id) {v : Volume} {f : FileData → FileData}
    (hs : v.sequence = a.current.sequence) (ht : v.tail = [])
    (hf : ∀ data, a.current.Holds data → v.Holds (f data)) : w.At s (a.amend v) (d.change id f) := by
  obtain ⟨id', hid', hnode⟩ := h.handle
  have heq : id' = id := by simpa [hid] using hid'.symm
  rw [heq] at hnode
  exact
    { on := h.on.amend h.ready (h.sequence ▸ hnode) hs hf
      ready := h.ready.amend hs ht
      sequence := by rw [Archive.current_amend, hs, h.sequence]
      dir := h.dir
      limit := h.limit
      handle := ⟨id, hid, hnode⟩ }

theorem At.resize {w : Writer} {s : Site} {a : Archive} {d : Disk} (h : w.At s a d) (n : Nat) :
    { w with size := n }.At s a d :=
  ⟨h.on, h.ready, h.sequence, h.dir, h.limit, h.handle⟩

theorem At.below_next {w : Writer} {s : Site} {a : Archive} {d : Disk} (h : w.At s a d) :
    ∀ v ∈ a.journal, v.sequence < w.sequence + 1 := by
  intro v hv
  rw [h.sequence]
  exact Nat.lt_succ_of_le (Archive.le_current h.on.journal.ascending hv)

section Elsewhere

variable {w : Writer} {s : Site} {a : Archive} {d : Disk} (h : w.At s a d)

include h

theorem At.stay {a' : Archive} {d' : Disk} (hon : a'.On s d') (ha : a'.Open)
    (hc : a'.current = a.current)
    (hn : d'.node? (s.journalPlace w.sequence) = d.node? (s.journalPlace w.sequence)) :
    w.At s a' d' where
  on := hon
  ready := ha
  sequence := hc ▸ h.sequence
  dir := h.dir
  limit := h.limit
  handle := hn ▸ h.handle

theorem At.place_ne {p : Place} (hp : s.Elsewhere p) : s.journalPlace w.sequence ≠ p := by
  rw [h.sequence]
  exact h.on.journal.place_ne hp.journal h.ready.mem

theorem At.change_elsewhere {p : Place} {id : Nat} (hp : s.Elsewhere p)
    (hid : d.node? p = some (.file id)) (f : FileData → FileData) : w.At s a (d.change id f) :=
  h.stay (h.on.change_elsewhere hp hid f) h.ready rfl rfl

theorem At.create_elsewhere {p : Place} (hp : s.Elsewhere p) (hn : d.node? p = none) :
    w.At s a (d.create p).1 :=
  h.stay (h.on.create_elsewhere hp hn) h.ready rfl (by
    rw [Disk.node?_create hp.names, if_neg (h.place_ne hp)])

theorem At.unlink_elsewhere {p : Place} (hp : s.Elsewhere p) (hn : d.node? p ≠ some .directory) :
    w.At s a (d.unlink p) :=
  h.stay (h.on.unlink_elsewhere hp hn) h.ready rfl (by
    rw [Disk.node?_unlink hp.names, if_neg (h.place_ne hp)])

theorem At.journal_ne_checkpoint (n : Nat) : s.journalPlace w.sequence ≠ s.checkpointPlace n := by
  rw [h.sequence]
  exact h.on.journal.place_ne (s.outside_checkpointPlace n) h.ready.mem

theorem At.publish {old : Place} {id : Nat} (ho : s.Elsewhere old)
    (hid : d.node? old = some (.file id)) {v : Volume}
    (hlast : ∀ c ∈ a.checkpoints, c.sequence < v.sequence) (hle : v.sequence ≤ a.current.sequence)
    (hv : v.Holds (d.data id)) (hw : v.Whole) :
    w.At s (a.publish v) (d.move old (s.checkpointPlace v.sequence) (.file id)) := by
  have hn : v.sequence < FileName.sequenceBound :=
    Nat.lt_of_le_of_lt hle (h.on.journal.bounded h.ready.mem)
  refine h.stay (h.on.publish ho hid hn hlast hv hw) (h.ready.publish hle) rfl ?_
  rw [Disk.node?_move ho.names (s.names_checkpointPlace _), if_neg (h.journal_ne_checkpoint _),
    if_neg (h.place_ne ho)]

theorem At.trim {v : Volume} (hv : v ∈ a.journal) (hlt : v.sequence < a.current.sequence) :
    w.At s (a.trim v.sequence) (d.unlink (s.journalPlace v.sequence)) := by
  refine h.stay (h.on.trim hv) (h.ready.trim hlt) (h.ready.current_trim hlt) ?_
  rw [Disk.node?_unlink (s.names_journalPlace _), if_neg]
  intro heq
  have hs := h.on.journal.place_inj h.ready.mem hv (h.sequence ▸ heq)
  omega

theorem At.discard {v : Volume} (hv : v ∈ a.checkpoints) :
    w.At s (a.discard v.sequence) (d.unlink (s.checkpointPlace v.sequence)) := by
  refine h.stay (h.on.discard hv) (h.ready.discard _) rfl ?_
  rw [Disk.node?_unlink (s.names_checkpointPlace _), if_neg (h.journal_ne_checkpoint _)]

end Elsewhere

variable {mood : Mood} {s : Site} {F : Disk → Prop} {a : Archive}

theorem ensures_sync (hF : s.Steady F) :
    Ensures (Works mood s F a) sync (fun _ => Works mood s F a.synced)
      (fun t => Works mood s F a t ∧ ¬ mood.Calm) := by
  have hcall : ∀ w : Writer, Ensures (w.Holds mood s F a)
      ((Host.sync w.handle).during w.path "journal sync failed")
      (fun _ => w.Holds mood s F a.synced) (fun h => w.Holds mood s F a h ∧ ¬ mood.Calm) := by
    intro w
    refine Ensures.during (Host.ensures_alter fun d hd => ?_) _ _
    obtain ⟨id, hid, hnode⟩ := hd.1.handle
    refine ⟨d.change id fun f => { f with synced := f.bytes.length }, by rw [hid]; rfl, ?_, ?_⟩
    · exact hd.1.amend hid rfl hd.1.ready.clean fun data hdata => hdata.sync
    · exact hF.change d _ id _ hd.1.on.sound hnode hd.2
  exact Ensures.onHost hcall

theorem ensures_openNext (hF : s.Steady F) (w : Writer)
    (hn : w.sequence + 1 < FileName.sequenceBound) :
    Ensures (w.Holds mood s F a) (openFile { w with sequence := w.sequence + 1, size := 0 }.path)
      (fun handle => { w with sequence := w.sequence + 1, size := 0, handle }.Holds mood s F
        (a.extend (w.sequence + 1)))
      (fun h => w.Holds mood s F a h ∧ ¬ mood.Calm) := by
  refine Ensures.during (Host.ensures_atomic fun d hd => ?_) _ _
  have hlast := hd.1.below_next
  have habs := hd.1.on.journal.absent hn fun v hv => Nat.ne_of_lt (hlast v hv)
  have hopen := hd.1.on.logs.openAppend_new habs
  rw [← hd.1.dir] at hopen
  refine ⟨_, _, hopen, ?_, hF.create d _ hd.1.on.sound hd.2⟩
  exact
    { on := hd.1.on.extend hn hlast
      ready := hd.1.ready.extend (hd.1.sequence ▸ Nat.lt_succ_self _)
      sequence := by rw [Archive.current_extend]
      dir := hd.1.dir
      limit := hd.1.limit
      handle := ⟨_, rfl, by
        rw [Disk.node?_create (Place.names_child _ _), Site.journalPlace, if_pos rfl]⟩ }

theorem ensures_roll (hF : s.Steady F) (hn : a.current.sequence + 1 < FileName.sequenceBound) :
    Ensures (Works mood s F a) roll
      (fun n t => n = a.current.sequence + 1 ∧ Works mood s F (a.synced.extend n) t)
      (fun t => ∃ a', a.Turn a' ∧ Works mood s F a' t ∧ ¬ mood.Calm) := by
  refine Ensures.bind ((ensures_sync hF).weaken (fun _ => id) (fun _ _ => id)
    fun t ht => ⟨a, .stay, ht⟩) fun _ => Ensures.get_bind fun t ht => ?_
  have hseq : t.1.sequence = a.current.sequence := by
    have := ht.disk.1.sequence
    rwa [Archive.synced, Archive.current_amend] at this
  dsimp only
  rw [FileName.next_eq (hseq ▸ hn)]
  have hopen : Ensures (t.1.Holds mood s F a.synced) _ _ _ :=
    ensures_openNext hF t.1 (hseq ▸ hn)
  refine Ensures.bind ((hopen.beside t.1).weaken ?_ (fun _ _ => id) ?_) fun handle => ?_
  · rintro _ rfl
    exact ⟨rfl, ht⟩
  · rintro u ⟨hu, hpost, hcalm⟩
    exact ⟨a.synced, .sync, by rwa [Works, hu], hcalm⟩
  · refine Ensures.bind (M := fun _ => Works mood s F (a.synced.extend (t.1.sequence + 1)))
      (Ensures.change fun u hu => hu.2) fun _ => ?_
    refine Ensures.bind (M := fun _ => Works mood s F (a.synced.extend (t.1.sequence + 1)))
      (Ensures.noteBeside fun u hu => hu.note _) fun _ => ?_
    exact Ensures.pure fun u hu => ⟨congrArg (· + 1) hseq, hu⟩

theorem ensures_write_of (hmood : mood.Whole) {bs : Bytes} {Q : Writer → Disk → Prop}
    (hgrow : ∀ (w : Writer) (d : Disk) (id : Nat), w.At s a d → F d → w.handle = .file id →
      d.node? (s.journalPlace w.sequence) = some (.file id) →
      Q { w with size := w.size + bs.length }
        (d.change id fun f => { f with bytes := f.bytes ++ bs })) :
    Ensures (Works mood s F a) (write bs) (fun _ t => t.2.Holds mood (Q t.1))
      (fun t => Works mood s F a t ∧ ¬ mood.Calm) := by
  refine Ensures.get_bind fun t ht => ?_
  have hcall : Ensures (t.1.Holds mood s F a)
      ((Host.append t.1.handle bs).during t.1.path "journal write failed")
      (fun _ => Host.Holds mood (Q { t.1 with size := t.1.size + bs.length }))
      (fun h => t.1.Holds mood s F a h ∧ ¬ mood.Calm) := by
    refine Ensures.during (Host.ensures_append hmood fun d hd => ?_) _ _
    obtain ⟨id, hid, hnode⟩ := hd.1.handle
    exact ⟨_, by rw [hid]; rfl, hgrow t.1 d id hd.1 hd.2 hid hnode⟩
  refine Ensures.bind ((hcall.beside t.1).weaken ?_ (fun _ _ => id) ?_) fun _ => ?_
  · rintro _ rfl
    exact ⟨rfl, ht⟩
  · rintro u ⟨hu, hpost, hcalm⟩
    exact ⟨by rwa [Works, hu], hcalm⟩
  · exact Ensures.change fun u hu => hu.2

theorem ensures_write (hF : s.Steady F) (hmood : mood.Whole) {r : Record} (hr : r.Fits)
    (stamp : Nat) :
    Ensures (Works mood s F a) (write r.bytes) (fun _ => Works mood s F (a.add ⟨stamp, r⟩))
      (fun t => Works mood s F a t ∧ ¬ mood.Calm) := by
  refine ensures_write_of (Q := fun w d => w.At s (a.add ⟨stamp, r⟩) d ∧ F d) hmood
    fun w d id hat hd hid hnode => ⟨At.resize ?_ _, ?_⟩
  · exact hat.amend hid rfl hat.ready.clean fun data hdata => hdata.add hat.ready.clean hr
  · exact hF.change d _ id _ hat.on.sound hnode hd

theorem ensures_append_of (hF : s.Steady F) {r : Record}
    (hn : a.current.sequence + 1 < FileName.sequenceBound)
    {post : PUnit → Writer × Host → Prop} {fail : Writer × Host → Prop}
    (hwrite : r.value.length ≤ s.config.maxValueSize → ∀ a', a.Turn a' →
      Ensures (Works mood s F a') (write r.bytes) post fail)
    (hfail : ∀ a' t, a.Turn a' → Works mood s F a' t →
      (mood.Calm → s.config.maxValueSize < r.value.length) → fail t) :
    Ensures (Works mood s F a) (append r) post fail := by
  refine Ensures.get_bind fun t ht => ?_
  have hlimit := ht.disk.1.limit
  by_cases hlt : t.1.maxValue < r.value.length
  · have hencode : r.encode t.1.maxValue =
        .error (.oversizedEntry r.value.length t.1.maxValue) := if_pos hlt
    dsimp only
    rw [hencode]
    rintro _ rfl
    exact hfail a _ .stay ht fun _ => hlimit ▸ hlt
  · have hencode : r.encode t.1.maxValue = .ok r.bytes := if_neg hlt
    have hle : r.value.length ≤ s.config.maxValueSize := hlimit ▸ Nat.not_lt.1 hlt
    dsimp only
    rw [hencode]
    change Ensures _ (if t.1.mustRoll r.bytes.length then roll >>= fun _ => write r.bytes
      else write r.bytes) _ _
    have hroll : Ensures (Works mood s F a) roll _ _ := ensures_roll hF hn
    split
    · refine Ensures.bind (M := fun _ => Works mood s F (a.synced.extend (a.current.sequence + 1)))
        (hroll.weaken ?_ ?_ ?_) fun _ => hwrite hle _ .roll
      · rintro _ rfl
        exact ht
      · rintro n u ⟨rfl, hu⟩
        exact hu
      · rintro u ⟨a', ha', hu, hcalm⟩
        exact hfail a' u ha' hu fun hc => absurd hc hcalm
    · refine (hwrite hle a .stay).weaken ?_ (fun _ _ => id) fun _ => id
      rintro _ rfl
      exact ht

/-- An append adds the record at the end, perhaps of a new file, or else adds nothing. Without
faults it fails only for a value that is too large. -/
theorem ensures_append (hF : s.Steady F) (hmood : mood.Whole) {r : Record}
    (hr : r.value.length ≤ s.config.maxValueSize → r.Fits)
    (hn : a.current.sequence + 1 < FileName.sequenceBound) (stamp : Nat) :
    Ensures (Works mood s F a) (append r)
      (fun _ t => ∃ a', a.Turn a' ∧ Works mood s F (a'.add ⟨stamp, r⟩) t)
      (fun t => ∃ a', a.Turn a' ∧ Works mood s F a' t ∧
        (mood.Calm → s.config.maxValueSize < r.value.length)) := by
  refine ensures_append_of hF hn (fun hle a' ha' => ?_) fun a' t ha' ht hlong =>
    ⟨a', ha', ht, hlong⟩
  exact (ensures_write hF hmood (hr hle) stamp).weaken (fun _ => id) (fun _ _ ht => ⟨a', ha', ht⟩)
    fun _ ht => ⟨a', ha', ht.1, fun hc => absurd hc ht.2⟩

theorem ensures_taken (hF : s.Steady F) (hmood : mood.Whole) (r : Record)
    (hn : a.current.sequence + 1 < FileName.sequenceBound) :
    Ensures (Works mood s F a) (append r) (fun _ _ => True)
      (fun _ => mood.Calm → s.config.maxValueSize < r.value.length) := by
  refine ensures_append_of hF hn (fun _ a' _ => ?_) fun _ _ _ _ hlong => hlong
  refine (ensures_write_of (Q := fun _ _ => True) hmood fun _ _ _ _ _ _ _ => trivial).weaken
    (fun _ => id) (fun _ _ _ => trivial) fun _ ht hc => absurd hc ht.2

end Journal.Writer

end LedgerStore
