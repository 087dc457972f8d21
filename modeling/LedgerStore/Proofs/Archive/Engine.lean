import LedgerStore.Engine.EntryLog
import LedgerStore.Proofs.Archive.Writer

set_option autoImplicit false

namespace LedgerStore

namespace EntryLog

/-- The engine has the index of the archive, and its writer is at the end of it. -/
structure At (e : EntryLog) (s : Site) (a : Archive) (d : Disk) : Prop where
  writer : e.writer.At s a d
  index : e.index = a.index
  dataDir : e.dataDir = s.config.dataDir
  journalDir : e.journalDir = s.config.journalDir

def Works (mood : Mood) (s : Site) (F : Disk → Prop) (a : Archive) (t : EntryLog × Host) : Prop :=
  t.2.Holds mood fun d => t.1.At s a d ∧ F d

variable {mood : Mood} {s : Site} {F : Disk → Prop} {a : Archive}

structure Knows (e : EntryLog) (s : Site) (a : Archive) : Prop where
  ready : a.Open
  index : e.index = a.index
  dataDir : e.dataDir = s.config.dataDir
  journalDir : e.journalDir = s.config.journalDir

theorem Works.knows {t : EntryLog × Host} (h : Works mood s F a t) : t.1.Knows s a :=
  ⟨h.disk.1.writer.ready, h.disk.1.index, h.disk.1.dataDir, h.disk.1.journalDir⟩

theorem Works.writer {t : EntryLog × Host} (h : Works mood s F a t) :
    Journal.Writer.Works mood s F a (t.1.writer, t.2) :=
  h.imp fun _ hd => ⟨hd.1.writer, hd.2⟩

theorem Knows.works {t : EntryLog × Host} (he : t.1.Knows s a)
    (hw : Journal.Writer.Works mood s F a (t.1.writer, t.2)) : Works mood s F a t :=
  hw.imp fun _ hd => ⟨⟨hd.1, he.index, he.dataDir, he.journalDir⟩, hd.2⟩

theorem Knows.turn {e : EntryLog} {a' : Archive} (he : e.Knows s a) (h : a.Turn a') :
    e.Knows s a' :=
  ⟨h.stays_open he.ready, by rw [he.index, h.index he.ready], he.dataDir, he.journalDir⟩

theorem ensures_onWriter {α : Type} {act : Action (Journal.Writer × Host) α}
    {post : α → Journal.Writer × Host → Prop} {fail : Journal.Writer × Host → Prop}
    (hact : Ensures (Journal.Writer.Works mood s F a) act post fail) :
    Ensures (Works mood s F a) (onWriter act)
      (fun r t => t.1.Knows s a ∧ post r (t.1.writer, t.2))
      (fun t => t.1.Knows s a ∧ fail (t.1.writer, t.2)) := by
  refine Ensures.onPart fun e t ht => ?_
  obtain ⟨w, h⟩ := t
  obtain ⟨rfl, hworks⟩ := ht
  have hknows := hworks.knows
  have hrun := hact (e.writer, h) hworks.writer
  revert hrun
  cases act (e.writer, h) with
  | ok r u => exact fun hrun => ⟨⟨hknows.1, hknows.2, hknows.3, hknows.4⟩, hrun⟩
  | error cause u => exact fun hrun => ⟨⟨hknows.1, hknows.2, hknows.3, hknows.4⟩, hrun⟩

theorem ensures_syncLog (hF : s.Steady F) :
    Ensures (Works mood s F a) syncLog (fun _ => Works mood s F a.synced)
      (fun t => Works mood s F a t ∧ ¬ mood.Calm) :=
  (ensures_onWriter (Journal.Writer.ensures_sync hF)).weaken (fun _ => id)
    (fun _ _ ht => (ht.1.turn .sync).works ht.2) fun _ ht => ⟨ht.1.works ht.2.1, ht.2.2⟩

theorem ensures_roll (hF : s.Steady F) (hn : a.current.sequence + 1 < FileName.sequenceBound) :
    Ensures (Works mood s F a) (onWriter Journal.Writer.roll)
      (fun n t => n = a.current.sequence + 1 ∧ Works mood s F (a.synced.extend n) t)
      (fun t => ∃ a', a.Turn a' ∧ Works mood s F a' t ∧ ¬ mood.Calm) := by
  refine (ensures_onWriter (Journal.Writer.ensures_roll hF hn)).weaken (fun _ => id) ?_ ?_
  · rintro _ t ⟨he, rfl, hw⟩
    exact ⟨rfl, (he.turn .roll).works hw⟩
  · rintro t ⟨he, a', ha', hw, hcalm⟩
    exact ⟨a', ha', (he.turn ha').works hw, hcalm⟩

/-- A put adds one write at the end, or else no write. Without faults it fails only for a value
that is too large. -/
theorem ensures_put (hF : s.Steady F) (hmood : mood.Whole) {key : Key} {value : Bytes}
    (hr : value.length ≤ s.config.maxValueSize → (⟨key, value⟩ : Record).Fits)
    (hn : a.current.sequence + 1 < FileName.sequenceBound) (stamp : Nat) :
    Ensures (Works mood s F a) (put key value)
      (fun _ t => ∃ a', a.Turn a' ∧ Works mood s F (a'.add ⟨stamp, ⟨key, value⟩⟩) t)
      (fun t => ∃ a', a.Turn a' ∧ Works mood s F a' t ∧
        (mood.Calm → s.config.maxValueSize < value.length)) := by
  intro t ht
  have hrun := ensures_onWriter
    (Journal.Writer.ensures_append (r := ⟨key, value⟩) hF hmood hr hn stamp) t ht
  rw [put]
  revert hrun
  cases onWriter (Journal.Writer.append ⟨key, value⟩) t with
  | ok u t' =>
    rintro ⟨he, a', ha', hw⟩
    have hopen := ha'.stays_open he.ready
    have hindex : t'.1.index.insert key value = (a'.add ⟨stamp, ⟨key, value⟩⟩).index := by
      rw [(he.turn ha').index, hopen.index_add]
    exact ⟨a', ha', hw.imp fun d hd => ⟨⟨hd.1, hindex, he.dataDir, he.journalDir⟩, hd.2⟩⟩
  | error cause t' =>
    rintro ⟨he, a', ha', hw, hcalm⟩
    exact ⟨a', ha', ((he.turn ha').works hw).note _, hcalm⟩

theorem ensures_taken (hF : s.Steady F) (hmood : mood.Whole) (key : Key) (value : Bytes)
    (hn : a.current.sequence + 1 < FileName.sequenceBound) :
    Ensures (Works mood s F a) (put key value) (fun _ _ => True)
      (fun _ => mood.Calm → s.config.maxValueSize < value.length) := by
  intro t ht
  have hrun := ensures_onWriter (Journal.Writer.ensures_taken hF hmood ⟨key, value⟩ hn) t ht
  rw [put]
  revert hrun
  cases onWriter (Journal.Writer.append ⟨key, value⟩) t with
  | ok u t' => exact fun _ => trivial
  | error cause t' => exact fun hrun => hrun.2

end EntryLog

end LedgerStore
