import LedgerStore.Proofs.Journal.Spool

set_option autoImplicit false

namespace LedgerStore

namespace Journal

/-- The file to write is the last one again, if that is empty, or it comes behind all files. For
that no file that holds something may have the last sequence. -/
theorem Tapes.choice {path : Path} {dir : Place} {ts : List Tape} {d : Disk}
    (hd : Tapes path dir ts d)
    (hroom : ∀ t ∈ ts, t.bytes ≠ [] → t.sequence + 1 < FileName.sequenceBound)
    {n : Nat} (h : First Tape.sequence Tape.Holds ts n) {floor : Nat}
    (hfloor : floor < FileName.sequenceBound) : max n floor < FileName.sequenceBound ∧
      ((∃ front, ts = front ++ [{ sequence := max n floor }]) ∨
        ∀ t ∈ ts, t.sequence < max n floor) := by
  cases h with
  | zero => exact ⟨by omega, Or.inr nofun⟩
  | last front v f there empty =>
    have hlt := hd.files.bounded (v := v) (by simp)
    refine ⟨by omega, ?_⟩
    by_cases hle : floor ≤ v.sequence
    · obtain ⟨m, bs⟩ := v
      obtain rfl : bs = [] := there.symm.trans empty
      exact Or.inl ⟨front, by rw [Nat.max_eq_left hle]⟩
    · refine Or.inr fun t ht => ?_
      have := hd.le_last ht
      omega
  | next front v f there full =>
    have hnext := hroom v (by simp) fun hnil => full (there.trans hnil)
    rw [FileName.next_eq hnext]
    refine ⟨by omega, Or.inr fun t ht => ?_⟩
    have := hd.le_last ht
    omega

namespace Spool

variable {mood : Mood} {dir : Place} {d : Disk}

def opened (w : Writer) (front : List Tape) : Spool where
  writer := w
  front := front
  last := { sequence := w.sequence }

variable (mood) in
theorem ensures_openFirst {path : Path} {ts : List Tape} (hd : Tapes path dir ts d) {n : Nat}
    (hn : n < FileName.sequenceBound)
    (hchoice : (∃ front, ts = front ++ [{ sequence := n }]) ∨ ∀ t ∈ ts, t.sequence < n)
    (rotation maxValue : Nat) :
    ∃ front, (ts = front ∨ ts = front ++ [{ sequence := n }]) ∧
      Ensures (Host.Holds mood (· = d)) (Writer.openFile (path / fileName.render n))
        (fun handle => Host.Holds mood fun d' => d'.length handle = 0 ∧ ∀ size,
          (opened { dir := path, sequence := n, handle, size, rotation, maxValue } front).On dir
            d.bytesAt? d')
        (fun _ => True) := by
  rcases hchoice with ⟨front, rfl⟩ | hlast
  · refine ⟨front, Or.inr rfl, ((Host.ensures_atomic fun d' hd' => ?_).during _ _).weaken
      (fun _ => id) (fun _ _ => id) fun _ _ => trivial⟩
    rw [hd']
    obtain ⟨f, hf, hholds⟩ := hd.files.stored { sequence := n } (by simp)
    obtain ⟨id, hid, rfl⟩ := Disk.fileAt?_eq_some.1 hf
    refine ⟨_, _, hd.leads.openAppend_file hid, ?_, fun size => ?_⟩
    · exact congrArg List.length hholds
    · exact ⟨hd, rfl, ⟨id, rfl, hid⟩, fun p _ => rfl⟩
  · refine ⟨ts, Or.inl rfl, ((Host.ensures_atomic fun d' hd' => ?_).during _ _).weaken
      (fun _ => id) (fun _ _ => id) fun _ _ => trivial⟩
    rw [hd']
    refine ⟨_, _, hd.openAppend_new hn hlast, ?_, fun size => ⟨hd.create hn hlast, rfl, ⟨_, rfl, ?_⟩,
      fun p hp => ?_⟩⟩
    · simp [Disk.length, Disk.create, Disk.data]
    · rw [Disk.node?_create (names_placeOf _ _)]
      exact if_pos rfl
    · rw [Disk.bytesAt?_create hd.sound (names_placeOf _ _), if_neg]
      exact hp { sequence := n } (by simp [Spool.tapes, opened])

variable (mood) in
theorem ensures_start {path : Path} {ts : List Tape} (hd : Tapes path dir ts d)
    (hroom : ∀ t ∈ ts, t.bytes ≠ [] → t.sequence + 1 < FileName.sequenceBound) {floor : Nat}
    (hfloor : floor < FileName.sequenceBound) (rotation maxValue : Nat) :
    Ensures (Host.Holds mood (· = d)) (Writer.start path floor rotation maxValue)
      (fun w h => w.dir = path ∧ w.rotation = rotation ∧ w.maxValue = maxValue ∧ floor ≤ w.sequence ∧
        (∀ t ∈ ts, t.sequence ≤ w.sequence) ∧ w.size = 0 ∧ ∃ front,
          (ts = front ∨ ts = front ++ [{ sequence := w.sequence }]) ∧
          h.Holds mood ((opened w front).On dir d.bytesAt?))
      (fun _ => True) := by
  have hthere : ∀ d', d' = d → d'.Leads path dir ∧
      Numbered Tape.sequence Tape.Holds fileName dir ts d' := by
    rintro _ rfl
    exact ⟨hd.leads, hd.files⟩
  have hmake : Ensures (Host.Holds mood (· = d)) (Host.createDirectories path)
      (fun _ => Host.Holds mood (· = d)) (Host.Failed mood (· = d)) :=
    Host.ensures_createDirectories fun d' hd' => ⟨dir, (hthere d' hd').1.reaches⟩
  refine Ensures.bind ((hmake.during _ _).weaken (fun _ => id) (fun _ _ => id)
    fun _ _ => trivial) fun _ => ?_
  refine Ensures.bind ((ensures_list hthere).weaken (fun _ => id) (fun _ _ => id)
    fun _ _ => trivial) fun files => Ensures.fact fun hfiles => ?_
  rw [hfiles]
  refine Ensures.bind ((Writer.ensures_firstSequence hthere).weaken (fun _ => id) (fun _ _ => id)
    fun _ _ => trivial) fun n => Ensures.fact fun hfirst => ?_
  obtain ⟨hn, hchoice⟩ := hd.choice hroom hfirst hfloor
  have hle : ∀ t ∈ ts, t.sequence ≤ max n floor := by
    intro t ht
    rcases hchoice with ⟨front, rfl⟩ | hlast
    · exact hd.le_last ht
    · exact Nat.le_of_lt (hlast t ht)
  obtain ⟨front, hfront, hopen⟩ := ensures_openFirst mood hd hn hchoice rotation maxValue
  refine Ensures.bind hopen fun handle => ?_
  refine Ensures.bind (((Host.ensures_length handle).during _ _).weaken (fun _ => id)
    (fun _ _ => id) fun _ _ => trivial) fun size => Ensures.pure fun h hh => ?_
  have hsize : size = 0 := hh.disk.1.trans hh.disk.2.1
  exact ⟨rfl, rfl, rfl, Nat.le_max_right _ _, hle, hsize, front, hfront,
    hh.imp fun d' hd' => hd'.2.2 size⟩

end Spool

end Journal

end LedgerStore
