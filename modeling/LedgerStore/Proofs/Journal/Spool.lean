import LedgerStore.Proofs.Archive.Reading

/-!
The journal as tapes: files of any bytes, to the last of which a writer appends. The main statements
say what a sync, a roll and an append make of the tapes, and that they leave all other files alone.
-/

set_option autoImplicit false

namespace LedgerStore

namespace Disk

def bytesAt? (d : Disk) (p : Place) : Option Bytes :=
  (d.fileAt? p).map (·.bytes)

theorem bytesAt?_create {d : Disk} (hd : d.WellFormed) {p : Place} (hp : p.names ≠ []) (q : Place) :
    (d.create p).1.bytesAt? q = if q = p then some [] else d.bytesAt? q := by
  rw [bytesAt?, fileAt?_create hd hp]
  split <;> rfl

theorem bytesAt?_change_ne {d : Disk} (hd : d.WellFormed) {p q : Place} {id : Nat}
    (hp : d.node? p = some (.file id)) (f : FileData → FileData) (hq : q ≠ p) :
    (d.change id f).bytesAt? q = d.bytesAt? q := by
  rw [bytesAt?, fileAt?_change hd hp, if_neg hq]
  rfl

end Disk

namespace Journal

structure Tape where
  sequence : Nat
  bytes : Bytes := []

namespace Tape

def Holds (t : Tape) (f : FileData) : Prop :=
  f.bytes = t.bytes

def records (t : Tape) : List Record :=
  Record.scan t.bytes

end Tape

def placeOf (dir : Place) (n : Nat) : Place :=
  dir.child (fileName.render n)

theorem names_placeOf (dir : Place) (n : Nat) : (placeOf dir n).names ≠ [] :=
  Place.names_child _ _

structure Tapes (path : Path) (dir : Place) (ts : List Tape) (d : Disk) : Prop where
  sound : d.WellFormed
  leads : d.Leads path dir
  files : Numbered Tape.sequence Tape.Holds fileName dir ts d

namespace Tapes

variable {path : Path} {dir : Place} {ts front : List Tape} {t : Tape} {d : Disk}

theorem bytesAt? (h : Tapes path dir ts d) (ht : t ∈ ts) :
    d.bytesAt? (placeOf dir t.sequence) = some t.bytes := by
  obtain ⟨f, hf, hholds⟩ := h.files.stored t ht
  rw [Disk.bytesAt?, placeOf, hf, Option.map_some, hholds]

theorem of_bytesAt? (h : Tapes path dir ts d) {n : Nat} (hn : n < FileName.sequenceBound)
    {bs : Bytes} (hbs : d.bytesAt? (placeOf dir n) = some bs) :
    ∃ t ∈ ts, t.sequence = n ∧ t.bytes = bs := by
  have hfile := hbs
  rw [Disk.bytesAt?, Option.map_eq_some_iff] at hfile
  obtain ⟨f, hf, -⟩ := hfile
  obtain ⟨id, hid, -⟩ := Disk.fileAt?_eq_some.1 hf
  obtain ⟨t, ht, rfl, -⟩ :=
    h.files.canonical (Disk.mem_names.2 ⟨_, hid⟩) (fileName.sequence?_render hn)
  rw [h.bytesAt? ht] at hbs
  exact ⟨t, ht, rfl, Option.some.inj hbs⟩

theorem lengthAt (h : Tapes path dir ts d) (ht : t ∈ ts) :
    d.lengthAt (path / fileName.render t.sequence) = .ok t.bytes.length := by
  obtain ⟨f, hf, hholds⟩ := h.files.stored t ht
  rw [h.leads.lengthAt_div hf, hholds]

theorem le_last (h : Tapes path dir (front ++ [t]) d) {u : Tape} (hu : u ∈ front ++ [t]) :
    u.sequence ≤ t.sequence := by
  rcases List.mem_append.1 hu with hu | hu
  · exact Nat.le_of_lt ((List.pairwise_append.1 h.files.ascending).2.2 u hu t (by simp))
  · rw [List.mem_singleton.1 hu]

theorem rewrite (h : Tapes path dir (front ++ [t]) d) {id : Nat}
    (hid : d.node? (placeOf dir t.sequence) = some (.file id)) {f : FileData → FileData}
    {bs : Bytes} (hf : ∀ data, t.Holds data → (f data).bytes = bs) :
    Tapes path dir (front ++ [{ t with bytes := bs }]) (d.change id f) where
  sound := h.sound.change id f
  leads := h.leads.keeps (Disk.keeps_change d id f)
  files := h.files.change h.sound hid rfl hf

theorem create (h : Tapes path dir ts d) {n : Nat} (hn : n < FileName.sequenceBound)
    (hlast : ∀ t ∈ ts, t.sequence < n) :
    Tapes path dir (ts ++ [{ sequence := n }]) (d.create (placeOf dir n)).1 where
  sound := h.sound.create (names_placeOf _ _)
  leads := by
    have habs := h.files.absent hn fun t ht => Nat.ne_of_lt (hlast t ht)
    refine h.leads.keeps (Disk.keeps_create (names_placeOf _ _) ?_)
    rw [placeOf, habs]
    exact nofun
  files := h.files.create h.sound hn hlast rfl

theorem openAppend_new (h : Tapes path dir ts d) {n : Nat} (hn : n < FileName.sequenceBound)
    (hlast : ∀ t ∈ ts, t.sequence < n) : d.openAppend (path / fileName.render n) =
      .ok (.file d.files.length, (d.create (placeOf dir n)).1) :=
  h.leads.openAppend_new (h.files.absent hn fun t ht => Nat.ne_of_lt (hlast t ht))

theorem recover (h : Tapes path dir ts d) {m : Host} (hm : m.disk = d) :
    ∃ after, recover path (m.facing []) = .ok (ts.flatMap Tape.records) after := by
  have hread : Ensures (Host.Holds (· ∈ ([] : List Fault)) (· = d)) (recoverFrom path 0)
      (fun rs after => rs = (ts.filter fun t => 0 ≤ t.sequence).flatMap Tape.records ∧
        after.Holds (· ∈ ([] : List Fault)) (· = d))
      (Host.Failed (· ∈ ([] : List Fault)) (· = d)) := by
    have hthere : ∀ d', d' = d → d'.Leads path dir ∧
        Numbered Tape.sequence Tape.Holds fileName dir ts d' := by
      rintro _ rfl
      exact ⟨h.leads, h.files⟩
    exact ensures_recoverFrom hthere (fun t f hf => congrArg Record.scan hf) 0
  obtain ⟨_, after, hrun, rfl, -⟩ := Host.answers_calm m hm hread fun _ hh => hh.2
  exact ⟨after, by simpa [Journal.recover] using hrun⟩

end Tapes

structure Spool where
  writer : Writer
  front : List Tape
  last : Tape

namespace Spool

def tapes (s : Spool) : List Tape :=
  s.front ++ [s.last]

def next (s : Spool) (handle : Handle) : Spool where
  writer := { s.writer with sequence := FileName.next s.writer.sequence, size := 0, handle }
  front := s.tapes
  last := { sequence := FileName.next s.writer.sequence }

/-- The spool with more bytes on its last tape, which the writer does not count. -/
def spill (s : Spool) (bs : Bytes) : Spool :=
  { s with last := { s.last with bytes := s.last.bytes ++ bs } }

def write (s : Spool) (bs : Bytes) : Spool :=
  { s.spill bs with writer := { s.writer with size := s.writer.size + bs.length } }

inductive Room (s : Spool) (length : Nat) : Spool → Prop
  | here (fits : s.writer.mustRoll length = false) : Room s length s
  | next (handle : Handle) (full : s.writer.mustRoll length = true) : Room s length (s.next handle)

/-- The file system has the tapes of the spool, and else the files that `rest` says. -/
structure On (s : Spool) (dir : Place) (rest : Place → Option Bytes) (d : Disk) : Prop where
  tapes : Tapes s.writer.dir dir s.tapes d
  sequence : s.writer.sequence = s.last.sequence
  handle : ∃ id, s.writer.handle = .file id ∧
    d.node? (placeOf dir s.writer.sequence) = some (.file id)
  rest : ∀ p, (∀ t ∈ s.tapes, p ≠ placeOf dir t.sequence) → d.bytesAt? p = rest p

def Stands (mood : Mood) (dir : Place) (rest : Place → Option Bytes) (s : Spool)
    (x : Writer × Host) : Prop :=
  x.1 = s.writer ∧ x.2.Holds mood (s.On dir rest)

variable {mood : Mood} {dir : Place} {rest : Place → Option Bytes} {s : Spool} {d : Disk}

theorem last_mem (s : Spool) : s.last ∈ s.tapes := by
  simp [tapes]

@[simp] theorem spill_nil (s : Spool) : s.spill [] = s := by
  simp [spill]

@[simp] theorem spill_writer (s : Spool) (bs : Bytes) : (s.spill bs).writer = s.writer := rfl

@[simp] theorem spill_bytes (s : Spool) (bs : Bytes) :
    (s.spill bs).last.bytes = s.last.bytes ++ bs := rfl

theorem On.bytesAt? (h : s.On dir rest d) :
    d.bytesAt? (placeOf dir s.writer.sequence) = some s.last.bytes := by
  rw [h.sequence]
  exact h.tapes.bytesAt? s.last_mem

theorem On.lengthAt (h : s.On dir rest d) :
    d.lengthAt s.writer.path = .ok s.last.bytes.length := by
  rw [Writer.path, h.sequence]
  exact h.tapes.lengthAt s.last_mem

theorem On.below_next (h : s.On dir rest d)
    (hn : s.writer.sequence + 1 < FileName.sequenceBound) :
    ∀ t ∈ s.tapes, t.sequence < FileName.next s.writer.sequence := by
  intro t ht
  rw [FileName.next_eq hn, h.sequence]
  exact Nat.lt_succ_of_le (h.tapes.le_last ht)

theorem On.bounded (h : s.On dir rest d) : s.writer.sequence < FileName.sequenceBound := by
  rw [h.sequence]
  exact h.tapes.files.bounded s.last_mem

theorem On.same {d' : Disk} (h : s.On dir rest d) (h' : s.On dir rest d') (p : Place) :
    d'.bytesAt? p = d.bytesAt? p := by
  by_cases hp : ∃ t ∈ s.tapes, p = placeOf dir t.sequence
  · obtain ⟨t, ht, rfl⟩ := hp
    rw [h.tapes.bytesAt? ht, h'.tapes.bytesAt? ht]
  · have hother : ∀ t ∈ s.tapes, p ≠ placeOf dir t.sequence := fun t ht heq => hp ⟨t, ht, heq⟩
    rw [h.rest p hother, h'.rest p hother]

theorem On.change (h : s.On dir rest d) {id : Nat} (hid : s.writer.handle = .file id)
    {f : FileData → FileData} {bs : Bytes}
    (hf : ∀ data, data.bytes = s.last.bytes → (f data).bytes = s.last.bytes ++ bs) :
    (s.spill bs).On dir rest (d.change id f) := by
  obtain ⟨other, hother, hnode⟩ := h.handle
  rw [hid] at hother
  cases hother
  refine ⟨h.tapes.rewrite (h.sequence ▸ hnode) hf, h.sequence, ⟨id, hid, hnode⟩, fun p hp => ?_⟩
  have hkept : ∀ t ∈ s.tapes, p ≠ placeOf dir t.sequence := by
    intro t ht
    simp only [Spool.tapes, spill, List.mem_append, List.mem_singleton] at hp ht
    rcases ht with ht | rfl
    · exact hp t (Or.inl ht)
    · exact hp { s.last with bytes := s.last.bytes ++ bs } (Or.inr rfl)
  have hne : p ≠ placeOf dir s.writer.sequence := h.sequence ▸ hkept _ s.last_mem
  rw [Disk.bytesAt?_change_ne h.tapes.sound hnode f hne, h.rest p hkept]

theorem on_write {bs : Bytes} : (s.write bs).On dir rest d ↔ (s.spill bs).On dir rest d :=
  ⟨fun h => ⟨h.tapes, h.sequence, h.handle, h.rest⟩,
    fun h => ⟨h.tapes, h.sequence, h.handle, h.rest⟩⟩

theorem On.create (h : s.On dir rest d) (hn : s.writer.sequence + 1 < FileName.sequenceBound) :
    (s.next (.file d.files.length)).On dir rest
      (d.create (placeOf dir (FileName.next s.writer.sequence))).1 where
  tapes := h.tapes.create (FileName.next_lt _) (h.below_next hn)
  sequence := rfl
  handle := ⟨_, rfl, by
    rw [Disk.node?_create (names_placeOf _ _)]
    exact if_pos rfl⟩
  rest p hp := by
    have hmem : ∀ t, t ∈ (s.next (.file d.files.length)).tapes ↔
        t ∈ s.tapes ∨ t = { sequence := FileName.next s.writer.sequence } := fun t => by
      rw [Spool.tapes, List.mem_append, List.mem_singleton]
      rfl
    rw [Disk.bytesAt?_create h.tapes.sound (names_placeOf _ _),
      if_neg (hp _ ((hmem _).2 (Or.inr rfl))), h.rest p fun t ht => hp t ((hmem t).2 (Or.inl ht))]

theorem ensures_sync :
    Ensures (Stands mood dir rest s) Writer.sync (fun _ => Stands mood dir rest s)
      (Stands mood dir rest s) := by
  have hcall : ∀ w : Writer, Ensures (fun h => w = s.writer ∧ h.Holds mood (s.On dir rest))
      ((Host.sync w.handle).during w.path "journal sync failed")
      (fun _ h => w = s.writer ∧ h.Holds mood (s.On dir rest))
      (fun h => w = s.writer ∧ h.Holds mood (s.On dir rest)) := by
    intro w
    refine Ensures.fact fun hw => ?_
    have hsync : Ensures (Host.Holds mood (s.On dir rest)) (Host.sync w.handle)
        (fun _ => Host.Holds mood (s.On dir rest)) (Host.Holds mood (s.On dir rest)) := by
      refine Host.ensures_alter_or fun d hd d' hsynced => ?_
      obtain ⟨id, hid, -⟩ := hd.handle
      rw [hw, hid] at hsynced
      cases hsynced
      have hsame : (s.spill []).On dir rest (d.change id fun f => { f with synced := f.bytes.length }) :=
        hd.change hid fun data hdata => by rw [List.append_nil, hdata]
      rwa [spill_nil] at hsame
    exact (hsync.during _ _).weaken (fun _ => id) (fun _ _ hh => ⟨hw, hh⟩) fun _ hh => ⟨hw, hh⟩
  exact Ensures.onHost hcall

variable (mood) in
theorem ensures_openNext :
    Ensures (Host.Holds mood (s.On dir rest))
      (Writer.openFile (s.writer.dir / fileName.render (FileName.next s.writer.sequence)))
      (fun handle h => s.writer.sequence ≤ FileName.next s.writer.sequence →
        h.Holds mood ((s.next handle).On dir rest))
      (Host.Holds mood (s.On dir rest)) := by
  by_cases hn : s.writer.sequence + 1 < FileName.sequenceBound
  · have hopen : Ensures (Host.Holds mood (s.On dir rest))
        (Host.openAppend (s.writer.dir / fileName.render (FileName.next s.writer.sequence)))
        (fun handle => Host.Holds mood ((s.next handle).On dir rest))
        (Host.Holds mood (s.On dir rest)) := by
      refine Host.ensures_atomic_or fun d hd handle d' hopened => ?_
      rw [hd.tapes.openAppend_new (FileName.next_lt _) (hd.below_next hn)] at hopened
      cases hopened
      exact hd.create hn
    exact (hopen.during _ _).weaken (fun _ => id) (fun _ _ hh _ => hh) fun _ => id
  · have hopen : Ensures (Host.Holds mood (s.On dir rest))
        (Host.openAppend (s.writer.dir / fileName.render (FileName.next s.writer.sequence)))
        (fun _ => Host.Holds mood fun _ => True) (Host.Holds mood (s.On dir rest)) :=
      Host.ensures_atomic_or fun _ _ _ _ _ => trivial
    exact (hopen.during _ _).weaken (fun _ => id)
      (fun _ _ _ hle => absurd (FileName.le_next_iff.1 hle) hn) fun _ => id

theorem ensures_roll :
    Ensures (Stands mood dir rest s) Writer.roll
      (fun n x => n = FileName.next s.writer.sequence ∧ ∃ handle, x.1 = (s.next handle).writer ∧
        (s.writer.sequence ≤ x.1.sequence → Stands mood dir rest (s.next handle) x))
      (Stands mood dir rest s) := by
  refine Ensures.bind ensures_sync fun _ => Ensures.get_bind fun x hx => ?_
  obtain ⟨w, h⟩ := x
  obtain ⟨rfl, hh⟩ := hx
  refine Ensures.bind (((ensures_openNext mood).beside s.writer).weaken ?_
    (fun _ _ => id) (fun _ => id)) fun handle => ?_
  · rintro _ rfl
    exact ⟨rfl, hh⟩
  · refine Ensures.bind (M := fun _ x => x.1 = (s.next handle).writer ∧
        (s.writer.sequence ≤ x.1.sequence → Stands mood dir rest (s.next handle) x))
      (Ensures.change fun y hy => ⟨rfl, fun hle => ⟨rfl, hy.2 hle⟩⟩) fun _ => ?_
    refine Ensures.bind (M := fun _ x => x.1 = (s.next handle).writer ∧
        (s.writer.sequence ≤ x.1.sequence → Stands mood dir rest (s.next handle) x))
      (Ensures.noteBeside fun y hy => ⟨hy.1, fun hle => ⟨hy.1, (hy.2 hle).2.note _⟩⟩) fun _ => ?_
    exact Ensures.pure fun y hy => ⟨rfl, handle, hy⟩

/-- A write that fails may leave a part of the bytes, but only if a fault cut it short. -/
theorem ensures_write {bs : Bytes} (hbs : bs ≠ []) :
    Ensures (Stands mood dir rest s) (Writer.write bs)
      (fun _ => Stands mood dir rest (s.write bs))
      (fun x => ∃ k < bs.length, (mood.Whole → k = 0) ∧
        Stands mood dir rest (s.spill (bs.take k)) x) := by
  have hpos := List.length_pos_iff.2 hbs
  refine Ensures.get_bind fun x hx => ?_
  obtain ⟨w, h⟩ := x
  obtain ⟨rfl, hh⟩ := hx
  have happend : ∀ (d : Disk) (part : Bytes) d', s.On dir rest d →
      d.append s.writer.handle part = .ok d' → (s.spill part).On dir rest d' := by
    intro d part d' hd happ
    obtain ⟨id, hid, -⟩ := hd.handle
    rw [hid] at happ
    cases happ
    exact hd.change hid fun data hdata => by rw [hdata]
  have hwrite : Ensures (Host.Holds mood (s.On dir rest)) (Host.append s.writer.handle bs)
      (fun _ => Host.Holds mood ((s.spill bs).On dir rest))
      (Host.Holds mood fun d => ∃ k < bs.length, (mood.Whole → k = 0) ∧
        (s.spill (bs.take k)).On dir rest d) := by
    refine Host.ensures_append_or (fun d hd => ⟨0, hpos, fun _ => rfl, ?_⟩)
      (fun hcut d hd part d' hpart happ => ?_) fun d hd d' happ => happend d bs d' hd happ
    · rwa [List.take_zero, spill_nil]
    · have hlen := hpart.length_le
      rw [List.length_dropLast] at hlen
      refine ⟨part.length, by omega, fun hw => absurd hw hcut, ?_⟩
      rw [← List.prefix_iff_eq_take.1 (hpart.trans (List.dropLast_prefix bs))]
      exact happend d part d' hd happ
  refine Ensures.bind (((hwrite.during _ _).beside s.writer).weaken ?_ (fun _ _ => id) ?_)
    fun _ => Ensures.change fun y hy => ?_
  · rintro _ rfl
    exact ⟨rfl, hh⟩
  · rintro y ⟨hy, hfail⟩
    obtain ⟨k, hk, hwhole, hon⟩ := hfail.disk
    exact ⟨k, hk, hwhole, hy, hon, hfail.faults⟩
  · exact ⟨rfl, hy.2.imp fun d hd => on_write.2 hd⟩

theorem ensures_write_writer (w : Writer) (bs : Bytes) :
    Ensures (fun x => x.1 = w) (Writer.write bs)
      (fun _ x => x.1 = { w with size := w.size + bs.length }) (fun x => x.1 = w) := by
  refine Ensures.get_bind fun x hx => ?_
  obtain ⟨w', h⟩ := x
  obtain rfl : w' = w := hx
  refine Ensures.bind (M := fun _ x => x.1 = w') ((Ensures.aside (p := (· = w')) fun _ => _).weaken ?_
    (fun _ _ => id) fun _ => id) fun _ => Ensures.change fun y hy => ?_
  · rintro _ rfl
    rfl
  · rw [← hy]

/-- An append writes the record on the last tape or on a new one. If it fails it may leave a new
tape, and a part of the record if a fault cut the write short. -/
theorem ensures_append (r : Record) :
    Ensures (Stands mood dir rest s) (Writer.append r)
      (fun _ x => ∃ s', s.Room r.bytes.length s' ∧ x.1 = (s'.write r.bytes).writer ∧
        (s.writer.sequence ≤ x.1.sequence → Stands mood dir rest (s'.write r.bytes) x))
      (fun x => Stands mood dir rest s x ∨ ∃ s' k, s.Room r.bytes.length s' ∧
        k < r.bytes.length ∧ (mood.Whole → k = 0) ∧ x.1 = s'.writer ∧
        (s.writer.sequence ≤ x.1.sequence →
          Stands mood dir rest (s'.spill (r.bytes.take k)) x)) := by
  have hpos := List.length_pos_iff.2 r.bytes_ne_nil
  have hwrite : ∀ s', s.Room r.bytes.length s' → Ensures
      (fun x => x.1 = s'.writer ∧
        (s.writer.sequence ≤ x.1.sequence → Stands mood dir rest s' x)) (Writer.write r.bytes)
      (fun _ x => ∃ s', s.Room r.bytes.length s' ∧ x.1 = (s'.write r.bytes).writer ∧
        (s.writer.sequence ≤ x.1.sequence → Stands mood dir rest (s'.write r.bytes) x))
      (fun x => Stands mood dir rest s x ∨ ∃ s' k, s.Room r.bytes.length s' ∧
        k < r.bytes.length ∧ (mood.Whole → k = 0) ∧ x.1 = s'.writer ∧
        (s.writer.sequence ≤ x.1.sequence →
          Stands mood dir rest (s'.spill (r.bytes.take k)) x)) := by
    intro s' hroom
    by_cases hle : s.writer.sequence ≤ s'.writer.sequence
    · exact (ensures_write r.bytes_ne_nil).weaken (fun x hx => hx.2 (hx.1 ▸ hle))
        (fun _ x hx => ⟨s', hroom, hx.1, fun _ => hx⟩)
        fun x ⟨k, hk, hwhole, hx⟩ => Or.inr ⟨s', k, hroom, hk, hwhole, hx.1, fun _ => hx⟩
    · exact (ensures_write_writer s'.writer r.bytes).weaken (fun x hx => hx.1)
        (fun _ x hx => ⟨s', hroom, hx, fun h => absurd (by rwa [hx] at h) hle⟩)
        fun x hx => Or.inr ⟨s', 0, hroom, hpos, fun _ => rfl, hx,
          fun h => absurd (by rwa [hx] at h) hle⟩
  refine Ensures.get_bind fun x hx => ?_
  obtain ⟨w, h⟩ := x
  obtain ⟨rfl, hh⟩ := hx
  dsimp only
  by_cases hlimit : s.writer.maxValue < r.value.length
  · rw [show r.encode s.writer.maxValue = .error _ from if_pos hlimit]
    rintro _ rfl
    exact Or.inl ⟨rfl, hh⟩
  · rw [show r.encode s.writer.maxValue = .ok r.bytes from if_neg hlimit]
    change Ensures _ (if s.writer.mustRoll r.bytes.length then Writer.roll >>= fun _ =>
      Writer.write r.bytes else Writer.write r.bytes) _ _
    split
    next hfull =>
      refine Ensures.bind (M := fun _ x => ∃ handle, x.1 = (s.next handle).writer ∧
        (s.writer.sequence ≤ x.1.sequence → Stands mood dir rest (s.next handle) x))
        (ensures_roll.weaken ?_ (fun n x hx => hx.2) fun x => Or.inl) fun _ => ?_
      · rintro _ rfl
        exact ⟨rfl, hh⟩
      · rintro x ⟨handle, hx⟩
        exact hwrite _ (.next handle hfull) x hx
    next hfits =>
      rw [Bool.not_eq_true] at hfits
      refine (hwrite s (.here hfits)).weaken ?_ (fun _ _ => id) fun _ => id
      rintro _ rfl
      exact ⟨rfl, fun _ => ⟨rfl, hh⟩⟩

end Spool

end Journal

end LedgerStore
