import LedgerStore.Proofs.Engine.Entries
import LedgerStore.Proofs.Engine.Refinement
import LedgerStore.Proofs.Record.Places

/-!
What a configuration's limit on values makes of the lengths of records. A header has 32 bits for the
length of a payload, and a limit within them keeps every accepted put for the engines to come. A
valid configuration may have a limit beyond them; a value that long is accepted and can be read until
the engine is closed, and no engine that is opened later has it.
-/

set_option autoImplicit false

namespace LedgerStore

def Index.Fits (i : Index) : Prop :=
  ∀ key value, i.get? key = some value → (⟨key, value⟩ : Record).Fits

theorem Index.Fits.insert {i : Index} (h : i.Fits) {key : Key} {value : Bytes}
    (hr : (⟨key, value⟩ : Record).Fits) : (i.insert key value).Fits := by
  intro k v hget
  rw [Index.get?_insert, Contents.put] at hget
  split at hget
  next heq =>
    cases hget
    exact heq ▸ hr
  next hne => exact h k v hget

theorem Index.Fits.replay {i : Index} (h : i.Fits) {rs : List Record} (hrs : ∀ r ∈ rs, r.Fits) :
    (i.replay rs).Fits := by
  induction rs generalizing i with
  | nil => exact h
  | cons r rs ih =>
    have hr : (⟨r.key, r.value⟩ : Record).Fits := hrs r List.mem_cons_self
    exact ih (h.insert hr) fun q hq => hrs q (List.mem_cons_of_mem _ hq)

theorem Index.fits_empty : Index.Fits {} :=
  nofun

section Reading

variable {ε σ α β : Type} {act : EStateM ε σ α} {P : α → Prop} {Q : β → Prop}

def Yields (act : EStateM ε σ α) (P : α → Prop) : Prop :=
  Ensures (fun _ => True) act (fun a _ => P a) fun _ => True

theorem Yields.bind {next : α → EStateM ε σ β} (hact : Yields act P)
    (hnext : ∀ a, P a → Yields (next a) Q) : Yields (act >>= next) Q :=
  Ensures.bind hact fun a => Ensures.peek (fun _ ha => ha) fun ha =>
    (hnext a ha).weaken (fun _ _ => trivial) (fun _ _ => id) fun _ => id

theorem Yields.next {next : α → EStateM ε σ β} (hnext : ∀ a, Yields (next a) Q) :
    Yields (act >>= next) Q :=
  Yields.bind (P := fun _ => True) Ensures.trivial fun a _ => hnext a

theorem Yields.pure {a : α} (h : P a) : Yields (Pure.pure a : EStateM ε σ α) P :=
  Ensures.pure fun _ _ => h

/-! Whatever the files are, the records that are read from them have lengths that fit. -/

theorem Record.yields_readFile (path : Path) :
    Yields (readFile path) fun rs => ∀ r ∈ rs, r.Fits :=
  Yields.next fun _ => Yields.next fun _ => Yields.pure fun _ => fits_of_mem_scan

theorem Journal.yields_readAll (dir : Path) (files : List File) :
    Yields (readAll dir files) fun rs => ∀ r ∈ rs, r.Fits := by
  induction files with
  | nil => exact Yields.pure nofun
  | cons file files ih =>
    refine (Record.yields_readFile _).bind fun first hfirst => ih.bind fun more hmore => ?_
    exact Yields.pure fun r hr => (List.mem_append.1 hr).elim (hfirst r) (hmore r)

theorem EntryLog.yields_loadCheckpoint (dir : Path) :
    Yields (loadCheckpoint dir) fun saved => saved.2.Fits := by
  refine Yields.next fun best => ?_
  cases best with
  | none => exact Yields.pure Index.fits_empty
  | some best =>
    refine (Record.yields_readFile _).bind fun rs hrs => Yields.next fun _ => ?_
    exact Yields.pure (Index.fits_empty.replay hrs)

theorem EntryLog.yields_start (config : Config) : Yields (start config) fun e => e.index.Fits := by
  refine Yields.next fun _ => Yields.next fun _ => ?_
  refine (yields_loadCheckpoint _).bind fun saved hsaved => ?_
  have hrecover : Yields (Journal.recoverFrom config.journalDir saved.1)
      fun rs => ∀ r ∈ rs, r.Fits := Yields.next fun _ => Journal.yields_readAll _ _
  refine hrecover.bind fun rs hrs => ?_
  have hindex := hsaved.replay hrs
  dsimp only
  split
  · exact Yields.next fun _ => Yields.next fun _ => Yields.pure hindex
  · exact Yields.next fun _ => Yields.pure hindex

theorem EntryLog.fits_start {config : Config} {h h' : Host} {e : EntryLog}
    (hstart : start config h = .ok e h') : e.index.Fits := by
  have hrun := yields_start config h trivial
  rwa [hstart] at hrun

end Reading

/-- The small site with longer journal files, and with the least limit on values that leaves no room
for their lengths. -/
def Site.overlong : Site :=
  { Site.small with
    config := { Site.small.config with rotationBytes := 8589934592, maxValueSize := 4294967280 } }

theorem Site.overlong_vacant : Site.overlong.Vacant Site.smallDisk where
  sound := Site.small_vacant.sound
  data := Site.small_vacant.data
  logs := Site.small_vacant.logs
  journal := Site.small_vacant.journal
  checkpoints := Site.small_vacant.checkpoints

namespace Life

variable {s : Site} {a : Archive} {n : Nat} {l : Life} {e : EntryLog}

/-- Whatever its length, a value within the limit is accepted, and can be read from the engine that
is open. -/
theorem accepted_put (h : Stands s a n l) (he : l.engine = some e)
    (hn : n < FileName.sequenceBound) (key : Key) {value : Bytes}
    (hle : value.length ≤ s.config.maxValueSize) :
    (l.step s.config (.put key value [])).accepted = l.accepted ++ [⟨key, value⟩] ∧
      ∃ e', (l.step s.config (.put key value [])).engine = some e' ∧
        Engine.get e' key = .ok (some value) := by
  have hcur := h.current_lt he
  have hrun := EntryLog.ensures_taken (EntryLog.steady_drafted s l.saving)
    (fun _ hf => nomatch hf) key value (by omega) _ (h.engine e he []).works
  have hindex := EntryLog.index_put key value (e, l.host.facing [])
  rw [show Engine.put key value (e, l.host.facing []) =
    EntryLog.put key value (e, l.host.facing []) from rfl] at hindex
  simp only [step, he, operate]
  revert hrun hindex
  cases EntryLog.put key value (e, l.host.facing []) with
  | ok u t =>
    intro _ hindex
    refine ⟨rfl, t.1, rfl, ?_⟩
    change Except.ok (t.1.index.get? key) = _
    rw [hindex, Index.get?_insert, Contents.put, if_pos rfl]
  | error cause t => exact fun hrun _ => absurd hle (Nat.not_le.2 (hrun Mood.calm_nil))

theorem fits_reopen {config : Config} {leftover : Option Bytes}
    (h : (l.reopen config leftover).engine = some e) : e.index.Fits := by
  have hclosed : (l.step config (.halt leftover)).engine = none := by
    cases he : l.engine with
    | none => simp only [step, he]
    | some e => simp only [step, he, operate, fallen]
  rw [reopen] at h
  generalize l.step config (.halt leftover) = fallen at hclosed h
  simp only [step, hclosed] at h
  split at h
  next hstart =>
    cases h
    exact EntryLog.fits_start hstart
  next => cases h

end Life

structure Config.Sizes (c : Config) : Prop where
  /-- Each is encoded, and the header declares the low 32 bits of its payload's length. If that is
  the length itself, the record is read back, whatever follows it. -/
  encoded : ∀ r : Record, r.value.length ≤ c.maxValueSize → ∃ bs,
    r.encode c.maxValueSize = .ok bs ∧
    (Record.Header.ofBytes bs).length.toNat = (Key.width + r.value.length) % 2 ^ 32 ∧
    (Key.width + r.value.length < 2 ^ 32 → ∀ rest, Record.decode (bs ++ rest) = .ok r)
  /-- All the lengths are exact just if the greatest of them fits in 32 bits. -/
  exact : (∀ r : Record, r.value.length ≤ c.maxValueSize → ∃ bs,
    r.encode c.maxValueSize = .ok bs ∧
    (Record.Header.ofBytes bs).length.toNat = Key.width + r.value.length ∧
    ∀ rest, Record.decode (bs ++ rest) = .ok r) ↔ Key.width + c.maxValueSize < 2 ^ 32
  room : Key.width + c.rotationBytes ≤ 2 ^ 32 → Key.width + c.maxValueSize < 2 ^ 32
  recovered : ∀ (s : Site) (d : Disk) (moves : List Move), s.config = c → s.Vacant d →
    (∀ m ∈ moves, m.Fits c.maxValueSize) → (∀ m ∈ moves, ∀ keep, m ≠ .crash keep) →
    moves.length + 1 < FileName.sequenceBound → ∀ leftover,
    ∃ e, ((Life.run c d moves).reopen c leftover).engine = some e ∧
      e.Answers (Contents.empty.after (Life.run c d moves).accepted)
  /-- A value whose length does not fit is accepted and can be read as well, but no opening finds
  it. -/
  lost : ∀ (s : Site) (d : Disk) (moves : List Move), s.config = c → s.Vacant d →
    (∀ m ∈ moves, m.Fits c.maxValueSize) → moves.length < FileName.sequenceBound →
    (Life.run c d moves).engine ≠ none → ∀ (key : Key) (value : Bytes),
    value.length ≤ c.maxValueSize → 2 ^ 32 ≤ Key.width + value.length →
    ((Life.run c d moves).step c (.put key value [])).accepted =
        (Life.run c d moves).accepted ++ [⟨key, value⟩] ∧
      (∃ e, ((Life.run c d moves).step c (.put key value [])).engine = some e ∧
        Engine.get e key = .ok (some value)) ∧
      ∀ (c' : Config) (h h' : Host) (e : EntryLog), EntryLog.start c' h = .ok e h' →
        Engine.get e key ≠ .ok (some value)

namespace Config

theorem maxValueSize_lt {c : Config} (valid : c.validate = .ok ()) :
    c.maxValueSize < c.rotationBytes := by
  rw [validate] at valid
  split at valid
  · cases valid
  next hnone =>
    rw [defect?] at hnone
    split at hnone
    · cases hnone
    split at hnone
    · cases hnone
    split at hnone
    · cases hnone
    next hlimit => omega

theorem encoded (r : Record) {limit : Nat} (hle : r.value.length ≤ limit) :
    ∃ bs, r.encode limit = .ok bs ∧
      (Record.Header.ofBytes bs).length.toNat = (Key.width + r.value.length) % 2 ^ 32 ∧
      (Key.width + r.value.length < 2 ^ 32 → ∀ rest, Record.decode (bs ++ rest) = .ok r) := by
  refine ⟨r.bytes, Record.encode_eq_ok_iff.2 ⟨hle, rfl⟩, ?_, fun hlt rest => ?_⟩
  · rw [r.ofBytes_self, r.header_length_mod, r.length_payload]
  · exact Record.decode_append (Record.fits_iff.2 hlt) rest

/-- A valid configuration keeps the lengths of its values exact, and its accepted puts, as far as the
lengths fit in 32 bits. -/
theorem sizes {c : Config} (valid : c.validate = .ok ()) : c.Sizes where
  encoded r hle := encoded r hle
  exact := by
    constructor
    · intro hall
      -- The longest value has the longest record.
      obtain ⟨bs, -, hlength, -⟩ := hall ⟨⟨0, 0⟩, List.replicate c.maxValueSize 0⟩
        (Nat.le_of_eq List.length_replicate)
      rw [List.length_replicate] at hlength
      rw [← hlength]
      exact (Record.Header.ofBytes bs).length.toNat_lt
    · intro hlimit r hle
      have hlt : Key.width + r.value.length < 2 ^ 32 := by omega
      obtain ⟨bs, hencode, hlength, hread⟩ := encoded r hle
      rw [Nat.mod_eq_of_lt hlt] at hlength
      exact ⟨bs, hencode, hlength, hread hlt⟩
  room hrotation := by
    have hlt := maxValueSize_lt valid
    omega
  recovered := by
    rintro s d moves rfl hd hfits hcrash hn leftover
    obtain ⟨a, h, hindex⟩ := Life.stands_fitting hd moves hfits (by omega)
    obtain ⟨a', e, -, he, hsame⟩ := Life.stands_reopen h hn leftover
    exact ⟨e, he, EntryLog.answers_of_replay (hsame.trans (hindex hcrash))⟩
  lost := by
    rintro s d moves rfl hd hfits hn hopen key value hle hlong
    obtain ⟨a, h, -⟩ := Life.stands_fitting hd moves hfits (by omega)
    obtain ⟨e, he⟩ := Option.ne_none_iff_exists'.1 hopen
    obtain ⟨haccepted, hget⟩ := Life.accepted_put h he hn key hle
    refine ⟨haccepted, hget, fun c' h h' e' hstart hvalue => ?_⟩
    have hfit := EntryLog.fits_start hstart key value (Except.ok.inj hvalue)
    exact absurd (Record.fits_iff.1 hfit) (Nat.not_lt.2 hlong)

/-- A small value is there after the next opening. -/
theorem sizes_small :
    let c := Site.small.config
    let moves : List Move := [.start [], .put ⟨1, 2⟩ [7] []]
    (c.validate = .ok () ∧ (∀ m ∈ moves, m.Fits c.maxValueSize)) ∧
      ∃ e, ((Life.run c Site.smallDisk moves).reopen c none).engine = some e ∧
        e.Answers (Contents.empty.after (Life.run c Site.smallDisk moves).accepted) := by
  intro c moves
  have valid : c.validate = .ok () := by decide
  have hfits : ∀ m ∈ moves, m.Fits c.maxValueSize := by
    simp [moves, Move.Fits, Record.fits_iff, Key.width]
  have hcrash : ∀ m ∈ moves, ∀ keep, m ≠ .crash keep := by simp [moves]
  exact ⟨⟨valid, hfits⟩, (sizes valid).recovered Site.small Site.smallDisk moves rfl
    Site.small_vacant hfits hcrash (by decide) none⟩

/-- A valid configuration admits a value whose length does not fit. The header of its record
declares no bytes, and the put of it is accepted and lost. -/
theorem overlong_lost :
    let c := Site.overlong.config
    let r : Record := ⟨⟨1, 2⟩, List.replicate c.maxValueSize 0⟩
    let l := Life.run c Site.smallDisk [.start [], .put r.key r.value []]
    c.validate = .ok () ∧ r.value.length ≤ c.maxValueSize ∧
      (∃ bs, r.encode c.maxValueSize = .ok bs ∧ (Record.Header.ofBytes bs).length = 0 ∧
        Key.width + r.value.length = 2 ^ 32 ∧ Record.decode bs ≠ .ok r) ∧
      l.accepted = [r] ∧
      ¬ ∃ e, (l.reopen c none).engine = some e ∧ Engine.get e r.key = .ok (some r.value) := by
  intro c r
  have hlength : r.value.length = c.maxValueSize := List.length_replicate
  -- Nothing below is to look at the value itself.
  clear_value r
  intro l
  have hle : r.value.length ≤ c.maxValueSize := Nat.le_of_eq hlength
  have hlong : Key.width + r.value.length = 2 ^ 32 := by
    have hlimit : c.maxValueSize = 4294967280 := rfl
    rw [hlength, hlimit, Key.width]
    omega
  have hunfit : ¬ r.Fits := fun hfit => Nat.lt_irrefl _ (hlong ▸ Record.fits_iff.1 hfit)
  obtain ⟨a, h, -⟩ := Life.stands_fitting Site.overlong_vacant [.start []]
    (by simp [Move.Fits]) (by decide)
  have hopen : (Life.run c Site.smallDisk [.start []]).engine.isSome = true := by decide +kernel
  obtain ⟨e, he⟩ := Option.isSome_iff_exists.1 hopen
  have hfirst : (Life.run c Site.smallDisk [.start []]).accepted = [] := by decide +kernel
  have hlast : l = (Life.run c Site.smallDisk [.start []]).step c (.put r.key r.value []) :=
    Life.run_concat c Site.smallDisk [.start []] (.put r.key r.value [])
  have haccepted : l.accepted = [r] := by
    rw [hlast, (Life.accepted_put h he (by decide) r.key hle).1, hfirst, List.nil_append]
  refine ⟨by decide, hle, ⟨r.bytes, Record.encode_eq_ok_iff.2 ⟨hle, rfl⟩, ?_, hlong, ?_⟩, haccepted,
    ?_⟩
  · apply UInt32.toNat.inj
    rw [r.ofBytes_self, r.header_length_mod, r.length_payload, hlong]
    rfl
  · exact fun hread => hunfit (Record.decode_eq_ok_iff.1 hread).1
  · rintro ⟨e, he, hget⟩
    exact hunfit (Life.fits_reopen he r.key r.value (Except.ok.inj hget))

end Config

end LedgerStore
