import LedgerStore.Proofs.Engine.Life

/-!
What a good sync of the engine is worth. A sync makes permanent what is in the last journal file,
and so what the engine itself has put. What its opening read back from the files of an engine before
is permanent only if a good sync of that engine, or a good checkpoint, came after its put. The main
statement says that whenever a sync answers well all other readable entries are permanent, and stay
so.
-/

set_option autoImplicit false

namespace LedgerStore

/-- The files that an opening reads: the newest checkpoint, and the journal files numbered from its
sequence on. -/
inductive Site.Reads (s : Site) (d : Disk) : Place → Prop
  | checkpoint (best : Nat × String) (newest : Checkpoint.highest (d.names s.dataDir) = some best) :
      Reads s d (s.checkpointPlace best.1)
  | journal (n : Nat)
      (above : ∀ best, Checkpoint.highest (d.names s.dataDir) = some best → best.1 ≤ n) :
      Reads s d (s.journalPlace n)

/-- A record lies within the synced length of a file that an opening reads. -/
def Site.Permanent (s : Site) (d : Disk) (r : Record) : Prop :=
  ∃ (place : Place) (f : FileData) (front : List Record) (rest : Bytes),
    s.Reads d place ∧ d.fileAt? place = some f ∧ f.bytes = Record.written (front ++ [r]) ++ rest ∧
      (Record.written (front ++ [r])).length ≤ f.synced

theorem Volume.Holds.ends {v : Volume} {f : FileData} (h : v.Holds f) {w : Write}
    (hw : w ∈ v.safe) :
    ∃ front rest, f.bytes = Record.written (front ++ [w.record]) ++ rest ∧
      (Record.written (front ++ [w.record])).length ≤ f.synced := by
  obtain ⟨us, vs, hsafe⟩ := List.append_of_mem hw
  have hrecords : v.safe.map (·.record) =
      (us.map (·.record) ++ [w.record]) ++ vs.map (·.record) := by
    simp [hsafe]
  have hlength := h.synced
  rw [hrecords, Record.written_append, List.length_append] at hlength
  refine ⟨us.map (·.record), Record.written (vs.map (·.record)) ++
    (Record.written (v.loose.map (·.record)) ++ v.tail), ?_, by omega⟩
  rw [h.bytes, Volume.records, Volume.writes, List.map_append, hrecords]
  simp [Record.written_append]

theorem Archive.On.highest {a : Archive} {s : Site} {d : Disk} (h : a.On s d) :
    Checkpoint.highest (d.names s.dataDir) =
      a.checkpoints.getLast?.map fun v => Checkpoint.fileName.label v.sequence :=
  h.checkpoints.highest_checkpoint

theorem Archive.On.permanent {a : Archive} {s : Site} {d : Disk} (h : a.On s d) {w : Write}
    (hw : w ∈ a.safe) : s.Permanent d w.record := by
  rcases List.mem_append.1 hw with hw | hw
  · cases hlast : a.checkpoints.getLast? with
    | none =>
      rw [newest, hlast] at hw
      cases hw
    | some c =>
      rw [newest_of_getLast? hlast] at hw
      obtain ⟨f, hf, hholds⟩ := h.checkpoints.stored c (List.mem_of_getLast? hlast)
      obtain ⟨front, rest, hbytes, hsynced⟩ := hholds.ends hw
      have hbest := h.highest
      rw [hlast, Option.map_some] at hbest
      exact ⟨_, f, front, rest, .checkpoint _ hbest, hf, hbytes, hsynced⟩
  · obtain ⟨v, hv, hmem⟩ := List.mem_flatMap.1 hw
    obtain ⟨hjournal, hfirst⟩ := List.mem_filter.1 hv
    obtain ⟨f, hf, hholds⟩ := h.journal.stored v hjournal
    obtain ⟨front, rest, hbytes, hsynced⟩ := hholds.ends hmem
    refine ⟨_, f, front, rest, .journal v.sequence fun best hbest => ?_, hf, hbytes, hsynced⟩
    rw [h.highest] at hbest
    obtain ⟨c, hc, rfl⟩ := Option.map_eq_some_iff.1 hbest
    rw [first, newest_of_getLast? hc] at hfirst
    simpa [FileName.label] using hfirst

theorem Archive.On.writes_nil {a : Archive} {s : Site} {d : Disk} (h : a.On s d)
    (hd : ∀ f ∈ d.files, f.bytes = []) : a.writes = [] := by
  have hvolume : ∀ {kind : FileName} {dir : Place} {vs : List Volume}, Shelf kind dir vs d →
      ∀ v ∈ vs, v.writes = [] := by
    intro kind dir vs hshelf v hv
    obtain ⟨f, hf, hholds⟩ := hshelf.stored v hv
    exact (hholds.nil (hd f (h.sound.mem_files hf))).1
  have hnewest : a.newest.writes = [] := by
    cases hlast : a.checkpoints.getLast? with
    | none => rw [newest, hlast]; rfl
    | some c =>
      rw [newest_of_getLast? hlast]
      exact hvolume h.checkpoints c (List.mem_of_getLast? hlast)
  rw [writes, hnewest, List.nil_append, List.flatMap_eq_nil_iff]
  exact fun v hv => hvolume h.journal v (List.mem_of_mem_filter hv)

theorem Archive.On.newest_loose {a : Archive} {s : Site} {d : Disk} (h : a.On s d) :
    a.newest.loose = [] := by
  cases hlast : a.checkpoints.getLast? with
  | none => rw [newest, hlast]; rfl
  | some c =>
    rw [newest_of_getLast? hlast]
    exact (h.whole c (List.mem_of_getLast? hlast)).loose

namespace Life

open Checkpoint

/-- A life, and which of its accepted puts are to be permanent. -/
structure Watched where
  life : Life
  opened : Nat := 0
  begun : Nat := 0
  /-- The puts that a good sync of the same engine, or a good checkpoint, came after. -/
  covered : List Nat := []

namespace Watched

def caught (w : Watched) : Nat :=
  if w.life.saving.isNone then w.life.accepted.length else w.begun

def step (config : Config) (w : Watched) (m : Move) : Watched :=
  let life := w.life.step config m
  { life
    opened := if w.life.engine.isNone then life.accepted.length else w.opened
    begun := w.caught
    covered := w.covered ++
      (if w.life.syncs m then (List.range life.accepted.length).filter (w.opened ≤ ·) else []) ++
      if w.life.saved.length < life.saved.length then List.range w.caught else [] }

end Watched

def watch (config : Config) (d : Disk) (moves : List Move) : Watched :=
  moves.foldl (Watched.step config) { life := { host := { disk := d } } }

theorem life_watch (config : Config) (d : Disk) (moves : List Move) :
    (watch config d moves).life = run config d moves := by
  induction moves using List.reverseRecOn with
  | nil => rfl
  | append_singleton moves m ih =>
    simp only [watch, run, List.foldl_append, List.foldl_cons, List.foldl_nil] at ih ⊢
    rw [← ih]
    rfl

structure Latest (rs : List Record) (i : Nat) (r : Record) : Prop where
  there : rs[i]? = some r
  last : ∀ j r', i < j → rs[j]? = some r' → r'.key ≠ r.key

/-- What it means that an accepted put is permanent after `n` moves: its record is, an opening after
a crash gives it back, and whatever happens, an open engine answers its key with its value or with
that of a put accepted after it. -/
structure Lasting (s : Site) (n : Nat) (l : Life) (i : Nat) (r : Record) : Prop where
  permanent : s.Permanent l.host.disk r
  survives : ∀ keep, ∃ e,
    ((l.step s.config (.crash keep)).step s.config (.start [])).engine = some e ∧
      Engine.get e r.key = .ok (some r.value)
  lasts : ∀ moves : List Move, (∀ m ∈ moves, m.Fair) →
    n + moves.length ≤ FileName.sequenceBound → ∀ l', moves.foldl (step s.config) l = l' →
    ∀ e, l'.engine = some e → ∃ j r', i ≤ j ∧ l'.accepted[j]? = some r' ∧ r'.key = r.key ∧
      Engine.get e r.key = .ok (some r'.value)

variable {s : Site} {a a' : Archive} {n : Nat} {l l' : Life} {e : EntryLog} {m : Move} {key : Key}
  {i : Nat} {r : Record}

namespace Change

theorem told (h : Change s a l m l' a') (ht : a.Tells l.accepted) : a'.Tells l'.accepted := by
  cases h with
  | idle quiet => rwa [quiet.accepted]
  | turn ready turn quiet =>
    rw [quiet.accepted]
    exact (turn.lasts ready).tells _ ht
  | write ready turn r accepted =>
    rw [accepted]
    exact ((turn.lasts ready).tells _ ht).add (turn.stays_open ready) r
  | save ready r passed accepted =>
    obtain ⟨a₁, hturn, hsame⟩ := passed.through
    rw [accepted]
    exact ((hturn.lasts ready).trans hsame.lasts).tells _ ht
  | reopen closed reopen quiet =>
    rw [quiet.accepted]
    exact reopen.lasts.tells _ ht
  | cut keep crash g cut quiet =>
    rw [quiet.accepted]
    exact (Archive.lasts_cut cut).tells _ ht

theorem secured (h : Change s a l m l' a') (ht : a.Tells l.accepted) (hs : a.Secured key i) :
    a'.Secured key i := by
  cases h with
  | idle => exact hs
  | turn ready turn => exact (turn.lasts ready).secured _ ht _ _ hs
  | write ready turn r =>
    exact ((turn.lasts ready).secured _ ht _ _ hs).add (turn.stays_open ready) _
  | save ready r passed =>
    obtain ⟨a₁, hturn, hsame⟩ := passed.through
    exact ((hturn.lasts ready).trans hsame.lasts).secured _ ht _ _ hs
  | reopen closed reopen => exact reopen.lasts.secured _ ht _ _ hs
  | cut keep crash g cut => exact (Archive.lasts_cut cut).secured _ ht _ _ hs

theorem held (h : Change s a l m l' a') (hno : ∀ keep, m ≠ .crash keep) (he : l.engine = some e)
    (ht : a.Tells l.accepted) (hs : a.Held key i) : a'.Held key i := by
  cases h with
  | idle => exact hs
  | turn ready turn => exact hs.turn turn ready
  | write ready turn r => exact (hs.turn turn ready).add (turn.stays_open ready) _
  | save ready r passed =>
    obtain ⟨a₁, hturn, hsame⟩ := passed.through
    exact (hs.turn hturn ready).lasts hsame.lasts ((hturn.lasts ready).tells _ ht) hsame.current
  | reopen closed => cases he.symm.trans closed
  | cut keep crash => exact absurd crash (hno keep)

theorem retains (h : Change s a l m l' a') (hno : ∀ keep, m ≠ .crash keep)
    (hasc : Ascending a.journal) (ht : a.Tells l.accepted) (hs : a.Retains key i) :
    a'.Retains key i := by
  cases h with
  | idle => exact hs
  | turn ready turn => rwa [Archive.Retains, turn.writes ready]
  | write ready turn r =>
    obtain ⟨w, hw, hkey⟩ := hs
    rw [Archive.Retains, (turn.stays_open ready).writes_add, turn.writes ready]
    exact ⟨w, List.mem_append_left _ hw, hkey⟩
  | save ready r passed =>
    have hcovers := hs.covers hasc (Nat.lt_succ_self a.current.sequence)
    exact (passed.covers ready ht hcovers).retains
  | reopen closed reopen => rwa [Archive.Retains, reopen.writes]
  | cut keep crash => exact absurd crash (hno keep)

theorem covers (h : Change s a l m l' a') (hno : ∀ keep, m ≠ .crash keep)
    (ht : a.Tells l.accepted) {q : Nat} (hq : q ≤ a.current.sequence) (hs : a.Covers q key i) :
    a'.Covers q key i := by
  cases h with
  | idle => exact hs
  | turn ready turn => rwa [Archive.Covers, turn.covered ready]
  | write ready turn r =>
    rwa [Archive.Covers, Archive.covered_add (turn.stays_open ready) _
      (Nat.le_trans hq turn.current_le), turn.covered ready]
  | save ready r passed => exact passed.covers ready ht hs
  | reopen closed reopen =>
    cases reopen with
    | same => exact hs
    | fresh k least => rwa [Archive.Covers, Archive.covered_extend]
  | cut keep crash => exact absurd crash (hno keep)

theorem put (h : Change s a l m l' a') (hr : l'.accepted[i]? = some r) :
    l.accepted[i]? = some r ∨
      i = l.accepted.length ∧ a'.Held r.key i ∧ a'.Retains r.key i := by
  cases h with
  | idle quiet => exact Or.inl (quiet.accepted ▸ hr)
  | turn ready turn quiet => exact Or.inl (quiet.accepted ▸ hr)
  | @write a₁ ready turn r' accepted =>
    rw [accepted] at hr
    by_cases hi : i < l.accepted.length
    · rw [List.getElem?_append_left hi] at hr
      exact Or.inl hr
    · have hlt := (List.getElem?_eq_some_iff.1 hr).1
      rw [List.length_append, List.length_singleton] at hlt
      have heq : i = l.accepted.length := by omega
      rw [heq, List.getElem?_concat_length, Option.some.injEq] at hr
      rw [← hr, heq]
      have hmem : (⟨l.accepted.length, r'⟩ : Write) ∈ (a₁.add ⟨l.accepted.length, r'⟩).writes := by
        rw [(turn.stays_open ready).writes_add]
        exact List.mem_append_right _ List.mem_cons_self
      exact Or.inr ⟨rfl, a₁.held_add ⟨_, r'⟩, _, hmem, rfl, Nat.le_refl _⟩
  | save ready r' passed accepted => exact Or.inl (accepted ▸ hr)
  | reopen closed reopen quiet => exact Or.inl (quiet.accepted ▸ hr)
  | cut keep crash g cut quiet => exact Or.inl (quiet.accepted ▸ hr)

theorem length_le (h : Change s a l m l' a') : l.accepted.length ≤ l'.accepted.length := by
  cases h with
  | idle quiet => rw [quiet.accepted]
  | turn ready turn quiet => rw [quiet.accepted]
  | write ready turn r accepted => rw [accepted, List.length_append]; omega
  | save ready r passed accepted => rw [accepted]
  | reopen closed reopen quiet => rw [quiet.accepted]
  | cut keep crash g cut quiet => rw [quiet.accepted]

theorem synced (h : Change s a l m l' a') (hsync : l.syncs m = true) :
    a.Open ∧ a' = a.synced ∧ l'.accepted = l.accepted := by
  cases h with
  | turn ready turn quiet sync => exact ⟨ready, sync hsync, quiet.accepted⟩
  | idle quiet sync => cases sync.symm.trans hsync
  | write ready turn r accepted saved saving sync => cases sync.symm.trans hsync
  | save ready r passed accepted saved saving sync => cases sync.symm.trans hsync
  | reopen closed reopen quiet sync => cases sync.symm.trans hsync
  | cut keep crash g cut quiet sync => cases sync.symm.trans hsync

theorem ended (h : Change s a l m l' a') (hsaved : l.saved.length < l'.saved.length) :
    a.Open ∧ l'.accepted = l.accepted ∧ ∃ mood r k, r.ended = some k ∧
      EntryLog.Passed mood s a l.saving r a' := by
  have hsame : l'.saved = l.saved → False := fun heq => by simp [heq] at hsaved
  cases h with
  | @save _ mood ready r passed accepted saved =>
    cases hended : r.ended with
    | none => exact (hsame (by simp [saved, hended])).elim
    | some k => exact ⟨ready, accepted, mood, r, k, hended, passed⟩
  | idle quiet => exact (hsame quiet.saved).elim
  | turn ready turn quiet => exact (hsame quiet.saved).elim
  | write ready turn r accepted saved => exact (hsame saved).elim
  | reopen closed reopen quiet => exact (hsame quiet.saved).elim
  | cut keep crash g cut quiet => exact (hsame quiet.saved).elim

theorem begun (h : Change s a l m l' a') {p : Plan} {st : Stage}
    (hsaving : l'.saving = some (p, st)) :
    (∃ st', l.saving = some (p, st')) ∨ a.Open ∧ l'.accepted = l.accepted ∧
      a.current.sequence < p.sequence ∧ ∃ mood r, EntryLog.Passed mood s a l.saving r a' := by
  cases h with
  | idle quiet => exact Or.inl ⟨st, quiet.saving _ hsaving⟩
  | turn ready turn quiet => exact Or.inl ⟨st, quiet.saving _ hsaving⟩
  | write ready turn r accepted saved saving => exact Or.inl ⟨st, saving ▸ hsaving⟩
  | @save _ mood ready r passed accepted saved saving =>
    rcases passed.begun p st (saving ▸ hsaving) with hlt | hold
    · exact Or.inr ⟨ready, accepted, hlt, mood, r, passed⟩
    · exact Or.inl hold
  | reopen closed reopen quiet => exact Or.inl ⟨st, quiet.saving _ hsaving⟩
  | cut keep crash g cut quiet => exact Or.inl ⟨st, quiet.saving _ hsaving⟩

end Change

/-- What is known of a watched life after `n` moves: each accepted put is there, and permanent, or
to be so with the next sync or checkpoint, as its place says. -/
structure Tracked (s : Site) (a : Archive) (n : Nat) (w : Watched) : Prop where
  stands : Stands s a n w.life
  tells : a.Tells w.life.accepted
  begun : w.begun ≤ w.life.accepted.length
  known : ∀ i ∈ w.covered, i < w.life.accepted.length
  retained : ∀ i r, w.life.accepted[i]? = some r → a.Retains r.key i
  recent : ∀ e, w.life.engine = some e → ∀ i r, w.opened ≤ i → w.life.accepted[i]? = some r →
    a.Held r.key i
  saving : ∀ p st, w.life.saving = some (p, st) → ∀ i r, i < w.begun →
    w.life.accepted[i]? = some r → a.Covers p.sequence r.key i
  covered : ∀ i r, i ∈ w.covered → w.life.accepted[i]? = some r → a.Secured r.key i

variable {w : Watched}

theorem Tracked.caught_le (h : Tracked s a n w) : w.caught ≤ w.life.accepted.length := by
  have hbegun := h.begun
  rw [Watched.caught]
  split <;> omega

theorem Tracked.covers (h : Tracked s a n w) {q : Nat}
    (hq : a.current.sequence < q ∨ ∃ p st, w.life.saving = some (p, st) ∧ q = p.sequence)
    (hi : i < w.caught) (hr : w.life.accepted[i]? = some r) : a.Covers q r.key i := by
  rcases hq with hlt | ⟨p, st, hsaving, rfl⟩
  · exact (h.retained i r hr).covers h.stands.site.journal.ascending hlt
  · rw [Watched.caught, hsaving] at hi
    exact h.saving p st hsaving i r hi hr

theorem Stands.reached_plan (h : Stands s a n l) {p : Plan} {st : Stage}
    (hsaving : l.saving = some (p, st)) : p.sequence ≤ a.current.sequence := by
  cases he : l.engine with
  | none => cases (h.idle he).symm.trans hsaving
  | some e =>
    have hawaits := (h.engine e he []).awaits
    rw [hsaving] at hawaits
    exact hawaits.1.reached

theorem Change.old (h : Change s a l m l' a') (hi : i < l.accepted.length)
    (hr : l'.accepted[i]? = some r) : l.accepted[i]? = some r := by
  rcases h.put hr with hr | ⟨rfl, -⟩
  · exact hr
  · exact absurd hi (Nat.lt_irrefl _)

/-- A put is marked by a move if it was so before, or the move is a good sync of the engine that
took it, or ends a checkpoint that caught it. -/
theorem Watched.covered_step {config : Config} (hi : i ∈ (w.step config m).covered) :
    i ∈ w.covered ∨
      (w.life.syncs m = true ∧ w.opened ≤ i ∧ i < (w.life.step config m).accepted.length) ∨
      (w.life.saved.length < (w.life.step config m).saved.length ∧ i < w.caught) := by
  simp only [step, List.mem_append] at hi
  rcases hi with (hi | hi) | hi
  · exact Or.inl hi
  · split at hi
    · next hsync =>
      obtain ⟨hlt, hopened⟩ := List.mem_filter.1 hi
      exact Or.inr (Or.inl ⟨hsync, by simpa using hopened, List.mem_range.1 hlt⟩)
    · cases hi
  · split at hi
    · next hsaved => exact Or.inr (Or.inr ⟨hsaved, List.mem_range.1 hi⟩)
    · cases hi

namespace Tracked

theorem known_step (h : Tracked s a n w) (hchange : Change s a w.life m (w.life.step s.config m) a')
    (hi : i ∈ (w.step s.config m).covered) : i < (w.life.step s.config m).accepted.length := by
  have hlength := hchange.length_le
  rcases Watched.covered_step hi with hi | ⟨-, -, hlt⟩ | ⟨-, hi⟩
  · exact Nat.lt_of_lt_of_le (h.known i hi) hlength
  · exact hlt
  · exact Nat.lt_of_lt_of_le (Nat.lt_of_lt_of_le hi h.caught_le) hlength

theorem retained_step (h : Tracked s a n w)
    (hchange : Change s a w.life m (w.life.step s.config m) a') (hno : ∀ keep, m ≠ .crash keep)
    (hr : (w.life.step s.config m).accepted[i]? = some r) : a'.Retains r.key i := by
  rcases hchange.put hr with hr | ⟨-, -, hnew⟩
  · exact hchange.retains hno h.stands.site.journal.ascending h.tells (h.retained i r hr)
  · exact hnew

theorem recent_step (h : Tracked s a n w)
    (hchange : Change s a w.life m (w.life.step s.config m) a') (hno : ∀ keep, m ≠ .crash keep)
    (hi : (w.step s.config m).opened ≤ i)
    (hr : (w.life.step s.config m).accepted[i]? = some r) : a'.Held r.key i := by
  cases he : w.life.engine with
  | none =>
    -- Nothing has been accepted yet since the engine was opened.
    have hlt := (List.getElem?_eq_some_iff.1 hr).1
    simp only [Watched.step, he, Option.isNone_none, ↓reduceIte] at hi
    omega
  | some e =>
    simp only [Watched.step, he, Option.isNone_some, Bool.false_eq_true, ↓reduceIte] at hi
    rcases hchange.put hr with hr | ⟨-, hnew, -⟩
    · exact hchange.held hno he h.tells (h.recent e he i r hi hr)
    · exact hnew

theorem saving_step (h : Tracked s a n w)
    (hchange : Change s a w.life m (w.life.step s.config m) a') (hno : ∀ keep, m ≠ .crash keep)
    {p : Plan} {st : Stage} (hsaving : (w.life.step s.config m).saving = some (p, st))
    (hi : i < w.caught) (hr : (w.life.step s.config m).accepted[i]? = some r) :
    a'.Covers p.sequence r.key i := by
  have hr := hchange.old (Nat.lt_of_lt_of_le hi h.caught_le) hr
  rcases hchange.begun hsaving with ⟨st', hst'⟩ | ⟨hready, -, hlt, mood, progress, hpassed⟩
  · exact hchange.covers hno h.tells (h.stands.reached_plan hst')
      (h.covers (Or.inr ⟨p, st', hst', rfl⟩) hi hr)
  -- The files up to here are numbered below the new checkpoint, so it covers all that is there.
  · exact hpassed.covers hready h.tells (h.covers (Or.inl hlt) hi hr)

theorem covered_step (h : Tracked s a n w)
    (hchange : Change s a w.life m (w.life.step s.config m) a')
    (hloose : a'.newest.loose = []) (hi : i ∈ (w.step s.config m).covered)
    (hr : (w.life.step s.config m).accepted[i]? = some r) : a'.Secured r.key i := by
  rcases Watched.covered_step hi with hi | ⟨hsync, hopened, -⟩ | ⟨hsaved, hi⟩
  · exact hchange.secured h.tells (h.covered i r hi (hchange.old (h.known i hi) hr))
  · obtain ⟨hready, rfl, haccepted⟩ := hchange.synced hsync
    cases he : w.life.engine with
    | none => cases (syncs_of_closed he m).symm.trans hsync
    | some e => exact (h.recent e he i r hopened (haccepted ▸ hr)).synced hready
  · obtain ⟨hready, haccepted, mood, progress, k, hk, hpassed⟩ := hchange.ended hsaved
    have hcovers := h.covers (hpassed.ended k hk).2.2 hi (haccepted ▸ hr)
    exact (hpassed.covers hready h.tells hcovers).secured (hpassed.first k hk) hloose

end Tracked

theorem tracked_step (h : Tracked s a n w) (hn : n < FileName.sequenceBound) (hm : m.Fair)
    (hno : ∀ keep, m ≠ .crash keep) : ∃ a', Tracked s a' (n + 1) (w.step s.config m) := by
  obtain ⟨a', h', hchange⟩ := stands_change h.stands hn hm
  exact ⟨a',
    { stands := h'
      tells := hchange.told h.tells
      begun := Nat.le_trans h.caught_le hchange.length_le
      known := fun _ => h.known_step hchange
      retained := fun _ _ => h.retained_step hchange hno
      recent := fun _ _ _ _ => h.recent_step hchange hno
      saving := fun _ _ hsaving _ _ => h.saving_step hchange hno hsaving
      covered := fun _ _ => h.covered_step hchange h'.site.newest_loose }⟩

theorem tracked_watch {d : Disk} (hd : s.Vacant d) (moves : List Move) (hfair : ∀ m ∈ moves, m.Fair)
    (hcrash : ∀ m ∈ moves, ∀ keep, m ≠ .crash keep) (hn : moves.length ≤ FileName.sequenceBound) :
    ∃ a, Tracked s a moves.length (watch s.config d moves) := by
  induction moves using List.reverseRecOn with
  | nil =>
    have hbelow : Archive.Below {} 0 := ⟨nofun, nofun⟩
    have hstands : Stands s {} 0 { host := { disk := d } } :=
      ⟨hbelow, hd.on, nofun, fun _ => rfl, List.Pairwise.nil, nofun, nofun⟩
    exact ⟨{}, hstands, ⟨nofun, List.Pairwise.nil⟩, Nat.le_refl _, nofun, nofun, nofun, nofun,
      nofun⟩
  | append_singleton moves m ih =>
    rw [List.length_append, List.length_singleton] at hn ⊢
    obtain ⟨a, h⟩ := ih (fun x hx => hfair x (List.mem_append_left _ hx))
      (fun x hx => hcrash x (List.mem_append_left _ hx)) (by omega)
    have hmem : m ∈ moves ++ [m] := List.mem_append_right _ List.mem_cons_self
    rw [watch, List.foldl_append, List.foldl_cons, List.foldl_nil]
    exact tracked_step h (by omega) (hfair m hmem) (hcrash m hmem)

/-- What is permanent stays so in every run that goes on, crashes and openings included. -/
theorem secured_fold (h : Stands s a n l) (ht : a.Tells l.accepted) (moves : List Move)
    (hfair : ∀ m ∈ moves, m.Fair) (hn : n + moves.length ≤ FileName.sequenceBound) :
    ∃ a', Stands s a' (n + moves.length) (moves.foldl (step s.config) l) ∧
      a'.Tells (moves.foldl (step s.config) l).accepted ∧
      ∀ key i, a.Secured key i → a'.Secured key i := by
  induction moves generalizing a n l with
  | nil => exact ⟨a, h, ht, fun _ _ hs => hs⟩
  | cons m moves ih =>
    rw [List.length_cons] at hn ⊢
    obtain ⟨a₁, h₁, hchange⟩ := stands_change h (by omega) (hfair m List.mem_cons_self)
    obtain ⟨a', h', ht', hsecured⟩ := ih h₁ (hchange.told ht)
      (fun x hx => hfair x (List.mem_cons_of_mem _ hx)) (by omega)
    rw [Nat.add_right_comm] at h'
    exact ⟨a', h', ht', fun key i hs => hsecured key i (hchange.secured ht hs)⟩

theorem Stands.answers (h : Stands s a n l) (ht : a.Tells l.accepted) (hs : a.Secured key i)
    (he : l.engine = some e) : ∃ j r, i ≤ j ∧ l.accepted[j]? = some r ∧ r.key = key ∧
      Engine.get e key = .ok (some r.value) := by
  obtain ⟨x, hx, hle⟩ := hs.last ht
  obtain ⟨hmem, hkey⟩ := Write.last?_eq_some hx
  refine ⟨x.stamp, x.record, hle, ht.genuine x hmem, hkey, ?_⟩
  change Except.ok (e.index.get? key) = _
  rw [h.index he, Archive.get?_index, hx]
  rfl

theorem Latest.eq {rs : List Record} (h : Latest rs i r) {j : Nat} {r' : Record} (hij : i ≤ j)
    (hr : rs[j]? = some r') (hkey : r'.key = r.key) : r' = r := by
  rcases Nat.eq_or_lt_of_le hij with rfl | hlt
  · exact Option.some.inj (hr.symm.trans h.there)
  · exact absurd hkey (h.last j r' hlt hr)

theorem Tracked.latest (h : Tracked s a n w) (he : w.life.engine = some e) {value : Bytes}
    (hget : Engine.get e key = .ok (some value)) :
    ∃ i, Latest w.life.accepted i ⟨key, value⟩ := by
  change Except.ok (e.index.get? key) = _ at hget
  rw [h.stands.index he, Archive.get?_index, Except.ok.injEq, Option.map_eq_some_iff] at hget
  obtain ⟨x, hx, rfl⟩ := hget
  obtain ⟨hmem, rfl⟩ := Write.last?_eq_some hx
  refine ⟨x.stamp, h.tells.genuine x hmem, fun j r hj hr hkey => ?_⟩
  obtain ⟨y, hy, hykey, hle⟩ := h.retained j r hr
  have hlast := h.tells.ordered.le_last hy (x := x) (by rw [hykey, hkey]; exact hx)
  omega

theorem Tracked.lasting (h : Tracked s a n w) (hn : n + 2 ≤ FileName.sequenceBound)
    (hlatest : Latest w.life.accepted i r) (hs : a.Secured r.key i) :
    Lasting s n w.life i r := by
  refine ⟨?_, fun keep => ?_, fun moves hfair hmoves => ?_⟩
  · obtain ⟨x, hx, hkey, hle⟩ := hs
    have hgenuine := h.tells.genuine x (Archive.mem_writes_of_safe hx)
    rw [← hlatest.eq hle hgenuine hkey]
    exact h.stands.site.permanent hx
  · have hcut : w.life.step s.config (.crash keep) = w.life.fallen (w.life.host.disk.cut keep) := by
      cases he : w.life.engine <;> simp [step, he, operate]
    obtain ⟨g, hg, h₁⟩ := stands_crash h.stands keep
    have hlasts := Archive.lasts_cut hg
    obtain ⟨a₂, hreopen, h₂, haccepted, hcalm⟩ := stands_start h₁ rfl (by omega) []
    obtain ⟨e, he⟩ := hcalm rfl
    have ht := hlasts.tells _ h.tells
    have ht₂ := hreopen.lasts.tells _ ht
    have hs₂ := hreopen.lasts.secured _ ht _ _ (hlasts.secured _ h.tells _ _ hs)
    rw [hcut]
    refine ⟨e, he, ?_⟩
    obtain ⟨j, r', hle, hr', hkey, hget⟩ := h₂.answers (haccepted ▸ ht₂) hs₂ he
    rw [haccepted] at hr'
    rwa [hlatest.eq hle hr' hkey] at hget
  · rintro l' rfl e he
    obtain ⟨a', h', ht', hsecured⟩ := secured_fold h.stands h.tells moves hfair hmoves
    exact h'.answers ht' (hsecured _ _ hs) he

theorem engine_of_syncs (config : Config) {faults : List Fault}
    (hsync : l.syncs (.sync faults) = true) :
    ∃ e, (l.step config (.sync faults)).engine = some e := by
  cases he : l.engine with
  | none => cases (syncs_of_closed he _).symm.trans hsync
  | some e =>
    simp only [step, he, operate]
    split <;> exact ⟨_, rfl⟩

theorem Watched.mem_covered {config : Config} (hsync : w.life.syncs m = true)
    (hi : (w.step config m).opened ≤ i) (hlt : i < (w.step config m).life.accepted.length) :
    i ∈ (w.step config m).covered := by
  cases he : w.life.engine with
  | none => cases (syncs_of_closed he m).symm.trans hsync
  | some e =>
    simp only [step, he, Option.isNone_some, Bool.false_eq_true, ↓reduceIte] at hi hlt
    simp [step, hsync, hi, hlt]

/-- In every run of puts, syncs, checkpoints and restarts, whenever a sync answers well a readable
entry is permanent if it was put since the engine was opened, or if a good sync of the engine that
took it, or a good checkpoint, came after it. -/
theorem covered_run {d : Disk} (hd : s.Vacant d) (moves : List Move) (hfair : ∀ m ∈ moves, m.Fair)
    (hcrash : ∀ m ∈ moves, ∀ keep, m ≠ .crash keep) (hn : moves.length + 3 ≤ FileName.sequenceBound)
    (faults : List Fault) (hsync : (run s.config d moves).syncs (.sync faults) = true) :
    let w := watch s.config d (moves ++ [.sync faults])
    ∃ e, w.life.engine = some e ∧ ∀ key value, Engine.get e key = .ok (some value) →
      ∃ i, Latest w.life.accepted i ⟨key, value⟩ ∧
        (w.opened ≤ i ∨ i ∈ w.covered → Lasting s (moves.length + 1) w.life i ⟨key, value⟩) := by
  intro w
  have hw : w = (watch s.config d moves).step s.config (.sync faults) := by
    simp only [w, watch, List.foldl_append, List.foldl_cons, List.foldl_nil]
  have hgood : (watch s.config d moves).life.syncs (.sync faults) = true := by
    rwa [life_watch]
  obtain ⟨a, h⟩ := tracked_watch hd moves hfair hcrash (by omega)
  obtain ⟨a', h'⟩ := tracked_step h (by omega) (m := .sync faults) trivial (by simp)
  obtain ⟨e, he⟩ := engine_of_syncs s.config hgood
  rw [hw]
  refine ⟨e, he, fun key value hget => ?_⟩
  obtain ⟨i, hlatest⟩ := h'.latest he hget
  refine ⟨i, hlatest, fun hi => h'.lasting (by omega) hlatest (h'.covered i _ ?_ hlatest.there)⟩
  rcases hi with hopened | hcovered
  · exact Watched.mem_covered hgood hopened (List.getElem?_eq_some_iff.1 hlatest.there).1
  · exact hcovered

/-- One put that a sync of the engine before came after, and one that this engine has taken. -/
theorem covered_run_small :
    let moves : List Move := [.start [], .put ⟨1, 2⟩ [7] [], .sync [], .halt none, .start [],
      .put ⟨1, 3⟩ [8] []]
    let w := watch Site.small.config Site.smallDisk (moves ++ [.sync []])
    (∀ m ∈ moves, m.Fair) ∧ (∀ m ∈ moves, ∀ keep, m ≠ .crash keep) ∧
      (run Site.small.config Site.smallDisk moves).syncs (.sync []) = true ∧
      (∃ i, Lasting Site.small 7 w.life i ⟨⟨1, 2⟩, [7]⟩) ∧
      ∃ i, Lasting Site.small 7 w.life i ⟨⟨1, 3⟩, [8]⟩ := by
  intro moves w
  have hfair : ∀ m ∈ moves, m.Fair := by simp [moves, Move.Fair]
  have hcrash : ∀ m ∈ moves, ∀ keep, m ≠ .crash keep := by simp [moves]
  have hsync : (run Site.small.config Site.smallDisk moves).syncs (.sync []) = true := by
    decide +kernel
  obtain ⟨e, he, hall⟩ :=
    covered_run Site.small_vacant moves hfair hcrash (by decide) [] hsync
  have hcovered : ∀ i < w.life.accepted.length, i ∈ w.covered := by decide +kernel
  have hget : w.life.engine.map (fun e => (e.index.get? ⟨1, 2⟩, e.index.get? ⟨1, 3⟩)) =
      some (some [7], some [8]) := by decide +kernel
  rw [he, Option.map_some, Option.some.injEq, Prod.mk.injEq] at hget
  have hlasting : ∀ key value, e.index.get? key = some value →
      ∃ i, Lasting Site.small 7 w.life i ⟨key, value⟩ := by
    intro key value hvalue
    obtain ⟨i, hlatest, hi⟩ := hall key value (congrArg Except.ok hvalue)
    exact ⟨i, hi (Or.inr (hcovered i (List.getElem?_eq_some_iff.1 hlatest.there).1))⟩
  exact ⟨hfair, hcrash, hsync, hlasting _ _ hget.1, hlasting _ _ hget.2⟩

/-- The write of an engine before can be read when a sync answers well, but lies in a file that the
sync does not reach, and a crash takes it away. -/
theorem replayed_lost :
    let l := run Site.small.config Site.smallDisk
      [.start [], .put ⟨1, 2⟩ [7] [], .halt none, .start []]
    let l' := l.step Site.small.config (.sync [])
    l.syncs (.sync []) = true ∧
      (∃ e, l'.engine = some e ∧ Engine.get e ⟨1, 2⟩ = .ok (some [7])) ∧
      ¬ Site.small.Permanent l'.host.disk ⟨⟨1, 2⟩, [7]⟩ ∧
      ∃ e, ((l'.step Site.small.config (.crash fun _ => 0)).step Site.small.config
        (.start [])).engine = some e ∧ Engine.get e ⟨1, 2⟩ = .ok none := by
  intro l l'
  have hget : l'.engine.map (·.index.get? ⟨1, 2⟩) = some (some [7]) := by decide +kernel
  obtain ⟨e, he, hvalue⟩ := Option.map_eq_some_iff.1 hget
  have hsynced : ∀ f ∈ l'.host.disk.files, f.synced = 0 := by decide +kernel
  have hempty : ∀ f ∈ (l'.step Site.small.config (.crash fun _ => 0)).host.disk.files,
      f.bytes = [] := by decide +kernel
  have hsound : l'.host.disk.WellFormed := by
    obtain ⟨a, h, -⟩ := stands_run Site.small_vacant
      [.start [], .put ⟨1, 2⟩ [7] [], .halt none, .start [], .sync []]
      (by simp [Move.Fair]) (by decide)
    exact h.site.sound
  obtain ⟨a, h, -⟩ := stands_run Site.small_vacant
    [.start [], .put ⟨1, 2⟩ [7] [], .halt none, .start [], .sync [], .crash fun _ => 0]
    (by simp [Move.Fair]) (by decide)
  obtain ⟨a', hreopen, h', -, hcalm⟩ := stands_start h (by decide +kernel) (by decide) []
  obtain ⟨e', he'⟩ := hcalm rfl
  refine ⟨by decide +kernel, ⟨e, he, congrArg Except.ok hvalue⟩, ?_, e', he', ?_⟩
  · rintro ⟨place, f, front, rest, -, hf, -, hlength⟩
    have hzero := hsynced f (hsound.mem_files hf)
    have hpos := List.length_pos_of_ne_nil (Record.bytes_ne_nil ⟨⟨1, 2⟩, [7]⟩)
    rw [Record.written_append, Record.written_cons, Record.written_nil, List.append_nil,
      List.length_append] at hlength
    omega
  · change Except.ok (e'.index.get? _) = _
    rw [h'.index he', Archive.index, hreopen.writes, h.site.writes_nil hempty]
    rfl

end Life

end LedgerStore
