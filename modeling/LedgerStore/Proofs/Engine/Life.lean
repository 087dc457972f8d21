import LedgerStore.Proofs.Archive.Checkpoint

/-!
The life of an engine: runs of its operations, with faults at any call to the file system,
checkpoints whole or step by step between other operations, ends of the process, crashes of the
machine, and openings. An end between two calls of an operation leaves what a fault at the second
call and then the end leave. The main statement is that each move leads from an archive to an
archive.
-/

set_option autoImplicit false

namespace LedgerStore

/-- An operation on the engine, or an end of it. The faults are those of the operation's calls. -/
inductive Move
  | put (key : Key) (value : Bytes) (faults : List Fault)
  | sync (faults : List Fault)
  | save (part : Checkpoint.Part) (faults : List Fault)
  /-- The process ends. An unfinished checkpoint file may be left with other bytes. -/
  | halt (leftover : Option Bytes)
  | crash (keep : Nat → Nat)
  | start (faults : List Fault)

/-- What is asked of the operations: values are shorter than 2 ^ 31 bytes, and a call of a put that
fails has no effect. -/
def Move.Fair : Move → Prop
  | .put _ value faults => value.length < 2 ^ 31 ∧ ∀ f ∈ faults, ∀ kept reason, f ≠ .cut kept reason
  | _ => True

/-- What is asked of the operations under a limit on values: one that the limit admits has a length
that fits, and a call of a put that fails has no effect. -/
def Move.Fits (limit : Nat) : Move → Prop
  | .put key value faults => (value.length ≤ limit → (⟨key, value⟩ : Record).Fits) ∧
      ∀ f ∈ faults, ∀ kept reason, f ≠ .cut kept reason
  | _ => True

theorem Move.Fair.fits {m : Move} (h : m.Fair) (limit : Nat) : m.Fits limit := by
  cases m with
  | put key value faults => exact ⟨fun _ => .of_length h.1, h.2⟩
  | _ => trivial

/-- A machine, the engine that is open on it, and what has become of the operations so far. -/
structure Life where
  host : Host
  engine : Option EntryLog := none
  saving : Option (Checkpoint.Plan × Checkpoint.Stage) := none
  accepted : List Record := []
  saved : List Nat := []

def Checkpoint.Plan.spoil (p : Checkpoint.Plan) (leftover : Bytes) (d : Disk) : Disk :=
  match d.locate p.temporary with
  | .ok (.file id) => d.change id fun f => { f with bytes := leftover }
  | _ => d

namespace Life

open Checkpoint

def adopt (l : Life) (t : EntryLog × Host) : Life :=
  { l with engine := some t.1, host := t.2 }

def remains (l : Life) : Option Bytes → Disk
  | none => l.host.disk
  | some leftover =>
    match l.saving with
    | some (p, _) => p.spoil leftover l.host.disk
    | none => l.host.disk

def fallen (l : Life) (disk : Disk) : Life :=
  { l with host := { l.host with disk }, engine := none, saving := none }

def operate (l : Life) (e : EntryLog) : Move → Life
  | .put key value faults =>
    match EntryLog.put key value (e, l.host.facing faults) with
    | .ok () t => { l.adopt t with accepted := l.accepted ++ [⟨key, value⟩] }
    | .error _ t => l.adopt t
  | .sync faults =>
    match EntryLog.syncLog (e, l.host.facing faults) with
    | .ok () t => l.adopt t
    | .error _ t => l.adopt t
  | .save part faults =>
    let r := part.run l.saving (e, l.host.facing faults)
    { l.adopt r.state with saving := r.saving, saved := l.saved ++ r.ended.toList }
  | .halt leftover => l.fallen (l.remains leftover)
  | .crash keep => l.fallen (l.host.disk.cut keep)
  | .start _ => l

def step (config : Config) (l : Life) (m : Move) : Life :=
  match l.engine, m with
  | some e, m => l.operate e m
  | none, .start faults =>
    match EntryLog.start config (l.host.facing faults) with
    | .ok e host => l.adopt (e, host)
    | .error _ host => { l with host }
  | none, .crash keep => l.fallen (l.host.disk.cut keep)
  | none, _ => l

def run (config : Config) (d : Disk) (moves : List Move) : Life :=
  moves.foldl (step config) { host := { disk := d } }

theorem run_concat (config : Config) (d : Disk) (moves : List Move) (m : Move) :
    run config d (moves ++ [m]) = (run config d moves).step config m := by
  rw [run, List.foldl_append]
  rfl

theorem accepted_operate (l : Life) (e : EntryLog) {m : Move}
    (hm : ∀ key value faults, m ≠ .put key value faults) :
    (l.operate e m).accepted = l.accepted := by
  cases m with
  | put key value faults => exact absurd rfl (hm key value faults)
  | sync faults => simp only [operate]; split <;> rfl
  | save part faults => rfl
  | halt leftover => rfl
  | crash keep => rfl
  | start faults => rfl

/-- What is known of a life after `n` moves: its files say what an archive says, and an open engine
works on that archive. -/
structure Stands (s : Site) (a : Archive) (n : Nat) (l : Life) : Prop where
  below : a.Below n
  site : a.On s l.host.disk
  engine : ∀ e, l.engine = some e → ∀ faults,
    EntryLog.Busy (· ∈ faults) s a l.saving (e, l.host.facing faults)
  idle : l.engine = none → l.saving = none
  increasing : l.saved.Pairwise (· < ·)
  reached : ∀ k ∈ l.saved, ∃ v ∈ a.journal, k ≤ v.sequence
  pending : ∀ p st, l.saving = some (p, st) → ∀ k ∈ l.saved, k < p.sequence

variable {s : Site} {a a' : Archive} {n : Nat} {l : Life} {e : EntryLog}

theorem Stands.reached_of (h : Stands s a n l) (hrises : a.Rises a') :
    ∀ k ∈ l.saved, ∃ v ∈ a'.journal, k ≤ v.sequence := by
  intro k hk
  obtain ⟨v, hv, hle⟩ := h.reached k hk
  obtain ⟨v', hv', hle'⟩ := hrises v hv
  exact ⟨v', hv', Nat.le_trans hle hle'⟩

theorem Stands.succ (h : Stands s a n l) : Stands s a (n + 1) l :=
  ⟨h.below.succ, h.site, h.engine, h.idle, h.increasing, h.reached, h.pending⟩

theorem Stands.adopt (h : Stands s a n l) (hbelow : a'.Below (n + 1)) (hrises : a.Rises a')
    {mood : Mood} {t : EntryLog × Host} {accepted : List Record}
    (ht : EntryLog.Busy mood s a' l.saving t) :
    Stands s a' (n + 1) { l.adopt t with accepted } where
  below := hbelow
  site := ht.works.disk.1.writer.on
  engine := by
    rintro e ⟨⟩ faults
    exact ht.facing rfl rfl faults
  idle := nofun
  increasing := h.increasing
  reached := h.reached_of hrises
  pending := h.pending

theorem Stands.ready (h : Stands s a n l) (he : l.engine = some e) : a.Open :=
  (h.engine e he []).ready

theorem Stands.current_lt (h : Stands s a n l) (he : l.engine = some e) :
    a.current.sequence < n :=
  h.below.journal _ (h.ready he).mem

theorem Stands.rises_turn (h : Stands s a n l) (he : l.engine = some e) (hturn : a.Turn a') :
    a.Rises a' :=
  Archive.rises_of_current h.site.journal.ascending (hturn.stays_open (h.ready he))
    hturn.current_le

theorem put_turn (h : Stands s a n l) (he : l.engine = some e)
    (hn : n < FileName.sequenceBound) {key : Key} {value : Bytes} {faults : List Fault}
    (hm : (Move.put key value faults).Fits s.config.maxValueSize) :
    ∃ a', a.Turn a' ∧
      ((l.operate e (.put key value faults)).accepted = l.accepted ++ [⟨key, value⟩] ∧
          Stands s (a'.add ⟨l.accepted.length, ⟨key, value⟩⟩) (n + 1)
            (l.operate e (.put key value faults)) ∨
        (l.operate e (.put key value faults)).accepted = l.accepted ∧
          Stands s a' (n + 1) (l.operate e (.put key value faults)) ∧
          (faults = [] → s.config.maxValueSize < value.length)) := by
  have hcur := h.current_lt he
  have hready := h.ready he
  have hrun := EntryLog.busy_put hm.2 hm.1 (by omega) l.accepted.length _ (h.engine e he faults)
  rw [operate]
  revert hrun
  cases EntryLog.put key value (e, l.host.facing faults) with
  | ok u t =>
    rintro ⟨a', hturn, ht⟩
    have hopen := hturn.stays_open hready
    refine ⟨a', hturn, Or.inl ⟨rfl, h.adopt ?_ ?_ ht⟩⟩
    · exact (hturn.below hready h.below).amend hopen rfl
    · refine Archive.rises_of_current h.site.journal.ascending (hopen.add _) ?_
      rw [Archive.add, Archive.current_amend]
      exact hturn.current_le
  | error cause t =>
    rintro ⟨a', hturn, ht, hcalm⟩
    refine ⟨a', hturn, Or.inr ⟨rfl, h.adopt (hturn.below hready h.below) (h.rises_turn he hturn) ht,
      ?_⟩⟩
    rintro rfl
    exact hcalm Mood.calm_nil

/-- A put that answers well enters its record, and any other changes no answer. -/
theorem stands_put (h : Stands s a n l) (he : l.engine = some e)
    (hn : n < FileName.sequenceBound) {key : Key} {value : Bytes} {faults : List Fault}
    (hm : (Move.put key value faults).Fair) :
    ∃ a', Stands s a' (n + 1) (l.operate e (.put key value faults)) ∧
      ((l.operate e (.put key value faults)).accepted = l.accepted ++ [⟨key, value⟩] ∧
          a'.index = a.index.insert key value ∨
        (l.operate e (.put key value faults)).accepted = l.accepted ∧ a'.index = a.index ∧
          (faults = [] → s.config.maxValueSize < value.length)) := by
  have hready := h.ready he
  obtain ⟨a', hturn, ⟨haccepted, h'⟩ | ⟨haccepted, h', hrefused⟩⟩ :=
    put_turn h he hn (hm.fits _)
  · refine ⟨_, h', Or.inl ⟨haccepted, ?_⟩⟩
    rw [(hturn.stays_open hready).index_add, hturn.index hready]
  · exact ⟨a', h', Or.inr ⟨haccepted, hturn.index hready, hrefused⟩⟩

def syncs (l : Life) (m : Move) : Bool :=
  match l.engine, m with
  | some e, .sync faults =>
    match EntryLog.syncLog (e, l.host.facing faults) with
    | .ok () _ => true
    | .error _ _ => false
  | _, _ => false

theorem sync_turn (h : Stands s a n l) (he : l.engine = some e) (faults : List Fault) :
    ∃ a', a.Turn a' ∧ Stands s a' (n + 1) (l.operate e (.sync faults)) ∧
      (l.syncs (.sync faults) = true → a' = a.synced) := by
  have hready := h.ready he
  have hrun := EntryLog.busy_sync _ (h.engine e he faults)
  simp only [operate, syncs, he]
  revert hrun
  cases EntryLog.syncLog (e, l.host.facing faults) with
  | ok u t =>
    intro ht
    exact ⟨a.synced, .sync, h.adopt (Archive.Turn.sync.below hready h.below)
      (h.rises_turn he .sync) ht, fun _ => rfl⟩
  | error cause t =>
    rintro ⟨ht, -⟩
    exact ⟨a, .stay, h.adopt h.below.succ (h.rises_turn he .stay) ht, by simp⟩

theorem Stands.saved_le (h : Stands s a n l) : ∀ k ∈ l.saved, k ≤ a.current.sequence := by
  intro k hk
  obtain ⟨v, hv, hle⟩ := h.reached k hk
  exact Nat.le_trans hle (Archive.le_current h.site.journal.ascending hv)

theorem save_passed (h : Stands s a n l) (he : l.engine = some e)
    (hn : n < FileName.sequenceBound) (part : Part) (faults : List Fault) :
    ∃ a', EntryLog.Passed (· ∈ faults) s a l.saving
        (part.run l.saving (e, l.host.facing faults)) a' ∧
      Stands s a' (n + 1) (l.operate e (.save part faults)) := by
  have hcur := h.current_lt he
  have hready := h.ready he
  obtain ⟨a', hpassed⟩ := EntryLog.busy_part (h.engine e he faults) (by omega) part
  obtain ⟨a₁, hturn, hsame⟩ := hpassed.through
  have hrises : a.Rises a' :=
    Archive.rises_of_current h.site.journal.ascending hpassed.busy.ready
      (hsame.current ▸ hturn.current_le)
  have hnew : ∀ k, a.current.sequence < k ∨ (∃ p st, l.saving = some (p, st) ∧ k = p.sequence) →
      ∀ i ∈ l.saved, i < k := by
    rintro k (hlt | ⟨p, st, hst, rfl⟩) i hi
    · exact Nat.lt_of_le_of_lt (h.saved_le i hi) hlt
    · exact h.pending p st hst i hi
  refine ⟨a', hpassed, hsame.below _ (hturn.below hready h.below),
    hpassed.busy.works.disk.1.writer.on, ?_, nofun, ?_, ?_, ?_⟩
  · rintro e ⟨⟩ faults
    exact hpassed.busy.facing rfl rfl faults
  · refine List.pairwise_append.2 ⟨h.increasing, ?_, fun i hi k hk => ?_⟩
    · cases (part.run l.saving (e, l.host.facing faults)).ended <;> simp
    · exact hnew k (hpassed.ended k (by simpa using hk)).2.2 i hi
  · intro k hk
    rcases List.mem_append.1 hk with hk | hk
    · exact h.reached_of hrises k hk
    · exact ⟨a'.current, hpassed.busy.ready.mem, (hpassed.ended k (by simpa using hk)).2.1⟩
  · intro p st hst k hk
    rcases List.mem_append.1 hk with hk | hk
    · refine hnew p.sequence ?_ k hk
      exact (hpassed.begun p st hst).imp_right fun ⟨st', hst'⟩ => ⟨p, st', hst', rfl⟩
    · cases hst.symm.trans (hpassed.ended k (by simpa using hk)).1

/-- A part of a checkpoint changes no answer, whether it ends well or not. -/
theorem stands_save (h : Stands s a n l) (he : l.engine = some e)
    (hn : n < FileName.sequenceBound) (part : Part) (faults : List Fault) :
    ∃ a', Stands s a' (n + 1) (l.operate e (.save part faults)) ∧ a'.index = a.index := by
  obtain ⟨a', hpassed, h'⟩ := save_passed h he hn part faults
  exact ⟨a', h', hpassed.index (h.ready he)⟩

theorem Stands.fallen (h : Stands s a n l) {disk : Disk} (hbelow : a'.Below (n + 1))
    (hrises : a.Rises a') (hon : a'.On s disk) : Stands s a' (n + 1) (l.fallen disk) where
  below := hbelow
  site := hon
  engine := nofun
  idle _ := rfl
  increasing := h.increasing
  reached := h.reached_of hrises
  pending := nofun

theorem Stands.on_spoil (hon : a.On s l.host.disk) {p : Plan} (hp : p.For s a)
    (leftover : Bytes) : a.On s (p.spoil leftover l.host.disk) := by
  rw [Plan.spoil]
  split
  · next id hid =>
    rw [hp.temporary, hon.data.locate_div] at hid
    exact hon.change_elsewhere (s.elsewhere_temporaryPlace _) hid _
  · exact hon

theorem stands_halt (h : Stands s a n l) (he : l.engine = some e) (leftover : Option Bytes) :
    Stands s a (n + 1) (l.operate e (.halt leftover)) := by
  have hbusy := h.engine e he []
  refine h.fallen h.below.succ (h.rises_turn he .stay) ?_
  cases leftover with
  | none => exact h.site
  | some bytes =>
    cases hs : l.saving with
    | none =>
      simp only [remains, hs]
      exact h.site
    | some x =>
      rw [hs] at hbusy
      simp only [remains, hs]
      exact Stands.on_spoil h.site hbusy.awaits.1 bytes

theorem stands_crash (h : Stands s a n l) (keep : Nat → Nat) :
    ∃ g : Volume → Volume, (∀ v ∈ a.journal, v.Cut (g v)) ∧
      Stands s (a.cut g) (n + 1) (l.fallen (l.host.disk.cut keep)) := by
  obtain ⟨g, hg, hon⟩ := h.site.cut keep
  exact ⟨g, hg, h.fallen (h.below.cut hg).succ (Archive.rises_cut hg) hon⟩

theorem stands_start (h : Stands s a n l) (he : l.engine = none)
    (hn : n < FileName.sequenceBound) (faults : List Fault) :
    ∃ a', a.Reopen a' ∧ Stands s a' (n + 1) (l.step s.config (.start faults)) ∧
      (l.step s.config (.start faults)).accepted = l.accepted ∧
      (faults = [] → ∃ e, (l.step s.config (.start faults)).engine = some e) := by
  have hs := h.idle he
  have hrun := EntryLog.busy_start h.below hn _ (Host.holds_facing h.site faults)
  simp only [step, he]
  revert hrun
  cases EntryLog.start s.config (l.host.facing faults) with
  | ok e host =>
    rintro ⟨a', hreopen, ht⟩
    refine ⟨a', hreopen, ⟨hreopen.below h.below, ht.works.disk.1.writer.on, ?_, nofun, h.increasing,
      h.reached_of hreopen.rises, h.pending⟩, rfl, fun _ => ⟨e, rfl⟩⟩
    rintro e ⟨⟩ faults
    change EntryLog.Busy _ s a' l.saving _
    rw [hs]
    exact ht.facing rfl rfl faults
  | error cause host =>
    rintro ⟨a', hreopen, ht⟩
    refine ⟨a', hreopen, ⟨hreopen.below h.below, ht.1.disk, ?_, fun _ => hs, h.increasing,
      h.reached_of hreopen.rises, h.pending⟩, rfl, ?_⟩
    · exact nofun
    · rintro rfl
      exact absurd Mood.calm_nil ht.2

theorem Stands.index (h : Stands s a n l) (he : l.engine = some e) : e.index = a.index :=
  (h.engine e he []).works.disk.1.index

structure Quiet (l l' : Life) : Prop where
  accepted : l'.accepted = l.accepted
  saved : l'.saved = l.saved
  saving : ∀ x, l'.saving = some x → l.saving = some x

inductive Change (s : Site) (a : Archive) (l : Life) (m : Move) (l' : Life) : Archive → Prop
  | idle (quiet : l.Quiet l') (sync : l.syncs m = false) : Change s a l m l' a
  | turn {a' : Archive} (ready : a.Open) (turn : a.Turn a') (quiet : l.Quiet l')
      (sync : l.syncs m = true → a' = a.synced) : Change s a l m l' a'
  | write {a' : Archive} (ready : a.Open) (turn : a.Turn a') (r : Record)
      (accepted : l'.accepted = l.accepted ++ [r]) (saved : l'.saved = l.saved)
      (saving : l'.saving = l.saving) (sync : l.syncs m = false) :
      Change s a l m l' (a'.add ⟨l.accepted.length, r⟩)
  | save {a' : Archive} {mood : Mood} (ready : a.Open) (r : Progress)
      (passed : EntryLog.Passed mood s a l.saving r a') (accepted : l'.accepted = l.accepted)
      (saved : l'.saved = l.saved ++ r.ended.toList) (saving : l'.saving = r.saving)
      (sync : l.syncs m = false) : Change s a l m l' a'
  | reopen {a' : Archive} (closed : l.engine = none) (reopen : a.Reopen a') (quiet : l.Quiet l')
      (sync : l.syncs m = false) : Change s a l m l' a'
  | cut (keep : Nat → Nat) (crash : m = .crash keep) (g : Volume → Volume)
      (cut : ∀ v ∈ a.journal, v.Cut (g v)) (quiet : l.Quiet l') (sync : l.syncs m = false) :
      Change s a l m l' (a.cut g)

theorem Quiet.refl (l : Life) : l.Quiet l :=
  ⟨rfl, rfl, fun _ h => h⟩

theorem quiet_fallen (l : Life) (disk : Disk) : l.Quiet (l.fallen disk) :=
  ⟨rfl, rfl, nofun⟩

theorem syncs_of_closed (he : l.engine = none) (m : Move) : l.syncs m = false := by
  simp [syncs, he]

theorem stands_moved (h : Stands s a n l) (hn : n < FileName.sequenceBound) {m : Move}
    (hm : m.Fits s.config.maxValueSize) :
    ∃ a', Stands s a' (n + 1) (l.step s.config m) ∧ Change s a l m (l.step s.config m) a' := by
  cases he : l.engine with
  | none =>
    have hsync := syncs_of_closed he m
    cases m with
    | start faults =>
      obtain ⟨a', hreopen, h', haccepted, -⟩ := stands_start h he hn faults
      refine ⟨a', h', .reopen he hreopen ⟨haccepted, ?_, ?_⟩ hsync⟩
      · simp only [step, he]
        split <;> rfl
      · simp only [step, he]
        split <;> exact fun _ hx => hx
    | crash keep =>
      obtain ⟨g, hg, h'⟩ := stands_crash h keep
      simp only [step, he]
      exact ⟨a.cut g, h', .cut keep rfl g hg (quiet_fallen l _) hsync⟩
    | _ =>
      simp only [step, he]
      exact ⟨a, h.succ, .idle (.refl l) hsync⟩
  | some e =>
    have hready := h.ready he
    simp only [step, he]
    cases m with
    | put key value faults =>
      have hsync : l.syncs (.put key value faults) = false := by simp [syncs, he]
      have hsaved : (l.operate e (.put key value faults)).saved = l.saved := by
        simp only [operate]
        split <;> rfl
      have hsaving : (l.operate e (.put key value faults)).saving = l.saving := by
        simp only [operate]
        split <;> rfl
      obtain ⟨a', hturn, ⟨haccepted, h'⟩ | ⟨haccepted, h', -⟩⟩ := put_turn h he hn hm
      · exact ⟨_, h', .write hready hturn _ haccepted hsaved hsaving hsync⟩
      · exact ⟨a', h', .turn hready hturn ⟨haccepted, hsaved, by simp [hsaving]⟩ (by simp [hsync])⟩
    | sync faults =>
      obtain ⟨a', hturn, h', hsync⟩ := sync_turn h he faults
      refine ⟨a', h', .turn hready hturn ⟨accepted_operate l e (by simp), ?_, ?_⟩ hsync⟩
      · simp only [operate]
        split <;> rfl
      · simp only [operate]
        split <;> exact fun _ hx => hx
    | save part faults =>
      obtain ⟨a', hpassed, h'⟩ := save_passed h he hn part faults
      exact ⟨a', h', .save hready _ hpassed rfl rfl rfl (by simp [syncs, he])⟩
    | halt leftover =>
      exact ⟨a, stands_halt h he leftover, .idle (quiet_fallen l _) (by simp [syncs, he])⟩
    | crash keep =>
      obtain ⟨g, hg, h'⟩ := stands_crash h keep
      exact ⟨a.cut g, h', .cut keep rfl g hg (quiet_fallen l _) (by simp [syncs, he])⟩
    | start faults => exact ⟨a, h.succ, .idle (.refl l) (by simp [syncs, he])⟩

theorem stands_change (h : Stands s a n l) (hn : n < FileName.sequenceBound) {m : Move}
    (hm : m.Fair) :
    ∃ a', Stands s a' (n + 1) (l.step s.config m) ∧ Change s a l m (l.step s.config m) a' :=
  stands_moved h hn (hm.fits _)

theorem Change.index {m : Move} {l' : Life} (h : Change s a l m l' a')
    (hno : ∀ keep, m ≠ .crash keep) (hindex : a.index = Index.replay {} l.accepted) :
    a'.index = Index.replay {} l'.accepted := by
  cases h with
  | idle quiet => rw [quiet.accepted, hindex]
  | turn ready turn quiet => rw [quiet.accepted, turn.index ready, hindex]
  | write ready turn r accepted =>
    rw [accepted, (turn.stays_open ready).index_add, turn.index ready, hindex, Index.replay_append]
    rfl
  | save ready r passed accepted => rw [accepted, passed.index ready, hindex]
  | reopen closed reopen quiet =>
    rw [quiet.accepted, ← hindex, Archive.index, Archive.index, reopen.writes]
  | cut keep crash => exact absurd crash (hno keep)

/-- A run leads from no files to an archive. If there is no crash in it, the index of the archive is
that of the accepted puts. -/
theorem stands_fitting {d : Disk} (hd : s.Vacant d) (moves : List Move)
    (hfits : ∀ m ∈ moves, m.Fits s.config.maxValueSize)
    (hn : moves.length ≤ FileName.sequenceBound) :
    ∃ a, Stands s a moves.length (run s.config d moves) ∧
      ((∀ m ∈ moves, ∀ keep, m ≠ .crash keep) →
        a.index = Index.replay {} (run s.config d moves).accepted) := by
  -- The moves are taken off at the end: the archive after all but the last carries the run.
  induction moves using List.reverseRecOn with
  | nil =>
    have hbelow : Archive.Below {} 0 := ⟨nofun, nofun⟩
    exact ⟨{}, ⟨hbelow, hd.on, nofun, fun _ => rfl, List.Pairwise.nil, nofun, nofun⟩, fun _ => rfl⟩
  | append_singleton moves m ih =>
    rw [List.length_append, List.length_singleton] at hn ⊢
    obtain ⟨a, h, hindex⟩ := ih (fun x hx => hfits x (List.mem_append_left _ hx)) (by omega)
    have hmem : m ∈ moves ++ [m] := List.mem_append_right _ List.mem_cons_self
    obtain ⟨a', h', hchange⟩ := stands_moved h (by omega) (hfits m hmem)
    rw [run_concat]
    refine ⟨a', h', fun hno => hchange.index (hno m hmem) ?_⟩
    exact hindex fun x hx => hno x (List.mem_append_left _ hx)

theorem stands_run {d : Disk} (hd : s.Vacant d) (moves : List Move) (hfair : ∀ m ∈ moves, m.Fair)
    (hn : moves.length ≤ FileName.sequenceBound) :
    ∃ a, Stands s a moves.length (run s.config d moves) ∧
      ((∀ m ∈ moves, ∀ keep, m ≠ .crash keep) →
        a.index = Index.replay {} (run s.config d moves).accepted) :=
  stands_fitting hd moves (fun m hm => (hfair m hm).fits _) hn

end Life

end LedgerStore
