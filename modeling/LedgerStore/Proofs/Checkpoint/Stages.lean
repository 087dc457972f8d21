import LedgerStore.Engine.EntryLog
import LedgerStore.Proofs.Host

/-!
Saving a checkpoint step by step. Each step makes at most one call to the file system, so that the
steps show every point at which saving can stop. The main statements say that the steps, one after
the other, are the engine's checkpoint after its journal rolled, and that they come to an end.
-/

set_option autoImplicit false

namespace LedgerStore.Checkpoint

/-- What a checkpoint is to save, as the engine fixes it when its journal has rolled. -/
structure Plan where
  dataDir : Path
  journalDir : Path
  sequence : Nat
  records : List Record

inductive Stage
  | create
  | write (handle : Handle) (buffer : Bytes) (rest : List Record)
  | accept (handle : Handle) (bs : Bytes) (rest : List Record)
  | sync (handle : Handle)
  | publish
  | openDirectory
  | syncDirectory
  | listJournals
  | trim (names : List String) (removed : Nat)
  | listCheckpoints (journals : Nat)
  | discard (names : List String) (journals removed : Nat)

namespace Plan

def temporary (p : Plan) : Path :=
  p.dataDir / temporaryName p.sequence

def final (p : Plan) : Path :=
  p.dataDir / fileName.render p.sequence

def line (p : Plan) (journals checkpoints : Nat) : LogLine :=
  ⟨.info, s!"event=checkpoint_written sequence={p.sequence} " ++
    s!"entries={p.records.length} journals_removed={journals} checkpoints_removed={checkpoints}"⟩

/-- The next step, after which saving may be finished. A directory can list its names in any order;
`pick` is the place among those left of the next name that is discarded. -/
def step (p : Plan) (pick : Nat) : Stage → Action Host (Option Stage)
  | .create => do
    let handle ← (Host.openFresh p.temporary).during p.temporary "failed to create checkpoint file"
    return some (.write handle [] p.records)
  | .write handle buffer [] => do
    (flush handle buffer).during p.temporary "checkpoint flush failed"
    return some (.sync handle)
  | .write handle buffer (r :: rest) =>
    if r.bytes.length < bufferSize - buffer.length then
      return some (.write handle (buffer ++ r.bytes) rest)
    else if r.bytes.length = bufferSize - buffer.length then do
      let buffer ← (accept handle buffer r.bytes).during p.temporary "checkpoint write failed"
      return some (.write handle buffer rest)
    else do
      (flush handle buffer).during p.temporary "checkpoint write failed"
      return some (.accept handle r.bytes rest)
  | .accept handle bs rest => do
    let buffer ← (accept handle [] bs).during p.temporary "checkpoint write failed"
    return some (.write handle buffer rest)
  | .sync handle => do
    (Host.sync handle).during p.temporary "checkpoint sync failed"
    return some .publish
  | .publish => do
    (Host.rename p.temporary p.final).during p.final "failed to publish checkpoint"
    return some .openDirectory
  | .openDirectory => do
    (Host.openDirectory p.dataDir).during p.dataDir "failed to open directory for sync"
    return some .syncDirectory
  | .syncDirectory => do
    Host.syncDirectory.during p.dataDir "directory sync failed"
    return some .listJournals
  | .listJournals => do
    let files ← Journal.list p.journalDir
    return some (.trim ((files.takeWhile fun file => file.1 < p.sequence).map (·.2)) 0)
  | .trim [] removed => return some (.listCheckpoints removed)
  | .trim (name :: rest) removed => do
    (Host.remove (p.journalDir / name)).during (p.journalDir / name) "failed to remove journal file"
    return some (.trim rest (removed + 1))
  | .listCheckpoints journals => do
    let names ← (Host.list p.dataDir).during p.dataDir "failed to read data directory"
    return some (.discard (names.filter (stale p.sequence)) journals 0)
  | .discard [] journals removed => do
    Action.note (p.line journals removed)
    return none
  | .discard (first :: rest) journals removed => do
    let name := (first :: rest).getD pick first
    (Host.remove (p.dataDir / name)).during (p.dataDir / name) "failed to remove checkpoint"
    return some (.discard ((first :: rest).erase name) journals (removed + 1))

def clean (p : Plan) (journals : Nat) : Action Host Nat := do
  let checkpoints ← removeStale p.dataDir p.sequence
  Action.note (p.line journals checkpoints)
  return p.sequence

def tidy (p : Plan) : Action Host Nat := do
  let journals ← Journal.removeBefore p.journalDir p.sequence
  p.clean journals

def release (p : Plan) : Action Host Nat := do
  (Host.rename p.temporary p.final).during p.final "failed to publish checkpoint"
  syncDirectory p.dataDir
  p.tidy

def fill (p : Plan) (handle : Handle) (buffer : Bytes) (records : List Record) :
    Action Host Nat := do
  let buffer ← writeAll handle p.temporary buffer records
  (flush handle buffer).during p.temporary "checkpoint flush failed"
  (Host.sync handle).during p.temporary "checkpoint sync failed"
  p.release

def rest (p : Plan) : Stage → Action Host Nat
  | .create => do
    let handle ← (Host.openFresh p.temporary).during p.temporary "failed to create checkpoint file"
    p.fill handle [] p.records
  | .write handle buffer records => p.fill handle buffer records
  | .accept handle bs records => do
    let buffer ← (accept handle [] bs).during p.temporary "checkpoint write failed"
    p.fill handle buffer records
  | .sync handle => do
    (Host.sync handle).during p.temporary "checkpoint sync failed"
    p.release
  | .publish => p.release
  | .openDirectory => do
    syncDirectory p.dataDir
    p.tidy
  | .syncDirectory => do
    Host.syncDirectory.during p.dataDir "directory sync failed"
    p.tidy
  | .listJournals => p.tidy
  | .trim names removed => do
    let more ← Journal.removeAll p.journalDir "failed to remove journal file" names
    p.clean (removed + more)
  | .listCheckpoints journals => p.clean journals
  | .discard names journals removed => do
    let more ← Journal.removeAll p.dataDir "failed to remove checkpoint" names
    Action.note (p.line journals (removed + more))
    return p.sequence

def resume (p : Plan) : Option Stage → Action Host Nat
  | some st => p.rest st
  | none => return p.sequence

theorem during_pure {α : Type} (a : α) (path : Path) (what : String) :
    (pure a : Call α).during path what = pure a := rfl

theorem during_bind {α β : Type} (c : Call α) (next : α → Call β) (path : Path) (what : String) :
    (c >>= next).during path what = c.during path what >>= fun a => (next a).during path what := by
  funext h
  change Call.during (EStateM.bind c next) path what h =
    EStateM.bind (c.during path what) (fun a => (next a).during path what) h
  rw [Call.during, EStateM.bind, EStateM.bind, Call.during]
  cases c h <;> rfl

/-- What is left to do at a stage is a step and what is left to do after it. -/
theorem rest_step (p : Plan) (st : Stage) : p.rest st = p.step 0 st >>= p.resume := by
  cases st with
  | create => simp only [rest, step, resume, bind_assoc, pure_bind]
  | write handle buffer records =>
    cases records with
    | nil => simp only [rest, step, resume, fill, writeAll, bind_assoc, pure_bind]
    | cons r records =>
      simp only [rest, step, fill, writeAll, gather]
      split
      · simp only [during_pure, resume, rest, fill, pure_bind]
      · split
        · simp only [resume, rest, fill, bind_assoc, pure_bind]
        · simp only [during_bind, resume, rest, fill, bind_assoc, pure_bind]
  | accept handle bs records => simp only [rest, step, resume, bind_assoc, pure_bind]
  | sync handle => simp only [rest, step, resume, bind_assoc, pure_bind]
  | publish => simp only [rest, step, resume, release, bind_assoc, pure_bind]
  | openDirectory => simp only [rest, step, resume, syncDirectory, bind_assoc, pure_bind]
  | syncDirectory => simp only [rest, step, resume, bind_assoc, pure_bind]
  | listJournals =>
    simp only [rest, step, resume, tidy, Journal.removeBefore, bind_assoc, pure_bind, Nat.zero_add]
  | trim names removed =>
    cases names with
    | nil => simp only [rest, step, resume, Journal.removeAll, pure_bind, Nat.add_zero]
    | cons name names =>
      simp only [rest, step, resume, Journal.removeAll, bind_assoc, pure_bind, Nat.add_assoc,
        Nat.add_comm 1]
  | listCheckpoints journals =>
    simp only [rest, step, resume, clean, removeStale, bind_assoc, pure_bind, Nat.zero_add]
  | discard names journals removed =>
    cases names with
    | nil =>
      simp only [rest, step, resume, Journal.removeAll, bind_assoc, pure_bind, Nat.add_zero]
    | cons name names =>
      simp only [rest, step, resume, Journal.removeAll, bind_assoc, pure_bind, Nat.add_assoc,
        Nat.add_comm 1, List.getD_cons_zero, List.erase_cons_head]

end Plan

/-- How far saving is from its end: first by the stage, then by the list that it works on. -/
def Stage.distance : Stage → Nat × Nat
  | .create => (9, 0)
  | .write _ _ rest => (8, 2 * rest.length)
  | .accept _ _ rest => (8, 2 * rest.length + 1)
  | .sync _ => (7, 0)
  | .publish => (6, 0)
  | .openDirectory => (5, 0)
  | .syncDirectory => (4, 0)
  | .listJournals => (3, 0)
  | .trim names _ => (2, names.length)
  | .listCheckpoints _ => (1, 0)
  | .discard names _ _ => (0, names.length)

def Stage.Nearer (st st' : Stage) : Prop :=
  Prod.Lex (· < ·) (· < ·) st.distance st'.distance

theorem Stage.Nearer.of_fst {st st' : Stage} (h : st.distance.1 < st'.distance.1) :
    ∀ x, some st = some x → x.Nearer st' := by
  rintro _ ⟨⟩
  exact Prod.lex_def.2 (Or.inl h)

theorem Stage.Nearer.of_snd {st st' : Stage} (h : st.distance.1 = st'.distance.1)
    (h' : st.distance.2 < st'.distance.2) : ∀ x, some st = some x → x.Nearer st' := by
  rintro _ ⟨⟩
  exact Prod.lex_def.2 (Or.inr ⟨h, h'⟩)

theorem Stage.picked_mem (pick : Nat) (name : String) (names : List String) :
    (name :: names).getD pick name ∈ name :: names := by
  rw [List.getD_eq_getElem?_getD]
  cases h : (name :: names)[pick]? with
  | none => exact List.mem_cons_self
  | some other => exact List.mem_of_getElem? h

theorem Stage.nearer_wellFounded : WellFounded Stage.Nearer :=
  InvImage.wf Stage.distance (Prod.lex ⟨_, Nat.lt_wfRel.wf⟩ ⟨_, Nat.lt_wfRel.wf⟩).wf

namespace Plan

/-- Every step brings saving nearer to its end. -/
theorem nearer_step (p : Plan) (pick : Nat) (st : Stage) :
    Ensures (fun _ => True) (p.step pick st)
      (fun next _ => ∀ st', next = some st' → st'.Nearer st) (fun _ => True) := by
  cases st with
  | create => exact Ensures.answer fun _ => .of_fst (by simp [Stage.distance])
  | write handle buffer records =>
    cases records with
    | nil => exact Ensures.answer fun _ => .of_fst (by simp [Stage.distance])
    | cons r records =>
      simp only [step]
      split
      · exact Ensures.pure fun _ _ => .of_snd rfl (by simp [Stage.distance])
      · split
        · exact Ensures.answer fun _ => .of_snd rfl (by simp [Stage.distance])
        · refine Ensures.answer fun _ => .of_snd rfl ?_
          simp only [Stage.distance, List.length_cons]
          omega
  | accept handle bs records => exact Ensures.answer fun _ => .of_snd rfl (by simp [Stage.distance])
  | sync handle => exact Ensures.answer fun _ => .of_fst (by simp [Stage.distance])
  | publish => exact Ensures.answer fun _ => .of_fst (by simp [Stage.distance])
  | openDirectory => exact Ensures.answer fun _ => .of_fst (by simp [Stage.distance])
  | syncDirectory => exact Ensures.answer fun _ => .of_fst (by simp [Stage.distance])
  | listJournals => exact Ensures.answer fun _ => .of_fst (by simp [Stage.distance])
  | trim names removed =>
    cases names with
    | nil => exact Ensures.pure fun _ _ => .of_fst (by simp [Stage.distance])
    | cons name names => exact Ensures.answer fun _ => .of_snd rfl (by simp [Stage.distance])
  | listCheckpoints journals => exact Ensures.answer fun _ => .of_fst (by simp [Stage.distance])
  | discard names journals removed =>
    cases names with
    | nil => exact Ensures.answer fun _ _ heq => nomatch heq
    | cons name names =>
      have hlen := List.length_erase_of_mem (Stage.picked_mem pick name names)
      refine Ensures.answer fun _ => .of_snd rfl ?_
      simp only [Stage.distance, hlen, List.length_cons]
      omega

theorem onHost_bind {σ α β : Type} (act : Action Host α) (next : α → Action Host β) :
    (Action.onHost (act >>= next) : Action (σ × Host) β) =
      Action.onHost act >>= fun a => Action.onHost (next a) := by
  funext s
  change Action.onHost (EStateM.bind act next) s =
    EStateM.bind (Action.onHost act) (fun a => Action.onHost (next a)) s
  rw [Action.onHost, EStateM.bind, EStateM.bind, Action.onHost]
  cases act s.2 <;> rfl

theorem ensures_rest {σ : Type} (p : Plan) {P : Stage → σ × Host → Prop} {D fail : σ × Host → Prop}
    (hstep : ∀ st, Ensures (P st) (Action.onHost (p.step 0 st))
      (fun next s => (∀ st', next = some st' → P st' s) ∧ (next = none → D s)) fail) (st : Stage) :
    Ensures (P st) (Action.onHost (p.rest st)) (fun n s => n = p.sequence ∧ D s) fail := by
  -- A stage can come after itself, with a shorter list: the induction is on the distance.
  induction st using Stage.nearer_wellFounded.induction with
  | _ st ih =>
    have hnearer : Ensures (fun _ => True) (Action.onHost (p.step 0 st) : Action (σ × Host) _)
        (fun next _ => ∀ st', next = some st' → st'.Nearer st) (fun _ => True) :=
      fun s _ => ((p.nearer_step 0 st).beside s.1).weaken (fun _ => id) (fun _ _ h => h.2)
        (fun _ _ => trivial) s ⟨rfl, trivial⟩
    rw [rest_step, onHost_bind]
    refine Ensures.bind ((hstep st).and hnearer) fun next => ?_
    cases next with
    | none => exact Ensures.pure fun s hs => ⟨rfl, hs.1.2 rfl⟩
    | some st' =>
      intro s hs
      exact ih st' (hs.2 st' rfl) s (hs.1.1 st' rfl)

end Plan

end LedgerStore.Checkpoint

namespace LedgerStore.EntryLog

open Checkpoint

def beginCheckpoint : Action (EntryLog × Host) (Plan × Stage) := do
  let sequence ← onWriter Journal.Writer.roll
  let t ← get
  return (⟨t.1.dataDir, t.1.journalDir, sequence, t.1.index.records⟩, .create)

/-- A checkpoint is its beginning and then the steps of saving, one after the other. -/
theorem checkpoint_eq :
    checkpoint = (do
      let (p, st) ← beginCheckpoint
      Action.onHost (p.rest st)) := by
  have hsize : ∀ i : Index, i.size = i.records.length := by simp [Index.size, Index.records]
  simp only [checkpoint, beginCheckpoint, Plan.rest, Plan.fill, Plan.release, Plan.tidy,
    Plan.clean, Checkpoint.write, writeFile, bind_assoc, pure_bind, hsize]
  rfl

end LedgerStore.EntryLog

namespace LedgerStore.Checkpoint

inductive Part
  | whole
  | begin
  | step (pick : Nat)

/-- How a part ends: the checkpoint that is being saved then, and the sequence of one that has come
to its end. -/
structure Progress where
  state : EntryLog × Host
  saving : Option (Plan × Stage) := none
  ended : Option Nat := none

def Part.run (saving : Option (Plan × Stage)) (t : EntryLog × Host) : Part → Progress
  | .whole =>
    match saving with
    | some _ => { state := t, saving }
    | none =>
      match EntryLog.checkpoint t with
      | .ok n t => { state := t, ended := some n }
      | .error _ t => { state := t }
  | .begin =>
    match saving with
    | some _ => { state := t, saving }
    | none =>
      match EntryLog.beginCheckpoint t with
      | .ok begun t => { state := t, saving := some begun }
      | .error _ t => { state := t }
  | .step pick =>
    match saving with
    | none => { state := t }
    | some (p, st) =>
      match Action.onHost (p.step pick st) t with
      | .ok (some st) t => { state := t, saving := some (p, st) }
      | .ok none t => { state := t, ended := some p.sequence }
      | .error _ t => { state := t }

end LedgerStore.Checkpoint
