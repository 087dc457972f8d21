import LedgerStore.Proofs.Journal.Opening

/-!
Sessions: a writer and the calls on it, each with the faults that befall it. A call takes the spool
to another one, and so a run takes it from one to the next; a call that fails is one of them.
-/

set_option autoImplicit false

namespace LedgerStore.Journal

inductive Task
  | append (r : Record)
  | sync
  | roll

namespace Task

def run : Task → Action (Writer × Host) Unit
  | append r => Writer.append r
  | sync => Writer.sync
  | roll => do
    let _ ← Writer.roll
    return ()

def records : Task → List Record
  | append r => [r]
  | _ => []

end Task

structure Turn where
  task : Task
  faults : List Fault := []

/-- The record fits a file, and what fails has no effect. -/
structure Turn.Proper (t : Turn) : Prop where
  fits : ∀ r ∈ t.task.records, r.Fits
  whole : Mood.Whole (· ∈ t.faults)

structure Session where
  writer : Writer
  host : Host
  accepted : List Record := []

namespace Session

def call (x : Session) (t : Turn) : EStateM.Result StorageError (Writer × Host) Unit :=
  t.task.run (x.writer, x.host.facing t.faults)

def serves (x : Session) (t : Turn) : Bool :=
  match x.call t with
  | .ok _ _ => true
  | .error _ _ => false

def turn (x : Session) (t : Turn) : Session :=
  match x.call t with
  | .ok _ (writer, host) => { writer, host, accepted := x.accepted ++ t.task.records }
  | .error _ (writer, host) => { x with writer, host }

def run (x : Session) (ts : List Turn) : Session :=
  ts.foldl turn x

end Session

namespace Spool

inductive Passed (s : Spool) : Task → Bool → Spool → Prop
  | synced : Passed s .sync true s
  | rolled (handle : Handle) : Passed s .roll true (s.next handle)
  | appended (r : Record) {s' : Spool} (room : s.Room r.bytes.length s') :
    Passed s (.append r) true (s'.write r.bytes)
  | refused (task : Task) : Passed s task false s
  | stranded (r : Record) (handle : Handle) (full : s.writer.mustRoll r.bytes.length = true) :
    Passed s (.append r) false (s.next handle)

theorem Passed.dir {s s' : Spool} {task : Task} {ok : Bool} (h : s.Passed task ok s') :
    s'.writer.dir = s.writer.dir := by
  cases h with
  | appended r room => cases room <;> rfl
  | _ => rfl

variable {mood : Mood} {dir : Place} {rest : Place → Option Bytes} {s : Spool}

theorem ensures_task (hmood : mood.Whole) (task : Task) :
    Ensures (Stands mood dir rest s) task.run
      (fun _ x => ∃ s', s.Passed task true s' ∧ x.1 = s'.writer ∧
        (s.writer.sequence ≤ x.1.sequence → Stands mood dir rest s' x))
      (fun x => ∃ s', s.Passed task false s' ∧ x.1 = s'.writer ∧
        (s.writer.sequence ≤ x.1.sequence → Stands mood dir rest s' x)) := by
  have hrefused : ∀ x, Stands mood dir rest s x → ∃ s', s.Passed task false s' ∧ x.1 = s'.writer ∧
      (s.writer.sequence ≤ x.1.sequence → Stands mood dir rest s' x) :=
    fun x hx => ⟨s, .refused task, hx.1, fun _ => hx⟩
  cases task with
  | append r =>
    refine (ensures_append r).weaken (fun _ => id)
      (fun _ x ⟨s', hroom, hx⟩ => ⟨_, .appended r hroom, hx⟩) fun x hx => ?_
    rcases hx with hx | ⟨s', k, hroom, -, hwhole, hx⟩
    · exact hrefused x hx
    · rw [hwhole hmood, List.take_zero, spill_nil] at hx
      cases hroom with
      | here fits => exact ⟨s, .refused _, hx⟩
      | next handle full => exact ⟨_, .stranded r handle full, hx⟩
  | sync =>
    exact ensures_sync.weaken (fun _ => id) (fun _ x hx => ⟨s, .synced, hx.1, fun _ => hx⟩) hrefused
  | roll =>
    refine Ensures.bind (ensures_roll.weaken (fun _ => id) (fun _ x hx => hx.2) hrefused) fun _ =>
      Ensures.pure fun x ⟨handle, hx⟩ => ⟨_, .rolled handle, hx⟩

theorem Passed.sequence {s s' : Spool} {task : Task} {ok : Bool} (h : s.Passed task ok s') :
    s'.writer.sequence = s.writer.sequence ∨
      s'.writer.sequence = FileName.next s.writer.sequence := by
  cases h with
  | appended r room =>
    cases room with
    | here fits => exact Or.inl rfl
    | next handle full => exact Or.inr rfl
  | rolled handle => exact Or.inr rfl
  | stranded r handle full => exact Or.inr rfl
  | _ => exact Or.inl rfl

end Spool

namespace Session

/-- The call does not go on from the file with the last sequence. -/
def InRange (x : Session) (t : Turn) : Prop :=
  x.writer.sequence + 1 = FileName.sequenceBound →
    (x.turn t).writer.sequence = x.writer.sequence

instance (x : Session) (t : Turn) : Decidable (x.InRange t) :=
  inferInstanceAs (Decidable (_ → _))

def Within : Session → List Turn → Prop
  | _, [] => True
  | x, t :: ts => x.InRange t ∧ (x.turn t).Within ts

instance decidableWithin : (x : Session) → (ts : List Turn) → Decidable (x.Within ts)
  | _, [] => inferInstanceAs (Decidable True)
  | x, t :: ts =>
    have := decidableWithin (x.turn t) ts
    inferInstanceAs (Decidable (_ ∧ _))

theorem within_append {x : Session} {ts us : List Turn} :
    x.Within (ts ++ us) ↔ x.Within ts ∧ (x.run ts).Within us := by
  induction ts generalizing x with
  | nil => simp [Within, run]
  | cons t ts ih => exact (and_congr_right fun _ => ih).trans and_assoc.symm

theorem run_induction {P : Session → Prop}
    (step : ∀ x t, P x → t.Proper → x.InRange t → P (x.turn t)) {x : Session} (h : P x)
    {ts : List Turn} (hts : ∀ t ∈ ts, t.Proper) (hwithin : x.Within ts) : P (x.run ts) := by
  induction ts generalizing x with
  | nil => exact h
  | cons t ts ih =>
    exact ih (step x t h (hts t List.mem_cons_self) hwithin.1)
      (fun u hu => hts u (List.mem_cons_of_mem _ hu)) hwithin.2

structure On (x : Session) (dir : Place) (rest : Place → Option Bytes) (s : Spool) : Prop where
  writer : x.writer = s.writer
  disk : s.On dir rest x.host.disk

variable {x : Session} {dir : Place} {rest : Place → Option Bytes} {s : Spool} {t : Turn}

/-- A call takes the spool to another one. If it is in range it never lowers the sequence. -/
theorem On.turn (h : x.On dir rest s) (ht : t.Proper) :
    ∃ s', s.Passed t.task (x.serves t) s' ∧
      (x.turn t).accepted = x.accepted ++ (if x.serves t then t.task.records else []) ∧
      (x.InRange t → s.writer.sequence ≤ s'.writer.sequence ∧ (x.turn t).On dir rest s') := by
  have hrun := Spool.ensures_task ht.whole t.task (x.writer, x.host.facing t.faults)
    (And.intro h.writer (Host.holds_facing h.disk t.faults))
  have hbounded := h.disk.bounded
  rw [InRange, h.writer, Session.turn, serves, call]
  revert hrun
  cases t.task.run (x.writer, x.host.facing t.faults) with
  | ok u y =>
    rintro ⟨s', hpassed, hwriter, hon⟩
    refine ⟨s', hpassed, rfl, fun hrange => ?_⟩
    have hle := FileName.le_of_step hpassed.sequence hbounded (hwriter ▸ hrange)
    exact ⟨hle, hwriter, (hon (hwriter ▸ hle)).2.disk⟩
  | error e y =>
    rintro ⟨s', hpassed, hwriter, hon⟩
    refine ⟨s', hpassed, (List.append_nil _).symm, fun hrange => ?_⟩
    have hle := FileName.le_of_step hpassed.sequence hbounded (hwriter ▸ hrange)
    exact ⟨hle, hwriter, (hon (hwriter ▸ hle)).2.disk⟩

end Session

end LedgerStore.Journal
