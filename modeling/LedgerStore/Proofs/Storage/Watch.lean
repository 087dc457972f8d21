import Mathlib.Data.List.Perm.Basic
import LedgerStore.Proofs.Completion
import LedgerStore.Storage.Run

set_option autoImplicit false

namespace LedgerStore

/-- A sync that came back, with the events before it began. -/
structure SyncCall where
  before : List Event
  batch : List Nat
  ending : SyncEnd

def SyncEnd.outcome (size : Nat) : SyncEnd → Outcome
  | .synced => .ok ()
  | .failed cause => .error (.syncFailed size cause.message)
  | .died => .error .shuttingDown

def SyncCall.outcome (c : SyncCall) : Outcome :=
  c.ending.outcome c.batch.length

namespace Event

/-- The sync that has not come back, if there is one. Events are given newest first. -/
def current? : List Event → Option (List Event × List Nat)
  | [] => none
  | .began batch :: before => some (before, batch)
  | .ended _ :: _ => none
  | _ :: before => current? before

def calls : List Event → List SyncCall
  | [] => []
  | .ended ending :: before =>
    match current? before with
    | some (older, batch) => ⟨older, batch, ending⟩ :: calls before
    | none => calls before
  | _ :: before => calls before

/-- Every sync that came back had been called for a batch that is not empty, after the one before
it had come back, and the journal thread had not yet seen that it is to stop. -/
def Answered (events : List Event) : Prop :=
  ∀ ending older, .ended ending :: older <:+ events → .stopped ∉ older ∧
    ∃ before batch, current? older = some (before, batch) ∧ batch ≠ []

namespace Answered

theorem nil : Answered [] :=
  fun _ _ hsuffix => absurd (List.suffix_nil.1 hsuffix) (List.cons_ne_nil _ _)

theorem cons {events : List Event} (h : Answered events) {x : Event}
    (hx : ∀ ending, x ≠ .ended ending) : Answered (x :: events) := by
  intro ending older hsuffix
  rcases List.suffix_cons_iff.1 hsuffix with heq | hsuffix
  · cases heq
    exact absurd rfl (hx ending)
  · exact h ending older hsuffix

theorem ended {events before : List Event} {batch : List Nat} (h : Answered events)
    (hno : .stopped ∉ events) (hcurrent : current? events = some (before, batch))
    (hne : batch ≠ []) {ending : SyncEnd} : Answered (.ended ending :: events) := by
  intro other older hsuffix
  rcases List.suffix_cons_iff.1 hsuffix with heq | hsuffix
  · cases heq
    exact ⟨hno, before, batch, hcurrent, hne⟩
  · exact h other older hsuffix

end Answered

theorem calls_cons {c : SyncCall} {events : List Event} (h : c ∈ calls events) (x : Event) :
    c ∈ calls (x :: events) := by
  cases x with
  | ended ending =>
    rw [calls]
    split
    · exact List.mem_cons_of_mem _ h
    · exact h
  | _ => exact h

theorem current?_subset {events before : List Event} {batch : List Nat}
    (h : current? events = some (before, batch)) : before ⊆ events := by
  induction events with
  | nil => cases h
  | cons x events ih =>
    cases x with
    | began other =>
      cases h
      exact List.subset_cons_self _ _
    | ended ending => cases h
    | _ => exact fun y hy => List.mem_cons_of_mem _ (ih h hy)

theorem mem_calls_ended {ending : SyncEnd} {events : List Event} {c : SyncCall}
    (h : c ∈ calls (.ended ending :: events)) : c ∈ calls events ∨
      ∃ before batch, current? events = some (before, batch) ∧ c = ⟨before, batch, ending⟩ := by
  rw [calls] at h
  split at h
  · next before batch hcurrent =>
    rcases List.mem_cons.1 h with h | h
    · exact Or.inr ⟨before, batch, hcurrent, h⟩
    · exact Or.inl h
  · exact Or.inl h

theorem before_subset {events : List Event} {c : SyncCall} (h : c ∈ calls events) :
    c.before ⊆ events := by
  induction events with
  | nil => cases h
  | cons x events ih =>
    cases x with
    | ended ending =>
      rcases mem_calls_ended h with h | ⟨before, batch, hcurrent, rfl⟩
      · exact fun y hy => List.mem_cons_of_mem _ (ih h hy)
      · exact fun y hy => List.mem_cons_of_mem _ (current?_subset hcurrent hy)
    | _ => exact fun y hy => List.mem_cons_of_mem _ (ih h hy)

end Event

namespace JournalThread

def ids (t : JournalThread) : List Nat :=
  t.queue.filterMap JournalMessage.id? ++ t.batch

theorem ids_push (t : JournalThread) (id : Nat) :
    ({ t with queue := t.queue ++ [.pending id] } : JournalThread).ids.Perm (id :: t.ids) := by
  have hqueue : (t.queue ++ [JournalMessage.pending id]).filterMap JournalMessage.id? =
      t.queue.filterMap JournalMessage.id? ++ [id] := by
    rw [List.filterMap_append]
    rfl
  rw [ids, ids, hqueue, List.append_assoc]
  exact List.perm_middle

theorem ids_take {t : JournalThread} {id : Nat} {queue : List JournalMessage}
    (hq : t.queue = .pending id :: queue) (phase : JournalPhase) :
    ({ t with queue, batch := t.batch ++ [id], phase } : JournalThread).ids.Perm t.ids := by
  have hqueue : t.queue.filterMap JournalMessage.id? =
      id :: queue.filterMap JournalMessage.id? := by
    rw [hq]
    rfl
  rw [ids, ids, hqueue, ← List.append_assoc]
  exact List.perm_append_singleton _ _

theorem ids_settle {t : JournalThread} {id : Nat} {batch : List Nat}
    (hb : t.batch = id :: batch) :
    t.ids.Perm (id :: ({ t with batch } : JournalThread).ids) := by
  rw [ids, ids, hb]
  exact List.perm_middle

theorem ids_pass {t : JournalThread} {queue : List JournalMessage}
    (hq : t.queue = .shutdown :: queue) (phase : JournalPhase) :
    ({ t with queue, phase } : JournalThread).ids = t.ids := by
  rw [ids, ids, hq]
  rfl

theorem ids_close (t : JournalThread) :
    ({ t with queue := t.queue ++ [.shutdown] } : JournalThread).ids = t.ids := by
  have hqueue : (t.queue ++ [JournalMessage.shutdown]).filterMap JournalMessage.id? =
      t.queue.filterMap JournalMessage.id? := by
    rw [List.filterMap_append]
    exact List.append_nil _
  rw [ids, ids, hqueue]

end JournalThread

namespace Storage

variable {σ : Type}

inductive Deed
  | apply (key : Key) (value : Bytes)
  | send (id : Nat)
  | advance
  | permits (change : PermitSource → PermitSource)
  | shutdown

def act [Engine σ] (s : Storage σ) : Deed → Storage σ
  | .apply key value => (s.apply key value).2
  | .send id => s.send id
  | .advance => s.advance.getD s
  | .permits change => s.withPermits change
  | .shutdown => s.requestShutdown

def event? [Engine σ] (s : Storage σ) : Deed → Option Event
  | .apply key value => (s.applyShown key value).1
  | .advance => s.advanceShown.bind (·.1)
  | _ => none

def watch [Engine σ] (w : Storage σ × List Event) (deed : Deed) : Storage σ × List Event :=
  (w.1.act deed, (w.1.event? deed).toList ++ w.2)

def waiting (s : Storage σ) (t : JournalThread) : List Nat :=
  s.sending.map (·.1) ++ t.ids

theorem lt_apply [Engine σ] (s : Storage σ) (key : Key) (value : Bytes) :
    (s.apply key value).1 < (s.apply key value).2.completions.cells.length := by
  have hadd : ∀ c, (s.completions.add c).1 < (s.completions.add c).2.cells.length := by
    intro c
    rw [Completions.length_add, Completions.fst_add]
    omega
  rw [apply, applyShown]
  cases Engine.put key value (s.engine, s.host) with
  | error cause w => exact hadd _
  | ok u w =>
    dsimp only
    cases s.thread with
    | none => exact hadd _
    | some t => exact hadd _

end Storage

end LedgerStore
