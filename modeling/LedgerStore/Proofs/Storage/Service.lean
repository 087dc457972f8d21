import LedgerStore.Proofs.Archive.Checkpoint
import LedgerStore.Proofs.Storage.Kept
import LedgerStore.Storage.Durable

/-!
A store in service: the write path over the durable engine on one machine, with faults at any call
to the file system, checkpoints between the moves of callers and journal thread, and any number of
crashes and openings. The main statement is that every happening keeps the permanent writes.
-/

set_option autoImplicit false

namespace LedgerStore

/-- What can happen to a store. The faults are those of the calls to the file system. -/
inductive Happening
  | deed (deed : Storage.Deed) (faults : List Fault)
  | save (part : Checkpoint.Part) (faults : List Fault)
  | halt
  | crash (keep : Nat → Nat)
  | start (faults : List Fault)

def Happening.Fair : Happening → Prop
  | .deed (.apply _ value) faults =>
    value.length < 2 ^ 31 ∧ ∀ f ∈ faults, ∀ kept reason, f ≠ .cut kept reason
  | _ => True

structure Service where
  host : Host
  completions : Completions := {}
  storage : Option (Storage EntryLog) := none
  saving : Option (Checkpoint.Plan × Checkpoint.Stage) := none
  history : List (Nat × Record) := []

namespace Service

open Checkpoint Storage

def applied (s : Storage EntryLog) : Deed → List (Nat × Record)
  | .apply key value =>
    match Engine.put key value (s.engine, s.host) with
    | .ok () _ => [((s.apply key value).1, ⟨key, value⟩)]
    | .error _ _ => []
  | _ => []

def adopt (w : Service) (s : Storage EntryLog) : Service :=
  { w with storage := some s, host := s.host, completions := s.completions }

def facing (s : Storage EntryLog) (faults : List Fault) : Storage EntryLog :=
  { s with host := s.host.facing faults }

def step (config : Config) (w : Service) : Happening → Service
  | .deed deed faults =>
    match w.storage with
    | none => w
    | some s =>
      { w.adopt ((facing s faults).act deed) with
        history := w.history ++ applied (facing s faults) deed }
  | .save part faults =>
    match w.storage with
    | none => w
    | some s =>
      let r := part.run w.saving (s.engine, (facing s faults).host)
      { w.adopt { s with engine := r.state.1, host := r.state.2 } with saving := r.saving }
  | .halt => { w with storage := none, saving := none }
  | .crash keep =>
    { w with host := { w.host with disk := w.host.disk.cut keep }, storage := none, saving := none }
  | .start faults =>
    match w.storage with
    | some _ => w
    | none =>
      match EntryLog.start config (w.host.facing faults) with
      | .ok e host => w.adopt (Storage.ofConfig config e host w.completions)
      | .error _ host => { w with host }

def run (config : Config) (d : Disk) (happenings : List Happening) : Service :=
  happenings.foldl (step config) { host := { disk := d } }

/-- What the events of a write path mean for an archive: applied writes are held, those before a
good sync are secured, and so are those that were good when the write path began. -/
structure Backed (a : Archive) (history : List (Nat × Record)) (first : Completions)
    (events : List Event) : Prop where
  named : ∀ id, first.outcome? id = some (.ok ()) ∨ .applied id ∈ events →
    id ∈ history.map (·.1)
  first : ∀ i id r, history[i]? = some (id, r) → first.outcome? id = some (.ok ()) →
    a.Secured r.key i
  held : ∀ i id r, history[i]? = some (id, r) → .applied id ∈ events → a.Held r.key i
  calls : ∀ c ∈ Event.calls events, c.ending = .synced → ∀ i id r, history[i]? = some (id, r) →
    .applied id ∈ c.before → a.Secured r.key i

structure Running (s : Site) (a : Archive) (history : List (Nat × Record))
    (saving : Option (Plan × Stage)) (st : Storage EntryLog) : Prop where
  busy : ∀ faults, EntryLog.Busy (· ∈ faults) s a saving (st.engine, (facing st faults).host)
  kept : ∃ first events t, Kept first events st t ∧ Backed a history first events

structure Follows (s : Site) (a a' : Archive) (history : List (Nat × Record))
    (saving : Option (Plan × Stage)) (st : Storage EntryLog) : Prop where
  below : ∀ m, a.Below m → a'.Below (m + 1)
  tells : a'.Tells (history.map (·.2))
  running : Running s a' history saving st

structure Stands (s : Site) (a : Archive) (n : Nat) (w : Service) : Prop where
  below : a.Below n
  site : a.On s w.host.disk
  tells : a.Tells (w.history.map (·.2))
  known : ∀ x ∈ w.history, x.1 < w.completions.cells.length
  named : ∀ id, w.completions.outcome? id = some (.ok ()) → id ∈ w.history.map (·.1)
  good : ∀ i id r, w.history[i]? = some (id, r) → w.completions.outcome? id = some (.ok ()) →
    a.Secured r.key i
  idle : w.storage = none → w.saving = none
  running : ∀ st, w.storage = some st →
    st.completions = w.completions ∧ Running s a w.history w.saving st

variable {s : Site} {a a' : Archive} {n : Nat} {w : Service} {st st' : Storage EntryLog}
  {history : List (Nat × Record)} {first : Completions} {events : List Event}
  {saving : Option (Plan × Stage)} {mood : Mood}

theorem Backed.of_good (h : Backed a history first events) {t : JournalThread}
    (hkept : Kept first events st t) {id : Nat}
    (ho : st.completions.outcome? id = some (.ok ())) : id ∈ history.map (·.1) := by
  rcases hkept.explained id _ ho with hfirst | he
  · exact h.named id (Or.inl hfirst)
  · obtain ⟨c, hc, -, happlied, -⟩ := he.good
    exact h.named id (Or.inr (Event.before_subset hc happlied))

theorem Backed.good (h : Backed a history first events) {t : JournalThread}
    (hkept : Kept first events st t) (i id : Nat) (r : Record) (hi : history[i]? = some (id, r))
    (ho : st.completions.outcome? id = some (.ok ())) : a.Secured r.key i := by
  rcases hkept.explained id _ ho with hfirst | he
  · exact h.first i id r hi hfirst
  · obtain ⟨c, hc, -, happlied, hend⟩ := he.good
    exact h.calls c hc hend i id r hi happlied

theorem Backed.move (h : Backed a history first events)
    (hsecured : ∀ key i, a.Secured key i → a'.Secured key i)
    (hheld : ∀ key i, a.Held key i → a'.Held key i) : Backed a' history first events where
  named := h.named
  first i id r hi ho := hsecured _ _ (h.first i id r hi ho)
  held i id r hi ha := hheld _ _ (h.held i id r hi ha)
  calls c hc hend i id r hi ha := hsecured _ _ (h.calls c hc hend i id r hi ha)

/-- Events that are neither of an applied write nor of the end of a sync say nothing more. -/
theorem Backed.event (h : Backed a history first events) {x : Event}
    (hcalls : Event.calls (x :: events) = Event.calls events) (hx : ∀ id, x ≠ .applied id) :
    Backed a history first (x :: events) where
  named id hid := h.named id <| hid.imp_right fun ha => by
    rcases List.mem_cons.1 ha with heq | ha
    · exact absurd heq.symm (hx id)
    · exact ha
  first := h.first
  held i id r hi ha := by
    rcases List.mem_cons.1 ha with heq | ha
    · exact absurd heq.symm (hx id)
    · exact h.held i id r hi ha
  calls := hcalls ▸ h.calls

/-- A sync that came back good secures what was applied before. -/
theorem Backed.synced (h : Backed a history first events) (ha : a.Open)
    (ht : a.Tells (history.map (·.2))) : Backed a.synced history first (.ended .synced :: events) := by
  have hlasts := Archive.Turn.sync.lasts ha
  have hmove := h.move (hlasts.secured _ ht) fun key i hheld => hheld.turn .sync ha
  refine ⟨fun id hid => hmove.named id (by simpa using hid), hmove.first,
    fun i id r hi happ => hmove.held i id r hi (by simpa using happ), ?_⟩
  intro c hc hend i id r hi happlied
  rcases Event.mem_calls_ended hc with hc | ⟨before, batch, hcurrent, rfl⟩
  · exact hmove.calls c hc hend i id r hi happlied
  · exact (h.held i id r hi (Event.current?_subset hcurrent happlied)).synced ha

theorem Backed.failed (h : Backed a history first events) {ending : SyncEnd}
    (hend : ending ≠ .synced) : Backed a history first (.ended ending :: events) := by
  refine ⟨fun id hid => h.named id (by simpa using hid), h.first,
    fun i id r hi happ => h.held i id r hi (by simpa using happ), ?_⟩
  intro c hc hgood i id r hi happlied
  rcases Event.mem_calls_ended hc with hc | ⟨before, batch, hcurrent, rfl⟩
  · exact h.calls c hc hgood i id r hi happlied
  · exact absurd hgood hend

theorem Running.quiet (h : Running s a history saving st) {faults : List Fault}
    (hq : Quiet (facing st faults) st') (faults' : List Fault) :
    EntryLog.Busy (· ∈ faults') s a saving (st'.engine, (facing st' faults').host) :=
  (h.busy faults).facing hq.engine hq.disk faults'

theorem busy_end {t : EntryLog × Host} (h : EntryLog.Busy mood s a saving t) :
    (Engine.sync t).1 = .synced ∧ EntryLog.Busy mood s a.synced saving (Engine.sync t).2 ∨
      (∃ cause, (Engine.sync t).1 = .failed cause) ∧
        EntryLog.Busy mood s a saving (Engine.sync t).2 := by
  have hsync : Engine.sync t =
      match EntryLog.syncLog t with
      | .ok () t => (.synced, t)
      | .error cause t => (.failed cause, t) := rfl
  have hrun := EntryLog.busy_sync t h
  rw [hsync]
  revert hrun
  cases EntryLog.syncLog t with
  | ok u t' => exact fun hrun => Or.inl ⟨rfl, hrun⟩
  | error cause t' => exact fun hrun => Or.inr ⟨⟨cause, rfl⟩, hrun.1⟩

theorem running_advance (h : Running s a history saving st) (ht : a.Tells (history.map (·.2)))
    (faults : List Fault) :
    ∃ a', a.Turn a' ∧ Running s a' history saving ((facing st faults).act .advance) := by
  obtain ⟨first, events, t, hkept, hbacked⟩ := h.kept
  have hfacing : Kept first events (facing st faults) t := hkept.congr rfl rfl rfl
  obtain ⟨t', hkept'⟩ := kept_advance hfacing
  -- Only a move out of this phase reaches the engine.
  by_cases hp : t.phase = .syncing
  · obtain ⟨t', hkept'⟩ := kept_commit hfacing hp
    have hact : (facing st faults).act .advance = ((facing st faults).commit t).2 := by
      rw [act, advance, advanceShown, hfacing.thread]
      dsimp only
      rw [hp]
      rfl
    obtain ⟨hengine, hdisk⟩ := (facing st faults).commit_state t
    rw [hact]
    rcases busy_end (h.busy faults) with ⟨hend, hbusy⟩ | ⟨⟨cause, hend⟩, hbusy⟩
    · refine ⟨a.synced, .sync, hbusy.facing hengine hdisk, first, _, t', hkept', ?_⟩
      exact hend ▸ hbacked.synced (h.busy faults).ready ht
    · refine ⟨a, .stay, hbusy.facing hengine hdisk, first, _, t', hkept', ?_⟩
      exact hend ▸ hbacked.failed (by simp)
  · have hother : ∀ t', (facing st faults).thread = some t' → t'.phase ≠ .syncing := by
      intro t' ht'
      rw [hfacing.thread] at ht'
      cases ht'
      exact hp
    refine ⟨a, .stay, h.quiet (quiet_advance _ hother), first, _, t', hkept', ?_⟩
    cases hx : (facing st faults).event? .advance with
    | none => exact hbacked
    | some x =>
      obtain ⟨hcalls, hno⟩ := quiet_event _ hother hx events
      exact hbacked.event hcalls hno

theorem concat_cases {α : Type} {xs : List α} {x y : α} {i : Nat}
    (h : (xs ++ [x])[i]? = some y) : xs[i]? = some y ∨ i = xs.length ∧ y = x := by
  rw [List.getElem?_append] at h
  split at h
  · exact Or.inl h
  · next hi =>
    rw [List.getElem?_singleton] at h
    split at h
    · cases h
      exact Or.inr ⟨by omega, rfl⟩
    · cases h

theorem Backed.add (h : Backed a history first events) {t : JournalThread}
    (hkept : Kept first events st t) (ha : a.Open)
    (hknown : ∀ x ∈ history, x.1 < st.completions.cells.length) (r : Record) :
    Backed (a.add ⟨history.length, r⟩) (history ++ [(st.completions.cells.length, r)]) first
      (.applied st.completions.cells.length :: events) := by
  have hmove := h.move (fun key i hs => hs.add ha ⟨history.length, r⟩)
    fun key i hheld => hheld.add ha ⟨history.length, r⟩
  have hold : ∀ {i id : Nat} {q : Record}, history[i]? = some (id, q) →
      id < st.completions.cells.length :=
    fun hi => hknown _ (List.mem_of_getElem? hi)
  exact {
    named id hid := by
      rw [List.map_append, List.mem_append]
      rcases hid with hfirst | happlied
      · exact Or.inl (h.named id (Or.inl hfirst))
      · rcases List.mem_cons.1 happlied with heq | happlied
        · cases heq
          exact Or.inr List.mem_cons_self
        · exact Or.inl (h.named id (Or.inr happlied))
    first i id q hi ho := by
      rcases concat_cases hi with hi | ⟨-, heq⟩
      · exact hmove.first i id q hi ho
      · cases heq
        exact absurd (Completions.lt_of_outcome? (hkept.early _ _ ho)) (Nat.lt_irrefl _)
    held i id q hi happlied := by
      rcases concat_cases hi with hi | ⟨rfl, heq⟩
      · rcases List.mem_cons.1 happlied with heq | happlied
        · cases heq
          exact absurd (hold hi) (Nat.lt_irrefl _)
        · exact hmove.held i id q hi happlied
      · cases heq
        exact a.held_add ⟨history.length, r⟩
    calls c hc hend i id q hi happlied := by
      rcases concat_cases hi with hi | ⟨-, heq⟩
      · exact hmove.calls c hc hend i id q hi happlied
      · -- No sync that came back can have seen a completion that is new now.
        cases heq
        have hback : c ∈ Event.calls events := hc
        exact absurd (hkept.fresh _ (Event.before_subset hback happlied)) (Nat.lt_irrefl _) }

theorem running_apply (h : Running s a history saving st) (ht : a.Tells (history.map (·.2)))
    (hknown : ∀ x ∈ history, x.1 < st.completions.cells.length)
    (hn : a.current.sequence + 1 < FileName.sequenceBound) {key : Key} {value : Bytes}
    {faults : List Fault} (hfair : (Happening.deed (.apply key value) faults).Fair) :
    ∃ a', Follows s a a' (history ++ applied (facing st faults) (.apply key value)) saving
      ((facing st faults).act (.apply key value)) := by
  obtain ⟨first, events, t, hkept, hbacked⟩ := h.kept
  have hfacing : Kept first events (facing st faults) t := hkept.congr rfl rfl rfl
  have hkept' := kept_apply hfacing key value
  have hready := (h.busy faults).ready
  have hr : (⟨key, value⟩ : Record).Fits := .of_length hfair.1
  -- The stamp of the new write is its place in the history.
  have hrun := EntryLog.busy_put hfair.2 (fun _ => hr) hn history.length _ (h.busy faults)
  cases hput : EntryLog.put key value (st.engine, (facing st faults).host) with
  | ok u t' =>
    have happly : Engine.put key value ((facing st faults).engine, (facing st faults).host) =
        .ok u t' := hput
    rw [hput] at hrun
    obtain ⟨a₁, hturn, hbusy⟩ := hrun
    have hopen := hturn.stays_open hready
    have hlasts := hturn.lasts hready
    have hshown : ((facing st faults).applyShown key value).1 =
        some (.applied st.completions.cells.length) := by
      rw [applyShown, happly]
      dsimp only
      rw [hfacing.thread]
      rfl
    have hid : ((facing st faults).apply key value).1 = st.completions.cells.length := by
      rw [apply, applyShown, happly]
      dsimp only
      rw [hfacing.thread]
      rfl
    rw [event?, hshown] at hkept'
    simp only [applied, happly, hid]
    refine ⟨a₁.add ⟨history.length, ⟨key, value⟩⟩, fun m hm => ?_, ?_, ?_, first, _, t, hkept', ?_⟩
    · exact (hturn.below hready hm).amend hopen rfl
    · have htells := (hlasts.tells _ ht).add hopen ⟨key, value⟩
      rw [List.length_map] at htells
      rw [List.map_append]
      exact htells
    · rw [act, apply, applyShown, happly]
      dsimp only
      rw [hfacing.thread]
      exact hbusy.facing rfl rfl
    · refine (hbacked.move (hlasts.secured _ ht) fun key i hh => hh.turn hturn hready).add hkept hopen
        hknown _
  | error cause t' =>
    have happly : Engine.put key value ((facing st faults).engine, (facing st faults).host) =
        .error cause t' := hput
    rw [hput] at hrun
    obtain ⟨a₁, hturn, hbusy, -⟩ := hrun
    have hlasts := hturn.lasts hready
    rw [event?, applyShown, happly] at hkept'
    rw [applied, happly]
    refine ⟨a₁, fun m hm => hturn.below hready hm, ?_, ?_, first, _, t, hkept', ?_⟩
    · rw [List.append_nil]
      exact hlasts.tells _ ht
    · rw [act, apply, applyShown, happly]
      exact hbusy.facing rfl rfl
    · rw [List.append_nil]
      exact (hbacked.move (hlasts.secured _ ht) fun key i hh => hh.turn hturn hready).event rfl
        (by simp)

theorem append_applied (history : List (Nat × Record)) (s : Storage EntryLog) (deed : Deed)
    (h : ∀ key value, deed ≠ .apply key value) : history ++ applied s deed = history := by
  have hnil : applied s deed = [] := by
    cases deed with
    | apply key value => exact absurd rfl (h key value)
    | advance => rfl
    | send id => rfl
    | permits change => rfl
    | shutdown => rfl
  rw [hnil, List.append_nil]

theorem running_deed (h : Running s a history saving st) (ht : a.Tells (history.map (·.2)))
    (hknown : ∀ x ∈ history, x.1 < st.completions.cells.length)
    (hn : a.current.sequence + 1 < FileName.sequenceBound) {deed : Deed} {faults : List Fault}
    (hfair : (Happening.deed deed faults).Fair) :
    ∃ a', Follows s a a' (history ++ applied (facing st faults) deed) saving
      ((facing st faults).act deed) := by
  have hready := (h.busy faults).ready
  obtain ⟨first, events, t, hkept, hbacked⟩ := h.kept
  have hfacing : Kept first events (facing st faults) t := hkept.congr rfl rfl rfl
  cases deed with
  | apply key value => exact running_apply h ht hknown hn hfair
  | advance =>
    obtain ⟨a', hturn, hrunning⟩ := running_advance h ht faults
    rw [append_applied _ _ .advance nofun]
    exact ⟨a', fun m hm => hturn.below hready hm, (hturn.lasts hready).tells _ ht, hrunning⟩
  | send id =>
    obtain ⟨t', hkept'⟩ := kept_send hfacing id
    rw [append_applied _ _ (.send id) nofun]
    exact ⟨a, fun m hm => hm.succ, ht, h.quiet (quiet_send _ id), first, events, t', hkept', hbacked⟩
  | permits change =>
    obtain ⟨t', hkept'⟩ := kept_watch hfacing (.permits change)
    rw [append_applied _ _ (.permits change) nofun]
    exact ⟨a, fun m hm => hm.succ, ht, h.quiet ⟨rfl, rfl⟩, first, events, t', hkept', hbacked⟩
  | shutdown =>
    obtain ⟨t', hkept'⟩ := kept_watch hfacing .shutdown
    rw [append_applied _ _ .shutdown nofun]
    exact ⟨a, fun m hm => hm.succ, ht, h.quiet (quiet_shutdown _), first, events, t', hkept', hbacked⟩

theorem known_deed (h : ∀ x ∈ history, x.1 < st.completions.cells.length) (deed : Deed)
    (faults : List Fault) :
    ∀ x ∈ history ++ applied (facing st faults) deed,
      x.1 < ((facing st faults).act deed).completions.cells.length := by
  have hle := ((facing st faults).lasting_act deed).cells
  intro x hx
  rcases List.mem_append.1 hx with hx | hx
  · exact Nat.lt_of_lt_of_le (h x hx) hle
  · cases deed with
    | apply key value =>
      rw [applied] at hx
      split at hx
      · cases List.mem_singleton.1 hx
        exact (facing st faults).lt_apply key value
      · cases hx
    | advance => cases hx
    | send id => cases hx
    | permits change => cases hx
    | shutdown => cases hx

theorem running_save (h : Running s a history saving st) (ht : a.Tells (history.map (·.2)))
    (hn : a.current.sequence + 1 < FileName.sequenceBound) (part : Part) (faults : List Fault) :
    ∃ a', Follows s a a' history (part.run saving (st.engine, (facing st faults).host)).saving
      { st with
        engine := (part.run saving (st.engine, (facing st faults).host)).state.1
        host := (part.run saving (st.engine, (facing st faults).host)).state.2 } := by
  have hready := (h.busy faults).ready
  obtain ⟨first, events, t, hkept, hbacked⟩ := h.kept
  obtain ⟨a', hpassed⟩ := EntryLog.busy_part (h.busy faults) hn part
  obtain ⟨a₁, hturn, hsame⟩ := hpassed.through
  have hlasts := hturn.lasts hready
  have htells := hlasts.tells _ ht
  refine ⟨a', fun m hm => hsame.below _ (hturn.below hready hm), hsame.lasts.tells _ htells,
    hpassed.busy.facing rfl rfl, first, events, t, hkept.congr rfl rfl rfl, ?_⟩
  refine hbacked.move ((hlasts.trans hsame.lasts).secured _ ht) fun key i hheld => ?_
  exact (hheld.turn hturn hready).lasts hsame.lasts htells hsame.current

variable (w) in
theorem Stands.adopt (hbelow : a.Below n) (hrunning : Running s a history saving st)
    (ht : a.Tells (history.map (·.2))) (hknown : ∀ x ∈ history, x.1 < st.completions.cells.length) :
    Stands s a n { w.adopt st with history, saving } where
  below := hbelow
  site := (hrunning.busy []).works.disk.1.writer.on
  tells := ht
  known := hknown
  named id ho := by
    obtain ⟨first, events, t, hkept, hbacked⟩ := hrunning.kept
    exact hbacked.of_good hkept ho
  good i id r hi ho := by
    obtain ⟨first, events, t, hkept, hbacked⟩ := hrunning.kept
    exact hbacked.good hkept i id r hi ho
  idle := nofun
  running := by
    rintro _ ⟨⟩
    exact ⟨rfl, hrunning⟩

theorem Follows.stands (h : Follows s a a' history saving st) (hbelow : a.Below n)
    (hknown : ∀ x ∈ history, x.1 < st.completions.cells.length) :
    Stands s a' (n + 1) { w.adopt st with history, saving } :=
  Stands.adopt w (h.below n hbelow) h.running h.tells hknown

theorem Stands.succ (h : Stands s a n w) : Stands s a (n + 1) w :=
  ⟨h.below.succ, h.site, h.tells, h.known, h.named, h.good, h.idle, h.running⟩

theorem Stands.current_lt (h : Stands s a n w) (hst : w.storage = some st) :
    a.current.sequence < n :=
  h.below.journal _ (((h.running st hst).2.busy []).ready.mem)

theorem Stands.shut (h : Stands s a n w) {host : Host} (hlasts : a.Lasts a')
    (hbelow : a'.Below (n + 1)) (hon : a'.On s host.disk) :
    Stands s a' (n + 1) { w with host, storage := none, saving := none } where
  below := hbelow
  site := hon
  tells := hlasts.tells _ h.tells
  known := h.known
  named := h.named
  good i id r hi ho := hlasts.secured _ h.tells _ _ (h.good i id r hi ho)
  idle _ := rfl
  running st hst := absurd hst.symm (Option.some_ne_none st)

theorem stands_start (h : Stands s a n w) (hst : w.storage = none)
    (hsync : s.config.syncEveryWrite = true) (hn : n < FileName.sequenceBound)
    (faults : List Fault) :
    ∃ a', Stands s a' (n + 1) (w.step s.config (.start faults)) ∧
      (faults = [] → ∃ st, (w.step s.config (.start faults)).storage = some st) := by
  have hidle := h.idle hst
  have hrun := EntryLog.busy_start h.below hn _ (Host.holds_facing h.site faults)
  simp only [step, hst]
  revert hrun
  cases EntryLog.start s.config (w.host.facing faults) with
  | ok e host =>
    rintro ⟨a', hreopen, ht⟩
    have hlasts := hreopen.lasts
    have hbusy : EntryLog.Busy (· ∈ faults) s a' w.saving (e, host) := hidle.symm ▸ ht
    have hkept := kept_start e host (PermitSource.ofRate s.config.maxSyncRate) w.completions
    have hbacked : Backed a' w.history w.completions [] :=
      ⟨fun id hid => hid.elim (h.named id) nofun,
        fun i id r hi ho => hlasts.secured _ h.tells _ _ (h.good i id r hi ho), nofun, nofun⟩
    have hstart : Storage.ofConfig s.config e host w.completions =
        Storage.start e host true (PermitSource.ofRate s.config.maxSyncRate) w.completions := by
      rw [ofConfig, hsync]
    dsimp only
    rw [hstart]
    refine ⟨a', Stands.adopt w (hreopen.below h.below) ⟨hbusy.facing rfl rfl, _, _, _, hkept, hbacked⟩
      (hlasts.tells _ h.tells) h.known, fun _ => ⟨_, rfl⟩⟩
  | error cause host =>
    rintro ⟨a', hreopen, ht⟩
    have hlasts := hreopen.lasts
    refine ⟨a', ⟨hreopen.below h.below, ht.1.disk, hlasts.tells _ h.tells, h.known, h.named,
      fun i id r hi ho => hlasts.secured _ h.tells _ _ (h.good i id r hi ho), fun _ => hidle, ?_⟩, ?_⟩
    · exact fun st hst => absurd hst.symm (Option.some_ne_none st)
    · rintro rfl
      exact absurd Mood.calm_nil ht.2

/-- A happening leads from an archive to an archive, and keeps what is secured. -/
theorem stands_step (h : Stands s a n w) (hsync : s.config.syncEveryWrite = true)
    (hn : n < FileName.sequenceBound) {x : Happening} (hx : x.Fair) :
    ∃ a', Stands s a' (n + 1) (w.step s.config x) := by
  cases x with
  | deed deed faults =>
    cases hst : w.storage with
    | none =>
      simp only [step, hst]
      exact ⟨a, h.succ⟩
    | some st =>
      obtain ⟨hcells, hrunning⟩ := h.running st hst
      have hcur := h.current_lt hst
      have hknown : ∀ x ∈ w.history, x.1 < st.completions.cells.length := hcells ▸ h.known
      obtain ⟨a', hfollows⟩ := running_deed hrunning h.tells hknown (by omega) hx
      simp only [step, hst]
      exact ⟨a', hfollows.stands h.below (known_deed hknown deed faults)⟩
  | save part faults =>
    cases hst : w.storage with
    | none =>
      simp only [step, hst]
      exact ⟨a, h.succ⟩
    | some st =>
      obtain ⟨hcells, hrunning⟩ := h.running st hst
      have hcur := h.current_lt hst
      obtain ⟨a', hfollows⟩ := running_save hrunning h.tells (by omega) part faults
      simp only [step, hst]
      exact ⟨a', hfollows.stands h.below (hcells ▸ h.known)⟩
  | halt => exact ⟨a, h.shut (.refl a) h.below.succ h.site⟩
  | crash keep =>
    obtain ⟨g, hg, hon⟩ := h.site.cut keep
    exact ⟨a.cut g, h.shut (Archive.lasts_cut hg) (h.below.cut hg).succ hon⟩
  | start faults =>
    cases hst : w.storage with
    | none =>
      obtain ⟨a', h', -⟩ := stands_start h hst hsync hn faults
      exact ⟨a', h'⟩
    | some st =>
      simp only [step, hst]
      exact ⟨a, h.succ⟩

theorem stands_run {d : Disk} (hd : s.Vacant d) (hsync : s.config.syncEveryWrite = true)
    (happenings : List Happening) (hfair : ∀ x ∈ happenings, x.Fair)
    (hn : happenings.length ≤ FileName.sequenceBound) :
    ∃ a, Stands s a happenings.length (run s.config d happenings) := by
  induction happenings using List.reverseRecOn with
  | nil =>
    have hbelow : Archive.Below {} 0 := ⟨nofun, nofun⟩
    refine ⟨{}, hbelow, hd.on, ⟨nofun, List.Pairwise.nil⟩, nofun, ?_, nofun, fun _ => rfl, ?_⟩
    · intro id ho
      cases ho
    · exact fun st hst => absurd hst.symm (Option.some_ne_none st)
  | append_singleton happenings x ih =>
    rw [List.length_append, List.length_singleton] at hn ⊢
    obtain ⟨a, h⟩ := ih (fun y hy => hfair y (List.mem_append_left _ hy)) (by omega)
    rw [run, List.foldl_append, List.foldl_cons, List.foldl_nil]
    exact stands_step h hsync (by omega) (hfair x (List.mem_append_right _ List.mem_cons_self))

end Service

end LedgerStore
