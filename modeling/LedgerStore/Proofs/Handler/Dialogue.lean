import LedgerStore.Proofs.Handler.Moves
import LedgerStore.Proofs.Storage.Kept
import LedgerStore.Proofs.Storage.Owed

/-!
Dialogues with the handler: requests are passed to it, the journal thread moves, and the responses
are asked for, in any order. The main statement is that the handler answers like a map of the
entries whose adds the engine has applied.
-/

set_option autoImplicit false

namespace LedgerStore

open Wire

/-- A request that was passed to the handler, the response that its caller has yet to wait for, and
whether the engine has applied its write. -/
structure Exchange where
  request : Request
  pending : PendingResponse
  applied : Bool

namespace Exchange

def write? (x : Exchange) : Option Record :=
  if x.applied then some ⟨x.request.key, x.request.data.getD []⟩ else none

def contents (first : Contents) (xs : List Exchange) : Contents :=
  first.after (xs.filterMap write?)

end Exchange

def Contents.answerRead (m : Contents) (r : Request) : Response :=
  match m r.key with
  | some data => (Response.answering r .ok).withData data
  | none => .answering r .noEntry

theorem Contents.answerRead_echoes (m : Contents) (r : Request) :
    (m.answerRead r).version = r.version ∧ (m.answerRead r).op = r.op ∧
      (m.answerRead r).ledger = r.ledger ∧ (m.answerRead r).entry = r.entry := by
  unfold answerRead
  cases m r.key <;> exact ⟨rfl, rfl, rfl, rfl⟩

namespace Storage

def takes (s : Storage EntryLog) (r : Request) : Bool :=
  match r.op, Engine.put r.key (r.data.getD []) (s.engine, s.host) with
  | .addEntry, .ok _ _ => true
  | _, _ => false

def handleDeeds (s : Storage EntryLog) (r : Request) : List Deed :=
  match r.op with
  | .addEntry =>
    [.apply r.key (r.data.getD []), .send (s.apply r.key (r.data.getD [])).1]
  | _ => []

def waitDeeds (s : Storage EntryLog) : PendingResponse → List Deed
  | .ready _ => []
  | .durable _ id =>
    List.replicate s.moves .advance ++
      if (s.settle.completions.outcome? id).isSome then []
      else .permits PermitSource.grant :: List.replicate s.settle.grant.moves .advance

end Storage

/-- A write path below a handler, with all events between it and its engine, the requests so far,
and the responses that were given, each with the place of its request. -/
structure Dialogue where
  storage : Storage EntryLog
  events : List Event := []
  exchanges : List Exchange := []
  replies : List (Nat × Response) := []

namespace Dialogue

inductive Move
  | handle (r : Request)
  | offer (r : Request)
  | send (id : Nat)
  | advance
  | permits (change : PermitSource → PermitSource)
  | shutdown
  | poll (i : Nat)
  | wait (i : Nat)

def start (e : EntryLog) (host : Host) (batching : Bool) (permits : PermitSource) : Dialogue where
  storage := Storage.start e host batching permits {}

def follow (d : Dialogue) (deeds : List Storage.Deed) : Dialogue :=
  { d with
    storage := (deeds.foldl Storage.watch (d.storage, d.events)).1
    events := (deeds.foldl Storage.watch (d.storage, d.events)).2 }

def enter (d : Dialogue) (x : Exchange) : Dialogue :=
  { d with exchanges := d.exchanges ++ [x] }

def reply (d : Dialogue) (i : Nat) (response : Response) : Dialogue :=
  { d with replies := (i, response) :: d.replies }

def Returned (d : Dialogue) (x : Exchange) : Prop :=
  ∀ response id, x.pending = .durable response id → id ∉ d.storage.sending.map (·.1)

instance (d : Dialogue) (x : Exchange) : Decidable (d.Returned x) :=
  match h : x.pending with
  | .ready _ => isTrue fun _ _ heq => by simp [h] at heq
  | .durable response id =>
    if hid : id ∈ d.storage.sending.map (·.1) then isFalse fun hall => hall response id h hid
    else isTrue fun _ _ heq => by
      rw [h] at heq
      cases heq
      exact hid

def step (d : Dialogue) : Move → Dialogue
  | .handle r =>
    { d.follow (d.storage.handleDeeds r) with storage := (d.storage.handle r).2 }.enter
      ⟨r, (d.storage.handle r).1, d.storage.takes r⟩
  | .offer r =>
    match r.op with
    | .addEntry =>
      (d.follow [.apply r.key (r.data.getD [])]).enter
        ⟨r, .durable (.answering r .ok) (d.storage.apply r.key (r.data.getD [])).1,
          d.storage.takes r⟩
    | _ => d
  | .send id => d.follow [.send id]
  | .advance => d.follow [.advance]
  | .permits change => d.follow [.permits change]
  | .shutdown => d.follow [.shutdown]
  | .poll i =>
    match d.exchanges[i]? with
    | none => d
    | some x =>
      let d' := { d with storage := (d.storage.poll x.pending).2 }
      match (d.storage.poll x.pending).1 with
      | none => d'
      | some response => d'.reply i response
  | .wait i =>
    match d.exchanges[i]? with
    | none => d
    | some x =>
      if d.Returned x then
        { d.follow (d.storage.waitDeeds x.pending) with
          storage := (d.storage.wait x.pending).2 }.reply i (d.storage.wait x.pending).1
      else d

end Dialogue

namespace Storage

def settled (response : Response) : Outcome → Response
  | .ok _ => response
  | .error _ => { response with code := .io }

structure Same {σ : Type} (s s' : Storage σ) : Prop where
  engine : s'.engine = s.engine
  thread : s'.thread = s.thread
  completions : s'.completions = s.completions
  sending : s'.sending = s.sending

section Steps

variable {σ : Type} [Engine σ]

omit [Engine σ] in
theorem Same.refl (s : Storage σ) : Same s s :=
  ⟨rfl, rfl, rfl, rfl⟩

omit [Engine σ] in
theorem conclude_state (s : Storage σ) (response : Response) (o : Outcome) :
    (s.conclude response o).1 = settled response o ∧ Same s (s.conclude response o).2 := by
  cases o with
  | ok _ => exact ⟨rfl, .refl s⟩
  | error cause => exact ⟨rfl, rfl, rfl, rfl, rfl⟩

theorem foldl_watch (deeds : List Deed) (w : Storage σ × List Event) :
    (deeds.foldl watch w).1 = deeds.foldl act w.1 := by
  induction deeds generalizing w with
  | nil => rfl
  | cons deed deeds ih => exact ih (watch w deed)

end Steps

theorem foldl_handle (s : Storage EntryLog) (r : Request) :
    (s.handleDeeds r).foldl act s = (s.handle r).2 := by
  unfold handle handleDeeds
  cases r.op with
  | addEntry => rfl
  | readEntry =>
    simp only [get, Engine.get]
    cases s.engine.index.get? r.key <;> rfl
  | auth => rfl

theorem waitDeeds_ne (s : Storage EntryLog) (p : PendingResponse) :
    ∀ deed ∈ s.waitDeeds p, ∀ key value, deed ≠ .apply key value := by
  rintro _ hmem key value rfl
  cases p with
  | ready response => simp [waitDeeds] at hmem
  | durable response id =>
    rw [waitDeeds] at hmem
    split at hmem <;> simp at hmem

theorem foldl_wait (s : Storage EntryLog) (response : Response) (id : Nat) :
    (s.waitDeeds (.durable response id)).foldl act s = (s.await id).2 := by
  rw [waitDeeds, List.foldl_append, foldl_advance, await, ← settle]
  dsimp only
  split
  · rfl
  · rw [List.foldl_cons, foldl_advance]
    rfl

theorem Tracked.same {σ : Type} {s s' : Storage σ} {id : Nat} (h : Tracked s id) (hs : Same s s') :
    Tracked s' id := by
  cases h with
  | sending thread pending caller =>
    exact .sending (hs.thread.trans thread) (hs.completions ▸ pending) (hs.sending ▸ caller)
  | due due =>
    cases due with
    | known o outcome => exact .due (.known o (hs.completions ▸ outcome))
    | owed thread pending place =>
      exact .due (.owed (hs.thread.trans thread) (hs.completions ▸ pending) place)

theorem act_without_journal {σ : Type} [Engine σ] {s : Storage σ} (h : s.thread = none)
    (deed : Deed) : (s.act deed).thread = none := by
  cases deed with
  | apply key value =>
    rw [act, apply, applyShown]
    cases Engine.put key value (s.engine, s.host) with
    | error cause w => exact h
    | ok u w =>
      simp only [h]
      rfl
  | send id =>
    rw [act, send, h]
    cases s.sending.lookup id <;> exact h
  | advance => rw [(act_without_thread h).1, h]
  | permits change => simp [act, withPermits, h]
  | shutdown => simp [act, requestShutdown, h]

end Storage

namespace Exchange

open Storage

variable {before : Contents} {batching : Bool} {s s' : Storage EntryLog} {events : List Event}
  {x : Exchange}

inductive Told (before : Contents) (batching : Bool) (s : Storage EntryLog) (events : List Event)
    (x : Exchange) : Prop
  | read (op : x.request.op = .readEntry)
      (pending : x.pending = .ready (before.answerRead x.request))
  | auth (op : x.request.op = .auth) (pending : x.pending = .ready (.answering x.request .ok))
  | refused (op : x.request.op = .addEntry) (applied : x.applied = false) {id : Nat}
      (pending : x.pending = .durable (.answering x.request .ok) id) (cause : StorageError)
      (outcome : s.completions.outcome? id = some (.error cause))
  | plain (op : x.request.op = .addEntry) (applied : x.applied = true) (alone : batching = false)
      {id : Nat} (pending : x.pending = .durable (.answering x.request .ok) id)
      (outcome : s.completions.outcome? id = some (.ok ()))
  | queued (op : x.request.op = .addEntry) (applied : x.applied = true)
      (together : batching = true) {id : Nat}
      (pending : x.pending = .durable (.answering x.request .ok) id)
      (shown : .applied id ∈ events) (tracked : Tracked s id)

inductive Given (s : Storage EntryLog) (x : Exchange) (response : Response) : Prop
  | ready (pending : x.pending = .ready response)
  | durable {good : Response} {id : Nat} {o : Outcome} (pending : x.pending = .durable good id)
      (outcome : s.completions.outcome? id = some o) (same : response = settled good o)

theorem Told.act (h : x.Told before batching s events) (deed : Deed) :
    x.Told before batching (s.act deed) ((s.event? deed).toList ++ events) := by
  have hlasts := (lasting_act s deed).outcome?
  cases h with
  | read op pending => exact .read op pending
  | auth op pending => exact .auth op pending
  | refused op applied pending cause outcome =>
    exact .refused op applied pending cause (hlasts _ _ outcome)
  | plain op applied alone pending outcome =>
    exact .plain op applied alone pending (hlasts _ _ outcome)
  | queued op applied together pending shown tracked =>
    exact .queued op applied together pending (List.mem_append_right _ shown) (tracked.act deed)

theorem Told.same (h : x.Told before batching s events) (hs : Same s s') :
    x.Told before batching s' events := by
  cases h with
  | read op pending => exact .read op pending
  | auth op pending => exact .auth op pending
  | refused op applied pending cause outcome =>
    exact .refused op applied pending cause (hs.completions ▸ outcome)
  | plain op applied alone pending outcome =>
    exact .plain op applied alone pending (hs.completions ▸ outcome)
  | queued op applied together pending shown tracked =>
    exact .queued op applied together pending shown (tracked.same hs)

theorem Given.of_ready {response r : Response} (h : x.Given s response)
    (hr : x.pending = .ready r) : response = r := by
  cases h with
  | ready pending => exact PendingResponse.ready.inj (pending.symm.trans hr)
  | durable pending outcome same => cases pending.symm.trans hr

theorem Given.of_durable {response r : Response} {id : Nat} (h : x.Given s response)
    (hr : x.pending = .durable r id) :
    ∃ o, s.completions.outcome? id = some o ∧ response = settled r o := by
  cases h with
  | ready pending => cases pending.symm.trans hr
  | durable pending outcome same =>
    cases pending.symm.trans hr
    exact ⟨_, outcome, same⟩

theorem Given.lasts {response : Response} (h : x.Given s response)
    (hlasts : ∀ id o, s.completions.outcome? id = some o → s'.completions.outcome? id = some o) :
    x.Given s' response := by
  cases h with
  | ready pending => exact .ready pending
  | durable pending outcome same => exact .durable pending (hlasts _ _ outcome) same

end Exchange

namespace Dialogue

open Storage Exchange

structure Sound (first : Contents) (batching : Bool) (d : Dialogue) : Prop where
  alone : batching = false → d.storage.thread = none
  kept : batching = true → ∃ t, Kept {} d.events d.storage t
  told : ∀ (i : Nat) (x : Exchange), d.exchanges[i]? = some x →
    x.Told (contents first (d.exchanges.take i)) batching d.storage d.events
  given : ∀ y ∈ d.replies, ∃ x : Exchange, d.exchanges[y.1]? = some x ∧ x.Given d.storage y.2

def Mirrored (first : Contents) (d : Dialogue) : Prop :=
  d.storage.engine.index.get? = contents first d.exchanges

variable {first : Contents} {batching : Bool} {d : Dialogue} {x : Exchange} {r : Request}

namespace Sound

theorem same (h : d.Sound first batching) {s' : Storage EntryLog} (hs : Same d.storage s') :
    ({ d with storage := s' } : Dialogue).Sound first batching where
  alone hb := hs.thread.trans (h.alone hb)
  kept hb := by
    obtain ⟨t, hkept⟩ := h.kept hb
    exact ⟨t, hkept.congr hs.thread hs.completions hs.sending⟩
  told i x hx := (h.told i x hx).same hs
  given y hy := by
    obtain ⟨x, hx, hgiven⟩ := h.given y hy
    exact ⟨x, hx, hgiven.lasts fun id o ho => hs.completions ▸ ho⟩

theorem move (h : d.Sound first batching) (deed : Deed) :
    (d.follow [deed]).Sound first batching where
  alone hb := act_without_journal (h.alone hb) deed
  kept hb := by
    obtain ⟨t, hkept⟩ := h.kept hb
    exact kept_watch hkept deed
  told i x hx := (h.told i x hx).act deed
  given y hy := by
    obtain ⟨x, hx, hgiven⟩ := h.given y hy
    exact ⟨x, hx, hgiven.lasts (lasting_act d.storage deed).outcome?⟩

theorem follow (h : d.Sound first batching) (deeds : List Deed) :
    (d.follow deeds).Sound first batching := by
  induction deeds generalizing d with
  | nil => exact h
  | cons deed deeds ih => exact ih (h.move deed)

theorem enter (h : d.Sound first batching)
    (hx : x.Told (contents first d.exchanges) batching d.storage d.events) :
    (d.enter x).Sound first batching where
  alone := h.alone
  kept := h.kept
  told i y hy := by
    by_cases hlt : i < d.exchanges.length
    · have hold : d.exchanges[i]? = some y := by
        rwa [Dialogue.enter, List.getElem?_append_left hlt] at hy
      have htake : (d.enter x).exchanges.take i = d.exchanges.take i :=
        List.take_append_of_le_length (Nat.le_of_lt hlt)
      rw [htake]
      exact h.told i y hold
    · have hlen : i < d.exchanges.length + 1 := by
        have := (List.getElem?_eq_some_iff.1 hy).1
        simpa [Dialogue.enter] using this
      obtain rfl : i = d.exchanges.length := by omega
      have hnew : y = x := by simpa [Dialogue.enter] using hy.symm
      have htake : (d.enter x).exchanges.take d.exchanges.length = d.exchanges := List.take_left
      rw [htake, hnew]
      exact hx
  given y hy := by
    obtain ⟨z, hz, hgiven⟩ := h.given y hy
    refine ⟨z, ?_, hgiven⟩
    rwa [Dialogue.enter, List.getElem?_append_left (List.getElem?_eq_some_iff.1 hz).1]

theorem reply (h : d.Sound first batching) {i : Nat} (hx : d.exchanges[i]? = some x)
    {response : Response} (hgiven : x.Given d.storage response) :
    (d.reply i response).Sound first batching where
  alone := h.alone
  kept := h.kept
  told := h.told
  given y hy := by
    rcases List.mem_cons.1 hy with rfl | hy
    · exact ⟨x, hx, hgiven⟩
    · exact h.given y hy

end Sound

theorem contents_concat (first : Contents) (xs : List Exchange) (x : Exchange) :
    contents first (xs ++ [x]) = (contents first xs).after x.write?.toList := by
  cases hx : x.write? <;> simp [contents, Contents.after, List.filterMap_append, hx]

theorem Sound.told_apply (h : d.Sound first batching) (hop : r.op = .addEntry) (before : Contents) :
    Exchange.Told before batching (d.storage.act (.apply r.key (r.data.getD [])))
      ((d.storage.event? (.apply r.key (r.data.getD []))).toList ++ d.events)
      ⟨r, .durable (.answering r .ok) (d.storage.apply r.key (r.data.getD [])).1,
        d.storage.takes r⟩ := by
  rw [act]
  cases hput : Engine.put r.key (r.data.getD []) (d.storage.engine, d.storage.host) with
  | error cause w =>
    refine .refused hop ?_ rfl (.applyFailed r.key cause.message) ?_
    · simp [takes, hput]
    · simp [apply, applyShown, hput, answer, Completions.ready, Completions.outcome?_add,
        Completion.Cell.ready, Storage.note]
  | ok u w =>
    have htakes : d.storage.takes r = true := by simp [takes, hput, hop]
    cases batching with
    | false =>
      refine .plain hop htakes rfl rfl ?_
      simp [apply, applyShown, hput, h.alone rfl, answer, Completions.ready, Completions.outcome?_add,
        Completion.Cell.ready]
    | true =>
      obtain ⟨t, hkept⟩ := h.kept rfl
      refine .queued hop htakes rfl rfl ?_ ?_
      · simp [event?, apply, applyShown, hput, hkept.thread]
      · have hpending : (d.storage.completions.pair).2.Pending d.storage.completions.pair.1 := by
          simp [Completions.Pending, Completions.pair, Completions.cell_add]
        simp only [apply, applyShown, hput, hkept.thread]
        exact .sending rfl hpending (by simp)

theorem mirrored_apply (h : d.Mirrored first) (hop : r.op = .addEntry) (p : PendingResponse) :
    (d.storage.act (.apply r.key (r.data.getD []))).engine.index.get? =
      contents first (d.exchanges ++ [⟨r, p, d.storage.takes r⟩]) := by
  have hindex := EntryLog.index_put r.key (r.data.getD []) (d.storage.engine, d.storage.host)
  rw [contents_concat, ← h, act, apply, applyShown]
  revert hindex
  cases hput : Engine.put r.key (r.data.getD []) (d.storage.engine, d.storage.host) with
  | error cause w =>
    intro hindex
    simp only [takes, hput, hop, write?, Bool.false_eq_true, if_false]
    exact congrArg Index.get? hindex
  | ok u w =>
    intro hindex
    simp only [takes, hput, hop, write?, if_true]
    have hentered : w.1.index.get? =
        Contents.put d.storage.engine.index.get? ⟨r.key, r.data.getD []⟩ :=
      (congrArg Index.get? hindex).trans (Index.get?_insert _ _ _)
    cases d.storage.thread <;> exact hentered

theorem mirrored_move (h : d.Mirrored first) {deed : Deed}
    (hno : ∀ key value, deed ≠ .apply key value) : (d.follow [deed]).Mirrored first :=
  (congrArg Index.get? (index_act d.storage hno)).trans h

theorem mirrored_follow (h : d.Mirrored first) {deeds : List Deed}
    (hno : ∀ deed ∈ deeds, ∀ key value, deed ≠ .apply key value) :
    (d.follow deeds).Mirrored first := by
  induction deeds generalizing d with
  | nil => exact h
  | cons deed deeds ih =>
    exact ih (mirrored_move h (hno deed List.mem_cons_self)) fun other hother =>
      hno other (List.mem_cons_of_mem _ hother)

theorem mirrored_enter (h : d.Mirrored first) (hx : x.applied = false) :
    (d.enter x).Mirrored first := by
  have hcontents := contents_concat first d.exchanges x
  rw [write?, hx] at hcontents
  exact h.trans hcontents.symm

theorem step_handle (d : Dialogue) (r : Request) : d.step (.handle r) =
    (d.follow (d.storage.handleDeeds r)).enter
      ⟨r, (d.storage.handle r).1, d.storage.takes r⟩ := by
  have hstorage : (d.follow (d.storage.handleDeeds r)).storage = (d.storage.handle r).2 := by
    rw [Dialogue.follow, foldl_watch, foldl_handle]
  rw [step, ← hstorage]

def Holds (first : Contents) (batching : Bool) (d : Dialogue) : Prop :=
  d.Sound first batching ∧ d.Mirrored first

theorem holds_offer (h : d.Holds first batching) (hop : r.op = .addEntry) :
    ((d.follow [.apply r.key (r.data.getD [])]).enter
      ⟨r, .durable (.answering r .ok) (d.storage.apply r.key (r.data.getD [])).1,
        d.storage.takes r⟩).Holds first batching :=
  ⟨(h.1.move _).enter (h.1.told_apply hop _), mirrored_apply h.2 hop _⟩

theorem holds_handle (h : d.Holds first batching) (r : Request) :
    (d.step (.handle r)).Holds first batching := by
  rw [step_handle]
  cases hop : r.op with
  | addEntry =>
    have hoffer := holds_offer h hop
    have hsent := hoffer.1.move (.send (d.storage.apply r.key (r.data.getD [])).1)
    have hplain : ∀ key value, Deed.send (d.storage.apply r.key (r.data.getD [])).1 ≠
        .apply key value := by simp
    have hmirrored := mirrored_move hoffer.2 hplain
    simp only [handleDeeds, handle, hop]
    exact ⟨hsent, hmirrored⟩
  | readEntry =>
    have htakes : d.storage.takes r = false := by simp [takes, hop]
    have hpending : (d.storage.handle r).1 =
        .ready ((contents first d.exchanges).answerRead r) := by
      have hget : d.storage.get r.key = .ok (contents first d.exchanges r.key) :=
        congrArg (fun m : Contents => Except.ok (m r.key)) h.2
      simp only [handle, hop, hget, Contents.answerRead]
      cases contents first d.exchanges r.key <;> rfl
    simp only [handleDeeds, hop]
    exact ⟨h.1.enter (.read hop hpending), mirrored_enter h.2 htakes⟩
  | auth =>
    have htakes : d.storage.takes r = false := by simp [takes, hop]
    have hpending : (d.storage.handle r).1 = .ready (.answering r .ok) := by simp [handle, hop]
    simp only [handleDeeds, hop]
    exact ⟨h.1.enter (.auth hop hpending), mirrored_enter h.2 htakes⟩

theorem poll_state (s : Storage EntryLog) (x : Exchange) : Same s (s.poll x.pending).2 ∧
    ∀ response, (s.poll x.pending).1 = some response → x.Given s response := by
  cases hp : x.pending with
  | ready response =>
    refine ⟨.refl s, fun given hgiven => .ready ?_⟩
    rw [hp]
    exact congrArg PendingResponse.ready (Option.some.inj hgiven)
  | durable good id =>
    rw [poll]
    cases ho : s.completions.outcome? id with
    | none => exact ⟨.refl s, by simp [report]⟩
    | some o =>
      obtain ⟨hresponse, hsame⟩ := s.conclude_state good o
      exact ⟨hsame, fun given hgiven =>
        .durable hp ho ((Option.some.inj hgiven).symm.trans hresponse)⟩

theorem holds_poll (h : d.Holds first batching) (i : Nat) :
    (d.step (.poll i)).Holds first batching := by
  rw [step]
  cases hx : d.exchanges[i]? with
  | none => exact h
  | some x =>
    obtain ⟨hsame, hgiven⟩ := poll_state d.storage x
    have hsound := h.1.same hsame
    have hmirrored : Mirrored first { d with storage := (d.storage.poll x.pending).2 } := by
      rw [Mirrored, hsame.engine]
      exact h.2
    dsimp only
    cases hpoll : (d.storage.poll x.pending).1 with
    | none => exact ⟨hsound, hmirrored⟩
    | some response =>
      have hlater := (hgiven response hpoll).lasts fun id o ho => hsame.completions ▸ ho
      exact ⟨hsound.reply hx hlater, hmirrored⟩

/-- The outcome that a caller waits for is known or owed. -/
theorem due_of_told {before : Contents} {good : Response} {id : Nat}
    (h : x.Told before batching d.storage d.events) (hreturned : d.Returned x)
    (hp : x.pending = .durable good id) : Due False d.storage id := by
  cases h with
  | read op pending => cases hp.symm.trans pending
  | auth op pending => cases hp.symm.trans pending
  | refused op applied pending cause outcome =>
    cases hp.symm.trans pending
    exact .known _ outcome
  | plain op applied alone pending outcome =>
    cases hp.symm.trans pending
    exact .known _ outcome
  | queued op applied together pending shown tracked =>
    cases hp.symm.trans pending
    cases tracked with
    | sending thread _ caller => exact absurd caller (hreturned _ _ pending)
    | due due => exact due

theorem wait_state {before : Contents} (h : x.Told before batching d.storage d.events)
    (hreturned : d.Returned x) :
    Same (d.follow (d.storage.waitDeeds x.pending)).storage (d.storage.wait x.pending).2 ∧
      x.Given (d.storage.wait x.pending).2 (d.storage.wait x.pending).1 := by
  cases hp : x.pending with
  | ready response => exact ⟨.refl _, .ready hp⟩
  | durable good id =>
    have hknown := await_due (due_of_told h hreturned hp)
    have hmoved : (d.follow (d.storage.waitDeeds (.durable good id))).storage =
        (d.storage.await id).2 := by
      rw [Dialogue.follow, foldl_watch, foldl_wait]
    obtain ⟨hresponse, hsame⟩ := (d.storage.await id).2.conclude_state good (d.storage.await id).1
    rw [hmoved]
    exact ⟨hsame, .durable hp (hsame.completions ▸ hknown) hresponse⟩

theorem holds_wait (h : d.Holds first batching) (i : Nat) :
    (d.step (.wait i)).Holds first batching := by
  rw [step]
  cases hx : d.exchanges[i]? with
  | none => exact h
  | some x =>
    dsimp only
    split
    · next hreturned =>
      obtain ⟨hsame, hgiven⟩ := wait_state (h.1.told i x hx) hreturned
      have hmirrored : Mirrored first { d.follow (d.storage.waitDeeds x.pending) with
          storage := (d.storage.wait x.pending).2 } := by
        rw [Mirrored, hsame.engine]
        exact mirrored_follow h.2 (waitDeeds_ne _ _)
      exact ⟨((h.1.follow _).same hsame).reply hx hgiven, hmirrored⟩
    · exact h

theorem holds_step (h : d.Holds first batching) (m : Move) : (d.step m).Holds first batching := by
  cases m with
  | handle r => exact holds_handle h r
  | offer r =>
    rw [step]
    cases hop : r.op with
    | addEntry => exact holds_offer h hop
    | readEntry => exact h
    | auth => exact h
  | send id => exact ⟨h.1.move _, mirrored_move h.2 (by simp)⟩
  | advance => exact ⟨h.1.move _, mirrored_move h.2 (by simp)⟩
  | permits change => exact ⟨h.1.move _, mirrored_move h.2 (by simp)⟩
  | shutdown => exact ⟨h.1.move _, mirrored_move h.2 (by simp)⟩
  | poll i => exact holds_poll h i
  | wait i => exact holds_wait h i

theorem holds_start (e : EntryLog) (host : Host) (batching : Bool) (permits : PermitSource) :
    (start e host batching permits).Holds e.index.get? batching := by
  have hsound : (start e host batching permits).Sound e.index.get? batching :=
    { alone := by
        rintro rfl
        rfl
      kept := by
        rintro rfl
        exact ⟨_, kept_start e host permits {}⟩
      told := by simp [start]
      given := by simp [start] }
  exact ⟨hsound, rfl⟩

theorem holds_run (e : EntryLog) (host : Host) (batching : Bool) (permits : PermitSource)
    (moves : List Move) :
    (moves.foldl step (start e host batching permits)).Holds e.index.get? batching := by
  induction moves using List.reverseRecOn with
  | nil => exact holds_start e host batching permits
  | append_singleton moves m ih =>
    rw [List.foldl_append]
    exact holds_step ih m

/-- The engine has applied the add, and with batching a sync that came back well has covered it. -/
def Acknowledged (batching : Bool) (d : Dialogue) (x : Exchange) : Prop :=
  x.applied = true ∧ (batching = true → ∃ good id, x.pending = .durable good id ∧
    ∃ c ∈ Event.calls d.events, id ∈ c.batch ∧ .applied id ∈ c.before ∧ c.ending = .synced)

/-- The response is what a map of the entries answers, but for adds that it cannot vouch for. -/
structure Answers (first : Contents) (batching : Bool) (d : Dialogue) (i : Nat) (x : Exchange)
    (response : Response) : Prop where
  version : response.version = x.request.version
  op : response.op = x.request.op
  ledger : response.ledger = x.request.ledger
  entry : response.entry = x.request.entry
  read : x.request.op = .readEntry →
    response = (contents first (d.exchanges.take i)).answerRead x.request
  add : x.request.op = .addEntry → response.data = none ∧
    (response.code = .ok ∧ d.Acknowledged batching x ∨
      response.code = .io ∧ ¬ d.Acknowledged batching x)
  auth : x.request.op = .auth → response = .answering x.request .ok

theorem answers_add {i : Nat} {response : Response} {o : Outcome}
    (hop : x.request.op = .addEntry) (hsame : response = settled (.answering x.request .ok) o)
    (hgood : o = .ok () ↔ d.Acknowledged batching x) :
    Answers first batching d i x response := by
  have hother : x.request.op ≠ .readEntry ∧ x.request.op ≠ .auth := by simp [hop]
  rw [hsame]
  cases o with
  | ok u => exact ⟨rfl, rfl, rfl, rfl, fun h => absurd h hother.1,
      fun _ => ⟨rfl, Or.inl ⟨rfl, hgood.1 rfl⟩⟩, fun h => absurd h hother.2⟩
  | error cause =>
    have hbad : ¬ d.Acknowledged batching x := fun h => by cases hgood.2 h
    exact ⟨rfl, rfl, rfl, rfl, fun h => absurd h hother.1,
      fun _ => ⟨rfl, Or.inr ⟨rfl, hbad⟩⟩, fun h => absurd h hother.2⟩

/-- The outcome of a write is good if and only if a good sync has covered it. -/
theorem Sound.covered_iff (h : d.Sound first batching) (together : batching = true) {id : Nat}
    {o : Outcome} (ho : d.storage.completions.outcome? id = some o) :
    o = .ok () ↔ ∃ c ∈ Event.calls d.events,
      id ∈ c.batch ∧ .applied id ∈ c.before ∧ c.ending = .synced := by
  obtain ⟨t, hkept⟩ := h.kept together
  constructor
  · rintro rfl
    rcases hkept.explained id _ ho with hfirst | he
    · cases hfirst
    · exact he.good
  · rintro ⟨c, hc, hid, -, hend⟩
    have hgood : c.outcome = .ok () := by rw [SyncCall.outcome, hend]; rfl
    rcases (hkept.calls c hc).2.2 id hid with hknown | ⟨hbatch, -⟩
    · exact (Option.some.inj (ho.symm.trans hknown)).trans hgood
    · have hwaits : id ∈ d.storage.waiting t :=
        List.mem_append_right _ (List.mem_append_right _ hbatch)
      rw [(hkept.pending id hwaits).1.outcome?] at ho
      cases ho

theorem Sound.answers (h : d.Sound first batching) {i : Nat} (hx : d.exchanges[i]? = some x)
    {response : Response} (hgiven : x.Given d.storage response) :
    Answers first batching d i x response := by
  cases h.told i x hx with
  | read op pending =>
    rw [hgiven.of_ready pending]
    have hother : x.request.op ≠ .addEntry ∧ x.request.op ≠ .auth := by simp [op]
    obtain ⟨hversion, hop, hledger, hentry⟩ :=
      (contents first (d.exchanges.take i)).answerRead_echoes x.request
    exact ⟨hversion, hop, hledger, hentry, fun _ => rfl, fun h => absurd h hother.1,
      fun h => absurd h hother.2⟩
  | auth op pending =>
    rw [hgiven.of_ready pending]
    have hother : x.request.op ≠ .readEntry ∧ x.request.op ≠ .addEntry := by simp [op]
    exact ⟨rfl, rfl, rfl, rfl, fun h => absurd h hother.1, fun h => absurd h hother.2, fun _ => rfl⟩
  | refused op applied pending cause outcome =>
    obtain ⟨o, ho, hsame⟩ := hgiven.of_durable pending
    cases outcome.symm.trans ho
    exact answers_add op hsame (by simp [Acknowledged, applied])
  | plain op applied alone pending outcome =>
    obtain ⟨o, ho, hsame⟩ := hgiven.of_durable pending
    cases outcome.symm.trans ho
    exact answers_add op hsame (by simp [Acknowledged, applied, alone])
  | queued op applied together pending shown tracked =>
    obtain ⟨o, ho, hsame⟩ := hgiven.of_durable pending
    refine answers_add op hsame ((h.covered_iff together ho).trans ?_)
    simp [Acknowledged, applied, together, pending]

structure Faithful (first : Contents) (batching : Bool) (d : Dialogue) : Prop where
  replies : ∀ y ∈ d.replies, ∃ x : Exchange, d.exchanges[y.1]? = some x ∧
    Answers first batching d y.1 x y.2
  /-- A wait gets a response, and a response that is there can be had without one. -/
  waits : ∀ (i : Nat) (x : Exchange), d.exchanges[i]? = some x → d.Returned x →
    (∃ response, (i, response) ∈ (d.step (.wait i)).replies) ∧
      (d.storage.isReady x.pending = true → ∃ response, (i, response) ∈ (d.step (.poll i)).replies)
  /-- The engine holds the entries of the adds that it applied, whatever became of their syncs. -/
  entries : d.storage.engine.index.get? = contents first d.exchanges
  refused : ∀ r, d.storage.takes r = false →
    (d.step (.handle r)).storage.engine.index.get? = contents first d.exchanges
  auth : ∀ r, r.op = .auth →
    (d.step (.handle r)).storage = d.storage ∧ (d.step (.handle r)).events = d.events

theorem Holds.faithful (h : d.Holds first batching) : d.Faithful first batching where
  replies y hy := by
    obtain ⟨x, hx, hgiven⟩ := h.1.given y hy
    exact ⟨x, hx, h.1.answers hx hgiven⟩
  waits i x hx hreturned := by
    constructor
    · simp [step, hx, hreturned, reply]
    · intro hready
      simp only [step, hx]
      cases hp : x.pending with
      | ready response => exact ⟨_, List.mem_cons_self⟩
      | durable good id =>
        rw [hp] at hready
        obtain ⟨o, ho⟩ := Option.isSome_iff_exists.1 hready
        simp [poll, report, ho, reply]
  entries := h.2
  refused r hr := by
    have hnext := (holds_handle h r).2
    have hentered : (d.step (.handle r)).exchanges =
        d.exchanges ++ [⟨r, (d.storage.handle r).1, d.storage.takes r⟩] := by rw [step_handle]; rfl
    rw [Mirrored, hentered, contents_concat, write?, hr] at hnext
    exact hnext
  auth r hop := by
    rw [step_handle]
    simp only [handleDeeds, hop]
    exact ⟨rfl, rfl⟩

/-- The handler answers like a map of entries. Whatever the file system does, with batching or
without, and in whatever order requests are passed to the handler, the journal thread moves and
responses are asked for, each response is what the map of the applied adds answers, and an add is
acknowledged if and only if it was applied and, with batching, covered by a good sync. -/
theorem faithful_run (e : EntryLog) (host : Host) (batching : Bool) (permits : PermitSource)
    (moves : List Move) :
    (moves.foldl step (start e host batching permits)).Faithful e.index.get? batching :=
  (holds_run e host batching permits moves).faithful

end Dialogue

end LedgerStore
