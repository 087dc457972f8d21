import LedgerStore.Handler
import LedgerStore.Proofs.Engine.Entries
import LedgerStore.Proofs.Index
import LedgerStore.Proofs.Storage.Turn

set_option autoImplicit false

namespace LedgerStore

open Wire

namespace Storage

variable {σ : Type} [Engine σ] {P : Storage σ → Prop} {allowed : Key → Bytes → Prop} {s : Storage σ}

def serve (s : Storage σ) (r : Request) : Response × Storage σ :=
  (s.handle r).2.wait (s.handle r).1

theorem handleFrame_malformed {c : CodecConfig} {body : Bytes} {e : FrameError}
    (h : Server.decode c body = .error e) :
    s.handleFrame c body = (.error e, s.note (Server.decodeLine (.error e))) := by
  simp only [handleFrame, h]

theorem handleFrame_decoded {c : CodecConfig} {body : Bytes} {r : Request}
    (h : Server.decode c body = .ok r) :
    let served := (s.note (Server.decodeLine (.ok r))).serve r
    s.handleFrame c body =
      match Server.encode c served.1 with
      | .error e => (.error e, served.2)
      | .ok reply => (.ok reply, served.2.note (Server.encodeLine served.1)) := by
  simp only [handleFrame, h]
  rfl

/-- A fact that stays true when a line is logged and under every move that applies no other writes
than those allowed. -/
structure Invariant (P : Storage σ → Prop) (allowed : Key → Bytes → Prop) : Prop where
  note : ∀ s line, P s → P (s.note line)
  act : ∀ s deed, (∀ key value, deed = .apply key value → allowed key value) → P s → P (s.act deed)

namespace Invariant

variable (inv : Invariant P allowed)

include inv

theorem settle (h : P s) : P s.settle := by
  have hrun : ∀ n s, P s → P ((List.replicate n Deed.advance).foldl Storage.act s) := by
    intro n
    induction n with
    | zero => exact fun s h => h
    | succ n ih =>
      intro s h
      rw [List.replicate_succ, List.foldl_cons]
      exact ih _ (inv.act s .advance nofun h)
  rw [Storage.settle, ← foldl_advance]
  exact hrun _ _ h

theorem await (h : P s) (id : Nat) : P (s.await id).2 := by
  have hsettled := inv.settle h
  have hgranted := inv.settle (inv.act _ (.permits PermitSource.grant) nofun hsettled)
  rw [Storage.await]
  dsimp only
  split
  · exact hsettled
  · exact hgranted

theorem conclude (h : P s) (r : Response) (o : Outcome) : P (s.conclude r o).2 := by
  cases o with
  | ok _ => exact h
  | error cause => exact inv.note _ _ h

theorem wait (h : P s) (p : PendingResponse) : P (s.wait p).2 := by
  cases p with
  | ready r => exact h
  | durable r id => exact inv.conclude (inv.await h id) _ _

theorem put (h : P s) {key : Key} {value : Bytes} (ha : allowed key value) :
    P (s.put key value).2 := by
  have happly : P (s.apply key value).2 := by
    refine inv.act s (.apply key value) ?_ h
    rintro _ _ ⟨⟩
    exact ha
  exact inv.act _ (.send _) nofun happly

theorem serve (h : P s) {r : Request} (ha : r.op = .addEntry → allowed r.key (r.data.getD [])) :
    P (s.serve r).2 := by
  apply inv.wait
  rw [Storage.handle]
  split
  · next hop => exact inv.put h (ha hop)
  · split
    · exact h
    · exact h
    · exact inv.note _ _ h
  · exact h

theorem handleFrame (h : P s) (c : CodecConfig) {body : Bytes}
    (ha : ∀ r, Server.decode c body = .ok r → r.op = .addEntry → allowed r.key (r.data.getD [])) :
    P (s.handleFrame c body).2 := by
  cases hdecode : Server.decode c body with
  | error e =>
    rw [handleFrame_malformed hdecode]
    exact inv.note _ _ h
  | ok r =>
    have hserved := inv.serve (inv.note s (Server.decodeLine (.ok r)) h) (ha r hdecode)
    rw [handleFrame_decoded hdecode]
    split
    · exact hserved
    · exact inv.note _ _ hserved

end Invariant

theorem invariant_outcome (id : Nat) (o : Outcome) :
    Invariant (fun s : Storage σ => s.completions.outcome? id = some o) (fun _ _ => True) where
  note _ _ h := h
  act s deed _ h := (lasting_act s deed).outcome? id o h

theorem index_advance (s : Storage EntryLog) : (s.act .advance).engine.index = s.engine.index := by
  cases ht : s.thread with
  | none => rw [(act_without_thread ht).1]
  | some t =>
    rcases act_advance ht with ⟨-, hsame, -⟩ | hturn
    · rw [hsame]
    · by_cases hphase : t.phase = .syncing
      · have hsync : s.act .advance = (s.commit t).2 := by
          simp only [act, advance, advanceShown, ht, hphase, Option.map_some, Option.getD_some]
        rw [hsync, (commit_state s t).1]
        exact EntryLog.index_sync _
      · rw [(hturn.quiet (hturn.ne_ended hphase)).engine]

/-- A write that is applied is in the index, and that it is refused is known at once. -/
theorem apply_cases (s : Storage EntryLog) (key : Key) (value : Bytes) :
    (s.apply key value).2.engine.index = s.engine.index.insert key value ∨
      (s.apply key value).2.engine.index = s.engine.index ∧ ∃ cause,
        (s.apply key value).2.completions.outcome? (s.apply key value).1 = some (.error cause) := by
  have hput := EntryLog.index_put key value (s.engine, s.host)
  rw [apply, applyShown]
  revert hput
  cases Engine.put key value (s.engine, s.host) with
  | ok u w =>
    intro hput
    dsimp only
    split <;> exact Or.inl hput
  | error cause w =>
    intro hput
    refine Or.inr ⟨hput, .applyFailed key cause.message, ?_⟩
    simp [answer, Completions.ready, Completions.outcome?_add, Completion.Cell.ready, note]

/-- Only writes change the index. -/
theorem index_act (s : Storage EntryLog) {deed : Deed} (h : ∀ key value, deed ≠ .apply key value) :
    (s.act deed).engine.index = s.engine.index := by
  cases deed with
  | apply key value => exact absurd rfl (h key value)
  | send id => rw [act, (quiet_send s id).engine]
  | advance => exact index_advance s
  | permits change => rfl
  | shutdown => rw [act, (quiet_shutdown s).engine]

theorem invariant_entry (key : Key) (value : Option Bytes) :
    Invariant (fun s : Storage EntryLog => s.engine.index.get? key = value)
      (fun other _ => other ≠ key) where
  note _ _ h := h
  act s deed ha h := by
    cases deed with
    | apply other written =>
      have hne := ha other written rfl
      rw [act]
      rcases apply_cases s other written with hindex | ⟨hindex, -⟩
      · rw [hindex, Index.get?_insert, Contents.put, if_neg (Ne.symm hne), h]
      · rw [hindex, h]
    | _ =>
      rw [index_act s (by simp)]
      exact h

end Storage

end LedgerStore
