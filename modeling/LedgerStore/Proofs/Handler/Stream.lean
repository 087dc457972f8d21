import LedgerStore.Proofs.Handler.Moves
import LedgerStore.Proofs.Handler.Transcript
import LedgerStore.Proofs.Storage.Serving
import LedgerStore.Proofs.Wire.Request

set_option autoImplicit false

namespace LedgerStore

open Wire

namespace Storage

variable {σ : Type} [Engine σ] {R : Reliable σ} {n : Nat} {m : Contents} {s : Storage σ}
  {c : CodecConfig} {r : Request} {buffer body rest : Bytes}

theorem serve_ready (h : Ready R (n + 1) m s) (hdata : (r.data.getD []).length < 2 ^ 31) :
    (s.serve r).1 = (m.answer R.admits r).1 ∧
      Ready R n (m.answer R.admits r).2 (s.serve r).2 := by
  rw [serve, handle, Contents.answer]
  cases hop : r.op with
  | addEntry =>
    have hput := put_ready h r.key hdata
    dsimp only [wait]
    split at hput
    · next hadmits =>
      obtain ⟨hready, hid⟩ := hput
      obtain ⟨hok, hready'⟩ := await_ready hready hid
      rw [hok]
      simp only [hadmits, if_true]
      exact ⟨rfl, hready'⟩
    · next hadmits =>
      obtain ⟨hready, cause, hrefused⟩ := hput
      obtain ⟨herror, hready'⟩ := await_known hready hrefused
      rw [herror]
      simp only [hadmits, Bool.false_eq_true, if_false]
      exact ⟨rfl, hready'.note _⟩
  | readEntry =>
    have hget : s.get r.key = .ok (m r.key) := R.get h.engine r.key
    rw [hget]
    cases m r.key with
    | none => exact ⟨rfl, h.spares (Nat.le_succ n)⟩
    | some data => exact ⟨rfl, h.spares (Nat.le_succ n)⟩
  | auth => exact ⟨rfl, h.spares (Nat.le_succ n)⟩

theorem handleFrame_ready (h : Ready R (n + 1) m s) (hdecode : Server.decode c body = .ok r)
    (hbody : body.length ≤ maxWireLength) :
    (s.handleFrame c body).1 = Server.encode c (m.answer R.admits r).1 ∧
      Ready R n (m.answer R.admits r).2 (s.handleFrame c body).2 := by
  have hdata := (Server.decode_sound hdecode).2
  obtain ⟨hresponse, hready⟩ := serve_ready (h.note (Server.decodeLine (.ok r))) (r := r) (by
    unfold maxWireLength at hbody
    omega)
  rw [handleFrame_decoded hdecode, ← hresponse]
  split
  · next hencode => exact ⟨hencode.symm, hready⟩
  · next hencode => exact ⟨hencode.symm, hready.note _⟩

theorem processFrom_bad {e : FrameError} (h : takeFrame c.frameLimit buffer = .error e)
    (answered : List Bytes) : processFrom c s answered buffer = (.error e, buffer, s) := by
  rw [processFrom]
  split <;> simp_all

theorem processFrom_rest (h : takeFrame c.frameLimit buffer = .ok none) (answered : List Bytes) :
    processFrom c s answered buffer = (.ok answered.reverse, buffer, s.note ⟨.debug,
      s!"event=frames_processed count={answered.length} buffered={buffer.length}"⟩) := by
  rw [processFrom]
  split <;> simp_all

theorem processFrom_frame (h : takeFrame c.frameLimit buffer = .ok (some (body, rest)))
    (answered : List Bytes) :
    processFrom c s answered buffer =
      match s.handleFrame c body with
      | (.error e, s) => (.error e, rest, s)
      | (.ok reply, s) => processFrom c s (reply :: answered) rest := by
  rw [processFrom]
  split
  · simp_all
  · simp_all
  · next taken =>
    cases h.symm.trans taken
    rfl

def dispatched (c : CodecConfig) (s : Storage σ) (buffer : Bytes) : List Request :=
  match _taken : takeFrame c.frameLimit buffer with
  | .error _ => []
  | .ok none => []
  | .ok (some (body, rest)) =>
    match Server.decode c body with
    | .error _ => []
    | .ok r =>
      match s.handleFrame c body with
      | (.error _, _) => [r]
      | (.ok _, s) => r :: dispatched c s rest
termination_by buffer.length
decreasing_by exact takeFrame_length _taken

theorem dispatched_none (h : ∀ body rest, takeFrame c.frameLimit buffer ≠ .ok (some (body, rest))) :
    dispatched c s buffer = [] := by
  rw [dispatched]
  split
  · rfl
  · rfl
  · next taken => exact absurd taken (h _ _)

theorem dispatched_frame (h : takeFrame c.frameLimit buffer = .ok (some (body, rest))) :
    dispatched c s buffer =
      match Server.decode c body with
      | .error _ => []
      | .ok r =>
        match s.handleFrame c body with
        | (.error _, _) => [r]
        | (.ok _, s) => r :: dispatched c s rest := by
  rw [dispatched]
  split
  · simp_all
  · simp_all
  · next taken =>
    cases h.symm.trans taken
    rfl

theorem handled (htaken : takeFrame c.frameLimit buffer = .ok (some (body, rest)))
    (h : Ready R (n + buffer.length) m s) (hdecode : Server.decode c body = .ok r) :
    (s.handleFrame c body).1 = Server.encode c (m.answer R.admits r).1 ∧
      Ready R (n + rest.length) (m.answer R.admits r).2 (s.handleFrame c body).2 := by
  have hshort := takeFrame_length htaken
  exact handleFrame_ready (h.spares (by omega)) hdecode (takeFrame_eq_some htaken).2.2

structure Realizes (R : Reliable σ) (n : Nat) (t : Transcript) (answered : List Bytes)
    (result : Except FrameError (List Bytes) × Bytes × Storage σ) : Prop where
  replies : result.1 = match t.failure with
    | none => .ok (answered.reverse ++ t.replies)
    | some e => .error e
  left : result.2.1 = t.left
  ready : Ready R (n + t.left.length) t.entries result.2.2

/-- The frames of a buffer are answered as its transcript says. -/
theorem processFrom_ready (h : Ready R (n + buffer.length) m s) (answered : List Bytes) :
    Realizes R n (transcript c R.admits m buffer) answered (processFrom c s answered buffer) ∧
      dispatched c s buffer = (transcript c R.admits m buffer).requests := by
  fun_induction transcript c R.admits m buffer generalizing s answered with
  | case1 m buffer e taken =>
    rw [processFrom_bad taken, dispatched_none (by simp [taken])]
    exact ⟨⟨rfl, rfl, h⟩, rfl⟩
  | case2 m buffer taken =>
    rw [processFrom_rest taken, dispatched_none (by simp [taken])]
    exact ⟨⟨by simp, rfl, h.note _⟩, rfl⟩
  | case3 m buffer body rest taken e decoded =>
    rw [processFrom_frame taken, dispatched_frame taken, handleFrame_malformed decoded, decoded]
    have hroom : n + rest.length ≤ n + buffer.length := by
      have hshort := takeFrame_length taken
      omega
    exact ⟨⟨rfl, rfl, (h.spares hroom).note _⟩, rfl⟩
  | case4 m buffer body rest taken r decoded response m' answer e encoded =>
    obtain ⟨hreply, hready⟩ := handled taken h decoded
    rw [processFrom_frame taken, dispatched_frame taken, decoded]
    rw [answer] at hreply hready
    revert hreply hready
    rcases s.handleFrame c body with ⟨result, s'⟩
    rintro hreply hready
    have hreply : result = .error e := hreply.trans encoded
    rw [hreply]
    exact ⟨⟨rfl, rfl, hready⟩, rfl⟩
  | case5 m buffer body rest taken r decoded response m' answer reply encoded t =>
    rename_i ih
    obtain ⟨hreply, hready⟩ := handled taken h decoded
    rw [processFrom_frame taken, dispatched_frame taken, decoded]
    rw [answer] at hreply hready
    revert hreply hready
    rcases s.handleFrame c body with ⟨result, s'⟩
    rintro hreply hready
    have hreply : result = .ok reply := hreply.trans encoded
    rw [hreply]
    obtain ⟨⟨hreplies, hleft, hready'⟩, hrequests⟩ := ih hready (reply :: answered)
    refine ⟨⟨?_, hleft, hready'⟩, congrArg (r :: ·) hrequests⟩
    rw [hreplies]
    simp [t]

end Storage

/-- What happens while a connection is open: a chunk of its stream arrives, the journal thread makes
a move, or there are other permits for it. -/
inductive Arrival
  | chunk (bytes : Bytes)
  | thread
  | permits (change : PermitSource → PermitSource)

def Arrival.bytes : Arrival → Bytes
  | chunk bytes => bytes
  | _ => []

structure Connection (σ : Type) where
  storage : Storage σ
  buffer : Bytes := []
  requests : List Request := []
  replies : List Bytes := []
  failure : Option FrameError := none

namespace Connection

variable {σ : Type} [Engine σ]

def receive (c : CodecConfig) (x : Connection σ) (bytes : Bytes) : Connection σ :=
  let buffer := x.buffer ++ bytes
  let requests := x.requests ++ x.storage.dispatched c buffer
  match x.storage.processFrames c buffer with
  | (.ok replies, buffer, storage) =>
    { x with storage, buffer, requests, replies := x.replies ++ replies }
  | (.error e, buffer, storage) => { x with storage, buffer, requests, failure := some e }

def step (c : CodecConfig) (x : Connection σ) : Arrival → Connection σ
  | .chunk bytes =>
    match x.failure with
    | none => x.receive c bytes
    | some _ => x
  | .thread => { x with storage := x.storage.act .advance }
  | .permits change => { x with storage := x.storage.withPermits change }

def run (c : CodecConfig) (s : Storage σ) (arrivals : List Arrival) : Connection σ :=
  arrivals.foldl (step c) { storage := s }

variable {R : Reliable σ} {c : CodecConfig} {m : Contents} {n k : Nat} {stream : Bytes}
  {x : Connection σ} {a : Arrival}

/-- A connection on which so much of a stream has arrived, where the engine is good for so many
bytes more. -/
structure Follows (R : Reliable σ) (c : CodecConfig) (m : Contents) (n : Nat) (stream : Bytes)
    (x : Connection σ) : Prop where
  requests : x.requests = (transcript c R.admits m stream).requests
  failure : x.failure = (transcript c R.admits m stream).failure
  replies : x.failure = none → x.replies = (transcript c R.admits m stream).replies
  buffer : x.failure = none → x.buffer = (transcript c R.admits m stream).left
  ready : Storage.Ready R n (transcript c R.admits m stream).entries x.storage
  room : x.failure = none →
    Storage.Ready R (n + x.buffer.length) (transcript c R.admits m stream).entries x.storage

theorem follows_receive {bytes : Bytes} (h : Follows R c m (n + bytes.length) stream x)
    (hopen : x.failure = none) : Follows R c m n (stream ++ bytes) (x.receive c bytes) := by
  let t := transcript c R.admits m stream
  let u := transcript c R.admits t.entries (x.buffer ++ bytes)
  have hwhole : transcript c R.admits m (stream ++ bytes) = t.andThen u := by
    rw [transcript_append (h.failure.symm.trans hopen), ← h.buffer hopen]
  have hroom : Storage.Ready R (n + (x.buffer ++ bytes).length) t.entries x.storage := by
    apply (h.room hopen).spares
    rw [List.length_append]
    omega
  obtain ⟨hrealizes, hrequests⟩ := Storage.processFrom_ready (c := c) hroom []
  rw [receive, Storage.processFrames, hrequests]
  rcases hrun : Storage.processFrom c x.storage [] (x.buffer ++ bytes) with ⟨result, left, storage⟩
  rw [hrun] at hrealizes
  obtain ⟨hreplies, hleft, hready⟩ := hrealizes
  dsimp only at hreplies hleft hready
  have hready' := hready.spares (Nat.le_add_right n _)
  cases hfailure : (transcript c R.admits t.entries (x.buffer ++ bytes)).failure with
  | none =>
    rw [hfailure] at hreplies
    rw [hreplies]
    exact {
      requests := by
        rw [hwhole, h.requests]
        rfl
      failure := by
        rw [hwhole, hopen]
        exact hfailure.symm
      replies := by
        intro _
        rw [hwhole, h.replies hopen]
        rfl
      buffer := by
        intro _
        rw [hwhole]
        exact hleft
      ready := by
        rw [hwhole]
        exact hready'
      room := by
        intro _
        rw [hwhole, hleft]
        exact hready }
  | some e =>
    rw [hfailure] at hreplies
    rw [hreplies]
    exact {
      requests := by
        rw [hwhole, h.requests]
        rfl
      failure := by
        rw [hwhole]
        exact hfailure.symm
      replies := nofun
      buffer := nofun
      ready := by
        rw [hwhole]
        exact hready'
      room := nofun }

theorem Follows.moved (h : Follows R c m n stream x) {s' : Storage σ}
    (hs : ∀ {k e}, Storage.Ready R k e x.storage → Storage.Ready R k e s') :
    Follows R c m n stream { x with storage := s' } :=
  ⟨h.requests, h.failure, h.replies, h.buffer, hs h.ready, fun hopen => hs (h.room hopen)⟩

theorem follows_step (h : Follows R c m (n + a.bytes.length) stream x) :
    Follows R c m n (stream ++ a.bytes) (x.step c a) := by
  cases a with
  | chunk bytes =>
    cases hfailure : x.failure with
    | none =>
      simp only [step, hfailure]
      exact follows_receive h hfailure
    | some e =>
      have hwhole := transcript_append_failed (h.failure.symm.trans hfailure) bytes
      simp only [step, hfailure]
      exact {
        requests := by
          rw [Arrival.bytes, hwhole, h.requests]
        failure := by
          rw [Arrival.bytes, hwhole, h.failure]
        replies := by
          rw [hfailure]
          nofun
        buffer := by
          rw [hfailure]
          nofun
        ready := by
          rw [Arrival.bytes, hwhole]
          exact h.ready.spares (Nat.le_add_right n _)
        room := by
          rw [hfailure]
          nofun }
  | thread =>
    simp only [Arrival.bytes, List.append_nil]
    exact h.moved Storage.Ready.advance
  | permits change =>
    simp only [Arrival.bytes, List.append_nil]
    exact h.moved fun hready => hready.permits change

theorem follows_run {s : Storage σ} (arrivals : List Arrival)
    (h : Storage.Ready R (arrivals.flatMap Arrival.bytes).length m s) :
    Follows R c m 0 (arrivals.flatMap Arrival.bytes) (run c s arrivals) := by
  have hsteps : ∀ (arrivals : List Arrival) (stream : Bytes) (x : Connection σ),
      Follows R c m (arrivals.flatMap Arrival.bytes).length stream x →
      Follows R c m 0 (stream ++ arrivals.flatMap Arrival.bytes) (arrivals.foldl (step c) x) := by
    intro arrivals
    induction arrivals with
    | nil =>
      intro stream x hx
      simpa using hx
    | cons a arrivals ih =>
      intro stream x hx
      rw [List.flatMap_cons, List.length_append, Nat.add_comm] at hx
      rw [List.flatMap_cons, ← List.append_assoc]
      exact ih _ _ (follows_step hx)
  have hnothing : transcript c R.admits m [] = { left := [], entries := m } :=
    transcript_rest (takeFrame_short (by decide))
  have hstart : Follows R c m (arrivals.flatMap Arrival.bytes).length [] { storage := s } := by
    constructor <;> rw [hnothing]
    · exact fun _ => rfl
    · exact fun _ => rfl
    · exact h
    · exact fun _ => h
  exact hsteps arrivals [] _ hstart

/-- It makes no difference how a stream is cut into chunks. From a store with any entries, while no
call to the file system fails, the same requests are dispatched, the same entries are stored and the
same error ends the stream, if one does. If none does, the same replies are sent and the same bytes
are left, which are those behind the last complete frame. -/
theorem run_cut {site : Site} {d : Disk} (hd : site.Vacant d) (moves : List Move)
    (hfair : ∀ move ∈ moves, move.Fair) {e : EntryLog}
    (he : (Life.run site.config d moves).engine = some e) (batching : Bool)
    (permits : PermitSource) (completions : Completions) (c : CodecConfig)
    (arrivals others : List Arrival)
    (hsame : arrivals.flatMap Arrival.bytes = others.flatMap Arrival.bytes)
    (hn : moves.length + (arrivals.flatMap Arrival.bytes).length ≤ FileName.sequenceBound) :
    let host := (Life.run site.config d moves).host.facing []
    let x := run c (Storage.start e host batching permits completions) arrivals
    let y := run c (Storage.start e host batching permits completions) others
    x.requests = y.requests ∧ x.storage.engine.index = y.storage.engine.index ∧
      x.failure = y.failure ∧
      (x.failure = none →
        x.replies = y.replies ∧ x.buffer = y.buffer ∧ takeFrame c.frameLimit x.buffer = .ok none ∧
          ∃ bodies : List Bytes, bodies.length = x.requests.length ∧
            arrivals.flatMap Arrival.bytes = bodies.flatMap frame ++ x.buffer) := by
  intro host x y
  have hholds := Life.reliable_run hd moves hfair hn he
  have hready := Storage.ready_start hholds batching permits completions
  have hx : Follows _ c _ 0 _ x := follows_run arrivals hready
  have hy : Follows _ c _ 0 _ y := follows_run others (hsame ▸ hready)
  rw [← hsame] at hy
  refine ⟨hx.requests.trans hy.requests.symm, ?_, hx.failure.trans hy.failure.symm, fun hopen => ?_⟩
  · exact Index.ext_get? (hx.ready.engine.1.trans hy.ready.engine.1.symm)
  · have hopen' : y.failure = none := by rw [← hopen, hx.failure, hy.failure]
    obtain ⟨⟨bodies, hlength, hstream⟩, hleft⟩ := transcript_left (hx.failure.symm.trans hopen)
    rw [← hx.buffer hopen] at hleft hstream
    rw [← hx.requests] at hlength
    refine ⟨?_, ?_, hleft, bodies, hlength, hstream⟩
    · rw [hx.replies hopen, hy.replies hopen']
    · rw [hx.buffer hopen, hy.buffer hopen']

theorem run_cut_small :
    let moves : List Move := [.start [], .put ⟨7, 0⟩ [1] []]
    let read := frame (Request.readEntry 7 0).body
    let arrivals := [.chunk (read.take 3), .thread, .chunk [], .chunk (read.drop 3 ++ [0])]
    (∀ move ∈ moves, move.Fair) ∧
      ∃ e, (Life.run Site.small.config Site.smallDisk moves).engine = some e ∧
        let host := (Life.run Site.small.config Site.smallDisk moves).host.facing []
        let s := Storage.start e host true (.counted 0) {}
        (run {} s arrivals).requests = (run {} s [.chunk (read ++ [0])]).requests ∧
          (run {} s arrivals).storage.engine.index =
            (run {} s [.chunk (read ++ [0])]).storage.engine.index ∧
          (run {} s arrivals).failure = (run {} s [.chunk (read ++ [0])]).failure := by
  intro moves read arrivals
  have hfair : ∀ move ∈ moves, move.Fair := by simp [moves, Move.Fair]
  have hopened : (Life.run Site.small.config Site.smallDisk moves).engine.isSome = true := by
    decide +kernel
  obtain ⟨e, he⟩ := Option.isSome_iff_exists.1 hopened
  have hsame : arrivals.flatMap Arrival.bytes =
      [Arrival.chunk (read ++ [0])].flatMap Arrival.bytes := by decide +kernel
  have hn : moves.length + (arrivals.flatMap Arrival.bytes).length ≤ FileName.sequenceBound := by
    decide +kernel
  obtain ⟨hrequests, hindex, hfailure, -⟩ := run_cut Site.small_vacant moves hfair he true
    (.counted 0) {} {} arrivals [.chunk (read ++ [0])] hsame hn
  exact ⟨hfair, e, he, hrequests, hindex, hfailure⟩

end Connection

end LedgerStore
