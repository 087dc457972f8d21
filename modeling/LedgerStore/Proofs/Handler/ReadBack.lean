import LedgerStore.Proofs.Archive.Site
import LedgerStore.Proofs.Handler.Moves
import LedgerStore.Proofs.Wire.Response
import LedgerStore.Storage.Durable

set_option autoImplicit false

namespace LedgerStore

open Wire

namespace Wire.CodecConfig

/-- The client sends a request, of which the node takes this body off the stream. -/
def Sends (c : CodecConfig) (r : Request) (body : Bytes) : Prop :=
  ∃ wire, Client.encode c r = .ok wire ∧ takeFrame c.frameLimit wire = .ok (some (body, []))

def Reads (c : CodecConfig) (reply : Bytes) (r : Response) : Prop :=
  ∃ body, takeFrame c.frameLimit reply = .ok (some (body, [])) ∧ Client.decode body = .ok r

variable {c : CodecConfig} {r : Request} {body reply : Bytes}

theorem sends_iff :
    c.Sends r body ↔ (r.CarriesKey → r.masterKey.length = c.masterKeyLength) ∧
      (r.op = .addEntry → r.data ≠ none) ∧ r.bodyLength ≤ c.frameLimit ∧ body = r.body := by
  constructor
  · rintro ⟨wire, hencode, htaken⟩
    obtain ⟨hkey, hdata, hlimit, rfl⟩ := Client.encode_eq_ok.1 hencode
    have hown := takeFrame_own (r.length_body ▸ hlimit)
    cases htaken.symm.trans hown
    exact ⟨hkey, hdata, hlimit, rfl⟩
  · rintro ⟨hkey, hdata, hlimit, rfl⟩
    exact ⟨frame r.body, Client.encode_eq_ok.2 ⟨hkey, hdata, hlimit, rfl⟩,
      takeFrame_own (r.length_body ▸ hlimit)⟩

theorem Sends.decode (h : c.Sends r body) : Server.decode c body = .ok r.carried := by
  obtain ⟨hkey, hdata, -, rfl⟩ := sends_iff.1 h
  exact Server.decode_body hkey hdata

theorem sends_read (key : Key) (hlimit : headerLength + entryIdFields ≤ c.frameLimit) :
    c.Sends (.readEntry key.ledger key.entry) (Request.readEntry key.ledger key.entry).body := by
  have hplain : (Request.readEntry key.ledger key.entry).isFencing = false := by
    change isFencing 0 = false
    decide
  refine sends_iff.2 ⟨?_, nofun, ?_, rfl⟩
  · rintro (hop | ⟨-, hfencing⟩)
    · cases hop
    · rw [hplain] at hfencing
      cases hfencing
  · rw [Request.bodyLength, hplain]
    simpa [Request.readEntry] using hlimit

theorem reads_of_encode {r : Response} (h : Server.encode c r = .ok reply) :
    c.Reads reply r.carried := by
  obtain ⟨hlimit, rfl⟩ := Server.encode_eq_ok.1 h
  exact ⟨Server.body r, takeFrame_own (r.length_body ▸ hlimit), Client.decode_body r⟩

theorem Reads.eq {r r' : Response} (h : c.Reads reply r) (h' : c.Reads reply r') : r = r' := by
  obtain ⟨body, htaken, hread⟩ := h
  obtain ⟨body', htaken', hread'⟩ := h'
  cases htaken.symm.trans htaken'
  cases hread.symm.trans hread'
  rfl

end Wire.CodecConfig

/-- What happens to a node: a frame is handled, or a caller or the journal thread moves. -/
inductive Traffic
  | frame (c : CodecConfig) (body : Bytes)
  | move (deed : Storage.Deed)

def Traffic.Spares (key : Key) : Traffic → Prop
  | .frame c body => ∀ r, Server.decode c body = .ok r → r.op = .addEntry → r.key ≠ key
  | .move deed => ∀ value, deed ≠ .apply key value

namespace Storage

def carry (s : Storage EntryLog) : Traffic → Storage EntryLog
  | .frame c body => (s.handleFrame c body).2
  | .move deed => s.act deed

variable {s : Storage EntryLog} {c : CodecConfig} {body : Bytes} {r : Request}

theorem carry_keeps {key : Key} {value : Option Bytes} (traffic : List Traffic)
    (hspares : ∀ x ∈ traffic, x.Spares key) (h : s.engine.index.get? key = value) :
    (traffic.foldl carry s).engine.index.get? key = value := by
  induction traffic generalizing s with
  | nil => exact h
  | cons x traffic ih =>
    have hx := hspares x List.mem_cons_self
    apply ih (fun y hy => hspares y (List.mem_cons_of_mem _ hy))
    cases x with
    | frame c body => exact (invariant_entry key value).handleFrame h c hx
    | move deed =>
      refine (invariant_entry key value).act s deed ?_ h
      rintro other written rfl rfl
      exact hx written rfl

/-- A write that is awaited well is in the index. -/
theorem put_entered {key : Key} {value : Bytes}
    (h : ((s.put key value).2.await (s.put key value).1).1 = .ok ()) :
    ((s.put key value).2.await (s.put key value).1).2.engine.index.get? key = some value := by
  rw [put] at h ⊢
  rcases apply_cases s key value with hindex | ⟨-, cause, hrefused⟩
  · have hentered : (s.apply key value).2.engine.index.get? key = some value := by
      rw [hindex, Index.get?_insert, Contents.put, if_pos rfl]
    have hsent := (invariant_entry key (some value)).act _ (.send (s.apply key value).1) (by simp)
      hentered
    exact (invariant_entry key (some value)).await hsent _
  · have hknown := (invariant_outcome _ _).act _ (.send (s.apply key value).1) (by simp)
      hrefused
    have hawaited := (invariant_outcome _ _).await hknown (s.apply key value).1
    have houtcome : (((s.apply key value).2.send (s.apply key value).1).await
        (s.apply key value).1).1 = .error cause := congrArg (Option.getD · _) hawaited
    rw [houtcome] at h
    cases h

/-- An add whose client reads that it went well is in the index. -/
theorem serve_add (hop : r.op = .addEntry) (hok : (s.serve r).1.carried.code = .ok) :
    (s.serve r).2.engine.index.get? r.key = some (r.data.getD []) := by
  have hput := @put_entered s r.key (r.data.getD [])
  simp only [serve, handle, hop, wait] at hok ⊢
  revert hput hok
  rcases (s.put r.key (r.data.getD [])).2.await (s.put r.key (r.data.getD [])).1 with ⟨outcome, s'⟩
  intro hput hok
  cases outcome with
  | ok u => exact hput rfl
  | error cause => simp [conclude, Response.carried, Response.answering, hop] at hok

theorem serve_read (hop : r.op = .readEntry) {value : Bytes}
    (hget : s.engine.index.get? r.key = some value) :
    s.serve r = ((Response.answering r .ok).withData value, s) := by
  have hget : s.get r.key = .ok (some value) := congrArg Except.ok hget
  simp only [serve, handle, hop, hget, wait]

theorem handleFrame_add {reply : Bytes} {response : Response}
    (hdecode : Server.decode c body = .ok r) (hop : r.op = .addEntry)
    (hhandled : (s.handleFrame c body).1 = .ok reply) (hreads : c.Reads reply response)
    (hok : response.code = .ok) :
    (s.handleFrame c body).2.engine.index.get? r.key = some (r.data.getD []) := by
  rw [handleFrame_decoded hdecode] at hhandled ⊢
  revert hhandled
  cases hencode : Server.encode c ((s.note (Server.decodeLine (.ok r))).serve r).1 with
  | error e => nofun
  | ok reply' =>
    rintro ⟨⟩
    rw [hreads.eq (CodecConfig.reads_of_encode hencode)] at hok
    exact serve_add hop hok

theorem handleFrame_read (hdecode : Server.decode c body = .ok r) (hop : r.op = .readEntry)
    {value : Bytes} (hget : s.engine.index.get? r.key = some value) :
    (s.handleFrame c body).1 = Server.encode c ((Response.answering r .ok).withData value) := by
  have hserved := serve_read (s := s.note (Server.decodeLine (.ok r))) hop hget
  rw [handleFrame_decoded hdecode, hserved]
  dsimp only
  split
  · next hencode => rw [hencode]
  · next hencode => rw [hencode]

/-- An entry whose add was answered well is read back, whatever has been asked of the node since,
unless another was added under its key. Only data that is too long for the response is not sent, and
there is none with master keys of four bytes at least. -/
theorem read_back (config : Config) (s : Storage EntryLog) (key : Key) (masterKey value : Bytes)
    {body reply : Bytes} {response : Response}
    (hsent : (CodecConfig.ofConfig config).Sends
      (.addEntry key.ledger key.entry masterKey value) body)
    (hhandled : (s.handleFrame (.ofConfig config) body).1 = .ok reply)
    (hreads : (CodecConfig.ofConfig config).Reads reply response) (hok : response.code = .ok)
    (traffic : List Traffic) (hspares : ∀ x ∈ traffic, x.Spares key) :
    let limit := (CodecConfig.ofConfig config).frameLimit
    let length := headerLength + responseFixedBody + value.length
    let later := traffic.foldl carry (s.handleFrame (.ofConfig config) body).2
    (4 ≤ config.masterKeyLength → length ≤ limit) ∧
      ∃ ask, (CodecConfig.ofConfig config).Sends (.readEntry key.ledger key.entry) ask ∧
        if limit < length then
          (later.handleFrame (.ofConfig config) ask).1 = .error (.tooLarge length limit)
        else ∃ answer, (later.handleFrame (.ofConfig config) ask).1 = .ok answer ∧
          (CodecConfig.ofConfig config).Reads answer ⟨currentVersion, .readEntry, .ok, key.ledger,
            key.entry, if value = [] then none else some value⟩ := by
  intro limit length later
  obtain ⟨hkey, -, hroom, -⟩ := CodecConfig.sends_iff.1 hsent
  have hkey : masterKey.length = config.masterKeyLength := hkey (Or.inl rfl)
  have hroom : headerLength + (masterKey.length + entryIdFields + value.length) ≤ limit := hroom
  have hentered : (s.handleFrame (.ofConfig config) body).2.engine.index.get? key = some value :=
    handleFrame_add hsent.decode rfl hhandled hreads hok
  have hlater : later.engine.index.get? key = some value := carry_keeps traffic hspares hentered
  constructor
  · intro hfour
    simp only [length, headerLength, responseFixedBody, entryIdFields] at hroom ⊢
    omega
  · have hasked := CodecConfig.sends_read key (c := .ofConfig config) (by omega)
    have hanswer := handleFrame_read hasked.decode rfl hlater
    refine ⟨_, hasked, ?_⟩
    let found : Response := ⟨currentVersion, .readEntry, .ok, key.ledger, key.entry, some value⟩
    have hlength : found.bodyLength = length := (Nat.add_assoc ..).symm
    have hanswer : (later.handleFrame (.ofConfig config) _).1 =
      Server.encode (.ofConfig config) found := hanswer
    rw [hanswer]
    split
    · next hlong => rw [Server.encode_eq, hlength, if_pos hlong]
    · next hlong =>
      have hencode : Server.encode (.ofConfig config) found = .ok (frame (Server.body found)) := by
        rw [Server.encode_eq, hlength, if_neg hlong]
      refine ⟨_, hencode, ?_⟩
      have hdata : (some value).filter (· ≠ []) = if value = [] then none else some value := by
        by_cases hempty : value = [] <;> simp [Option.filter, hempty]
      rw [← hdata]
      exact CodecConfig.reads_of_encode hencode

theorem read_back_small :
    let c := CodecConfig.ofConfig Site.small.config
    let add := Request.addEntry 7 0 (List.replicate 20 5) [1, 2]
    ∃ s host, openDurable Site.small.config {} { disk := Site.smallDisk } = (.ok s, host) ∧
      ∃ ask, c.Sends (.readEntry 7 0) ask ∧ ∃ answer,
        (((s.handleFrame c add.body).2.act .advance).handleFrame c ask).1 = .ok answer ∧
          c.Reads answer ⟨currentVersion, .readEntry, .ok, 7, 0, some [1, 2]⟩ := by
  intro c add
  let response : Response := ⟨currentVersion, .addEntry, .ok, 7, 0, none⟩
  have hrun : (match openDurable Site.small.config {} { disk := Site.smallDisk } with
      | (.ok s, _) => decide ((s.handleFrame c add.body).1 = .ok (frame (Server.body response)))
      | (.error _, _) => false) = true := by decide +kernel
  have hsent : c.Sends add add.body :=
    CodecConfig.sends_iff.2 ⟨fun _ => rfl, nofun, by decide, rfl⟩
  have hreads : c.Reads (frame (Server.body response)) response :=
    CodecConfig.reads_of_encode (r := response) rfl
  have hspares : ∀ x ∈ [Traffic.move .advance], x.Spares ⟨7, 0⟩ := by
    intro x hx
    rw [List.mem_singleton.1 hx]
    exact nofun
  rcases hopen : openDurable Site.small.config {} { disk := Site.smallDisk } with ⟨opened, host⟩
  rw [hopen] at hrun
  cases opened with
  | error cause => cases hrun
  | ok s =>
    have hhandled := of_decide_eq_true hrun
    obtain ⟨-, ask, hask, hanswer⟩ := read_back Site.small.config s ⟨7, 0⟩ (List.replicate 20 5)
      [1, 2] hsent hhandled hreads rfl [.move .advance] hspares
    rw [if_neg (by decide)] at hanswer
    exact ⟨s, host, rfl, ask, hask, hanswer⟩

/-- With a master key of one byte the longest entry is accepted and cannot be read. -/
theorem short_key_hides :
    let config := { Site.small.config with maxValueSize := 8, masterKeyLength := 1 }
    let c := CodecConfig.ofConfig config
    let add := Request.addEntry 7 0 [5] (List.replicate 8 1)
    let response : Response := ⟨currentVersion, .addEntry, .ok, 7, 0, none⟩
    config.validate = .ok () ∧
      ∃ s host, openDurable config {} { disk := Site.smallDisk } = (.ok s, host) ∧
        ∃ body reply ask, c.Sends add body ∧ (s.handleFrame c body).1 = .ok reply ∧
          c.Reads reply response ∧ c.Sends (.readEntry 7 0) ask ∧
          ((s.handleFrame c body).2.handleFrame c ask).1 = .error (.tooLarge 32 29) := by
  intro config c add response
  let ask := (Request.readEntry 7 0).body
  have hrun : (match openDurable config {} { disk := Site.smallDisk } with
      | (.ok s, _) =>
        decide ((s.handleFrame c add.body).1 = .ok (frame (Server.body response)) ∧
          ((s.handleFrame c add.body).2.handleFrame c ask).1 = .error (.tooLarge 32 29))
      | (.error _, _) => false) = true := by decide +kernel
  have hsent : c.Sends add add.body :=
    CodecConfig.sends_iff.2 ⟨fun _ => rfl, nofun, by decide, rfl⟩
  have hreads : c.Reads (frame (Server.body response)) response :=
    CodecConfig.reads_of_encode (r := response) rfl
  have hasked : c.Sends (.readEntry 7 0) ask := CodecConfig.sends_read ⟨7, 0⟩ (by decide)
  rcases hopen : openDurable config {} { disk := Site.smallDisk } with ⟨opened, host⟩
  rw [hopen] at hrun
  cases opened with
  | error cause => cases hrun
  | ok s =>
    obtain ⟨hhandled, hrefused⟩ := of_decide_eq_true hrun
    exact ⟨rfl, s, host, rfl, _, _, _, hsent, hhandled, hreads, hasked, hrefused⟩

end Storage

end LedgerStore
