import LedgerStore.Handler
import LedgerStore.Proofs.Index
import LedgerStore.Proofs.Wire.Framing

/-!
What a node makes of a stream, as a function of the stream and of the entries that it holds. The
main statements say that the function is found by taking the stream in parts, and that what is left
of a stream is what follows its last complete frame.
-/

set_option autoImplicit false

namespace LedgerStore

open Wire

/-- The response to a request and the entries after it, where writes of other values than those
admitted fail. -/
def Contents.answer (admits : Bytes → Bool) (m : Contents) (r : Request) : Response × Contents :=
  match r.op with
  | .addEntry =>
    if admits (r.data.getD []) then (.answering r .ok, m.put ⟨r.key, r.data.getD []⟩)
    else (.answering r .io, m)
  | .readEntry =>
    match m r.key with
    | some data => ((Response.answering r .ok).withData data, m)
    | none => (.answering r .noEntry, m)
  | .auth => (.answering r .ok, m)

/-- What comes of a stream: the requests that are dispatched, the replies to them, the error that
ends it, what is left of it and the entries then. -/
structure Transcript where
  requests : List Request := []
  replies : List Bytes := []
  failure : Option FrameError := none
  left : Bytes
  entries : Contents

def Transcript.andThen (t u : Transcript) : Transcript :=
  { u with requests := t.requests ++ u.requests, replies := t.replies ++ u.replies }

section

variable (c : CodecConfig) (admits : Bytes → Bool)

def transcript (m : Contents) (buffer : Bytes) : Transcript :=
  match _taken : takeFrame c.frameLimit buffer with
  | .error e => { failure := some e, left := buffer, entries := m }
  | .ok none => { left := buffer, entries := m }
  | .ok (some (body, rest)) =>
    match Server.decode c body with
    | .error e => { failure := some e, left := rest, entries := m }
    | .ok r =>
      let (response, m) := m.answer admits r
      match Server.encode c response with
      | .error e => { requests := [r], failure := some e, left := rest, entries := m }
      | .ok reply =>
        let t := transcript m rest
        { t with requests := r :: t.requests, replies := reply :: t.replies }
termination_by buffer.length
decreasing_by exact takeFrame_length _taken

variable {c admits} {m : Contents} {buffer : Bytes}

theorem transcript_bad {e : FrameError} (h : takeFrame c.frameLimit buffer = .error e) :
    transcript c admits m buffer = { failure := some e, left := buffer, entries := m } := by
  rw [transcript]
  split <;> simp_all

theorem transcript_rest (h : takeFrame c.frameLimit buffer = .ok none) :
    transcript c admits m buffer = { left := buffer, entries := m } := by
  rw [transcript]
  split <;> simp_all

theorem transcript_frame {body rest : Bytes}
    (h : takeFrame c.frameLimit buffer = .ok (some (body, rest))) :
    transcript c admits m buffer =
      match Server.decode c body with
      | .error e => { failure := some e, left := rest, entries := m }
      | .ok r =>
        match Server.encode c (m.answer admits r).1 with
        | .error e =>
          { requests := [r], failure := some e, left := rest, entries := (m.answer admits r).2 }
        | .ok reply =>
          let t := transcript c admits (m.answer admits r).2 rest
          { t with requests := r :: t.requests, replies := reply :: t.replies } := by
  rw [transcript]
  split
  · simp_all
  · simp_all
  · next taken =>
    cases h.symm.trans taken
    rfl

theorem transcript_append_failed {e : FrameError}
    (h : (transcript c admits m buffer).failure = some e) (more : Bytes) :
    transcript c admits m (buffer ++ more) = { transcript c admits m buffer with
      left := (transcript c admits m buffer).left ++ more } := by
  fun_induction transcript c admits m buffer with
  | case1 m buffer e' taken => rw [transcript_bad (takeFrame_append_error taken more)]
  | case2 m buffer taken => cases h
  | case3 m buffer body rest taken e' decoded =>
    rw [transcript_frame (takeFrame_append taken more), decoded]
  | case4 m buffer body rest taken r decoded response m' answered e' encoded =>
    rw [transcript_frame (takeFrame_append taken more), decoded]
    simp only [answered, encoded]
  | case5 m buffer body rest taken r decoded response m' answered reply encoded t ih =>
    rw [transcript_frame (takeFrame_append taken more), decoded]
    simp only [answered, encoded]
    rw [ih h]

/-- Without an error a stream may be taken in parts: what is left of the first is read with the
second. -/
theorem transcript_append (h : (transcript c admits m buffer).failure = none) (more : Bytes) :
    transcript c admits m (buffer ++ more) =
      (transcript c admits m buffer).andThen (transcript c admits
        (transcript c admits m buffer).entries ((transcript c admits m buffer).left ++ more)) := by
  fun_induction transcript c admits m buffer with
  | case1 m buffer e taken => cases h
  | case2 m buffer taken => rfl
  | case3 m buffer body rest taken e decoded => cases h
  | case4 m buffer body rest taken r decoded response m' answered e encoded => cases h
  | case5 m buffer body rest taken r decoded response m' answered reply encoded t ih =>
    rw [transcript_frame (takeFrame_append taken more), decoded]
    simp only [answered, encoded]
    rw [ih h]
    rfl

/-- Without an error nothing but an incomplete frame is left behind the frames of a stream, one for
each request. -/
theorem transcript_left (h : (transcript c admits m buffer).failure = none) :
    (∃ bodies : List Bytes, bodies.length = (transcript c admits m buffer).requests.length ∧
      buffer = bodies.flatMap frame ++ (transcript c admits m buffer).left) ∧
      takeFrame c.frameLimit (transcript c admits m buffer).left = .ok none := by
  fun_induction transcript c admits m buffer with
  | case1 m buffer e taken => cases h
  | case2 m buffer taken => exact ⟨⟨[], rfl, rfl⟩, taken⟩
  | case3 m buffer body rest taken e decoded => cases h
  | case4 m buffer body rest taken r decoded response m' answered e encoded => cases h
  | case5 m buffer body rest taken r decoded response m' answered reply encoded t ih =>
    obtain ⟨⟨bodies, hlength, hrest⟩, hleft⟩ := ih h
    refine ⟨⟨body :: bodies, congrArg Nat.succ hlength, ?_⟩, hleft⟩
    rw [(takeFrame_eq_some taken).1, List.flatMap_cons, List.append_assoc, ← hrest]

end

end LedgerStore
