import LedgerStore.Journal.Writer

/-!
A small logic of actions: what holds of the state after an action that ends well, and after one
that fails. The rules for calls to the file system say in addition that a call fails only if a
fault befalls it, where the faults that may come are those of a mood.
-/

set_option autoImplicit false

namespace LedgerStore

section Logic

variable {ε σ τ α β : Type}

/-- From a state with `pre` an action ends well with `post` or fails with `fail`. -/
def Ensures (pre : σ → Prop) (act : EStateM ε σ α) (post : α → σ → Prop) (fail : σ → Prop) :
    Prop :=
  ∀ s, pre s →
    match act s with
    | .ok a s' => post a s'
    | .error _ s' => fail s'

namespace Ensures

variable {pre pre' : σ → Prop} {act : EStateM ε σ α} {post post' : α → σ → Prop}
  {fail fail' : σ → Prop}

theorem weaken (h : Ensures pre act post fail) (hpre : ∀ s, pre' s → pre s)
    (hpost : ∀ a s, post a s → post' a s) (hfail : ∀ s, fail s → fail' s) :
    Ensures pre' act post' fail' := by
  intro s hs
  have hrun := h s (hpre s hs)
  revert hrun
  cases act s with
  | ok a s' => exact hpost a s'
  | error e s' => exact hfail s'

theorem pure {a : α} (h : ∀ s, pre s → post a s) :
    Ensures pre (Pure.pure a : EStateM ε σ α) post fail := by
  intro s hs
  exact h s hs

theorem bind {M : α → σ → Prop} {next : α → EStateM ε σ β} {post : β → σ → Prop}
    (hact : Ensures pre act M fail) (hnext : ∀ a, Ensures (M a) (next a) post fail) :
    Ensures pre (act >>= next) post fail := by
  intro s hs
  have hrun := hact s hs
  change match EStateM.bind act next s with
    | .ok b s' => post b s'
    | .error _ s' => fail s'
  rw [EStateM.bind]
  revert hrun
  cases act s with
  | ok a s' => exact hnext a s'
  | error e s' => exact id

theorem change {f : σ → σ} {post : PUnit → σ → Prop} (h : ∀ s, pre s → post ⟨⟩ (f s)) :
    Ensures pre (modify f : EStateM ε σ PUnit) post fail := by
  intro s hs
  exact h s hs

/-- What follows a look at the state may rely on the state that was seen. -/
theorem get_bind {next : σ → EStateM ε σ β} {post : β → σ → Prop}
    (h : ∀ s, pre s → Ensures (fun t => t = s) (next s) post fail) :
    Ensures pre (get >>= next) post fail :=
  fun s hs => h s hs s rfl

theorem and {post' : α → σ → Prop} (h : Ensures pre act post fail)
    (h' : Ensures (fun _ => True) act post' (fun _ => True)) :
    Ensures pre act (fun a s => post a s ∧ post' a s) fail := by
  intro s hs
  have hrun := h s hs
  have hrun' := h' s trivial
  revert hrun hrun'
  cases act s with
  | ok a s' => exact fun hrun hrun' => ⟨hrun, hrun'⟩
  | error e s' => exact fun hrun _ => hrun

theorem trivial : Ensures pre act (fun _ _ => True) (fun _ => True) := by
  intro s _
  cases act s <;> exact True.intro

theorem answer {act : EStateM ε σ α} {f : α → β} {post : β → Prop} (h : ∀ a, post (f a)) :
    Ensures (fun _ => True) (act >>= fun a => Pure.pure (f a)) (fun b _ => post b)
      (fun _ => True) :=
  Ensures.bind Ensures.trivial fun a => Ensures.pure fun _ _ => h a

theorem peek {p : Prop} (hp : ∀ s, pre s → p) (h : p → Ensures pre act post fail) :
    Ensures pre act post fail :=
  fun s hs => h (hp s hs) s hs

theorem fact {p : Prop} (h : p → Ensures pre act post fail) :
    Ensures (fun s => p ∧ pre s) act post fail :=
  fun s hs => h hs.1 s hs.2

end Ensures

/-- Whether an action ended well, with what the check accepts. -/
def endedWith (check : α → σ → Bool) : EStateM.Result ε σ α → Bool
  | .ok a s => check a s
  | .error _ _ => false

theorem ok_of_endedWith {check : α → σ → Bool} {run : EStateM.Result ε σ α}
    (h : endedWith check run = true) : ∃ a s, run = .ok a s ∧ check a s = true := by
  cases run with
  | ok a s => exact ⟨a, s, rfl, h⟩
  | error e s => cases h

end Logic

abbrev Mood := Fault → Prop

namespace Mood

def Calm (mood : Mood) : Prop :=
  ∀ f, mood f → f = .clear

/-- A call that fails has no effect. -/
def Whole (mood : Mood) : Prop :=
  ∀ f, mood f → ∀ kept reason, f ≠ .cut kept reason

theorem calm_nil : Mood.Calm (· ∈ ([] : List Fault)) :=
  fun _ hf => nomatch hf

theorem Calm.whole {mood : Mood} (h : mood.Calm) : mood.Whole := by
  rintro f hf kept reason rfl
  cases h _ hf

end Mood

namespace Host

/-- The file system is as `P` says, and the faults to come are those of the mood. -/
structure Holds (mood : Mood) (P : Disk → Prop) (h : Host) : Prop where
  disk : P h.disk
  faults : ∀ f ∈ h.faults, mood f

def facing (h : Host) (faults : List Fault) : Host :=
  { h with faults }

def Failed (mood : Mood) (P : Disk → Prop) (h : Host) : Prop :=
  h.Holds mood P ∧ ¬ mood.Calm

/-- The same after a failure that only a fault explains, if the condition holds. -/
def FailedIf (mood : Mood) (C : Prop) (P : Disk → Prop) (h : Host) : Prop :=
  h.Holds mood P ∧ (C → ¬ mood.Calm)

variable {mood : Mood} {α : Type} {P R : Disk → Prop}

theorem holds_facing {h : Host} (hd : P h.disk) (faults : List Fault) :
    (h.facing faults).Holds (· ∈ faults) P :=
  ⟨hd, fun _ hf => hf⟩

theorem Holds.imp {h : Host} (hh : h.Holds mood P) (himp : ∀ d, P d → R d) : h.Holds mood R :=
  ⟨himp _ hh.disk, hh.faults⟩

theorem Failed.imp {h : Host} (hh : h.Failed mood P) (himp : ∀ d, P d → R d) :
    h.Failed mood R :=
  ⟨hh.1.imp himp, hh.2⟩

theorem Holds.answer {p : Prop} {h : Host} (hh : h.Holds mood fun d => p ∧ P d) :
    p ∧ h.Holds mood P :=
  ⟨hh.disk.1, hh.imp fun _ hd => hd.2⟩

theorem Holds.spent {h : Host} (hh : h.Holds mood P) {d : Disk} (hd : R d) :
    { h.spent with disk := d }.Holds mood R :=
  ⟨hd, fun f hf => hh.faults f (List.mem_of_mem_tail hf)⟩

theorem Holds.note {h : Host} (hh : h.Holds mood P) (line : LogLine) :
    (h.note line).Holds mood P :=
  ⟨hh.disk, hh.faults⟩

theorem Holds.notes {h : Host} (hh : h.Holds mood P) (lines : List LogLine) :
    (lines.foldl Host.note h).Holds mood P := by
  induction lines generalizing h with
  | nil => exact hh
  | cons line lines ih => exact ih (hh.note line)

theorem Holds.fault {h : Host} (hh : h.Holds mood P) : h.fault = .clear ∨ mood h.fault := by
  rw [Host.fault]
  cases hf : h.faults with
  | nil => exact Or.inl rfl
  | cons f rest => exact Or.inr (hh.faults f (hf ▸ List.mem_cons_self))

theorem Holds.failed {h : Host} (hh : h.Holds mood P) (hf : h.fault ≠ .clear) :
    h.spent.Failed mood P :=
  ⟨hh.spent hh.disk, fun hc => hf (hh.fault.elim id fun hm => hc _ hm)⟩

theorem ensures_call {run : EStateM IoFailure Disk α} {Q : α → Disk → Prop}
    (hrun : Ensures P run Q R) :
    Ensures (Holds mood P) (call run) (fun a => Holds mood (Q a))
      (fun h => Holds mood R h ∨ Failed mood P h) := by
  intro h hh
  have hr := hrun h.disk hh.disk
  rw [call]
  cases hf : h.fault with
  | clear =>
    revert hr
    cases hd : run h.disk with
    | ok a d => exact fun hr => hh.spent hr
    | error e d => exact fun hr => Or.inl (hh.spent hr)
  | refuse reason => exact Or.inr (hh.failed (by simp [hf]))
  | cut kept reason => exact Or.inr (hh.failed (by simp [hf]))

theorem ensures_atomic {run : Disk → Except IoFailure (α × Disk)} {Q : α → Disk → Prop}
    (hrun : ∀ d, P d → ∃ a d', run d = .ok (a, d') ∧ Q a d') :
    Ensures (Holds mood P) (atomic run) (fun a => Holds mood (Q a)) (Failed mood P) := by
  rw [atomic]
  refine (ensures_call (Q := Q) (R := fun _ => False) ?_).weaken (fun _ => id) (fun _ _ => id)
    fun h hf => hf.elim (fun hfalse => hfalse.disk.elim) id
  intro d hd
  obtain ⟨a, d', hr, hq⟩ := hrun d hd
  simpa only [hr] using hq

theorem ensures_atomic_or {run : Disk → Except IoFailure (α × Disk)} {Q : α → Disk → Prop}
    (hrun : ∀ d, P d → ∀ a d', run d = .ok (a, d') → Q a d') :
    Ensures (Holds mood P) (atomic run) (fun a => Holds mood (Q a)) (Holds mood P) := by
  rw [atomic]
  refine (ensures_call (Q := Q) (R := P) ?_).weaken (fun _ => id) (fun _ _ => id)
    fun h hf => hf.elim id fun hfail => hfail.1
  intro d hd
  cases hr : run d with
  | ok r => simpa only [hr] using hrun d hd r.1 r.2 hr
  | error e => simpa only [hr] using hd

theorem ensures_ask {look : Disk → Except IoFailure α} {Q : α → Disk → Prop}
    (hlook : ∀ d, P d → ∃ a, look d = .ok a ∧ Q a d) :
    Ensures (Holds mood P) (ask look) (fun a => Holds mood (Q a)) (Failed mood P) := by
  refine ensures_atomic fun d hd => ?_
  obtain ⟨a, ha, hq⟩ := hlook d hd
  exact ⟨a, d, by rw [ha]; rfl, hq⟩

theorem ensures_ask_or {look : Disk → Except IoFailure α} {Q : α → Disk → Prop}
    (hlook : ∀ d, P d → ∀ a, look d = .ok a → Q a d) :
    Ensures (Holds mood P) (ask look) (fun a => Holds mood (Q a)) (Holds mood P) := by
  refine ensures_atomic_or fun d hd a d' hr => ?_
  cases hl : look d with
  | ok b =>
    rw [hl] at hr
    cases hr
    exact hlook d hd _ hl
  | error e => rw [hl] at hr; cases hr

theorem ensures_alter {run : Disk → Except IoFailure Disk} {Q : Disk → Prop}
    (hrun : ∀ d, P d → ∃ d', run d = .ok d' ∧ Q d') :
    Ensures (Holds mood P) (alter run) (fun _ => Holds mood Q) (Failed mood P) := by
  refine ensures_atomic fun d hd => ?_
  obtain ⟨d', hd', hq⟩ := hrun d hd
  exact ⟨(), d', by rw [hd']; rfl, hq⟩

theorem ensures_alter_or {run : Disk → Except IoFailure Disk} {Q : Disk → Prop}
    (hrun : ∀ d, P d → ∀ d', run d = .ok d' → Q d') :
    Ensures (Holds mood P) (alter run) (fun _ => Holds mood Q) (Holds mood P) := by
  refine ensures_atomic_or fun d hd a d' hr => ?_
  cases hl : run d with
  | ok d'' =>
    rw [hl] at hr
    cases hr
    exact hrun d hd _ hl
  | error e => rw [hl] at hr; cases hr

theorem ensures_append {handle : Handle} {bs : Bytes} {Q : Disk → Prop} (hmood : mood.Whole)
    (hrun : ∀ d, P d → ∃ d', d.append handle bs = .ok d' ∧ Q d') :
    Ensures (Holds mood P) (append handle bs) (fun _ => Holds mood Q) (Failed mood P) := by
  intro h hh
  have halter : Ensures (Holds mood P) (alter fun d => d.append handle bs)
      (fun _ => Holds mood Q) (Failed mood P) := ensures_alter hrun
  have ha := halter h hh
  rw [append]
  cases hf : h.fault with
  | clear => exact ha
  | refuse reason => exact ha
  | cut kept reason =>
    have hm := hh.fault
    rw [hf] at hm
    rcases hm with hm | hm
    · cases hm
    · exact absurd rfl (hmood _ hm kept reason)

/-- A write of which any part but the whole may be there after a failure. -/
theorem ensures_append_or {handle : Handle} {bs : Bytes} {Q : Disk → Prop}
    (hfail : ∀ d, P d → R d)
    (hcut : ¬ mood.Whole → ∀ d, P d → ∀ part d', part <+: bs.dropLast →
      d.append handle part = .ok d' → R d')
    (hrun : ∀ d, P d → ∀ d', d.append handle bs = .ok d' → Q d') :
    Ensures (Holds mood P) (append handle bs) (fun _ => Holds mood Q) (Holds mood R) := by
  intro h hh
  have halter : Ensures (Holds mood P) (alter fun d => d.append handle bs)
      (fun _ => Holds mood Q) (Holds mood P) := ensures_alter_or hrun
  have ha := halter.weaken (fun _ => id) (fun _ _ => id) (fun _ hf => hf.imp hfail) h hh
  rw [append]
  cases hf : h.fault with
  | clear => exact ha
  | refuse reason => exact ha
  | cut kept reason =>
    dsimp only
    have hmood : ¬ mood.Whole := by
      have hm := hh.fault
      rw [hf] at hm
      rcases hm with hm | hm
      · cases hm
      · exact fun hw => hw _ hm kept reason rfl
    cases hd : h.disk.append handle (bs.dropLast.take kept) with
    | ok d' => exact hh.spent (hcut hmood _ hh.disk _ _ (List.take_prefix _ _) hd)
    | error e => exact hh.spent (hfail _ hh.disk)

end Host

theorem Ensures.failedIf {ε α : Type} {mood : Mood} {C : Prop} {P : Disk → Prop}
    {act : EStateM ε Host α} {pre : Host → Prop} {post : α → Host → Prop}
    (h : Ensures pre act post (Host.Holds mood P))
    (hcalm : C → mood.Calm → Ensures pre act post fun _ => False) :
    Ensures pre act post (Host.FailedIf mood C P) := by
  by_cases hc : C ∧ mood.Calm
  · exact (hcalm hc.1 hc.2).weaken (fun _ => id) (fun _ _ => id) fun _ => False.elim
  · exact h.weaken (fun _ => id) (fun _ _ => id) fun _ hh => ⟨hh, fun hC hm => hc ⟨hC, hm⟩⟩

def Host.Answers {ε α : Type} (m : Host) (act : EStateM ε Host α) (a : α) : Prop :=
  ∃ after, act (m.facing []) = .ok a after

/-- Without faults an action that only a fault can make fail ends well. -/
theorem Host.answers_calm {ε α : Type} {act : EStateM ε Host α} {P : Disk → Prop}
    {post : α → Host → Prop} {fail : Host → Prop} (m : Host) (hm : P m.disk)
    (hrun : Ensures (Host.Holds (· ∈ ([] : List Fault)) P) act post fail)
    (hfail : ∀ h, fail h → ¬ Mood.Calm (· ∈ ([] : List Fault))) :
    ∃ a after, act (m.facing []) = .ok a after ∧ post a after := by
  have h := hrun (m.facing []) (Host.holds_facing hm [])
  revert h
  cases act (m.facing []) with
  | ok a after => exact fun h => ⟨a, after, rfl, h⟩
  | error e after => exact fun h => absurd Mood.calm_nil (hfail after h)

theorem Ensures.during {α : Type} {pre fail : Host → Prop} {post : α → Host → Prop}
    {call : Call α} (h : Ensures pre call post fail) (path : Path) (what : String) :
    Ensures pre (call.during path what) post fail := by
  intro s hs
  have hrun := h s hs
  rw [Call.during]
  revert hrun
  cases call s <;> exact id

theorem Ensures.note {pre fail : Host → Prop} {line : LogLine}
    (h : ∀ s, pre s → pre (s.note line)) :
    Ensures pre (Action.note line) (fun _ => pre) fail :=
  fun s hs => h s hs

theorem Ensures.noteBeside {σ : Type} {pre fail : σ × Host → Prop} {line : LogLine}
    (h : ∀ s, pre s → pre (s.1, s.2.note line)) :
    Ensures pre (Action.onHost (Action.note line)) (fun _ => pre) fail :=
  fun s hs => h s hs

theorem Ensures.onHost {σ α : Type} {act : σ → Action Host α} {P R : σ → Host → Prop}
    {Q : α → σ → Host → Prop} (h : ∀ x, Ensures (P x) (act x) (fun a => Q a x) (R x)) :
    Ensures (fun s => P s.1 s.2) (fun s => Action.onHost (act s.1) s) (fun a s => Q a s.1 s.2)
      (fun s => R s.1 s.2) := by
  intro s hs
  have hrun := h s.1 s.2 hs
  dsimp only [Action.onHost]
  revert hrun
  cases act s.1 s.2 <;> exact id

theorem Ensures.beside {σ α : Type} {act : Action Host α} {pre fail : Host → Prop}
    {post : α → Host → Prop} (h : Ensures pre act post fail) (x : σ) :
    Ensures (fun s => s.1 = x ∧ pre s.2) (Action.onHost act) (fun a s => s.1 = x ∧ post a s.2)
      (fun s => s.1 = x ∧ fail s.2) := by
  intro s hs
  have hrun := h s.2 hs.2
  rw [Action.onHost]
  revert hrun
  cases act s.2 with
  | ok a s' => exact fun hrun => ⟨hs.1, hrun⟩
  | error e s' => exact fun hrun => ⟨hs.1, hrun⟩

/-- What stands beside the machine stays, whatever an action on the machine does. -/
theorem Ensures.aside {σ α : Type} {p : σ → Prop} (act : σ → Action Host α) :
    Ensures (fun s => p s.1) (fun s => Action.onHost (act s.1) s) (fun _ s => p s.1)
      (fun s => p s.1) := by
  intro s hs
  dsimp only [Action.onHost]
  cases act s.1 s.2 <;> exact hs

theorem Ensures.onPart {σ τ α : Type} {part : σ → τ} {put : σ → τ → σ} {act : Action (τ × Host) α}
    {pre fail : σ × Host → Prop} {post : α → σ × Host → Prop}
    (h : ∀ x, Ensures (fun t => t.1 = part x ∧ pre (x, t.2)) act
      (fun a t => post a (put x t.1, t.2)) (fun t => fail (put x t.1, t.2))) :
    Ensures pre (Action.onPart part put act) post fail := by
  intro s hs
  have hrun := h s.1 (part s.1, s.2) ⟨rfl, hs⟩
  rw [Action.onPart]
  revert hrun
  cases act (part s.1, s.2) <;> exact id

theorem Ensures.each {ε α : Type} {mood : Mood} {P : Disk → Prop} {act : EStateM ε Host α}
    {post : α → Host → Prop} {fail : Host → Prop}
    (h : ∀ d, P d → Ensures (Host.Holds mood (· = d)) act post fail) :
    Ensures (Host.Holds mood P) act post fail :=
  fun m hm => h m.disk hm.disk m ⟨rfl, hm.faults⟩

/-- An action that only looks at a file system, which settles its answer. If there is an answer the
action fails only if a fault befalls a call. -/
structure Host.Looks {ε α : Type} (d : Disk) (act : EStateM ε Host α) (R : α → Prop) : Prop where
  one : ∀ a b, R a → R b → a = b
  run : ∀ mood, Ensures (Host.Holds mood (· = d)) act (fun a h => R a ∧ h.Holds mood (· = d))
    (Host.FailedIf mood (∃ a, R a) (· = d))

namespace Host.Looks

variable {ε α β : Type} {d : Disk} {act : EStateM ε Host α} {R : α → Prop}

theorem ask {look : Disk → Except IoFailure α} :
    Looks d (Host.ask look) (fun a => look d = .ok a) where
  one a b ha hb := Except.ok.inj (ha.symm.trans hb)
  run mood := by
    refine Ensures.failedIf ((ensures_ask_or fun d' hd' a ha => ?_).weaken (fun _ => id)
      (fun _ _ => Holds.answer) fun _ => id) fun hanswer hcalm => ?_
    · exact ⟨hd' ▸ ha, hd'⟩
    · refine (ensures_ask fun d' hd' => ?_).weaken (fun _ => id) (fun _ _ => Holds.answer)
        fun h hh => hh.2 hcalm
      obtain ⟨a, ha⟩ := hanswer
      exact ⟨a, hd' ▸ ha, ha, hd'⟩

theorem during {call : Call α} (h : Looks d call R) (path : Path) (what : String) :
    Looks d (call.during path what) R :=
  ⟨h.one, fun mood => (h.run mood).during path what⟩

theorem pure (a : α) : Looks d (Pure.pure a : EStateM ε Host α) (· = a) :=
  ⟨fun _ _ hb hc => hb.trans hc.symm, fun _ => Ensures.pure fun _ hh => ⟨rfl, hh⟩⟩

theorem bind {next : α → EStateM ε Host β} {S : α → β → Prop} (h : Looks d act R)
    (hnext : ∀ a, R a → Looks d (next a) (S a)) :
    Looks d (act >>= next) (fun b => ∃ a, R a ∧ S a b) where
  one := by
    rintro b b' ⟨a, ha, hb⟩ ⟨a', ha', hb'⟩
    cases h.one a a' ha ha'
    exact (hnext a ha).one b b' hb hb'
  run mood := by
    refine Ensures.bind ((h.run mood).weaken (fun _ => id) (fun _ _ => id) fun m hm =>
      ⟨hm.1, fun ⟨_, a, ha, _⟩ => hm.2 ⟨a, ha⟩⟩) fun a => Ensures.fact fun ha => ?_
    refine ((hnext a ha).run mood).weaken (fun _ => id) (fun b m hb => ⟨⟨a, ha, hb.1⟩, hb.2⟩)
      fun m hm => ⟨hm.1, fun ⟨b, a', ha', hb⟩ => hm.2 ⟨b, ?_⟩⟩
    rwa [h.one a a' ha ha']

theorem congr {R' : α → Prop} (h : Looks d act R) (hR : ∀ a, R a ↔ R' a) : Looks d act R' :=
  (funext fun a => propext (hR a)) ▸ h

theorem step {next : α → EStateM ε Host β} {S : β → Prop} (h : Looks d act R) {a : α} (ha : R a)
    (hnext : Looks d (next a) S) : Looks d (act >>= next) S := by
  refine (h.bind (S := fun _ => S) fun b hb => ?_).congr fun c => ?_
  · rwa [← h.one a b ha hb]
  · exact ⟨fun ⟨_, _, hc⟩ => hc, fun hc => ⟨a, ha, hc⟩⟩

theorem still {run : Disk → Except IoFailure (α × Disk)} {a : α} (h : run d = .ok (a, d)) :
    Looks d (atomic run) (· = a) where
  one _ _ hb hc := hb.trans hc.symm
  run mood := by
    refine (ensures_atomic fun d' hd' => ?_).weaken (fun _ => id) (fun _ _ => Holds.answer)
      fun m hm => ⟨hm.1, fun _ => hm.2⟩
    exact ⟨a, d, hd' ▸ h, rfl, rfl⟩

theorem note (line : LogLine) : Looks d (Action.note line) (fun _ => True) :=
  ⟨fun _ _ _ _ => rfl, fun _ _ hh => ⟨True.intro, hh.note line⟩⟩

theorem notes (lines : List LogLine) :
    Looks d (modify fun h => lines.foldl Host.note h : EStateM ε Host PUnit) (fun _ => True) :=
  ⟨fun _ _ _ _ => rfl, fun _ => Ensures.change fun _ hh => ⟨True.intro, hh.notes lines⟩⟩

theorem ensures {mood : Mood} {P : Disk → Prop} {a : α}
    (h : ∀ d, P d → ∃ R, Looks d act R ∧ R a) :
    Ensures (Holds mood P) act (fun b m => b = a ∧ m.Holds mood P) (Failed mood P) := by
  refine Ensures.each fun d hd => ?_
  obtain ⟨R, hlooks, ha⟩ := h d hd
  have hkeep : ∀ m : Host, m.Holds mood (· = d) → m.Holds mood P :=
    fun m hm => hm.imp fun d' hd' => hd' ▸ hd
  exact (hlooks.run mood).weaken (fun _ => id)
    (fun b m hm => ⟨hlooks.one b a hm.1 ha, hkeep m hm.2⟩)
    fun m hm => ⟨hkeep m hm.1, hm.2 ⟨a, ha⟩⟩

theorem facing {m : Host} (h : Looks m.disk act R) (faults : List Fault) :
    (∀ a after, act (m.facing faults) = .ok a after → R a ∧ after.disk = m.disk) ∧
      ∀ e after, act (m.facing faults) = .error e after →
        after.disk = m.disk ∧ ((∃ a, R a) → ∃ f ∈ faults, f ≠ .clear) := by
  have hrun := h.run (· ∈ faults) (m.facing faults) ⟨rfl, fun _ hf => hf⟩
  refine ⟨fun a after hok => ?_, fun e after herror => ?_⟩
  · rw [hok] at hrun
    exact ⟨hrun.1, hrun.2.disk⟩
  · rw [herror] at hrun
    exact ⟨hrun.1.disk, fun ha => by simpa [Mood.Calm] using hrun.2 ha⟩

theorem answers {m : Host} {a : α} (h : Looks m.disk act R) (ha : R a) : m.Answers act a := by
  cases hact : act (m.facing []) with
  | ok b after =>
    cases h.one b a ((h.facing []).1 b after hact).1 ha
    exact ⟨after, hact⟩
  | error e after =>
    obtain ⟨f, hf, -⟩ := ((h.facing []).2 e after hact).2 ⟨a, ha⟩
    cases hf

end Host.Looks

end LedgerStore
