import LedgerStore.Proofs.Checkpoint.Stages
import LedgerStore.Proofs.Disk.Reach
import LedgerStore.Proofs.Record.RoundTrip

set_option autoImplicit false

namespace LedgerStore

namespace Checkpoint

/-- Facts about a file system that stay true when the file at a place is made or changed. -/
structure Beside (place : Place) (A : Disk → Prop) : Prop where
  sound : ∀ d, A d → d.WellFormed
  change : ∀ d id f, A d → d.node? place = some (.file id) → A (d.change id f)
  create : ∀ d, A d → d.node? place = none → A (d.create place).1

/-- The file at a place, unless it is a full device, wants only some more bytes. -/
def Drafted (place : Place) (total : Bytes) (handle : Handle) (bs : Bytes) (d : Disk) : Prop :=
  ∀ id, handle = .file id → d.node? place = some (.file id) ∧ (d.data id).bytes ++ bs = total

def Finished (place : Place) (total : Bytes) (d : Disk) : Prop :=
  ∃ id, d.node? place = some (.file id) ∧ (d.data id).bytes = total ∧
    (d.data id).bytes.length ≤ (d.data id).synced

variable {mood : Mood} {place : Place} {A : Disk → Prop} {C : Prop} {total : Bytes}
  {handle : Handle} {bs buffer more : Bytes} {d : Disk}

theorem Beside.append (hA : Beside place A) {part : Bytes} {d' : Disk} (hd : A d)
    (hdraft : Drafted place total handle bs d) (happ : d.append handle part = .ok d') : A d' := by
  cases handle with
  | full =>
    rw [Disk.append] at happ
    split at happ
    · cases happ; exact hd
    · cases happ
  | file id =>
    cases happ
    exact hA.change d id _ hd (hdraft id rfl).1

theorem Drafted.append (hd : d.WellFormed) (hdraft : Drafted place total handle (bs ++ more) d)
    {d' : Disk} (happ : d.append handle bs = .ok d') : Drafted place total handle more d' := by
  rintro id rfl
  obtain ⟨hnode, hbytes⟩ := hdraft id rfl
  cases happ
  refine ⟨hnode, ?_⟩
  rw [Disk.data_change (hd.there _ _ hnode), if_pos rfl, List.append_assoc, hbytes]

theorem ensures_append (hA : Beside place A) (hfull : C → handle ≠ .full) :
    Ensures (Host.Holds mood fun d => A d ∧ Drafted place total handle (bs ++ more) d)
      (Host.append handle bs) (fun _ => Host.Holds mood fun d => A d ∧ Drafted place total handle more d)
      (Host.FailedIf mood C A) := by
  have hthen : ∀ d, (A d ∧ Drafted place total handle (bs ++ more) d) → ∀ d',
      d.append handle bs = .ok d' → A d' ∧ Drafted place total handle more d' :=
    fun d hd d' happ => ⟨hA.append hd.1 hd.2 happ, hd.2.append (hA.sound d hd.1) happ⟩
  refine Ensures.failedIf (Host.ensures_append_or (fun d hd => hd.1)
    (fun _ d hd part d' _ happ => hA.append hd.1 hd.2 happ) hthen) fun hC hcalm => ?_
  refine (Host.ensures_append hcalm.whole fun d hd => ?_).weaken (fun _ => id) (fun _ _ => id)
    fun h hh => hh.2 hcalm
  cases handle with
  | full => exact absurd rfl (hfull hC)
  | file id => exact ⟨_, rfl, hthen d hd _ rfl⟩

theorem ensures_flush (hA : Beside place A) (hfull : C → handle ≠ .full) :
    Ensures (Host.Holds mood fun d => A d ∧ Drafted place total handle (buffer ++ more) d)
      (flush handle buffer) (fun _ => Host.Holds mood fun d => A d ∧ Drafted place total handle more d)
      (Host.FailedIf mood C A) := by
  rw [flush]
  split
  · next hnil =>
    rw [hnil]
    exact Ensures.pure fun h hh => hh
  · exact ensures_append hA hfull

theorem ensures_accept (hA : Beside place A) (hfull : C → handle ≠ .full)
    (hroom : bufferSize ≤ bs.length → buffer = []) :
    Ensures (Host.Holds mood fun d => A d ∧ Drafted place total handle (buffer ++ bs ++ more) d)
      (accept handle buffer bs)
      (fun buffer => Host.Holds mood fun d => A d ∧ Drafted place total handle (buffer ++ more) d)
      (Host.FailedIf mood C A) := by
  rw [accept]
  split
  · next hlong =>
    rw [hroom hlong]
    exact Ensures.bind (ensures_append hA hfull) fun _ => Ensures.pure fun h hh => hh
  · exact Ensures.pure fun h hh => hh

theorem Beside.fresh (hA : Beside place A) (hd : A d) {id : Nat}
    (hid : d.node? place = some (.file id)) : A (d.change id fun _ => {}) ∧
      Drafted place total (.file id) total (d.change id fun _ => {}) := by
  refine ⟨hA.change d id _ hd hid, ?_⟩
  rintro _ ⟨⟩
  exact ⟨hid, by rw [Disk.data_change ((hA.sound d hd).there _ _ hid), if_pos rfl]; rfl⟩

theorem ensures_openFresh {path : Path} {dir : Place} {name : String} {P : Disk → Prop}
    (total : Bytes) (hA : Beside (dir.child name) A) (hleads : ∀ d, A d → d.Leads path dir)
    (hP : ∀ d, P d → A d) (hfree : C → ∀ d, P d → d.Free (dir.child name)) :
    Ensures (Host.Holds mood P) (Host.openFresh (path / name))
      (fun handle h => (C → handle ≠ .full) ∧
        h.Holds mood fun d => A d ∧ Drafted (dir.child name) total handle total d)
      (Host.FailedIf mood C A) := by
  have hthen : ∀ d, P d → ∀ handle d', d.openFresh (path / name) = .ok (handle, d') →
      (C → handle ≠ .full) ∧ A d' ∧ Drafted (dir.child name) total handle total d' := by
    intro d hd handle d' hrun
    rcases (hleads d (hP d hd)).openFresh_cases name with
      ⟨-, e, he⟩ | ⟨hnode, hfull⟩ | ⟨id, hid, hok⟩ | ⟨hnone, hok⟩
    · rw [he] at hrun; cases hrun
    · rw [hfull] at hrun
      cases hrun
      exact ⟨fun hC => absurd hnode (hfree hC d hd).device, hP d hd, fun id hid => nomatch hid⟩
    · rw [hok] at hrun
      cases hrun
      exact ⟨fun _ => nofun, hA.fresh (hP d hd) hid⟩
    · rw [hok] at hrun
      cases hrun
      refine ⟨fun _ => nofun, hA.fresh (hA.create d (hP d hd) hnone) ?_⟩
      rw [Disk.node?_create (dir.names_child name), if_pos rfl]
  have hanswer : ∀ handle (h : Host), (h.Holds mood fun d => (C → handle ≠ .full) ∧ A d ∧
      Drafted (dir.child name) total handle total d) → (C → handle ≠ .full) ∧
      h.Holds mood fun d => A d ∧ Drafted (dir.child name) total handle total d :=
    fun handle h hh => ⟨hh.disk.1, hh.imp fun d hd => hd.2⟩
  refine Ensures.failedIf ((Host.ensures_atomic_or hthen).weaken (fun _ => id) hanswer
    fun h hh => hh.imp hP) fun hC hcalm => ?_
  refine (Host.ensures_atomic fun d hd => ?_).weaken (fun _ => id) hanswer fun h hh => hh.2 hcalm
  rcases (hleads d (hP d hd)).openFresh_cases name with
    ⟨hnode, -⟩ | ⟨hnode, -⟩ | ⟨id, -, hok⟩ | ⟨-, hok⟩
  · exact absurd hnode (hfree hC d hd).directory
  · exact absurd hnode (hfree hC d hd).device
  · exact ⟨_, _, hok, hthen d hd _ _ hok⟩
  · exact ⟨_, _, hok, hthen d hd _ _ hok⟩

theorem ensures_sync (hA : Beside place A) (hfull : C → handle ≠ .full) :
    Ensures (Host.Holds mood fun d => A d ∧ Drafted place total handle [] d) (Host.sync handle)
      (fun _ => Host.Holds mood fun d => A d ∧ Finished place total d)
      (Host.FailedIf mood C A) := by
  have hthen : ∀ d id, (A d ∧ Drafted place total (.file id) [] d) →
      A (d.change id fun f => { f with synced := f.bytes.length }) ∧
        Finished place total (d.change id fun f => { f with synced := f.bytes.length }) := by
    intro d id hd
    obtain ⟨hnode, hbytes⟩ := hd.2 id rfl
    rw [List.append_nil] at hbytes
    refine ⟨hA.change d id _ hd.1 hnode, id, hnode, ?_⟩
    rw [Disk.data_change ((hA.sound d hd.1).there _ _ hnode), if_pos rfl]
    exact ⟨hbytes, Nat.le_refl _⟩
  cases handle with
  | full =>
    refine Ensures.failedIf ((Host.ensures_alter_or fun d hd d' hrun => nomatch hrun).weaken
      (fun _ => id) (fun _ _ => id) fun h hh => hh.imp fun d hd => hd.1) fun hC => absurd rfl (hfull hC)
  | file n =>
    have hsync : Ensures (Host.Holds mood fun d => A d ∧ Drafted place total (.file n) [] d)
        (Host.sync (.file n)) (fun _ => Host.Holds mood fun d => A d ∧ Finished place total d)
        (Host.Failed mood fun d => A d ∧ Drafted place total (.file n) [] d) :=
      Host.ensures_alter fun d hd => ⟨_, rfl, hthen d n hd⟩
    exact hsync.weaken (fun _ => id) (fun _ _ => id) fun h hh =>
      ⟨hh.1.imp fun d hd => hd.1, fun _ => hh.2⟩

inductive Stage.Drafts : Stage → Prop
  | write (handle : Handle) (buffer : Bytes) (rest : List Record) :
    Drafts (.write handle buffer rest)
  | accept (handle : Handle) (bs : Bytes) (rest : List Record) : Drafts (.accept handle bs rest)
  | sync (handle : Handle) : Drafts (.sync handle)

def Stage.handle? : Stage → Option Handle
  | .write handle _ _ => some handle
  | .accept handle _ _ => some handle
  | .sync handle => some handle
  | _ => none

def Stage.Drafted (place : Place) (total : Bytes) : Stage → Disk → Prop
  | .write handle buffer rest => Checkpoint.Drafted place total handle (buffer ++ Record.written rest)
  | .accept handle bs rest => Checkpoint.Drafted place total handle (bs ++ Record.written rest)
  | .sync handle => Checkpoint.Drafted place total handle []
  | .publish => Finished place total
  | _ => fun _ => True

/-- A draft goes on or is finished. Under the condition its file is no full device. -/
structure Stage.Onward (C : Prop) (place : Place) (total : Bytes) (A : Disk → Prop) (mood : Mood)
    (st : Stage) (h : Host) : Prop where
  drafts : st.Drafts ∨ st = .publish
  file : C → st.handle? ≠ some .full
  holds : h.Holds mood fun d => A d ∧ st.Drafted place total d

theorem ensures_writing (p : Plan) (hA : Beside place A) (hfull : C → handle ≠ .full) (pick : Nat)
    (records : List Record) :
    Ensures (Host.Holds mood fun d =>
        A d ∧ Drafted place total handle (buffer ++ Record.written records) d)
      (p.step pick (.write handle buffer records))
      (fun next h => ∃ st, next = some st ∧ st.Onward C place total A mood h)
      (Host.FailedIf mood C A) := by
  have hfile : C → some handle ≠ some .full := fun hC heq => hfull hC (Option.some.inj heq)
  cases records with
  | nil =>
    refine Ensures.bind ((ensures_flush hA hfull).during _ _) fun _ => ?_
    exact Ensures.pure fun h hh => ⟨_, rfl, Or.inl (.sync handle), hfile, hh⟩
  | cons r records =>
    simp only [Plan.step]
    split
    · refine Ensures.pure fun h hh => ⟨_, rfl, Or.inl (.write ..), hfile, hh.imp fun d hd => ?_⟩
      simpa [Stage.Drafted] using hd
    · next hroom =>
      split
      · next heq =>
        have hpos : 0 < bufferSize := by decide
        have hempty : bufferSize ≤ r.bytes.length → buffer = [] := fun hle =>
          List.eq_nil_of_length_eq_zero (by omega)
        have haccept : Ensures (Host.Holds mood fun d =>
            A d ∧ Drafted place total handle (buffer ++ r.bytes ++ Record.written records) d)
            (accept handle buffer r.bytes) _ _ := ensures_accept hA hfull hempty
        refine Ensures.bind ((haccept.during _ _).weaken
          (fun h hh => hh.imp fun d hd => ?_) (fun _ _ => id) fun _ => id) fun buffer => ?_
        · simpa using hd
        · exact Ensures.pure fun h hh => ⟨_, rfl, Or.inl (.write ..), hfile, hh⟩
      · refine Ensures.bind ((ensures_flush hA hfull).during _ _) fun _ => ?_
        exact Ensures.pure fun h hh => ⟨_, rfl, Or.inl (.accept ..), hfile, hh⟩

theorem ensures_create {p : Plan} {dir : Place} {P : Disk → Prop}
    (hA : Beside (dir.child (temporaryName p.sequence)) A)
    (hleads : ∀ d, A d → d.Leads p.dataDir dir) (hP : ∀ d, P d → A d)
    (hfree : C → ∀ d, P d → d.Free (dir.child (temporaryName p.sequence))) (pick : Nat) :
    Ensures (Host.Holds mood P) (p.step pick .create)
      (fun next h => ∃ st, next = some st ∧ st.Onward C (dir.child (temporaryName p.sequence))
        (Record.written p.records) A mood h)
      (Host.FailedIf mood C A) := by
  refine Ensures.bind ((ensures_openFresh (Record.written p.records) hA hleads hP hfree).during _ _)
    fun handle => ?_
  exact Ensures.pure fun h hh =>
    ⟨_, rfl, Or.inl (.write ..), fun hC heq => hh.1 hC (Option.some.inj heq), hh.2⟩

/-- Each step of a draft keeps the facts beside it, also when it fails. -/
theorem ensures_drafting (p : Plan) (hA : Beside place A) {st : Stage} (hst : st.Drafts)
    (hfile : C → st.handle? ≠ some .full) (pick : Nat) :
    Ensures (Host.Holds mood fun d => A d ∧ st.Drafted place total d) (p.step pick st)
      (fun next h => ∃ st', next = some st' ∧ st'.Onward C place total A mood h)
      (Host.FailedIf mood C A) := by
  have hfull : ∀ {handle}, st.handle? = some handle → C → handle ≠ .full :=
    fun hh hC heq => hfile hC (hh.trans (congrArg some heq))
  cases hst with
  | write handle buffer rest => exact ensures_writing p hA (hfull rfl) pick rest
  | accept handle bs rest =>
    refine Ensures.bind ((ensures_accept hA (hfull rfl) fun _ => rfl).during _ _) fun buffer => ?_
    exact Ensures.pure fun h hh => ⟨_, rfl, Or.inl (.write ..), hfile, hh⟩
  | sync handle =>
    refine Ensures.bind ((ensures_sync hA (hfull rfl)).during _ _) fun _ => ?_
    exact Ensures.pure fun h hh => ⟨_, rfl, Or.inr rfl, fun _ => nofun, hh⟩

end Checkpoint

end LedgerStore
