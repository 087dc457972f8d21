import LedgerStore.Proofs.Disk.Reach

/-!
Making directories. A file system extends another if it has all that is there, as it is there. To
make the directories on a way extends a file system by directories on that way, and after it the
way leads to a directory. What is looked up by a path is found again in every extension.
-/

set_option autoImplicit false

namespace LedgerStore

namespace Place

/-- The place that some steps spell, whether or not they can be taken. -/
def follow (p : Place) (steps : List Step) : Place :=
  steps.foldl after p

theorem parent_eq_of_child {p q : Place} {a b : String} (h : p.child a = q.child b) : p = q := by
  obtain ⟨above, names⟩ := p
  obtain ⟨above', names'⟩ := q
  simp only [child, after, mk.injEq] at h ⊢
  exact ⟨h.1, List.append_inj_left' h.2 rfl⟩

theorem child_up (p : Place) (h : p.names ≠ []) : ∃ name, p = (p.after .up).child name := by
  refine ⟨p.names.getLast h, ?_⟩
  rw [after, if_neg h, child, after, List.dropLast_append_getLast h]

end Place

namespace Disk

/-- What is in a directory is there only if the directory is. -/
def Rooted (d : Disk) : Prop :=
  ∀ p name, d.node? (p.child name) ≠ none → d.node? p = some .directory

theorem Rooted.link {d : Disk} (hd : d.Rooted) {p : Place} {name : String}
    (hp : d.node? p = some .directory) (hn : d.node? (p.child name) ≠ some .directory) (node : Node) :
    (d.link (p.child name) node).Rooted := by
  intro q other hq
  have hkeeps := keeps_link (p.names_child name) hn node
  rw [node?_link (p.names_child name)] at hq
  split at hq
  · next heq => exact Place.parent_eq_of_child heq ▸ hkeeps p hp
  · exact hkeeps q (hd q other hq)

theorem Rooted.create {d : Disk} (hd : d.Rooted) {p : Place} {name : String}
    (hp : d.node? p = some .directory) (hn : d.node? (p.child name) ≠ some .directory) :
    (d.create (p.child name)).1.Rooted :=
  fun q other hq => hd.link hp hn _ q other hq

structure Extends (d d' : Disk) : Prop where
  node : ∀ p node, d.node? p = some node → d'.node? p = some node
  data : ∀ p id, d.node? p = some (.file id) → d'.data id = d.data id

theorem follow_of_walk {d : Disk} {p q : Place} {steps : List Step} (h : d.walk p steps = .ok q) :
    q = p.follow steps := by
  induction steps generalizing p with
  | nil => exact (Except.ok.inj h).symm
  | cons step rest ih => exact ih (walk_cons_eq_ok.1 h).2

namespace Extends

variable {d d' d'' : Disk}

theorem refl (d : Disk) : d.Extends d :=
  ⟨fun _ _ => id, fun _ _ _ => rfl⟩

theorem trans (h : d.Extends d') (h' : d'.Extends d'') : d.Extends d'' where
  node p node hp := h'.node p node (h.node p node hp)
  data p id hp := (h'.data p id (h.node _ _ hp)).trans (h.data p id hp)

theorem link {p : Place} (hp : p.names ≠ []) (hn : d.node? p = none) (node : Node) :
    d.Extends (d.link p node) where
  node q other hq := by
    have hne : q ≠ p := fun h => by rw [h, hn] at hq; cases hq
    rw [node?_link hp, if_neg hne, hq]
  data _ _ _ := rfl

theorem create (hd : d.WellFormed) {p : Place} (hp : p.names ≠ []) (hn : d.node? p = none) :
    d.Extends (d.create p).1 where
  node := (link hp hn _).node
  data q id hq := data_create_of_lt (hd.there q id hq) p

variable (h : d.Extends d')

include h

theorem keeps : d.Keeps d' :=
  fun p hp => h.node p _ hp

theorem agree {p : Place} (hp : d.node? p ≠ none) : d.Agree d' p := by
  obtain ⟨node, hnode⟩ := Option.ne_none_iff_exists'.1 hp
  have hnode' := h.node p node hnode
  refine ⟨hnode'.trans hnode.symm, ?_⟩
  cases node with
  | directory => rw [fileAt?, fileAt?, hnode, hnode']
  | full => rw [fileAt?, fileAt?, hnode, hnode']
  | file id => rw [fileAt?_of_node? hnode, fileAt?_of_node? hnode', h.data p id hnode]

theorem find {path : Path} {p : Place} (hp : d.find path = .ok p) : d'.find path = .ok p := by
  rw [Disk.find] at hp ⊢
  split at hp
  · cases hp
  · next hne =>
    rw [if_neg hne]
    exact h.keeps.walk hp

theorem locate {path : Path} {node : Node} (hp : d.locate path = .ok node) :
    ∃ p, d.node? p = some node ∧ d'.locate path = .ok node := by
  rw [Disk.locate] at hp ⊢
  cases hf : d.find path with
  | error e => rw [hf] at hp; cases hp
  | ok p =>
    rw [hf] at hp
    simp only [h.find hf, bind, Except.bind] at hp ⊢
    cases hn : d.node? p with
    | none => rw [hn] at hp; cases hp
    | some other =>
      rw [hn] at hp
      cases hp
      exact ⟨p, hn, by rw [h.node p _ hn]⟩

theorem read {path : Path} {bs : Bytes} (hp : d.read path = .ok bs) : d'.read path = .ok bs := by
  rw [Disk.read] at hp ⊢
  cases hl : d.locate path with
  | error e => rw [hl] at hp; cases hp
  | ok node =>
    obtain ⟨p, hn, hl'⟩ := h.locate hl
    rw [hl] at hp
    simp only [hl', bind, Except.bind] at hp ⊢
    cases node with
    | directory => exact hp
    | full => exact hp
    | file id =>
      dsimp only at hp ⊢
      rwa [h.data p id hn]

theorem lengthAt {path : Path} {n : Nat} (hp : d.lengthAt path = .ok n) :
    d'.lengthAt path = .ok n := by
  rw [Disk.lengthAt] at hp ⊢
  cases hl : d.locate path with
  | error e => rw [hl] at hp; cases hp
  | ok node =>
    obtain ⟨p, hn, hl'⟩ := h.locate hl
    rw [hl] at hp
    simp only [hl', bind, Except.bind] at hp ⊢
    cases node with
    | directory => exact hp
    | full => exact hp
    | file id =>
      dsimp only at hp ⊢
      rwa [h.data p id hn]

end Extends

def OnWay (steps : List Step) (q : Place) : Prop :=
  ∃ front name rest, steps = front ++ .down name :: rest ∧ q = (Place.follow {} front).child name

theorem OnWay.append {steps : List Step} {q : Place} (h : OnWay steps q) (more : List Step) :
    OnWay (steps ++ more) q := by
  obtain ⟨front, name, rest, rfl, rfl⟩ := h
  exact ⟨front, name, rest ++ more, by simp, rfl⟩

/-- Some directories have been made where nothing was, each in a directory. -/
inductive Furnished (way : Place → Prop) (d : Disk) : Disk → Prop
  | refl : Furnished way d d
  | make {d' : Disk} {p : Place} {name : String} (before : Furnished way d d')
    (above : d'.node? p = some .directory) (free : d'.node? (p.child name) = none)
    (onWay : way (p.child name)) : Furnished way d (d'.link (p.child name) .directory)

namespace Furnished

variable {way way' : Place → Prop} {d d' d'' : Disk}

theorem trans (h : Furnished way d d') (h' : Furnished way d' d'') : Furnished way d d'' := by
  induction h' with
  | refl => exact h
  | make _ above free onWay ih => exact ih.make above free onWay

theorem mono (h : Furnished way d d') (hway : ∀ q, way q → way' q) : Furnished way' d d' := by
  induction h with
  | refl => exact .refl
  | make _ above free onWay ih => exact ih.make above free (hway _ onWay)

theorem extension (h : Furnished way d d') : d.Extends d' := by
  induction h with
  | refl => exact .refl d
  | make _ _ free _ ih => exact ih.trans (.link (Place.names_child _ _) free _)

theorem fresh (h : Furnished way d d') {q : Place} (hq : d.node? q = none)
    (hq' : d'.node? q ≠ none) : d'.node? q = some .directory ∧ way q := by
  induction h with
  | refl => exact absurd hq hq'
  | @make d' p name _ _ _ onWay ih =>
    rw [node?_link (p.names_child name)] at hq' ⊢
    split at hq'
    · next heq => exact ⟨by rw [if_pos heq], heq ▸ onWay⟩
    · next hne =>
      rw [if_neg hne]
      exact ih hq'

theorem rooted (h : Furnished way d d') (hd : d.Rooted) : d'.Rooted := by
  induction h with
  | refl => exact hd
  | make _ above free _ ih => exact ih.link above (by rw [free]; nofun) _

theorem wellFormed (h : Furnished way d d') (hd : d.WellFormed) : d'.WellFormed := by
  induction h with
  | refl => exact hd
  | @make d' p name _ _ _ _ ih =>
    have hnode : ∀ q id, (d'.link (p.child name) .directory).node? q = some (.file id) →
        d'.node? q = some (.file id) := by
      intro q id hq
      rw [node?_link (p.names_child name)] at hq
      split at hq
      · cases hq
      · exact hq
    exact ⟨fun q id hq => ih.there q id (hnode q id hq),
      fun q r id hq hr => ih.apart q r id (hnode q id hq) (hnode r id hr)⟩

end Furnished

theorem Rooted.after_free {d : Disk} (hd : d.Rooted) {p : Place} {step : Step}
    (hp : d.node? p = some .directory) (hfree : d.node? (p.after step) = none) :
    ∃ name, step = .down name := by
  cases step with
  | nothing => rw [Place.after, hp] at hfree; cases hfree
  | here => rw [Place.after, hp] at hfree; cases hfree
  | down name => exact ⟨name, rfl⟩
  | up =>
    by_cases hnames : p.names = []
    · rw [node?, Place.after, if_pos hnames, if_pos rfl] at hfree
      cases hfree
    · obtain ⟨name, hname⟩ := p.child_up hnames
      have hmade : d.node? ((p.after .up).child name) ≠ none := by
        rw [← hname, hp]
        exact Option.some_ne_none _
      rw [hd _ name hmade] at hfree
      cases hfree

theorem walk_stay {d : Disk} {p : Place} {steps : List Step} (hp : d.node? p = some .directory)
    (hs : ∀ step ∈ steps, step = .nothing) : d.walk p steps = .ok p := by
  induction steps with
  | nil => rfl
  | cons step rest ih =>
    refine walk_cons_eq_ok.2 ⟨hp, ?_⟩
    rw [hs step List.mem_cons_self]
    exact ih fun s h => hs s (List.mem_cons_of_mem _ h)

/-- A directory is made at the end of a way, where nothing is. -/
theorem makeDirectory_eq_ok {d d' : Disk} {way : List Step} (hrun : d.makeDirectory way = .ok d') :
    ∃ place, d.walk {} (way.dropWhile (· = .nothing)).reverse = .ok place ∧
      d.node? place = none ∧ d' = d.link place .directory := by
  rw [makeDirectory] at hrun
  cases hw : d.walk {} (way.dropWhile (· = .nothing)).reverse with
  | error e => rw [hw] at hrun; cases hrun
  | ok place =>
    simp only [hw, bind, Except.bind] at hrun
    cases hn : d.node? place with
    | some node => rw [hn] at hrun; cases hrun
    | none =>
      rw [hn] at hrun
      cases hrun
      exact ⟨place, rfl, hn, rfl⟩

theorem provide_furnished {d d' : Disk} {way : List Step} (hd : d.Rooted)
    (hrun : provide way d = .ok () d') :
    Furnished (OnWay way.reverse) d d' ∧ d'.isDirectory way.reverse = true := by
  rw [provide] at hrun
  cases hmake : d.makeDirectory way with
  | error e =>
    simp only [hmake] at hrun
    split at hrun
    · next hdir => cases hrun; exact ⟨.refl, hdir⟩
    · cases hrun
  | ok made =>
    simp only [hmake] at hrun
    cases hrun
    obtain ⟨place, hwalk, hfree, rfl⟩ := makeDirectory_eq_ok hmake
    have hsplit : way.reverse = (way.dropWhile (· = .nothing)).reverse ++
        (way.takeWhile (· = .nothing)).reverse := by
      rw [← List.reverse_append, List.takeWhile_append_dropWhile]
    have hstay : ∀ step ∈ (way.takeWhile (· = .nothing)).reverse, step = .nothing := by
      intro step hs
      simpa using List.mem_takeWhile_imp (List.mem_reverse.1 hs)
    generalize (way.dropWhile (· = .nothing)).reverse = core at hwalk hsplit
    generalize (way.takeWhile (· = .nothing)).reverse = tail at hsplit hstay
    rw [hsplit]
    rcases List.eq_nil_or_concat' core with rfl | ⟨front, step, rfl⟩
    · cases hwalk
      cases hfree
    · rw [walk_append] at hwalk
      cases hfront : d.walk {} front with
      | error e => rw [hfront] at hwalk; cases hwalk
      | ok p =>
        rw [hfront] at hwalk
        obtain ⟨hp, hplace⟩ := walk_cons_eq_ok.1 hwalk
        cases hplace
        obtain ⟨name, rfl⟩ := hd.after_free hp hfree
        have honWay : OnWay (front ++ [.down name] ++ tail) (p.child name) :=
          ⟨front, name, tail, by simp, by rw [follow_of_walk hfront]⟩
        have hmade : Furnished (OnWay (front ++ [.down name] ++ tail)) d
            (d.link (p.child name) .directory) := Furnished.refl.make hp hfree honWay
        have hthere : (d.link (p.child name) .directory).node? (p.child name) = some .directory := by
          rw [node?_link (p.names_child name), if_pos rfl]
        have hcore : d.walk {} (front ++ [.down name]) = .ok (p.child name) := by
          rw [walk_append, hfront]
          exact hwalk
        have hwhole : (d.link (p.child name) .directory).walk {} (front ++ [.down name] ++ tail) =
            .ok (p.child name) := by
          rw [walk_append, hmade.extension.keeps.walk hcore]
          exact walk_stay hthere hstay
        exact ⟨hmade, isDirectory_eq_true.2 ⟨_, hwhole, hthere⟩⟩

theorem provide_error {d d' : Disk} {way : List Step} {e : IoFailure}
    (hrun : provide way d = .error e d') : d' = d := by
  rw [provide] at hrun
  cases hmake : d.makeDirectory way with
  | ok made => rw [hmake] at hrun; cases hrun
  | error e' =>
    simp only [hmake] at hrun
    split at hrun
    · cases hrun
    · cases hrun; rfl

theorem rise_suffix (way : List Step) : Step.rise way <:+ way :=
  (List.dropWhile_suffix _).trans ((List.tail_suffix _).trans (List.dropWhile_suffix _))

theorem provideAll_furnished {d d' : Disk} {way : List Step} (hd : d.Rooted)
    (hrun : provideAll way d = .ok () d') :
    Furnished (OnWay way.reverse) d d' ∧ d'.isDirectory way.reverse = true := by
  induction hn : way.length using Nat.strong_induction_on generalizing way d d' with
  | _ n ih =>
    rw [provideAll] at hrun
    cases hfirst : provide way d with
    | ok u d₁ =>
      simp only [hfirst] at hrun
      cases hrun
      exact provide_furnished hd hfirst
    | error e d₁ =>
      obtain rfl := provide_error hfirst
      simp only [hfirst] at hrun
      split at hrun
      · next hshort =>
        cases habove : provideAll (Step.rise way) d₁ with
        | error e' d₂ => rw [habove] at hrun; cases hrun
        | ok u d₂ =>
          rw [habove] at hrun
          obtain ⟨hfurnished, -⟩ := ih _ (hn ▸ hshort.2) hd habove rfl
          obtain ⟨hlast, hdir⟩ := provide_furnished (hfurnished.rooted hd) hrun
          obtain ⟨front, hfront⟩ := rise_suffix way
          refine ⟨(hfurnished.mono fun q hq => ?_).trans hlast, hdir⟩
          rw [← hfront, List.reverse_append]
          exact hq.append _
      · cases hrun

/-- Making the directories of a path makes some on its way, and the path leads to one then. -/
theorem createDirectories_furnished {d d' : Disk} {path : Path} (hd : d.Rooted)
    (hrun : createDirectories path d = .ok () d') :
    Furnished (OnWay path.steps) d d' ∧ ∃ dir, d'.Reaches path dir := by
  obtain ⟨hfurnished, hdir⟩ := provideAll_furnished hd hrun
  rw [List.reverse_reverse] at hfurnished hdir
  obtain ⟨dir, hwalk, hthere⟩ := isDirectory_eq_true.1 hdir
  exact ⟨hfurnished, dir, hwalk, hthere⟩

/-- A way that can be made. What is missing on it has a name of some kind, and it goes up only from
directories that are there. -/
def Passable (d : Disk) (plain : String → Prop) (p : Place) : List Step → Prop
  | [] => True
  | .up :: rest => d.node? p = some .directory ∧ d.Passable plain (p.after .up) rest
  | .down name :: rest =>
    (d.node? (p.child name) = some .directory ∨ plain name) ∧ d.Passable plain (p.child name) rest
  | _ :: rest => d.Passable plain p rest

namespace Passable

variable {d : Disk} {plain : String → Prop} {p : Place} {steps : List Step}

theorem named {front rest : List Step} {name : String}
    (h : d.Passable plain p (front ++ .down name :: rest)) :
    d.node? ((p.follow front).child name) = some .directory ∨ plain name := by
  induction front generalizing p with
  | nil => exact h.1
  | cons step front ih =>
    cases step with
    | nothing => exact ih h
    | here => exact ih h
    | up => exact ih h.2
    | down other => exact ih h.2

theorem missing (hd : d.Rooted) (hp : d.node? p ≠ some .directory)
    (h : d.Passable plain p steps) : d.node? (p.follow steps) ≠ some .directory := by
  induction steps generalizing p with
  | nil => exact hp
  | cons step rest ih =>
    cases step with
    | nothing => exact ih hp h
    | here => exact ih hp h
    | up => exact absurd h.1 hp
    | down name =>
      refine ih (fun hchild => hp (hd p name ?_)) h.2
      rw [show p.child name = p.after (.down name) from rfl, hchild]
      nofun

theorem walk (hd : d.Rooted) (hp : d.node? p = some .directory) (h : d.Passable plain p steps)
    (hend : d.node? (p.follow steps) = some .directory) : d.walk p steps = .ok (p.follow steps) := by
  induction steps generalizing p with
  | nil => rfl
  | cons step rest ih =>
    have hrest : d.Passable plain (p.after step) rest := by
      cases step with
      | nothing => exact h
      | here => exact h
      | up => exact h.2
      | down name => exact h.2
    have hnext : d.node? (p.after step) = some .directory := by
      by_contra hnot
      exact missing hd hnot hrest hend
    exact walk_cons_eq_ok.2 ⟨hp, ih hnext hrest hend⟩

theorem of_walk {q : Place} (hw : d.walk p steps = .ok q) (hq : d.node? q = some .directory)
    {name : String} (hname : plain name) : d.Passable plain p (steps ++ [.down name]) := by
  induction steps generalizing p with
  | nil => exact ⟨Or.inr hname, trivial⟩
  | cons step rest ih =>
    obtain ⟨hp, hrest⟩ := walk_cons_eq_ok.1 hw
    have hnext : d.node? (p.after step) = some .directory := by
      cases rest with
      | nil => rwa [show p.after step = q from Except.ok.inj hrest]
      | cons next rest => exact (walk_cons_eq_ok.1 hrest).1
    cases step with
    | nothing => exact ih hrest
    | here => exact ih hrest
    | up => exact ⟨hp, ih hrest⟩
    | down name => exact ⟨Or.inl hnext, ih hrest⟩

end Passable

end Disk

end LedgerStore
