/-!
Paths of files: a text as it was given and the names appended to it. A path is shown as that text
and those names joined, and leads to a place in the file system step by step.
-/

set_option autoImplicit false

namespace LedgerStore

inductive Step
  | nothing
  | here
  | up
  | down (name : String)
  deriving DecidableEq, Repr

namespace Step

def ofText (part : String) : Step :=
  if part = "" then nothing
  else if part = "." then here
  else if part = ".." then up
  else down part

/-- The steps that a text spells, of which `part` is read already, its last character first. -/
def read (part : List Char) : List Char → List Step
  | [] => [ofText (String.ofList part.reverse)]
  | c :: cs =>
    if c = '/' then ofText (String.ofList part.reverse) :: read [] cs else read (c :: part) cs

def stays : Step → Bool
  | nothing => true
  | here => true
  | _ => false

/-- The way to the directory above the one that a way leads to; ways are given last step first. -/
def rise (way : List Step) : List Step :=
  (way.dropWhile stays).tail.dropWhile stays

end Step

/-- A place in the file system: so many directories above the working directory, and then down
along some names. -/
structure Place where
  above : Nat := 0
  names : List String := []
  deriving DecidableEq, Repr

namespace Place

def after (p : Place) : Step → Place
  | .nothing => p
  | .here => p
  | .up => if p.names = [] then ⟨p.above + 1, []⟩ else ⟨p.above, p.names.dropLast⟩
  | .down name => ⟨p.above, p.names ++ [name]⟩

def nameOf? (p place : Place) : Option String :=
  match p.names.isPrefixOf? place.names with
  | some [name] => if place.above = p.above then some name else none
  | _ => none

def holds (p place : Place) : Bool :=
  p.above == place.above && p.names.isPrefixOf place.names

end Place

structure Path where
  base : String
  names : List String := []
  deriving DecidableEq, Repr

namespace Path

instance : HDiv Path String Path :=
  ⟨fun p name => { p with names := p.names ++ [name] }⟩

/-- A slash stands between two parts unless the first is empty or ends in one. -/
def joinText (front name : String) : String :=
  if front = "" then name
  else if front.endsWith "/" then front ++ name
  else front ++ "/" ++ name

def text (p : Path) : String :=
  p.names.foldl joinText p.base

def steps (p : Path) : List Step :=
  Step.read [] p.base.toList ++ p.names.map .down

/-- Whether nothing is written. Such a path leads nowhere, but names can be appended to it. -/
def isEmpty (p : Path) : Bool :=
  p.base == "" && p.names.isEmpty

@[simp] theorem isEmpty_div (p : Path) (name : String) : (p / name).isEmpty = false := by
  simp [HDiv.hDiv, isEmpty]

@[simp] theorem steps_div (p : Path) (name : String) :
    (p / name).steps = p.steps ++ [.down name] := by
  simp [HDiv.hDiv, steps]

end Path

end LedgerStore
