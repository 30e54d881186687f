import RomLinker.Text.Lines

/-!
File names with slashes. A path keeps its text; `components` says which directories it passes
through, and two paths with the same components name the same place by the same route (`SameRoute`).
Operations that cut a path keep the text of what remains.
-/
namespace RomLinker

structure Path where
  text : String
deriving DecidableEq, Repr, Inhabited

namespace Path

/-- A step of the way: to the root, to the starting place itself, one directory up, or to a name. -/
inductive Component where
  | root
  | here
  | up
  | name (text : String)
deriving DecidableEq, Repr

def segments (p : Path) : List String :=
  (Text.pieces (· == '/') p.text.toList).map String.ofList

/-- The segments up to the last one that is not empty, without the slashes behind it. -/
def named (p : Path) : List String := (p.segments.reverse.dropWhile (· == "")).reverse

def joinSegments (segments : List String) : String := "/".intercalate segments

/-- Doubled slashes and dots lead nowhere. -/
def isVoid (segment : String) : Bool := segment == "" || segment == "."

def isName (segment : String) : Bool := !isVoid segment && segment != ".."

def isAbsolute (p : Path) : Bool := p.text.toList.head? == some '/'

/-- The segment that stands for the root or for the starting place, and the segments behind it. -/
def leadAndBody (p : Path) : List String × List String :=
  match p.segments with
  | [] => ([], [])
  | first :: rest =>
    if p.isAbsolute || first == "." then ([first], rest) else ([], first :: rest)

def componentOfSegment (s : String) : Option Component :=
  if isVoid s then none else if s == ".." then some .up else some (.name s)

def components (p : Path) : List Component :=
  let (lead, body) := p.leadAndBody
  lead.map (fun s => if s == "." then .here else .root) ++ body.filterMap componentOfSegment

def SameRoute (p q : Path) : Prop := p.components = q.components

instance (p q : Path) : Decidable (p.SameRoute q) := inferInstanceAs (Decidable (_ = _))

/-- The path `q` as seen from the directory `p`. -/
def join (p q : Path) : Path :=
  if q.isAbsolute || p.text == "" then q
  else if p.text.toList.getLast? == some '/' then ⟨p.text ++ q.text⟩
  else ⟨p.text ++ "/" ++ q.text⟩

def withBody (p : Path) (body : List String) : Path :=
  if p.isAbsolute && body.isEmpty then ⟨"/"⟩ else ⟨joinSegments (p.leadAndBody.1 ++ body)⟩

def dropVoidEnd (segments : List String) : List String :=
  (segments.reverse.dropWhile isVoid).reverse

/-- The last segment that leads somewhere, behind the segments in front of it. -/
def lastStep? (p : Path) : Option (List String × String) :=
  match p.leadAndBody.2.reverse.dropWhile isVoid with
  | [] => none
  | last :: above => some (above.reverse, last)

/-- The directory that holds the path; neither the root nor the empty path has one. -/
def parent? (p : Path) : Option Path :=
  match p.lastStep? with
  | none => if p.leadAndBody.1 == ["."] then some ⟨""⟩ else none
  | some (above, _) => some (p.withBody (dropVoidEnd above))

def fileName? (p : Path) : Option String :=
  match p.lastStep? with
  | some (_, last) => if last == ".." then none else some last
  | none => none

/-- A name without its extension, and the extension behind the last dot. A dot that starts the name
begins no extension. -/
def splitExtension (name : String) : String × Option String :=
  match Text.cutAt? (· == '.') name.toList.reverse with
  | some (extension, stem) =>
    if stem.isEmpty then (name, none)
    else (String.ofList stem.reverse, some (String.ofList extension.reverse))
  | none => (name, none)

def stem? (p : Path) : Option String := p.fileName?.map (splitExtension · |>.1)

def extension? (p : Path) : Option String := p.fileName?.bind (splitExtension · |>.2)

/-- The text without as many characters at its end as the extension has. -/
def dropExtension (p : Path) : Path :=
  match p.extension? with
  | some extension => ⟨String.ofList (p.text.toList.take (p.text.length - extension.length))⟩
  | none => p

/-- The path with another extension, or none for the empty text. It stays where no file name is left
once the old extension is gone. -/
def withExtension (p : Path) (extension : String) : Path :=
  let bare := p.dropExtension
  match bare.lastStep?, bare.stem? with
  | some (above, _), some stem =>
    let tail := if extension == "" then "" else "." ++ extension
    ⟨(bare.withBody (above ++ [stem])).text ++ tail⟩
  | _, _ => bare

/-- The segments behind the first `n` that lead somewhere. -/
def dropSteps : Nat → List String → List String
  | 0, segments => segments
  | _ + 1, [] => []
  | n + 1, s :: segments => if isVoid s then dropSteps (n + 1) segments else dropSteps n segments

/-- The rest of the way behind the directory `p`, if the path leads through it. -/
def below? (q p : Path) : Option Path :=
  let (lead, body) := q.leadAndBody
  match p.components.isPrefixOf q.components, p.components.length with
  | false, _ => none
  | true, 0 => some (q.withBody (dropVoidEnd body))
  | true, n =>
    let rest := (dropSteps (n - lead.length) body).dropWhile isVoid
    some ⟨joinSegments (dropVoidEnd rest)⟩

def slashed (p : Path) : String :=
  String.ofList (p.text.toList.map fun c => if c = '\\' then '/' else c)

end Path

end RomLinker
