import RomLinker.Path

/-!
Normal form of a path: no dots, and a way up only at the front of a relative path. It is computed
on components, without looking at a disk.
-/
namespace RomLinker.Path

/-- One more step on a way, the last step first. A step up takes the last name back; above the root
there is nothing. -/
def follow (way : List Component) : Component → List Component
  | .here => way
  | .up =>
    match way with
    | .name _ :: before => before
    | .root :: _ => way
    | _ => .up :: way
  | step => step :: way

def normalComponents (steps : List Component) : List Component :=
  (steps.foldl follow []).reverse

def Component.text : Component → String
  | .root => ""
  | .here => "."
  | .up => ".."
  | .name s => s

def ofComponents : List Component → Path
  | .root :: steps => ⟨"/" ++ joinSegments (steps.map Component.text)⟩
  | steps => ⟨joinSegments (steps.map Component.text)⟩

def normal (p : Path) : Path := ofComponents (normalComponents p.components)

end RomLinker.Path
