import RomLinker.Path.Normal
import RomLinker.Workspace

/-!
Resources: the user's assembly files, each inserted once and called from slots. `ResourceTable`
gives every file one number, in the order of first mention; two spellings of a path with one normal
form are one file.
-/
namespace RomLinker

/-- Labels inside a resource or a library file carry this in front of their names. -/
def innerMark : String := "Inner_"

structure Resource where
  id : Nat
  file : Path
  directives : Directives := {}
  entryPoint? : Option Address := none
  nmi? : Option Address := none
  /-- The tables of extra bytes, one label for each assignment that has one. -/
  tables : List Label := []

namespace Resource

def answersNmi (r : Resource) : Bool := r.nmi?.isSome

def wrapper (r : Resource) : String :=
  "incsrc \"../base/resource_template.asm\"\n" ++
    s!"%UberResource(\"{r.file.slashed}\", {flagText r.directives.setsDataBank})\n"

def defines (r : Resource) : Defines :=
  .ofList (CallSite.all.map fun site =>
    ("InvokeSA1" ++ site.name, flagText (r.directives.onSa1 site)))

def addressOf? (labels : List Label) (name : String) : Option Address :=
  (labels.find? (·.name == name)).map (·.address)

/-- A label of an extra-bytes table, by the name it has outside of its file. -/
def tableLabel? (l : Label) : Option Label :=
  match Text.dropHead? innerMark.toList l.name.toList with
  | some name =>
    if "ExtraBytes".toList.isPrefixOf name then some { l with name := String.ofList name } else none
  | none => none

/-- Takes the addresses from the labels of the resource's own source. Without an entry nothing is
taken. -/
def withLabels? (r : Resource) (labels : List Label) : Option Resource :=
  match addressOf? labels (innerMark ++ "ResourceEntry") with
  | none => none
  | some entry => some { r with
      entryPoint? := some entry
      nmi? := addressOf? labels (innerMark ++ "nmi")
      tables := labels.filterMap tableLabel? }

def symbol (id : Nat) (part : String) : String := s!"UberResource{Text.decimal id}_{part}"

def exports (r : Resource) : List Label :=
  (r.entryPoint?.map fun entry => ⟨symbol r.id "ResourceEntry", entry⟩).toList ++
    (r.nmi?.map fun nmi => ⟨symbol r.id "NMI", nmi⟩).toList ++
    r.tables.map fun l => ⟨symbol r.id l.name, l.address⟩

/-- The resource with the directives in its file. -/
def readDirectives (r : Resource) (w : Workspace) (d : Disk) : Except LinkError Resource :=
  let path := w.path r.file
  match d.readText path with
  | .error e => .error (.disk path e)
  | .ok source =>
    match Directives.parse source with
    | .error e => .error (.authoring r.file (.directive e))
    | .ok directives => .ok { r with directives }

end Resource

structure ResourceTable where
  resources : List Resource

namespace ResourceTable

def empty : ResourceTable := ⟨[]⟩

def size (t : ResourceTable) : Nat := t.resources.length

def get? (t : ResourceTable) (id : Nat) : Option Resource := t.resources[id]?

def find? (t : ResourceTable) (file : Path) : Option Resource :=
  let normal := file.normal
  t.resources.find? (·.file == normal)

/-- The resource of a file, with the next number for a new file. -/
def intern (t : ResourceTable) (file : Path) : Resource × ResourceTable :=
  match t.find? file with
  | some r => (r, t)
  | none =>
    let r : Resource := { id := t.size, file := file.normal }
    (r, ⟨t.resources ++ [r]⟩)

def put (t : ResourceTable) (r : Resource) : ResourceTable := ⟨t.resources.set r.id r⟩

def exports (t : ResourceTable) : List Label := t.resources.flatMap Resource.exports

def definitions (t : ResourceTable) : String := Label.definitions t.exports

end ResourceTable

end RomLinker
