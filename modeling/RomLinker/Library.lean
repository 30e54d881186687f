import RomLinker.PrintMarker

/-!
The library: files that are inserted once, in front of all resources. A file of assembly gives its
labels to the other sources, under the name of its path; any other file gives its start.
-/
namespace RomLinker

namespace LibraryFile

/-- The name of a library file's path: no extension, and underscores between directories. -/
def stemOf (file : Path) : String :=
  let steps := (((file.below? ⟨"library"⟩).getD file).withExtension "").components
  "_".intercalate (steps.map Path.Component.text)

def ofPath (file : Path) : Except LinkError LibraryFile :=
  let stem := stemOf file
  if isIdentifier stem then .ok { file, stem, isBinary := file.extension? != some "asm" }
  else .error (.authoring file .libraryFileName)

def wrapper (f : LibraryFile) : String :=
  let name := if f.isBinary then "UberLibraryBinary" else "UberLibrary"
  "incsrc \"../base/library_template.asm\"\n" ++
    s!"%{name}(\"{f.file.slashed}\", \"{f.stem}\")\n"

def exports (f : LibraryFile) : List Label :=
  if f.isBinary then (f.start?.map fun start => ⟨f.stem, start⟩).toList
  else f.labels.map fun l => ⟨s!"{f.stem}_{l.name}", l.address⟩

end LibraryFile

/-- A label of a library file, by its name outside of the file. Relative labels stay inside. -/
def Label.inner? (l : Label) : Option Label :=
  if l.isRelative then none
  else (Text.dropHead? innerMark.toList l.name.toList).map fun name =>
    { l with name := String.ofList name }

namespace Library

def discover (w : Workspace) (d : Disk) : Except LinkError (List LibraryFile) := do
  (← w.filesUnder d ⟨"library"⟩ true).mapM LibraryFile.ofPath

def definitions (files : List LibraryFile) : String :=
  Label.definitions (files.flatMap LibraryFile.exports)

variable {σ : Type}

def modifyFile (i : Nat) (change : LibraryFile → LibraryFile) : LinkM σ Unit :=
  modify fun s => { s with library := s.library.modify i change }

/-- Takes one label of a file's source: as a routine, as an export of the file, or not at all. -/
def takeLabel (i : Nat) (file : Path) (l : Label) : LinkM σ Unit :=
  match l.routine? with
  | some name => LinkM.register file name l.address
  | none =>
    match l.inner? with
    | some inner => modifyFile i fun f => { f with labels := f.labels ++ [inner] }
    | none => pure ()

def insertFile (asm : Assembler σ) (i : Nat) (f : LibraryFile) : LinkM σ Unit := do
  LinkM.note .debug s!"adding library file \"{f.file.text}\""
  let source ← LinkM.generate "library.asm" f.wrapper
  LinkM.patch asm source .empty
  let inserted ← LinkM.takePrints f.file true
  modifyFile i fun f => { f with start? := some inserted.start }
  LinkM.modifySession (·.addSize .library inserted.size)
  (← get).session.labels.forM (takeLabel i f.file)

/-- Inserts every file of the library and writes down what they define. -/
def insertAll (asm : Assembler σ) : LinkM σ Unit := do
  (← get).library.zipIdx.forM fun (f, i) => insertFile asm i f
  let _ ← LinkM.generate "library_labels.asm" (definitions (← get).library)

end Library

end RomLinker
