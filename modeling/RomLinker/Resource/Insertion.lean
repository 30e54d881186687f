import RomLinker.PrintMarker

/-!
Inserting a resource.
-/
namespace RomLinker.Resource

variable {σ : Type}

def takeRoutine (file : Path) (l : Label) : LinkM σ Unit :=
  match l.routine? with
  | some name => LinkM.register file name l.address
  | none => pure ()

/-- Takes the addresses of a resource from the labels of its source, and registers the routines that
it inserted. -/
def takeLabels (r : Resource) : LinkM σ Unit := do
  let labels := (← get).session.labels
  match r.withLabels? labels with
  | none => throw (.authoring r.file .noEntryLabel)
  | some r => modify fun s => { s with resources := s.resources.put r }
  labels.forM (takeRoutine r.file)

/-- Inserts a resource, given the source of its extra bytes. -/
def insert (asm : Assembler σ) (r : Resource) (extraBytes : String) : LinkM σ Unit := do
  LinkM.note .debug s!"adding resource \"{r.file.text}\""
  let _ ← LinkM.generate "extra_bytes.asm" extraBytes
  let source ← LinkM.generate "resource.asm" r.wrapper
  LinkM.patch asm source r.defines
  let inserted ← LinkM.takePrints r.file true
  LinkM.modifySession (·.addSize .resources inserted.size)
  LinkM.note .debug s!"  inserted at {inserted.start.render}"
  LinkM.note .debug
    s!"  insert size: {Text.decimal inserted.size} (0x{Text.hex inserted.size}) bytes"
  takeLabels r

end RomLinker.Resource
