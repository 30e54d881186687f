import RomLinker.Context.Slot
import RomLinker.Listing.Statement
import RomLinker.Resource

/-!
The settings that a list file makes: files, addresses, resources and their slots. Statements are
applied one after the other to a draft, each at most once where it may stand only once; a faulty
statement is noted and the next one applied. The list is accepted if nothing was noted and nothing
is missing.
-/
namespace RomLinker

namespace Version

def major : Nat := 2

def minor : Nat := 0

def text : String := s!"{Text.decimal major}.{Text.decimal minor}"

end Version

structure Settings where
  verbose? : Option Bool := none
  romFile? : Option Path := none
  files : List (FileRole × String) := []
  freeram? : Option Address := none
  contexts : Contexts := .empty
  resources : ResourceTable := .empty

namespace Settings

inductive Fault where
  | malformed (fault : Listing.Fault)
  | repeated (keyword : String)
  | noContext
  | fileNotFound (file : Path)
  | unusable (cause : LinkError)
  | wrongByteCount (given expected : Nat)
  | slot (fault : SlotFault)
  | missing (keyword : String)

namespace Fault

def message : Fault → String
  | .malformed fault => fault.message
  | .repeated keyword => s!"'{keyword}' is given more than once"
  | .noContext => "resource given before any context"
  | .fileNotFound file => s!"resource file \"{file.slashed}\" not found"
  | .unusable cause => cause.message
  | .wrongByteCount given expected =>
    s!"{Text.decimal given} extra byte(s) given, but the resource uses {Text.decimal expected}"
  | .slot fault => fault.message
  | .missing keyword => s!"missing '{keyword}' command"

def note? : Fault → Option String
  | .malformed fault => fault.note?
  | .noContext => some "start the section with 'level:', 'gamemode:' or 'overworld:'"
  | _ => none

end Fault

abbrev Flagged := Listing.Flagged Fault

/-- Settings under construction, and the context of the section that the list is in. -/
structure Draft extends Settings where
  heading? : Option ContextKind := none

/-- The resource of a path, read from its file on first sight. A file that cannot be used keeps its
number, with the directives of an empty file. -/
def Draft.resource (w : Workspace) (d : Disk) (draft : Draft) (file : Path) :
    Except Fault Resource × Draft :=
  match draft.resources.find? file with
  | some r => (.ok r, draft)
  | none =>
    if !d.isFile (w.path file) then (.error (.fileNotFound file), draft)
    else
      let (r, table) := draft.resources.intern file
      match r.readDirectives w d with
      | .ok r => (.ok r, { draft with resources := table.put r })
      | .error e => (.error (.unusable e), { draft with resources := table })

def Draft.assign (w : Workspace) (d : Disk) (kind : ContextKind) (slot : SlotKey) (draft : Draft)
    (item : Listing.Item) : Except Fault Unit × Draft :=
  match draft.resource w d ((Path.mk kind.directory).join ⟨item.file⟩) with
  | (.error e, draft) => (.error e, draft)
  | (.ok r, draft) =>
    let expected := r.directives.extraBytes.toNat
    if !item.bytes.isEmpty && item.bytes.length != expected then
      (.error (.wrongByteCount item.bytes.length expected), draft)
    else
      match draft.contexts.assign kind slot ⟨r.id, item.bytes⟩ with
      | .error e => (.error (.slot e), draft)
      | .ok contexts => (.ok (), { draft with contexts })

/-- Assigns the items of one line, and keeps the first fault among them. -/
def Draft.assignAll (w : Workspace) (d : Disk) (kind : ContextKind) (slot : SlotKey)
    (draft : Draft) : List Listing.Item → Option Flagged × Draft
  | [] => (none, draft)
  | item :: rest =>
    let (result, draft) := draft.assign w d kind slot item
    let (later, draft) := draft.assignAll w d kind slot rest
    match result with
    | .error fault => (some ⟨fault, item.span⟩, draft)
    | .ok () => (later, draft)

open Listing in
def Draft.apply (w : Workspace) (d : Disk) (draft : Draft) : Statement → Option Flagged × Draft
  | .verbose on span =>
    if draft.verbose?.isSome then (some ⟨.repeated "verbose:", span⟩, draft)
    else (none, { draft with verbose? := some on })
  | .rom path span =>
    if draft.romFile?.isSome then (some ⟨.repeated "rom:", span⟩, draft)
    else (none, { draft with romFile? := some ⟨path⟩ })
  | .file role path span =>
    if draft.files.any (·.1 == role) then (some ⟨.repeated role.keyword, span⟩, draft)
    else (none, { draft with files := draft.files ++ [(role, path)] })
  | .freeram address span =>
    if draft.freeram?.isSome then (some ⟨.repeated "freeram:", span⟩, draft)
    else (none, { draft with freeram? := some address })
  | .header kind _ => (none, { draft with heading? := some kind })
  | .slot slot slotSpan items _ =>
    match draft.heading? with
    | none => (some ⟨.noContext, slotSpan⟩, draft)
    | some kind => draft.assignAll w d kind slot items

/-- Applies statements in order and collects what is wrong with them. -/
def Draft.applyAll (w : Workspace) (d : Disk) (draft : Draft) :
    List Listing.Statement → List Flagged × Draft
  | [] => ([], draft)
  | s :: rest =>
    let (fault?, draft) := draft.apply w d s
    let (faults, draft) := draft.applyAll w d rest
    (fault?.toList ++ faults, draft)

def missing (s : Settings) : List Fault :=
  ((FileRole.all.filter fun role => !s.files.any (·.1 == role)).map fun role =>
      .missing role.keyword) ++
    if s.freeram?.isSome then [] else [.missing "freeram:"]

/-- Reads a list file. All faults are reported together, in the order of where they start. -/
def parse (source : String) (w : Workspace) (d : Disk) : Except (List Flagged) Settings :=
  let parsed := Listing.parse source
  let (rejected, draft) := Draft.applyAll w d {} parsed.statements
  let faults := parsed.faults.map (fun f => ⟨.malformed f.fault, f.span⟩) ++ rejected ++
    draft.missing.map fun fault => ⟨fault, .point source.utf8ByteSize⟩
  if faults.isEmpty then .ok draft.toSettings
  else .error (faults.mergeSort fun a b => a.span.start ≤ b.span.start)

def defines (s : Settings) : List (String × String) :=
  [("UberMajorVersion", Text.decimal Version.major),
      ("UberMinorVersion", Text.decimal Version.minor)] ++
    s.files.map (fun (role, path) => (role.define, path)) ++
    (s.freeram?.map fun address => ("UberFreeram", address.render)).toList

end Settings

end RomLinker
