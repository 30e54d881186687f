import RomLinker.Error
import RomLinker.Text.Utf8

/-!
The tool directory: fixed sources under `asm/base`, generated ones under `asm/work`, and the user's
files beside them. The workspace remembers which files it generated.
-/
namespace RomLinker

structure Workspace where
  root : Path
  written : List Path := []

namespace Workspace

/-- A path of the tool directory. An absolute one stands for itself. -/
def path (w : Workspace) (p : Path) : Path := w.root.join p

def fixedSource (w : Workspace) (name : String) : Path := (w.root.join ⟨"asm/base"⟩).join ⟨name⟩

def generatedSource (w : Workspace) (name : String) : Path :=
  (w.root.join ⟨"asm/work"⟩).join ⟨name⟩

def remember (w : Workspace) (p : Path) : Workspace :=
  if w.written.any fun q => decide (q.SameRoute p) then w
  else { w with written := w.written ++ [p] }

/-- The path of what a way leads to from a directory. -/
def along (start : Path) : Way → Path
  | [] => start
  | way => start.join ⟨Path.joinSegments way⟩

/-- The first directory of a walk that cannot be listed, by the ways to those that it enters. -/
def unlistable? (d : Disk) (start : Path) (l : Location) (entered : List Way) : Option LinkError :=
  let fault? (way : Way) := d.listingFault? (along start way) (l.down way)
  let faulty := entered.filter fun way => (fault? way).isSome
  (Way.sort faulty).findSome? fun way => (fault? way).map (.walk (along start way))

/-- The ways to the directories that a walk enters, the first of which is where it starts. -/
def entered (d : Disk) (l : Location) (deep : Bool) : List Way :=
  [] :: if deep then d.directoriesBelow l else []

/-- The files in a subdirectory and, if `deep`, in those below it, as seen from the root. What is no
directory holds none. -/
def filesUnder (w : Workspace) (d : Disk) (dir : Path) (deep : Bool) :
    Except LinkError (List Path) :=
  let start := w.root.join dir
  match d.directory start with
  | .error _ => .ok []
  | .ok l =>
    match unlistable? d start l (entered d l deep) with
    | some e => .error e
    | none =>
      let found := (d.filesBelow l).filter fun way => deep || way.length == 1
      .ok (found.filterMap fun way => (along start way).below? w.root)

end Workspace

/-- The text of a source file. Bytes that are not UTF-8 become replacement characters. -/
def Disk.readText (d : Disk) (p : Path) : Except DiskFault String := Text.Utf8.decode <$> d.read p

end RomLinker
