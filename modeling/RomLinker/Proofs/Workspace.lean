import RomLinker.Proofs.Disk.Directories

/-!
The generated sources by their paths. They lie side by side in one directory (`generatedSource_eq`),
which is the parent of each of them, and no two of them are the same route.
-/
namespace RomLinker

theorem Text.Utf8.fromUTF8?_toUTF8 (s : String) : String.fromUTF8? s.toUTF8 = some s := by
  have valid : s.toUTF8.IsValidUTF8 := s.isValidUTF8
  rw [String.fromUTF8?, dif_pos valid]
  rfl

theorem Text.Utf8.decode_toUTF8 (s : String) : decode s.toUTF8 = s := by
  rw [decode, fromUTF8?_toUTF8]

theorem Disk.readText_of_read {d : Disk} {p : Path} {text : String} (h : d.read p = .ok text.toUTF8) :
    d.readText p = .ok text := by
  rw [readText, h]
  exact congrArg Except.ok (Text.Utf8.decode_toUTF8 text)

namespace Workspace
open RomLinker.Path

def workDirectory (root : Path) : Path := root.join ⟨"asm/work"⟩

def generatedNames : List String :=
  ["resource.asm", "extra_bytes.asm", "routines.asm", "library.asm", "library_labels.asm",
    "resource_labels.asm", "resource_calls.asm", "pointer_list.asm"]

variable {w : Workspace} {name : String}

theorem named_of_generated (member : name ∈ generatedNames) : Named name := by
  have all : ∀ name ∈ generatedNames, '/' ∉ name.toList ∧ isName name = true := by decide
  obtain ⟨plain, step⟩ := all name member
  exact ⟨plain, step⟩

theorem segments_work : (Path.mk "asm/work").segments = ["asm", "work"] := rfl

theorem relative_work : (Path.mk "asm/work").isAbsolute = false := rfl

theorem named_asm : Named "asm" := ⟨by decide, by decide⟩

theorem named_work : Named "work" := ⟨by decide, by decide⟩

theorem workDirectory_ends (root : Path) :
    ∃ base, (workDirectory root).segments = base ++ ["asm", "work"] ∧
      (workDirectory root).text ≠ "" ∧ (workDirectory root).text.toList.getLast? ≠ some '/' := by
  obtain ⟨base, -, joined⟩ := segments_join root
  obtain ⟨front, text⟩ := text_join root
  refine ⟨base, ?_, ?_, ?_⟩
  · rw [workDirectory, (joined _ relative_work).1, segments_work]
  · rw [workDirectory, text _ relative_work]
    intro blank
    have longer := congrArg String.length blank
    simp at longer
  · rw [workDirectory, text _ relative_work]
    simp

theorem generatedSource_eq (named : Named name) :
    w.generatedSource name = ⟨(workDirectory w.root).text ++ "/" ++ name⟩ := by
  obtain ⟨-, -, filled, bare⟩ := workDirectory_ends w.root
  exact join_name filled bare named.relative

theorem segments_generatedSource (named : Named name) :
    (w.generatedSource name).segments = (workDirectory w.root).segments ++ [name] := by
  rw [generatedSource_eq named, segments_slash, segments_of_plain named.plain]

theorem isAbsolute_generatedSource (named : Named name) :
    (w.generatedSource name).isAbsolute = (workDirectory w.root).isAbsolute := by
  obtain ⟨-, -, filled, -⟩ := workDirectory_ends w.root
  rw [generatedSource_eq named, String.append_assoc, isAbsolute_append filled]

/-- The body of a generated source ends in its name, behind the name of its directory. -/
theorem leadAndBody_generatedSource (named : Named name) :
    ∃ lead body, (w.generatedSource name).leadAndBody = (lead, body ++ ["work", name]) ∧
      lead ++ body ++ ["work"] = (workDirectory w.root).segments := by
  obtain ⟨base, ends, -⟩ := workDirectory_ends w.root
  have whole := leadAndBody_append (w.generatedSource name)
  have short := length_lead_le (w.generatedSource name)
  rw [segments_generatedSource named, ends] at whole
  rcases parts : (w.generatedSource name).leadAndBody with ⟨lead, body⟩
  rw [parts] at whole short
  have split : lead ++ body = (base ++ ["asm"]) ++ ["work", name] := by simpa using whole
  rcases List.append_eq_append_iff.mp split with ⟨rest, front, back⟩ | ⟨rest, front, back⟩
  · refine ⟨lead, rest, ?_, ?_⟩
    · rw [back]
    · rw [← front, ends]
      simp
  · have size := congrArg List.length front
    simp only [List.length_append, List.length_cons, List.length_nil] at size short
    have none : rest = [] := List.eq_nil_of_length_eq_zero (by omega)
    subst none
    refine ⟨lead, [], ?_, ?_⟩
    · exact congrArg (Prod.mk lead) back.symm
    · rw [front, ends]
      simp

theorem parent?_generatedSource (named : Named name) :
    (w.generatedSource name).parent? = some (workDirectory w.root) := by
  obtain ⟨lead, body, parts, whole⟩ := @leadAndBody_generatedSource w name named
  have last : (w.generatedSource name).lastStep? = some (body ++ ["work"], name) := by
    have turned : (body ++ ["work", name]).reverse = name :: "work" :: body.reverse := by simp
    rw [lastStep?, parts, turned, List.dropWhile_cons_of_neg (by simp [named.steps.1])]
    simp
  have kept : dropVoidEnd (body ++ ["work"]) = body ++ ["work"] := by
    have turned : (body ++ ["work"]).reverse = "work" :: body.reverse := by simp
    rw [dropVoidEnd, turned, List.dropWhile_cons_of_neg (by decide)]
    simp
  rw [parent?, last]
  simp only [kept, withBody, parts]
  have filled : (body ++ ["work"]).isEmpty = false := by simp
  rw [filled, Bool.and_false, if_neg Bool.false_ne_true, ← List.append_assoc, whole,
    joinSegments_segments]

theorem getLast?_components (named : Named name) :
    (w.generatedSource name).components.getLast? = some (.name name) := by
  obtain ⟨lead, body, parts, -⟩ := @leadAndBody_generatedSource w name named
  have last : componentOfSegment name = some (.name name) := by
    obtain ⟨void, up⟩ := named.steps
    simp [componentOfSegment, void, up]
  rw [components, parts]
  simp [List.filterMap_append, last]

theorem generatedSource_inj {other : String} (named : Named name) (named' : Named other)
    (same : (w.generatedSource name).SameRoute (w.generatedSource other)) : name = other := by
  have last := getLast?_components named (w := w)
  rw [show (w.generatedSource name).components = (w.generatedSource other).components from same,
    getLast?_components named'] at last
  simpa using last.symm

def fixedNames : List String := ["clean.asm", "routine_scan.asm", "main.asm"]

theorem fixedSource_congr {v : Workspace} (rooted : w.root = v.root) (name : String) :
    w.fixedSource name = v.fixedSource name := by
  unfold fixedSource
  rw [rooted]

theorem getLast?_fixedSource {fixed : String} (member : fixed ∈ fixedNames) :
    (w.fixedSource fixed).segments.getLast? = some fixed := by
  have all : ∀ fixed ∈ fixedNames, (Path.mk fixed).segments = [fixed] ∧
      (Path.mk fixed).isAbsolute = false := by decide
  obtain ⟨steps, relative⟩ := all fixed member
  obtain ⟨base, -, joined⟩ := segments_join (w.root.join ⟨"asm/base"⟩)
  rw [fixedSource, (joined ⟨fixed⟩ relative).1, steps, List.getLast?_concat]

theorem fixedSource_inj {v : Workspace} {fixed other : String} (member : fixed ∈ fixedNames)
    (member' : other ∈ fixedNames) (same : w.fixedSource fixed = v.fixedSource other) : fixed = other := by
  have last := getLast?_fixedSource member (w := w)
  rw [same, getLast?_fixedSource member'] at last
  exact (Option.some.inj last).symm

theorem fixedSource_ne {v : Workspace} {fixed : String} (member : fixed ∈ fixedNames)
    (generated : name ∈ generatedNames) : w.fixedSource fixed ≠ v.generatedSource name := by
  have apart : ∀ fixed ∈ fixedNames, fixed ∉ generatedNames := by decide
  intro same
  have last := getLast?_fixedSource member (w := w)
  rw [same, segments_generatedSource (named_of_generated generated), List.getLast?_concat] at last
  exact apart fixed member (Option.some.inj last ▸ generated)

def sourceIn (root : Path) (name : String) : Path := (Workspace.mk root []).generatedSource name

variable {d e : Disk} {root : Path} {l : Location}

def workPlace (d : Disk) (root : Path) : Location := d.place (workDirectory root)

theorem place_sourceIn (named : Named name) :
    d.place (sourceIn root name) = (workPlace d root).child name := by
  have steps := segments_generatedSource named (w := ⟨root, []⟩)
  have start := isAbsolute_generatedSource named (w := ⟨root, []⟩)
  unfold Disk.place
  rw [sourceIn, steps, List.foldl_append, List.foldl_cons, List.foldl_nil, Location.move_named named]
  unfold workPlace Disk.place Disk.origin
  rw [start]

def ToolDirectory (d : Disk) (root : Path) : Prop := ∃ l, d.locate (root.join ⟨"."⟩) = .ok l

theorem ToolDirectory.keeps (tool : ToolDirectory d root) (keeps : d.KeepsDirectories e)
    (same : e.workingDirectory = d.workingDirectory) : ToolDirectory e root :=
  tool.imp fun _ located => keeps.follow same located

def toolPlace (d : Disk) (root : Path) : Location := d.place (root.join ⟨"."⟩)

theorem toolPlace_congr (same : e.workingDirectory = d.workingDirectory) (root : Path) :
    toolPlace e root = toolPlace d root := Disk.place_congr same _

theorem place_join {q : Path} (relative : q.isAbsolute = false) :
    d.place (root.join q) = q.segments.foldl Location.move (toolPlace d root) := by
  obtain ⟨base, -, joined⟩ := segments_join root
  obtain ⟨whole, start⟩ := joined q relative
  obtain ⟨here, start'⟩ := joined ⟨"."⟩ relative_dot
  unfold toolPlace Disk.place Disk.origin
  rw [whole, start, here, start', segments_dot,
    List.foldl_append, List.foldl_append]
  rfl

theorem workPlace_eq (d : Disk) (root : Path) :
    workPlace d root = ((toolPlace d root).child "asm").child "work" := by
  rw [workPlace, workDirectory, place_join relative_work, segments_work]
  rw [List.foldl_cons, List.foldl_cons, List.foldl_nil, Location.move_named named_asm,
    Location.move_named named_work]

/-- In a tool directory that is there, only the directory of generated sources and the one that it is in
may have to be made. -/
theorem ToolDirectory.made (tool : ToolDirectory d root)
    (onWay : Disk.OnWay (d.origin (workDirectory root)) (workDirectory root).named l)
    (free : d.lookup l = none) : l = (toolPlace d root).child "asm" ∨ l = workPlace d root := by
  obtain ⟨base, -, joined⟩ := segments_join root
  obtain ⟨whole, start⟩ := joined ⟨"asm/work"⟩ relative_work
  obtain ⟨here, start'⟩ := joined ⟨"."⟩ relative_dot
  rw [segments_work] at whole
  rw [segments_dot] at here
  have origin : d.origin (workDirectory root) = d.origin (root.join ⟨"."⟩) := by
    unfold Disk.origin workDirectory
    rw [start, start']
  obtain ⟨m, located⟩ := tool
  have walk := (Disk.follow_eq_ok located).2
  rw [here, ← origin] at walk
  obtain ⟨front, part, rfl⟩ := onWay
  have within : front <+: base ++ ["asm"] ++ ["work"] := by
    obtain ⟨slashes, split, -⟩ := segments_eq_named (workDirectory root)
    have all : base ++ ["asm"] ++ ["work"] = (workDirectory root).named ++ slashes := by
      rw [← split, workDirectory, whole]
      simp
    rw [all]
    exact part.trans (List.prefix_append _ _)
  have top : toolPlace d root = base.foldl Location.move (d.origin (workDirectory root)) := by
    unfold toolPlace Disk.place
    rw [here, ← origin, List.foldl_append]
    rfl
  -- all of the way, all but its last step, or a part of the way to the root of the tool, which is there
  rcases List.prefix_concat_iff.mp within with all | within
  · refine Or.inr ?_
    rw [all, workPlace, Disk.place, workDirectory, whole, List.append_assoc]
    rfl
  rcases List.prefix_concat_iff.mp within with all | within
  · refine Or.inl ?_
    rw [all, top, List.foldl_append]
    exact Location.move_named named_asm
  · have there : front <+: base ++ ["."] := within.trans (List.prefix_append _ _)
    have shorter : front ≠ base ++ ["."] := by
      rintro rfl
      have size := within.length_le
      rw [List.length_append, List.length_singleton] at size
      omega
    have directory := Disk.lookup_of_walk there shorter walk
    cases free.symm.trans directory

/-- In a tool directory that is there, nothing that is made on the way to the generated sources lies
beside them. -/
theorem ToolDirectory.not_inside (tool : ToolDirectory d root)
    (onWay : Disk.OnWay (d.origin (workDirectory root)) (workDirectory root).named l)
    (free : d.lookup l = none) : ¬l.Inside (workPlace d root) := by
  rcases tool.made onWay free with rfl | rfl
  · rw [workPlace_eq]
    exact Location.not_inside_child
  · exact Location.not_inside_self

/-- The tool directory is there, or its path leads straight down to it. -/
def Grounded (d : Disk) (root : Path) : Prop := ToolDirectory d root ∨ ".." ∉ root.segments

theorem Grounded.not_inside (grounded : Grounded d root)
    (onWay : Disk.OnWay (d.origin (workDirectory root)) (workDirectory root).named l)
    (free : d.lookup l = none) : ¬l.Inside (workPlace d root) := by
  obtain tool | down := grounded
  · exact tool.not_inside onWay free
  · obtain ⟨base, split, joined⟩ := segments_join root
    have whole : (workDirectory root).segments = base ++ ["asm", "work"] := (joined _ relative_work).1
    obtain ⟨slashes, named, -⟩ := segments_eq_named (workDirectory root)
    obtain ⟨front, ⟨back, part⟩, rfl⟩ := onWay
    -- the way goes on down from there to the directory of generated sources
    have straight : ".." ∉ back ++ slashes := by
      intro up
      have inside : ".." ∈ base ++ ["asm", "work"] := by
        rw [← whole, named, ← part, List.append_assoc]
        exact List.mem_append_right _ up
      have above : ".." ∈ base := by simpa using inside
      obtain same | same := split
      · exact down (same ▸ above)
      · exact down (same ▸ List.mem_append_left _ above)
    have place : workPlace d root = (back ++ slashes).foldl Location.move
        (front.foldl Location.move (d.origin (workDirectory root))) := by
      rw [← List.foldl_append, ← List.append_assoc, part, ← named]
      rfl
    apply Location.not_inside_of_le
    rw [place]
    exact Location.size_le_foldl_move straight

theorem Grounded.keeps (grounded : Grounded d root) (keeps : d.KeepsDirectories e)
    (same : e.workingDirectory = d.workingDirectory) : Grounded e root :=
  grounded.imp_left fun tool => tool.keeps keeps same

end Workspace
end RomLinker
