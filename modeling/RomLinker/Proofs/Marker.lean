import RomLinker.Proofs.Disk.Nested

/-!
The marker of a ROM. It goes into a file beside the ROM, and never over the ROM itself
(`MarkerStep.place_ne`); where the step succeeds, that file ends with the marker afterwards
(`Extmod.read_of_mark`).
-/
namespace RomLinker

namespace Path
variable {p : Path} {front : List String} {name stem extension : String}

theorem lastStep?_of_segments (split : p.segments = front ++ [name]) (solid : isVoid name = false) :
    ∃ above, p.lastStep? = some (above, name) ∧ p.leadAndBody.1 ++ above = front := by
  have parts := p.leadAndBody_append
  rw [split] at parts
  rcases List.eq_nil_or_concat p.leadAndBody.2 with none | ⟨above, last, body⟩
  · -- Only a root or a dot stands alone in front of nothing.
    rw [none, List.append_nil] at parts
    unfold leadAndBody at parts
    rw [split] at parts
    cases front with
    | nil =>
      have dot : name ≠ "." := by
        rintro rfl
        cases solid
      have relative : p.isAbsolute = false := by
        rw [Bool.eq_false_iff]
        intro absolute
        obtain ⟨s, rest, same⟩ := isAbsolute_iff.mp absolute
        rw [split] at same
        cases (List.cons.inj same).2
      simp [relative, dot] at parts
    | cons first front =>
      have size := congrArg List.length parts
      dsimp only [List.cons_append] at size
      split at size
      · simp at size
      · simp at size
  · rw [List.concat_eq_append] at body
    rw [body, ← List.append_assoc] at parts
    obtain ⟨lead, same⟩ := List.append_inj' parts rfl
    cases same
    refine ⟨above, ?_, lead⟩
    unfold lastStep?
    simp [body, solid]

theorem fileName?_of_segments (split : p.segments = front ++ [name]) (named : isName name = true) :
    p.fileName? = some name := by
  unfold isName at named
  rw [Bool.and_eq_true, Bool.not_eq_true', bne_iff_ne] at named
  obtain ⟨above, step, -⟩ := lastStep?_of_segments split named.1
  unfold fileName?
  simp [step, named.2]

theorem plain_of_segments (split : p.segments = front ++ [name]) {s : String} (member : s ∈ front ++ [name]) :
    Plain s := plain_of_mem_segments (split ▸ member)

theorem plain_stem (plain : Plain name) : Plain (splitExtension name).1 := by
  obtain ⟨rest, split⟩ := splitExtension_stem name
  intro slash
  refine plain ?_
  rw [split]
  exact List.mem_append_left _ slash

theorem segments_dropExtension_some (split : p.segments = front ++ [name]) (named : isName name = true)
    (cut : splitExtension name = (stem, some extension)) :
    p.dropExtension.segments = front ++ [stem ++ "."] := by
  obtain ⟨whole, -⟩ := splitExtension_some cut
  have parts : name = stem ++ "." ++ extension := by
    rw [← String.toList_inj, whole]
    simp
  have text : p.text = joinSegments (front ++ [stem ++ "."]) ++ extension := by
    rw [joinSegments_concat, ← parts, ← split, joinSegments_segments]
  have known : p.extension? = some extension := by
    unfold extension?
    rw [fileName?_of_segments split named, Option.bind_some, cut]
  have bare : p.dropExtension = ⟨joinSegments (front ++ [stem ++ "."])⟩ := by
    unfold dropExtension
    rw [known]
    dsimp only
    rw [text, String.length_append, Nat.add_sub_cancel, String.toList_append, List.take_left']
    · rw [String.ofList_toList]
    · exact String.length_toList
  rw [bare]
  refine segments_joinSegments (fun s member => ?_) (by simp)
  rcases List.mem_append.mp member with old | new
  · exact plain_of_segments split (List.mem_append_left _ old)
  · have plain := plain_of_segments split (List.mem_append_right front (List.mem_singleton_self name))
    rw [List.mem_singleton.mp new]
    intro slash
    refine plain ?_
    rw [parts, String.toList_append]
    exact List.mem_append_left _ slash

theorem segments_of_bare (split : p.dropExtension.segments = front ++ [name])
    (named : isName name = true) (plain : Plain extension) (filled : extension ≠ "") :
    (p.withExtension extension).segments =
      front ++ [(splitExtension name).1 ++ ("." ++ extension)] := by
  have solid : isVoid name = false := by
    unfold isName at named
    rw [Bool.and_eq_true, Bool.not_eq_true'] at named
    exact named.1
  obtain ⟨above, step, lead⟩ := lastStep?_of_segments split solid
  have known : p.dropExtension.stem? = some (splitExtension name).1 := by
    unfold stem?
    rw [fileName?_of_segments split named]
    rfl
  have dotted : Plain ("." ++ extension) := by
    unfold Plain
    rw [String.toList_append, List.mem_append]
    exact fun h => h.elim (by decide) plain
  have clean : Plain name := plain_of_segments split (List.mem_append_right _ (List.mem_singleton_self _))
  unfold withExtension
  simp only [step, known, beq_iff_eq, if_neg filled]
  rw [segments_rename step (plain_stem clean) dotted, lead]

theorem isName_of_length {s : String} (long : 3 ≤ s.toList.length) : isName s = true := by
  have up : s ≠ ".." := by
    rintro rfl
    simp at long
  unfold isName
  rw [isVoid_of_length (by omega)]
  simp [up]

theorem splitExtension_dot (filled : stem ≠ "") : (splitExtension (stem ++ ".")).1 = stem := by
  have letters : (stem ++ ".").toList.reverse = '.' :: stem.toList.reverse := by simp
  have some : stem.toList.reverse.isEmpty = false := by simpa using filled
  unfold splitExtension
  rw [letters]
  simp [Text.cutAt?, some]

theorem isName_dot (filled : stem ≠ "") (up : stem ≠ ".") : isName (stem ++ ".") = true := by
  have empty : stem ++ "." ≠ "" := fun none => filled (String.append_eq_empty_iff.mp none).1
  have dot : stem ++ "." ≠ "" ++ "." := fun same => filled ((String.append_left_inj ".").mp same)
  have dots : stem ++ "." ≠ "." ++ "." := fun same => up ((String.append_left_inj ".").mp same)
  have split : ".." = "." ++ "." := by decide
  rw [String.empty_append] at dot
  rw [← split] at dots
  simp [isName, isVoid, empty, dot, dots]

/-- Another extension changes the last name only. If nothing but a dot remains in front of the old
extension, the path leads up. -/
theorem segments_withExtension (split : p.segments = front ++ [name]) (named : isName name = true)
    (plain : Plain extension) (filled : extension ≠ "") :
    ∃ last, (p.withExtension extension).segments = front ++ [last] ∧
      (last = ".." ∨ ∃ stem, stem ≠ "" ∧ last = stem ++ ("." ++ extension) ∧
        (name = stem ∨ ∃ old, p.extension? = some old ∧ name = stem ++ ("." ++ old))) := by
  have known : p.extension? = (splitExtension name).2 := by
    unfold extension?
    rw [fileName?_of_segments split named, Option.bind_some]
  have solid : name ≠ "" := by
    rintro rfl
    cases named
  rcases cut : splitExtension name with ⟨stem, _ | old⟩
  · have bare : p.dropExtension = p := by
      unfold dropExtension
      rw [known, cut]
    have whole : stem = name := by
      unfold splitExtension at cut
      split at cut
      · split at cut
        · exact (Prod.mk.inj cut).1.symm
        · cases (Prod.mk.inj cut).2
      · exact (Prod.mk.inj cut).1.symm
    refine ⟨name ++ ("." ++ extension), ?_, Or.inr ⟨name, solid, rfl, Or.inl rfl⟩⟩
    rw [segments_of_bare (bare.symm ▸ split) named plain filled, cut, whole]
  · have bare := segments_dropExtension_some split named cut
    obtain ⟨whole, some⟩ := splitExtension_some cut
    have filled' : stem ≠ "" := fun none => some (by rw [none]; rfl)
    -- of a name like `..x` there remains what leads up
    by_cases dot : stem = "."
    · subst dot
      refine ⟨"..", ?_, Or.inl rfl⟩
      obtain ⟨above, step, -⟩ := lastStep?_of_segments bare (by decide)
      have none : p.dropExtension.stem? = none := by
        unfold stem? fileName?
        rw [step]
        rfl
      unfold withExtension
      simp only [step, none]
      exact bare
    · refine ⟨stem ++ ("." ++ extension), ?_, Or.inr ⟨stem, filled', rfl, Or.inr ⟨old, ?_, ?_⟩⟩⟩
      · rw [segments_of_bare bare (isName_dot filled' dot) plain filled, splitExtension_dot filled']
      · rw [known, cut]
      · rw [← String.toList_inj, whole]
        simp

end Path

/-! ### The file of the marker -/

namespace Disk
variable {d : Disk} {l : Location} {p rom : Path} {data : ByteArray}

theorem entry_of_open (located : d.locate p = .ok l)
    (opens : ∀ fault, d.read p = .error fault → fault = .notFound) :
    ∃ found, d.entryAt l = .ok found ∧ found ≠ some .directory ∧
      (∀ content, d.read p = .ok content → found = some (.file content)) ∧
      (d.read p = .error .notFound → found = none) := by
  unfold read at opens ⊢
  simp only [located, bind, Except.bind] at opens ⊢
  unfold entryAt at opens ⊢
  split
  · rename_i long
    rw [if_pos long] at opens
    cases opens .nameTooLong rfl
  · rename_i short
    rw [if_neg short] at opens
    refine ⟨d.lookup l, rfl, fun directory => ?_, fun content same => ?_, fun free => ?_⟩
    · rw [directory] at opens
      cases opens .isADirectory rfl
    · rcases found : d.lookup l with _ | _ | _
      · simp [found] at same
      · simpa [found] using same
      · simp [found] at same
    · rcases found : d.lookup l with _ | _ | _
      · rfl
      · simp [found] at free
      · simp [found] at free

theorem toOption_read (located : d.locate p = .ok l) :
    (d.read p).toOption = match d.entryAt l with
      | .ok (some (.file content)) => some content
      | _ => none := by
  unfold read
  rw [located]
  show (d.entryAt l >>= _).toOption = _
  rcases d.entryAt l with fault | _ | _ | _
  · rfl
  · rfl
  · rfl
  · rfl

theorem text_of_textFault? (fault : textFault? p = some .notFound) : p.text = "" := by
  unfold textFault? at fault
  split at fault
  · cases fault
  · split at fault
    · assumption
    · split at fault
      · cases fault
      · cases fault

theorem fine_of_open {front : List String} {last : String} (split : p.segments = front ++ [last])
    (filled : last ≠ "") (opens : ∀ fault, d.read p = .error fault → fault = .notFound) :
    textFault? p = none := by
  cases wrong : textFault? p with
  | none => rfl
  | some fault =>
    have stops : d.read p = .error fault := by
      unfold read locate follow
      rw [wrong]
      rfl
    rw [opens fault stops] at wrong
    have empty : p = ⟨""⟩ := congrArg Path.mk (text_of_textFault? wrong)
    have blank : (Path.mk "").segments = [] ++ [""] := Path.segments_empty
    rw [empty, blank] at split
    exact absurd (List.cons.inj (List.append_inj' split rfl).2).1.symm filled

/-- The paths of a ROM and of its marker differ in their last step. -/
structure MarkerStep (rom : Path) (front : List String) (name last : String) : Prop where
  path : rom.segments = front ++ [name]
  marker : (rom.withExtension "extmod").segments = front ++ [last]
  named : Path.Named name
  kinds : last = ".." ∨ Path.Named last ∧ last ≠ name ∧ 8 ≤ last.toList.length

theorem MarkerStep.filled {front : List String} {name last : String}
    (step : MarkerStep rom front name last) : last ≠ "" := by
  rcases step.kinds with rfl | ⟨named, -, -⟩
  · decide
  · exact Path.ne_empty_of_step named.steps.1

theorem exists_markerStep (nested : d.Nested) (loaded : d.read rom = .ok data)
    (other : rom.extension? ≠ some "extmod") : ∃ front name last, MarkerStep rom front name last := by
  obtain ⟨l, located, entry⟩ := read_eq_ok.mp loaded
  have file : d.lookup l ≠ some .directory := by
    rw [(entryAt_eq_ok.mp entry).2]
    exact nofun
  obtain ⟨front, name, split⟩ := exists_concat rom
  have named : Path.Named name :=
    ⟨Path.plain_of_segments split (by simp), name_of_locate nested split located file⟩
  have plain : Path.Plain "extmod" := by
    unfold Path.Plain
    decide
  have tail : ("." ++ "extmod").toList.length = 7 := by decide
  obtain ⟨last, split', kinds⟩ := Path.segments_withExtension split named.step plain (by decide)
  refine ⟨front, name, last, split, split', named, ?_⟩
  rcases kinds with up | ⟨stem, some, rfl, before⟩
  · exact Or.inl up
  · have letters : stem.toList ≠ [] := by simpa using some
    have pos := List.length_pos_iff.mpr letters
    have size : 8 ≤ (stem ++ ("." ++ "extmod")).toList.length := by
      rw [String.toList_append, List.length_append, tail]
      omega
    refine Or.inr ⟨⟨Path.plain_of_segments split' (by simp), Path.isName_of_length (by omega)⟩, ?_, size⟩
    rintro rfl
    rcases before with same | ⟨old, known, same⟩
    · have longer := congrArg (fun s => s.toList.length) same
      rw [String.toList_append, List.length_append] at longer
      omega
    · rw [String.append_right_inj, String.append_right_inj] at same
      exact other (same ▸ known)

section Step
variable {front : List String} {name last : String} (step : MarkerStep rom front name last)
include step

theorem MarkerStep.place_ne : d.place rom ≠ d.place (rom.withExtension "extmod") := by
  have filled : name ≠ "" := Path.ne_empty_of_step step.named.steps.1
  have start : d.origin (rom.withExtension "extmod") = d.origin rom := by
    unfold origin
    rw [Path.isAbsolute_congr step.marker step.path step.filled filled]
  rw [place_eq_move step.path (List.forall_mem_nil _), place_eq_move step.marker (List.forall_mem_nil _), start,
    Location.move_named step.named]
  rcases step.kinds with rfl | ⟨named, apart, -⟩
  · intro same
    have names := congrArg (fun l => l.names.length) same
    have shorter : (front.foldl Location.move (d.origin rom)).names.tail.length + 1 =
      (front.foldl Location.move (d.origin rom)).names.length + 1 + 1 := congrArg (· + 1) names.symm
    rw [List.length_tail] at shorter
    omega
  · rw [Location.move_named named]
    exact fun same => apart (Location.child_inj same).2.symm

/-- The file of the marker lies beside the ROM, if its path can be looked up at all. -/
theorem MarkerStep.locate (loaded : d.read rom = .ok data)
    (fine : textFault? (rom.withExtension "extmod") = none) :
    ∃ top : Location, d.lookup top = some .directory ∧
      d.locate (rom.withExtension "extmod") = .ok (top.move last) := by
  obtain ⟨l, located, -⟩ := read_eq_ok.mp loaded
  have filled : name ≠ "" := Path.ne_empty_of_step step.named.steps.1
  obtain ⟨top, directory, -, located'⟩ := locate_beside step.path step.marker filled step.filled located fine
  exact ⟨top, directory, located'⟩

theorem MarkerStep.named_of_open (nested : d.Nested) (loaded : d.read rom = .ok data)
    (opens : ∀ fault, d.read (rom.withExtension "extmod") = .error fault → fault = .notFound) :
    ∃ top : Location, d.locate (rom.withExtension "extmod") = .ok (top.child last) ∧
      8 ≤ last.toList.length := by
  obtain ⟨top, directory, located⟩ := step.locate loaded (fine_of_open step.marker step.filled opens)
  rcases step.kinds with rfl | ⟨named, -, long⟩
  · -- The directory above is none that could be opened.
    obtain ⟨found, entry, file, -⟩ := entry_of_open located opens
    have here : d.lookup top.parent = found := (entryAt_eq_ok.mp entry).2
    have above := nested top (by rw [directory]; exact nofun)
    exact absurd (here.symm.trans above) file
  · rw [Location.move_named named] at located
    exact ⟨top, located, long⟩

end Step

theorem read_of_openPlace (opened : d.openPlace p = .ok l) :
    d.read p = match d.lookup l with
      | some (.file content) => .ok content
      | some .directory | none => .error .notFound := by
  obtain ⟨target, ⟨found, entry, file⟩, -⟩ := openPlace_eq_ok.mp opened
  rw [(entryAt_eq_ok.mp entry).2]
  unfold read
  simp only [locate_of_target target, entry, bind, Except.bind]
  rcases found with _ | _ | _
  · rfl
  · rfl
  · exact absurd rfl file

end Disk

namespace Extmod
variable {d e : Disk} {l : Location} {rom : Path}

/-- What a file of markers holds once this tool has left its name in it. -/
def marked (content : ByteArray) : ByteArray :=
  if endsWith content marker.toUTF8 then content else content ++ marker.toUTF8

/-- What a file of markers holds before that. -/
def before (d : Disk) (rom : Path) : ByteArray := (d.read (rom.withExtension "extmod")).toOption.getD .empty

theorem not_endsWith_empty : endsWith .empty marker.toUTF8 = false := by decide

theorem before_of_openPlace (opened : d.openPlace (rom.withExtension "extmod") = .ok l) :
    before d rom = Disk.contentOf (d.lookup l) := by
  rw [before, Disk.read_of_openPlace opened]
  rcases d.lookup l with _ | _ | _ <;> rfl

/-- Where the file of markers can be opened, the marker is added unless the file ends with it. -/
theorem mark_of_openPlace (opened : d.openPlace (rom.withExtension "extmod") = .ok l) :
    mark d rom = if endsWith (before d rom) marker.toUTF8 then (.ok (), d)
      else d.put l (before d rom) marker.toUTF8 := by
  have read := Disk.read_of_openPlace opened
  rw [before_of_openPlace opened]
  unfold mark
  dsimp only
  rw [Disk.append_of_openPlace opened, read]
  rcases d.lookup l with _ | content | _
  · rw [Disk.contentOf, not_endsWith_empty, if_neg Bool.false_ne_true]
  · rfl
  · rw [Disk.contentOf, not_endsWith_empty, if_neg Bool.false_ne_true]

theorem marked_of_put {content : ByteArray} (ends : ¬ endsWith content marker.toUTF8 = true)
    (opened : d.openPlace (rom.withExtension "extmod") = .ok l)
    (h : d.put l content marker.toUTF8 = (.ok (), e)) : e.read (rom.withExtension "extmod") = .ok (marked content) := by
  rw [marked, if_neg ends]
  exact (Disk.put_eq_ok opened h).read

theorem read_of_mark (h : mark d rom = (.ok (), e)) :
    e.read (rom.withExtension "extmod") = .ok (marked (before d rom)) := by
  have added {content : ByteArray} (same : before d rom = content) (ends : ¬ endsWith content marker.toUTF8 = true)
      (h : d.append (rom.withExtension "extmod") marker.toUTF8 = (.ok (), e)) :
      e.read (rom.withExtension "extmod") = .ok (marked (before d rom)) := by
    cases opened : d.openPlace (rom.withExtension "extmod") with
    | error fault =>
      unfold Disk.append at h
      rw [opened] at h
      cases h
    | ok l =>
      rw [Disk.append_of_openPlace opened, ← before_of_openPlace opened] at h
      rw [same] at h ⊢
      exact marked_of_put ends opened h
  unfold mark at h
  dsimp only at h
  split at h
  · rename_i content read
    have same : before d rom = content := by rw [before, read]; rfl
    split at h
    · rename_i ends
      cases h
      rw [same, marked, if_pos ends, read]
    · rename_i ends
      exact added same ends h
  · rename_i read
    have same : before d rom = .empty := by rw [before, read]; rfl
    exact added same (by rw [not_endsWith_empty]; exact Bool.false_ne_true) h
  · cases h

theorem mark_goes (opened : d.openPlace (rom.withExtension "extmod") = .ok l)
    (goes : d.obstacles.brokenOff d.entries l marker.toUTF8 = none) : (mark d rom).1 = .ok () := by
  rw [mark_of_openPlace opened]
  split
  · rfl
  · rw [Disk.put, goes]

theorem marked_empty : marked .empty = marker.toUTF8 := by
  rw [marked, not_endsWith_empty, if_neg Bool.false_ne_true, ByteArray.empty_append]

theorem read_elsewhere {p : Path} {content : ByteArray} (apart : d.place p ≠ d.place (rom.withExtension "extmod"))
    (h : d.read p = .ok content) : (mark d rom).2.read p = .ok content := by
  rcases mark_changes d rom with same | ⟨l, added, written⟩
  · rw [same]
    exact h
  · refine written.keeps.read written.cwd ?_ h
    rw [written.lookup, written.place, if_neg apart]

end Extmod

end RomLinker
