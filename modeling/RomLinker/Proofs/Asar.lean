import RomLinker.Asar
import RomLinker.Proofs.Disk.Nested
import RomLinker.Proofs.Workspace

/-!
Requests to an assembler that is a program of its own. The steps of a request are followed one by one, each with
what its failure leaves behind (`exists_ends`). So a request is all of one run of the program, or it leaves the
assembly as it was, and behind any number of requests the image, the labels and the prints are from one and the
same run (`patch_all_or_nothing`).
-/
namespace RomLinker

theorem Disk.place_join_name {d : Disk} {p : Path} {name : String} (named : Path.Named name) :
    d.place (p.join ⟨name⟩) = (d.place p).child name := by
  obtain ⟨base, split, joined⟩ := Path.segments_join p
  obtain ⟨segments, kind⟩ := joined ⟨name⟩ named.relative
  have start : d.origin (p.join ⟨name⟩) = d.origin p := by
    unfold Disk.origin
    rw [kind]
  have front : base.foldl Location.move (d.origin p) = d.place p := by
    unfold Disk.place
    rcases split with same | slash
    · rw [same]
    · have stays : ∀ l : Location, l.move "" = l := fun l => Location.move_of_void rfl
      rw [slash, List.foldl_append, List.foldl_cons, List.foldl_nil, stays]
  unfold Disk.place at front ⊢
  rw [segments, start, Path.segments_of_plain named.plain, List.foldl_append, front, List.foldl_cons,
    List.foldl_nil, Location.move_named named]

theorem Disk.makeDirectory_eq_ok {d e : Disk} {p : Path} (made : d.makeDirectory p = .ok e) :
    d.lookup (d.place p) = none ∧ e = d.insert (d.place p) .directory := by
  obtain ⟨⟨l, slash⟩, target, made⟩ := Except.bind_eq_ok.mp made
  obtain ⟨found, entry, made⟩ := Except.bind_eq_ok.mp made
  cases found with
  | some entry => cases made
  | none =>
    obtain ⟨m, granted, placed⟩ := Except.bind_eq_ok.mp made
    obtain ⟨-, rfl⟩ := Disk.grant_eq_ok.mp granted
    rw [← Disk.target_eq_place target]
    exact ⟨(Disk.entryAt_eq_ok.mp entry).2, (Except.ok.inj placed).symm⟩

namespace Asar

variable {σ : Type}

section
variable (t : Tool σ) (bench : Bench σ) (scratch : Path)

@[simp] theorem bind_apply {α β : Type} (action : AsarM σ α) (next : α → AsarM σ β) :
    (action >>= next) bench = match action bench with
      | .ok a after => next a after
      | .error e after => .error e after := by
  show EStateM.bind action next bench = _
  unfold EStateM.bind
  cases action bench <;> rfl

theorem get_apply : (get : AsarM σ (Bench σ)) bench = .ok bench bench := rfl

@[simp] theorem makeScratch_apply : t.makeScratch bench =
    match bench.disk.makeDirectory (t.scratch bench.disk bench.state) with
    | .ok disk => .ok (t.scratch bench.disk bench.state) { bench with disk }
    | .error fault => .error (t.unavailable fault.message) bench := by
  unfold Tool.makeScratch
  rw [bind_apply, get_apply]
  dsimp only
  cases bench.disk.makeDirectory (t.scratch bench.disk bench.state) <;> rfl

@[simp] theorem stage_apply : t.stage scratch bench =
    match bench.disk.store (imagePath scratch) bench.assembly.image with
    | (.ok (), disk) => .ok () { bench with disk }
    | (.error fault, disk) => .error (t.unavailable fault.message) { bench with disk } := by
  unfold Tool.stage
  rw [bind_apply, get_apply]
  dsimp only
  rcases bench.disk.store (imagePath scratch) bench.assembly.image with ⟨_ | _, disk⟩ <;> rfl

@[simp] theorem start_apply (texts : List String) : t.start texts bench =
    match commandFault? (t.path.text :: texts), t.run texts bench.disk bench.state with
    | some reason, _ => .error (t.unavailable reason) bench
    | none, (.ok output, disk, state) => .ok output { bench with disk, state }
    | none, (.error reason, disk, state) => .error (t.unavailable reason) { bench with disk, state } := by
  unfold Tool.start
  cases commandFault? (t.path.text :: texts) with
  | some reason => rfl
  | none =>
    dsimp only
    rw [bind_apply, get_apply]
    dsimp only
    rcases t.run texts bench.disk bench.state with ⟨_ | _, disk, state⟩ <;> rfl

@[simp] theorem collect_apply (output : Output) : t.collect scratch output bench =
    match output.succeeded, bench.disk.read (imagePath scratch) with
    | false, _ => .error (.failed output.diagnostics) bench
    | true, .error fault => .error (t.unavailable fault.message) bench
    | true, .ok image =>
      let labels := symbolLabels (bench.disk.read (symbolsPath scratch)).toOption
      .ok () { bench with assembly := ⟨image, labels, outputLines output.stdout⟩ } := by
  unfold Tool.collect
  cases output.succeeded with
  | false => rfl
  | true =>
    rw [Bool.not_true, if_neg Bool.false_ne_true]
    dsimp only
    rw [bind_apply, get_apply]
    dsimp only
    cases bench.disk.read (imagePath scratch) <;> rfl

end

/-! ### Runs -/

/-- A finished run of the program, with its scratch directory and the disks before and after it. -/
structure Finished where
  scratch : Path
  found : Disk
  output : Output
  left : Disk

/-- A run that is of use: the program succeeded, and the image can be read. -/
def Finished.Counts (run : Finished) : Prop :=
  run.output.succeeded = true ∧ ∃ image, run.left.read (imagePath run.scratch) = .ok image

/-- An assembly that has all of its parts from one run. A symbol file that cannot be read as text has no labels. -/
structure Describes (assembly : Assembly) (run : Finished) : Prop where
  succeeded : run.output.succeeded = true
  image : run.left.read (imagePath run.scratch) = .ok assembly.image
  prints : assembly.prints = outputLines run.output.stdout
  labels : ∀ text : String, run.left.read (symbolsPath run.scratch) = .ok text.toUTF8 →
    assembly.labels = SymbolFile.parse text
  unreadable : (∀ text : String, run.left.read (symbolsPath run.scratch) ≠ .ok text.toUTF8) → assembly.labels = []

/-- The run that a request comes to, if nothing stops it before. -/
structure Runs (t : Tool σ) (source : Path) (defines : Defines) (image : ByteArray) (disk : Disk) (state : σ)
    (run : Finished) (after : σ) : Prop where
  scratch : run.scratch = t.scratch disk state
  staged : ∃ fresh, disk.makeDirectory run.scratch = .ok fresh ∧
    fresh.store (imagePath run.scratch) image = (.ok (), run.found)
  command : commandFault? (t.path.text :: arguments run.scratch source defines) = none
  ran : t.run (arguments run.scratch source defines) run.found state = (.ok run.output, run.left, after)

theorem symbolLabels_text (text : String) : symbolLabels (some text.toUTF8) = SymbolFile.parse text := by
  rw [symbolLabels, Option.bind_some, Text.Utf8.fromUTF8?_toUTF8]

theorem symbolLabels_of_unreadable {symbols? : Option ByteArray}
    (unreadable : ∀ text : String, symbols? ≠ some text.toUTF8) : symbolLabels symbols? = [] := by
  unfold symbolLabels
  cases symbols? with
  | none => rfl
  | some bytes =>
    have invalid : ¬ bytes.IsValidUTF8 := fun valid => unreadable (String.fromUTF8 bytes valid) rfl
    rw [Option.bind_some, String.fromUTF8?, dif_neg invalid]

def Finished.assembly (run : Finished) (image : ByteArray) : Assembly :=
  ⟨image, symbolLabels (run.left.read (symbolsPath run.scratch)).toOption, outputLines run.output.stdout⟩

theorem Finished.describes {run : Finished} {image : ByteArray} (succeeded : run.output.succeeded = true)
    (there : run.left.read (imagePath run.scratch) = .ok image) : Describes (run.assembly image) run := by
  refine ⟨succeeded, there, rfl, fun text read => ?_, fun unreadable => ?_⟩
  · unfold Finished.assembly
    rw [read]
    exact symbolLabels_text text
  · refine symbolLabels_of_unreadable fun text same => unreadable text ?_
    cases read : run.left.read (symbolsPath run.scratch) with
    | error fault =>
      rw [read] at same
      cases same
    | ok bytes =>
      rw [read] at same
      exact congrArg Except.ok (Option.some.inj same)

section
variable {t : Tool σ} {source : Path} {defines : Defines} {image : ByteArray} {disk : Disk} {state after : σ}
  {run : Finished}

theorem Runs.finds_image (runs : Runs t source defines image disk state run after) :
    run.found.read (imagePath run.scratch) = .ok image := by
  obtain ⟨fresh, -, stored⟩ := runs.staged
  obtain ⟨l, writes⟩ := Disk.store_eq_ok stored
  exact writes.read

/-- Where all of the disk lies in directories, the program finds no symbol file: what there is of one behind
the run is from this run. -/
theorem Runs.finds_no_symbols (runs : Runs t source defines image disk state run after) (nested : disk.Nested)
    (bytes : ByteArray) : run.found.read (symbolsPath run.scratch) ≠ .ok bytes := by
  intro read
  obtain ⟨fresh, made, stored⟩ := runs.staged
  obtain ⟨free, rfl⟩ := Disk.makeDirectory_eq_ok made
  obtain ⟨l, writes⟩ := Disk.store_eq_ok stored
  have below : disk.place run.scratch ≠ .root := Disk.ne_root_of_lookup free nofun
  have named : Path.Named "rom.smc" ∧ Path.Named "rom.sym" := ⟨⟨by decide, by decide⟩, by decide, by decide⟩
  have place : l = (disk.place run.scratch).child "rom.smc" := by
    rw [writes.place, imagePath, Disk.place_join_name named.1]
    rfl
  obtain ⟨m, located, entry⟩ := Disk.read_eq_ok.mp read
  have here : m = (disk.place run.scratch).child "rom.sym" := by
    rw [Disk.locate_eq_place located, symbolsPath, Disk.place_join_name named.2, Disk.place_congr writes.cwd]
    rfl
  subst here place
  have apart : (disk.place run.scratch).child "rom.sym" ≠ (disk.place run.scratch).child "rom.smc" :=
    fun same => absurd (Location.child_inj same).2 (by decide)
  have deeper : (disk.place run.scratch).child "rom.sym" ≠ disk.place run.scratch := fun same =>
    absurd (congrArg Location.depth same) (Nat.succ_ne_self _)
  have there := (Disk.entryAt_eq_ok.mp entry).2
  rw [writes.lookup, if_neg apart, Disk.lookup_insert below, if_neg deeper] at there
  have directory := nested _ (by rw [there]; exact Option.some_ne_none _)
  rw [Location.parent_child] at directory
  cases free.symm.trans directory

theorem Runs.unique {run' : Finished} {after' : σ} (runs : Runs t source defines image disk state run after)
    (runs' : Runs t source defines image disk state run' after') : run = run' ∧ after = after' := by
  obtain ⟨scratch, found, output, left⟩ := run
  obtain ⟨scratch', found', output', left'⟩ := run'
  obtain ⟨rfl, ⟨fresh, made, staged⟩, -, ran⟩ := runs
  obtain ⟨rfl, ⟨fresh', made', staged'⟩, -, ran'⟩ := runs'
  cases made.symm.trans made'
  cases staged.symm.trans staged'
  cases ran.symm.trans ran'
  exact ⟨rfl, rfl⟩

end

/-! ### Requests -/

section
variable (t : Tool σ) (source : Path) (defines : Defines) (image : ByteArray) (disk : Disk) (state : σ)

/-- How a request can end: its answer, and what it leaves. -/
inductive Ends : Except AssemblerFault Assembly × Disk × σ → Prop
  | idle (reason : String) (left : Disk) (after : σ)
      (none : ∀ run after, ¬ Runs t source defines image disk state run after) :
    Ends (.error (t.unavailable reason), left, after)
  | failed (run : Finished) (after : σ) (runs : Runs t source defines image disk state run after)
      (failed : run.output.succeeded = false) :
    Ends (.error (.failed run.output.diagnostics), run.left.removeTree run.scratch, after)
  | lost (run : Finished) (after : σ) (runs : Runs t source defines image disk state run after)
      (succeeded : run.output.succeeded = true) (fault : DiskFault)
      (gone : run.left.read (imagePath run.scratch) = .error fault) :
    Ends (.error (t.unavailable fault.message), run.left.removeTree run.scratch, after)
  | done (run : Finished) (after : σ) (runs : Runs t source defines image disk state run after)
      (succeeded : run.output.succeeded = true) (patched : ByteArray)
      (there : run.left.read (imagePath run.scratch) = .ok patched) :
    Ends (.ok (run.assembly patched), run.left.removeTree run.scratch, after)

end

section
variable {t : Tool σ} {source : Path} {defines : Defines} {last : Assembly} {disk : Disk} {state : σ}

def settle (last : Assembly) : Except AssemblerFault Assembly × Disk × σ →
    Except AssemblerFault Unit × Assembly × Disk × σ
  | (.ok assembly, disk, state) => (.ok (), assembly, disk, state)
  | (.error e, disk, state) => (.error e, last, disk, state)

/-- A request is followed up to the first step that fails. Of the assembly before it nothing but the image has an
influence, and only the last step touches that. -/
theorem exists_ends (t : Tool σ) (source : Path) (defines : Defines) (image : ByteArray) (disk : Disk) (state : σ) :
    ∃ answer, Ends t source defines image disk state answer ∧
      ∀ last : Assembly, last.image = image → t.patch source defines last disk state = settle last answer := by
  cases made : disk.makeDirectory (t.scratch disk state) with
  | error fault =>
    refine ⟨_, .idle fault.message disk state ?_, fun last same => ?_⟩
    · rintro ⟨scratch, _, _, _⟩ after ⟨rfl, ⟨_, made', -⟩, -, -⟩
      cases made.symm.trans made'
    · simp [Tool.patch, Tool.request, made, settle]
  | ok fresh =>
  rcases staged : fresh.store (imagePath (t.scratch disk state)) image with ⟨fault | ⟨⟩, found⟩
  · refine ⟨_, .idle fault.message (found.removeTree (t.scratch disk state)) state ?_, fun last same => ?_⟩
    · rintro ⟨scratch, _, _, _⟩ after ⟨rfl, ⟨_, made', staged'⟩, -, -⟩
      cases made.symm.trans made'
      cases staged.symm.trans staged'
    · simp [Tool.patch, Tool.request, Tool.within, Tool.assembleIn, made, same, staged, settle]
  cases command : commandFault? (t.path.text :: arguments (t.scratch disk state) source defines) with
  | some reason =>
    refine ⟨_, .idle reason (found.removeTree (t.scratch disk state)) state ?_, fun last same => ?_⟩
    · rintro ⟨scratch, _, _, _⟩ after ⟨rfl, -, command', -⟩
      cases command.symm.trans command'
    · simp [Tool.patch, Tool.request, Tool.within, Tool.assembleIn, made, same, staged, command, settle]
  | none =>
  rcases ran : t.run (arguments (t.scratch disk state) source defines) found state with ⟨reason | output, left, after⟩
  · refine ⟨_, .idle reason (left.removeTree (t.scratch disk state)) after ?_, fun last same => ?_⟩
    · rintro ⟨scratch, _, _, _⟩ after' ⟨rfl, ⟨_, made', staged'⟩, -, ran'⟩
      cases made.symm.trans made'
      cases staged.symm.trans staged'
      cases ran.symm.trans ran'
    · simp [Tool.patch, Tool.request, Tool.within, Tool.assembleIn, made, same, staged, command, ran, settle]
  let run : Finished := ⟨t.scratch disk state, found, output, left⟩
  have runs : Runs t source defines image disk state run after := ⟨rfl, ⟨fresh, made, staged⟩, command, ran⟩
  cases succeeded : output.succeeded with
  | false =>
    refine ⟨_, .failed run after runs succeeded, fun last same => ?_⟩
    simp [Tool.patch, Tool.request, Tool.within, Tool.assembleIn, made, same, staged, command, ran, succeeded, settle,
      run]
  | true =>
    cases there : left.read (imagePath (t.scratch disk state)) with
    | error fault =>
      refine ⟨_, .lost run after runs succeeded fault there, fun last same => ?_⟩
      simp [Tool.patch, Tool.request, Tool.within, Tool.assembleIn, made, same, staged, command, ran, succeeded, there,
        settle, run]
    | ok patched =>
      refine ⟨_, .done run after runs succeeded patched there, fun last same => ?_⟩
      simp [Tool.patch, Tool.request, Tool.within, Tool.assembleIn, made, same, staged, command, ran, succeeded, there,
        settle, run, Finished.assembly]

/-- The linker's assembler, which gives its answer as a whole, is the program. -/
theorem toAssembler_patch (t : Tool σ) (source : Path) (defines : Defines) (last : Assembly) (disk : Disk)
    (state : σ) : t.toAssembler.patch source defines last disk state = t.patch source defines last disk state := by
  obtain ⟨⟨answer | assembly, left, after⟩, -, patched⟩ := exists_ends t source defines last.image disk state
  · have asked := patched ⟨last.image, [], []⟩ rfl
    simp only [Assembler.patch, Tool.toAssembler, asked, patched last rfl, settle]
  · have asked := patched ⟨last.image, [], []⟩ rfl
    simp only [Assembler.patch, Tool.toAssembler, asked, patched last rfl, settle]

theorem patch_of_runs {run : Finished} {after : σ} (runs : Runs t source defines last.image disk state run after) :
    let result := (t.patch source defines last disk state).1
    (run.output.succeeded = false → result = .error (.failed run.output.diagnostics)) ∧
    (run.output.succeeded = true → ∀ fault, run.left.read (imagePath run.scratch) = .error fault →
      result = .error (t.unavailable fault.message)) ∧
    (run.Counts → result = .ok () ∧ Describes (t.patch source defines last disk state).2.1 run) := by
  obtain ⟨answer, ends, patched⟩ := exists_ends t source defines last.image disk state
  rw [patched last rfl]
  cases ends with
  | idle reason left after' none => exact absurd runs (none run after)
  | failed run' after' runs' failed =>
    obtain ⟨rfl, -⟩ := runs.unique runs'
    refine ⟨fun _ => rfl, fun succeeded => ?_, fun counts => ?_⟩
    · cases failed.symm.trans succeeded
    · cases failed.symm.trans counts.1
  | lost run' after' runs' succeeded fault gone =>
    obtain ⟨rfl, -⟩ := runs.unique runs'
    refine ⟨fun failed => ?_, fun _ other gone' => ?_, ?_⟩
    · cases failed.symm.trans succeeded
    · cases gone.symm.trans gone'
      rfl
    · rintro ⟨-, image, there⟩
      cases gone.symm.trans there
  | done run' after' runs' succeeded image there =>
    obtain ⟨rfl, -⟩ := runs.unique runs'
    refine ⟨fun failed => ?_, fun _ fault gone => ?_, fun _ => ⟨rfl, Finished.describes succeeded there⟩⟩
    · cases failed.symm.trans succeeded
    · cases there.symm.trans gone

theorem patch_of_idle (idle : ∀ run after, ¬ Runs t source defines last.image disk state run after) :
    ∃ reason, (t.patch source defines last disk state).1 = .error (t.unavailable reason) := by
  obtain ⟨answer, ends, patched⟩ := exists_ends t source defines last.image disk state
  rw [patched last rfl]
  cases ends with
  | idle reason left after none => exact ⟨reason, rfl⟩
  | failed run after runs failed => exact absurd runs (idle run after)
  | lost run after runs succeeded fault gone => exact absurd runs (idle run after)
  | done run after runs succeeded image there => exact absurd runs (idle run after)

theorem patch_of_error {e : AssemblerFault} (failed : (t.patch source defines last disk state).1 = .error e) :
    (t.patch source defines last disk state).2.1 = last := by
  obtain ⟨⟨fault | assembly, left, after⟩, -, patched⟩ := exists_ends t source defines last.image disk state
  · rw [patched last rfl, settle]
  · rw [patched last rfl, settle] at failed
    cases failed

theorem exists_runs_of_ok (done : (t.patch source defines last disk state).1 = .ok ()) :
    ∃ run after, Runs t source defines last.image disk state run after ∧ run.Counts := by
  obtain ⟨answer, ends, patched⟩ := exists_ends t source defines last.image disk state
  rw [patched last rfl] at done
  cases ends with
  | idle reason left after none => cases done
  | failed run after runs failed => cases done
  | lost run after runs succeeded fault gone => cases done
  | done run after runs succeeded image there => exact ⟨run, after, runs, succeeded, image, there⟩

end

/-- Requests that follow each other, the assembly behind them, and the runs that were finished for them. -/
inductive Serves (t : Tool σ) : Assembly → Disk → σ → List (Path × Defines) → Assembly → List Finished → Prop
  | nil (last : Assembly) (disk : Disk) (state : σ) : Serves t last disk state [] last []
  | ran {last next final : Assembly} {disk left : Disk} {state after : σ} {source : Path} {defines : Defines}
      {rest : List (Path × Defines)} {result : Except AssemblerFault Unit} {run : Finished} {after' : σ}
      {runs : List Finished} (finished : Runs t source defines last.image disk state run after')
      (patched : t.patch source defines last disk state = (result, next, left, after))
      (later : Serves t next left after rest final runs) :
      Serves t last disk state ((source, defines) :: rest) final (run :: runs)
  | idle {last next final : Assembly} {disk left : Disk} {state after : σ} {source : Path} {defines : Defines}
      {rest : List (Path × Defines)} {result : Except AssemblerFault Unit} {runs : List Finished}
      (none : ∀ run after, ¬ Runs t source defines last.image disk state run after)
      (patched : t.patch source defines last disk state = (result, next, left, after))
      (later : Serves t next left after rest final runs) :
      Serves t last disk state ((source, defines) :: rest) final runs

theorem exists_serves (t : Tool σ) (last : Assembly) (disk : Disk) (state : σ) (requests : List (Path × Defines)) :
    ∃ final runs, Serves t last disk state requests final runs := by
  induction requests generalizing last disk state with
  | nil => exact ⟨last, [], .nil last disk state⟩
  | cons request rest ih =>
    obtain ⟨source, defines⟩ := request
    rcases patched : t.patch source defines last disk state with ⟨result, next, left, after⟩
    obtain ⟨final, runs, later⟩ := ih next left after
    by_cases ran : ∃ run after', Runs t source defines last.image disk state run after'
    · obtain ⟨run, after', finished⟩ := ran
      exact ⟨final, run :: runs, .ran finished patched later⟩
    · exact ⟨final, runs, .idle (fun run after' finished => ran ⟨run, after', finished⟩) patched later⟩

/-- An assembly that is all of the last run that counts, or what it was where none does. -/
def Current (last final : Assembly) (runs : List Finished) : Prop :=
  (final = last ∧ ∀ run ∈ runs, ¬ run.Counts) ∨
    ∃ before run behind, runs = before ++ run :: behind ∧ Describes final run ∧ ∀ r ∈ behind, ¬ r.Counts

namespace Current
variable {last next final : Assembly} {run : Finished} {runs : List Finished}

theorem skip (idle : ¬ run.Counts) (current : Current last final runs) : Current last final (run :: runs) := by
  rcases current with ⟨same, none⟩ | ⟨before, r, behind, rfl, describes, none⟩
  · exact Or.inl ⟨same, List.forall_mem_cons.mpr ⟨idle, none⟩⟩
  · exact Or.inr ⟨run :: before, r, behind, rfl, describes, none⟩

theorem take (describes : Describes next run) (current : Current next final runs) :
    Current last final (run :: runs) := by
  right
  rcases current with ⟨rfl, none⟩ | ⟨before, r, behind, rfl, later, none⟩
  · exact ⟨[], run, runs, rfl, describes, none⟩
  · exact ⟨run :: before, r, behind, rfl, later, none⟩

end Current

theorem Serves.current {t : Tool σ} {last final : Assembly} {disk : Disk} {state : σ}
    {requests : List (Path × Defines)} {runs : List Finished}
    (serves : Serves t last disk state requests final runs) : Current last final runs := by
  induction serves with
  | nil last disk state => exact Or.inl ⟨rfl, nofun⟩
  | @ran last next _ disk _ state _ source defines _ _ run _ _ finished patched _ ih =>
    have same : (t.patch source defines last disk state).2.1 = next := by rw [patched]
    by_cases counts : run.Counts
    · have describes := ((patch_of_runs finished).2.2 counts).2
      rw [same] at describes
      exact ih.take describes
    · cases failed : (t.patch source defines last disk state).1 with
      | error e =>
        rw [← same, patch_of_error failed] at ih
        exact ih.skip counts
      | ok done =>
        obtain ⟨run', after, finished', counts'⟩ := exists_runs_of_ok failed
        obtain ⟨rfl, -⟩ := finished.unique finished'
        exact absurd counts' counts
  | @idle last next _ disk _ state _ source defines _ _ _ none patched _ ih =>
    have same : (t.patch source defines last disk state).2.1 = next := by rw [patched]
    obtain ⟨reason, failed⟩ := patch_of_idle none
    rw [← same, patch_of_error failed] at ih
    exact ih

/-- A request to the program is all or nothing, whatever the program and the disk do. Where it fails, at any of its
steps, the image, the labels and the prints are as they were; and if the program ran and failed, the diagnostics
are the lines of its error output, or of the other one if that is blank. It succeeds just if the program does and
the image that it leaves can be read, and then all three are those of this run, which found the image before it
and no symbol file. So behind any requests they are all from the last run that counts. -/
theorem patch_all_or_nothing (t : Tool σ) (last : Assembly) (disk : Disk) (state : σ) :
    (∀ source defines,
      let result := (t.patch source defines last disk state).1
      let assembly := (t.patch source defines last disk state).2.1
      (∀ e, result = .error e → assembly = last) ∧
      ((∀ run after, ¬ Runs t source defines last.image disk state run after) →
        ∃ reason, result = .error (t.unavailable reason)) ∧
      (∀ run after, Runs t source defines last.image disk state run after →
        run.found.read (imagePath run.scratch) = .ok last.image ∧
        (disk.Nested → ∀ bytes, run.found.read (symbolsPath run.scratch) ≠ .ok bytes) ∧
        (run.output.succeeded = false → result = .error (.failed run.output.diagnostics)) ∧
        (run.output.succeeded = true → ∀ fault, run.left.read (imagePath run.scratch) = .error fault →
          result = .error (t.unavailable fault.message)) ∧
        (run.Counts → Describes assembly run)) ∧
      (result = .ok () ↔ ∃ run after, Runs t source defines last.image disk state run after ∧ run.Counts)) ∧
    ∀ requests, (∃ final runs, Serves t last disk state requests final runs) ∧
      ∀ final runs, Serves t last disk state requests final runs → Current last final runs := by
  refine ⟨fun source defines => ⟨fun e failed => patch_of_error failed, patch_of_idle, ?_, ?_⟩, fun requests =>
    ⟨exists_serves t last disk state requests, fun final runs serves => serves.current⟩⟩
  · intro run after runs
    obtain ⟨failed, lost, done⟩ := patch_of_runs runs
    exact ⟨runs.finds_image, runs.finds_no_symbols, failed, lost, fun counts => (done counts).2⟩
  · constructor
    · exact exists_runs_of_ok
    · rintro ⟨run, after, runs, counts⟩
      exact ((patch_of_runs runs).2.2 counts).1

def idleTool : Tool Unit where
  path := ⟨"asar"⟩
  scratch _ _ := ⟨"/tmp"⟩
  run _ disk state := (.ok ⟨true, .empty, .empty⟩, disk, state)

/-- The labels and the prints of an earlier run go where a run leaves no symbol file and prints nothing. -/
theorem patch_all_or_nothing_stale :
    let last : Assembly := ⟨.empty, [⟨"Old", 0x8000⟩], ["old"]⟩
    let answer := idleTool.patch ⟨"a.asm"⟩ .empty last Disk.empty ()
    Disk.empty.Nested ∧ answer.1 = .ok () ∧ answer.2.1.labels = [] ∧ answer.2.1.prints = [] := by
  intro last answer
  have whole := (patch_all_or_nothing idleTool last Disk.empty ()).1 ⟨"a.asm"⟩ .empty
  obtain ⟨-, -, ran, done⟩ := whole
  have passes : answer.1.isOk = true := by decide +kernel
  obtain ⟨⟨⟩, succeeds⟩ := Except.exists_of_isOk passes
  obtain ⟨run, after, runs, counts⟩ := done.mp succeeds
  obtain ⟨-, fresh, -, -, describes⟩ := ran run after runs
  -- the program leaves the disk that it finds
  have answered : idleTool.run _ run.found () = (.ok run.output, run.left, after) := runs.ran
  have same : run.found = run.left := congrArg (fun answer => answer.2.1) answered
  have output : (⟨true, .empty, .empty⟩ : Output) = run.output := Except.ok.inj (congrArg Prod.fst answered)
  have unread := fresh Disk.nested_empty
  refine ⟨Disk.nested_empty, succeeds, (describes counts).unreadable fun text => ?_, ?_⟩
  · rw [← same]
    exact unread text.toUTF8
  · have prints := (describes counts).prints
    rw [← output] at prints
    exact prints.trans (by decide)

end Asar
end RomLinker
