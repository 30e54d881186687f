import RomLinker.Proofs.Disk.Flat
import RomLinker.Proofs.LibraryNames
import RomLinker.Proofs.Link.Load
import RomLinker.Proofs.Link.Trace

/-!
How the library is filled. Every file is assembled by a call of its own, and its inner labels are filed
with it (`Filled`); what all of them define is written down once the last one is inserted.
-/
namespace RomLinker

open Workspace

theorem LibraryFile.bare_of_path {path : Path} {f : LibraryFile} (made : ofPath path = .ok f) :
    f.bare = f ∧ isIdentifier f.stem = true := by
  unfold ofPath at made
  dsimp only at made
  generalize stemOf path = stem at made
  generalize (path.extension? != some "asm") = isBinary at made
  split at made
  · rename_i identifier
    cases made
    exact ⟨rfl, identifier⟩
  · cases made

theorem Library.bare_of_discover {w : Workspace} {d : Disk} {files : List LibraryFile}
    (found : discover w d = .ok files) : ∀ f ∈ files, f.bare = f ∧ isIdentifier f.stem = true := by
  unfold discover at found
  obtain ⟨paths, -, made⟩ := Except.bind_eq_ok.mp found
  intro f member
  obtain ⟨path, -, made⟩ := Except.exists_of_mapM_eq_ok made f member
  exact LibraryFile.bare_of_path made

namespace LinkM

variable {σ α : Type} {asm : Assembler σ} {root : Path} {calls more : List Call}
  {library filled rest : List LibraryFile} {f g : LibraryFile}

/-- So far there were these calls, and this is what the library holds. -/
structure Shelved (root : Path) (calls : List Call) (library : List LibraryFile)
    (s : Linker (σ × List Call)) : Prop where
  root_eq : s.workspace.root = root
  record : s.assembler.2 = calls
  library : s.library = library

theorem Shelved.of_frame {s t : Linker (σ × List Call)} (shelved : Shelved root calls library s)
    (same : frame t = frame s) : Shelved root calls library t := by
  have place : t.workspace = s.workspace := congrArg Frame.workspace same
  have inner : t.assembler = s.assembler := congrArg Frame.assembler same
  have files : t.library = s.library := congrArg Frame.library same
  exact ⟨place ▸ shelved.root_eq, inner ▸ shelved.record, files ▸ shelved.library⟩

theorem Shelved.quiet {action : LinkM (σ × List Call) α} (quiet : Quiet action) :
    Leads (Shelved root calls library) action fun _ => Shelved root calls library :=
  quiet.leads fun _ _ same shelved => shelved.of_frame same

theorem Shelved.generates {name contents : String} {s t : Linker (σ × List Call)}
    (shelved : Shelved root calls library s) (generates : Generates root name contents s t) :
    Shelved root calls library t := by
  refine ⟨generates.root_eq.trans shelved.root_eq, ?_, ?_⟩
  · rw [generates.rest]
    exact shelved.record
  · rw [generates.rest]
    exact shelved.library

theorem modify_append_cons (change : LibraryFile → LibraryFile) :
    (filled ++ f :: rest).modify filled.length change = filled ++ change f :: rest := by
  induction filled with
  | nil => exact List.modify_zero_cons ..
  | cons g filled ih => exact (List.modify_succ_cons ..).trans (congrArg _ ih)

theorem leads_modifyFile (change : LibraryFile → LibraryFile) :
    Leads (Shelved root calls (filled ++ f :: rest))
      (Library.modifyFile filled.length change : LinkM (σ × List Call) Unit)
      fun _ => Shelved root calls (filled ++ change f :: rest) := by
  refine Ensures.modify fun s shelved => ⟨shelved.root_eq, shelved.record, ?_⟩
  show s.library.modify filled.length change = _
  rw [shelved.library, modify_append_cons]

theorem leads_takeLabel (file : Path) (l : Label) :
    Leads (Shelved root calls (filled ++ f :: rest))
      (Library.takeLabel filled.length file l : LinkM (σ × List Call) Unit)
      fun _ => Shelved root calls (filled ++ f.filing [l] :: rest) := by
  have unchanged (out : l.exported? = none) : f.filing [l] = f := by
    unfold LibraryFile.filing
    rw [List.filterMap_cons_none out, List.filterMap_nil, List.append_nil]
  unfold Library.takeLabel
  cases named : l.routine? with
  | some name =>
    have out : l.exported? = none := by
      unfold Label.exported?
      rw [named]
    rw [unchanged out]
    exact Shelved.quiet (quiet_register _ _ _)
  | none =>
    have out : l.exported? = l.inner? := by
      unfold Label.exported?
      rw [named]
    cases inner : l.inner? with
    | none =>
      rw [unchanged (out.trans inner)]
      exact Ensures.pure fun _ shelved => shelved
    | some m =>
      have filed : f.filing [l] = { f with labels := f.labels ++ [m] } := by
        unfold LibraryFile.filing
        rw [List.filterMap_cons_some (out.trans inner), List.filterMap_nil]
      rw [filed]
      exact leads_modifyFile fun f => { f with labels := f.labels ++ [m] }

theorem leads_takeAll (file : Path) (labels : List Label) :
    Leads (Shelved root calls (filled ++ f :: rest))
      (labels.forM (Library.takeLabel filled.length file) : LinkM (σ × List Call) Unit)
      fun _ => Shelved root calls (filled ++ f.filing labels :: rest) := by
  induction labels generalizing f with
  | nil =>
    rw [f.filing_nil]
    exact Ensures.pure fun _ shelved => shelved
  | cons l labels ih =>
    rw [f.filing_cons]
    exact Ensures.bind (leads_takeLabel file l) fun _ => ih

/-- A call answered with some labels, and these were filed with a file. -/
structure Filled (calls : List Call) (f g : LibraryFile) : Prop where
  filed : ∃ call ∈ calls, ∃ assembly start, call.answer = .ok assembly ∧
    g = ({ f with start? := some start } : LibraryFile).filing assembly.labels

theorem Shelved.patched {request : Request} {assembly : Assembly} {s t : Linker (σ × List Call)}
    (shelved : Shelved root calls library s) (patches : Patches asm.traced request assembly s t) :
    Shelved root (calls ++ [⟨request, s.disk, .ok assembly⟩]) library t := by
  refine ⟨?_, ?_, patches.library_eq.trans shelved.library⟩
  · rw [patches.rest.1]
    exact shelved.root_eq
  · rw [patches.record, shelved.record]

structure Assembled (root : Path) (calls : List Call) (library : List LibraryFile) (labels : List Label)
    (s : Linker (σ × List Call)) : Prop where
  shelved : Shelved root calls library s
  labels_eq : s.session.labels = labels

theorem Assembled.quiet {labels : List Label} {action : LinkM (σ × List Call) α} (quiet : Quiet action) :
    Leads (Assembled root calls library labels) action fun _ => Assembled root calls library labels := by
  refine quiet.leads fun s t same assembled => ⟨assembled.shelved.of_frame same, ?_⟩
  exact (congrArg Frame.labels same).trans assembled.labels_eq

theorem leads_insertFile :
    Leads (Shelved root calls (filled ++ f :: rest)) (Library.insertFile asm.traced filled.length f)
      fun _ s => ∃ call g, Shelved root (calls ++ [call]) (filled ++ g :: rest) s ∧ Filled [call] f g := by
  have library : Path.Named "library.asm" := named_of_generated (by decide)
  unfold Library.insertFile
  refine Ensures.bind (Shelved.quiet (quiet_note _ _)) fun _ => ?_
  refine Ensures.bind (leads_generate library fun _ shelved => shelved.root_eq) fun source => ?_
  refine Ensures.through (fun _ s => ∃ call assembly, call.answer = .ok assembly ∧
    Assembled root (calls ++ [call]) (filled ++ f :: rest) assembly.labels s) ?_ fun _ => ?_
  · refine leads_patch.mono ?_ fun _ _ => trivial
    rintro - t ⟨s, request, assembly, ⟨-, before, shelved, generates⟩, -, patches⟩
    exact ⟨_, assembly, rfl, (shelved.generates generates).patched patches, patches.labels⟩
  refine Ensures.exists_pre fun call => Ensures.exists_pre fun assembly => Ensures.given fun answer => ?_
  refine Ensures.bind (Assembled.quiet (quiet_takePrints _ _)) fun inserted => ?_
  let started : LibraryFile := { f with start? := some inserted.start }
  refine Ensures.through (fun _ =>
    Assembled root (calls ++ [call]) (filled ++ started :: rest) assembly.labels) ?_ fun _ => ?_
  · refine Ensures.modify fun s assembled => ⟨⟨assembled.shelved.root_eq, assembled.shelved.record, ?_⟩, ?_⟩
    · show s.library.modify filled.length _ = _
      rw [assembled.shelved.library, modify_append_cons]
    · exact assembled.labels_eq
  refine Ensures.bind (Assembled.quiet (quiet_modifySession fun _ => ⟨rfl, rfl⟩)) fun _ => ?_
  refine Ensures.read fun s assembled => ?_
  rw [assembled.labels_eq]
  refine Ensures.pre (Ensures.mono (leads_takeAll (f := started) f.file assembly.labels) ?_ fun _ _ => trivial)
    fun t same => same ▸ assembled.shelved
  exact fun _ t shelved => ⟨call, _, shelved, call, List.mem_singleton_self _, assembly, inserted.start,
    answer, rfl⟩

theorem Filled.mono (filled : Filled calls f g) (inside : calls ⊆ more) : Filled more f g := by
  obtain ⟨call, member, assembly, start, answer, same⟩ := filled.filed
  exact ⟨call, inside member, assembly, start, answer, same⟩

/-- The files behind those that are filled are filled one after the other. -/
theorem leads_fillEach :
    Leads (Shelved root calls (filled ++ rest))
      ((rest.zipIdx filled.length).forM fun (f, i) => Library.insertFile asm.traced i f)
      fun _ s => ∃ more gs, Shelved root (calls ++ more) (filled ++ gs) s ∧
        List.Forall₂ (Filled more) rest gs := by
  induction rest generalizing calls filled with
  | nil =>
    refine Ensures.pure fun s shelved => ⟨[], [], ?_, .nil⟩
    rw [List.append_nil]
    exact shelved
  | cons f rest ih =>
    refine Ensures.bind leads_insertFile fun _ => Ensures.exists_pre fun call => Ensures.exists_pre fun g => ?_
    refine ⟨fun s ⟨shelved, first⟩ => ?_⟩
    have later : Leads (Shelved root (calls ++ [call]) ((filled ++ [g]) ++ rest))
        ((rest.zipIdx (filled ++ [g]).length).forM fun (f, i) => Library.insertFile asm.traced i f)
        fun _ s => ∃ more gs, Shelved root ((calls ++ [call]) ++ more) ((filled ++ [g]) ++ gs) s ∧
          List.Forall₂ (Filled more) rest gs := ih
    rw [List.length_append, List.append_assoc] at later
    refine (later.mono (fun _ t => ?_) fun _ _ => trivial).run s shelved
    rintro ⟨more, gs, shelved, each⟩
    refine ⟨call :: more, g :: gs, ?_, .cons (first.mono ?_) (each.imp fun _ _ filled => filled.mono ?_)⟩
    · rw [List.append_assoc, List.append_assoc] at shelved
      exact shelved
    · exact fun c member => List.mem_singleton.mp member ▸ List.mem_cons_self
    · exact List.subset_cons_self _ _

theorem leads_fillLibrary :
    Leads (Shelved root calls library) (Library.insertAll asm.traced) fun _ s =>
      ∃ more gs, Shelved root (calls ++ more) gs s ∧ List.Forall₂ (Filled more) library gs ∧
        s.disk.read (sourceIn root "library_labels.asm") = .ok (Library.definitions gs).toUTF8 := by
  have labels : Path.Named "library_labels.asm" := named_of_generated (by decide)
  have fills : Leads (Shelved root calls library)
      (library.zipIdx.forM fun entry => Library.insertFile asm.traced entry.2 entry.1) fun _ s =>
      ∃ more gs, Shelved root (calls ++ more) gs s ∧ List.Forall₂ (Filled more) library gs :=
    (leads_fillEach : Leads (Shelved root calls ([] ++ library)) _ _)
  unfold Library.insertAll
  refine Ensures.read fun s shelved => ?_
  rw [shelved.library]
  refine Ensures.pre (Ensures.bind fills fun _ => ?_) fun t same => same ▸ shelved
  refine Ensures.exists_pre fun more => Ensures.exists_pre fun gs => ?_
  refine Ensures.read fun t both => ?_
  obtain ⟨shelved, each⟩ := both
  refine Ensures.bind (leads_generate labels fun u same => same ▸ shelved.root_eq) fun _ => ?_
  refine Ensures.pure ?_
  rintro u ⟨-, t, rfl, generates⟩
  refine ⟨more, gs, shelved.generates generates, each, ?_⟩
  rw [← shelved.library]
  exact generates.read

theorem leads_buildLibrary {s : Linker (σ × List Call)} :
    Leads (· = s) (Build.buildLibrary asm.traced) fun _ t =>
      ∃ files more, Library.discover s.workspace s.disk = .ok files ∧
        Shelved s.workspace.root (s.assembler.2 ++ more) t.library t ∧
        List.Forall₂ (Filled more) files t.library ∧
        t.disk.read (sourceIn s.workspace.root "library_labels.asm") =
          .ok (Library.definitions t.library).toUTF8 := by
  unfold Build.buildLibrary
  let noted (t : Linker (σ × List Call)) : Prop := t.disk = s.disk ∧ t.workspace = s.workspace ∧
    t.assembler = s.assembler
  refine Ensures.through (fun _ => noted) (Ensures.modify fun t same => ?_) fun _ => ?_
  · subst same
    exact ⟨rfl, rfl, rfl⟩
  refine Ensures.read fun t ⟨disk, workspace, inner⟩ => ?_
  rw [disk, workspace]
  dsimp only
  cases found : Library.discover s.workspace s.disk with
  | error e => exact Ensures.throw_bind fun _ _ => trivial
  | ok files =>
    refine Ensures.through (fun _ => Shelved s.workspace.root s.assembler.2 files)
      (Ensures.modify fun u same => ?_) fun _ => ?_
    · subst same
      exact ⟨congrArg Workspace.root workspace, congrArg Prod.snd inner, rfl⟩
    refine leads_fillLibrary.mono (fun _ u => ?_) fun _ _ => trivial
    rintro ⟨more, gs, shelved, each, read⟩
    have same : u.library = gs := shelved.library
    subst same
    exact ⟨files, more, rfl, shelved, each, read⟩

end LinkM

/-! ### What the library defines -/

def Call.Distinct (call : Call) : Prop :=
  ∀ assembly, call.answer = .ok assembly → (assembly.labels.map (·.name)).Nodup

def Call.Plain (call : Call) : Prop :=
  ∀ assembly, call.answer = .ok assembly →
    ∀ l ∈ assembly.labels, ∀ c ∈ l.name.toList, Text.isBlank c = false

namespace LinkM.Filled

variable {calls : List Call} {files gs : List LibraryFile} {f g : LibraryFile}

theorem bare_eq (filled : Filled calls f g) : g.bare = f.bare := by
  obtain ⟨call, -, assembly, start, -, rfl⟩ := filled.filed
  rfl

theorem labels_eq (filled : Filled calls f g) (bare : f.bare = f) :
    ∃ call ∈ calls, ∃ assembly, call.answer = .ok assembly ∧
      g.labels = assembly.labels.filterMap Label.exported? := by
  obtain ⟨call, member, assembly, start, answer, rfl⟩ := filled.filed
  refine ⟨call, member, assembly, answer, ?_⟩
  have fresh : f.labels = [] := (congrArg LibraryFile.labels bare).symm
  show f.labels ++ assembly.labels.filterMap Label.exported? = _
  rw [fresh, List.nil_append]

theorem nodup_exports (filled : Filled calls f g) (bare : f.bare = f)
    (distinct : ∀ call ∈ calls, call.Distinct) : (g.exports.map (·.name)).Nodup := by
  obtain ⟨call, member, assembly, answer, labels⟩ := filled.labels_eq bare
  refine LibraryFile.nodup_exports ?_
  rw [labels]
  exact Label.nodup_exported (distinct call member assembly answer)

theorem solid_exports (filled : Filled calls f g) (bare : f.bare = f)
    (identifier : isIdentifier f.stem = true) (plain : ∀ call ∈ calls, call.Plain) :
    ∀ e ∈ g.exports, Text.Solid e.name := by
  obtain ⟨call, member, assembly, answer, labels⟩ := filled.labels_eq bare
  have stem : g.bare.stem = f.bare.stem := congrArg LibraryFile.stem filled.bare_eq
  have solid : isIdentifier g.bare.stem = true := stem ▸ identifier
  refine LibraryFile.solid_exports solid fun m inside c letter => ?_
  rw [labels] at inside
  obtain ⟨l, listed, out⟩ := List.mem_filterMap.mp inside
  refine plain call member assembly answer l listed c ?_
  rw [Label.exported?_eq_some out, String.toList_append]
  exact List.mem_append_right _ letter

theorem exists_of_mem (each : List.Forall₂ (Filled calls) files gs) :
    ∀ g ∈ gs, ∃ f ∈ files, Filled calls f g := by
  induction each with
  | nil => exact nofun
  | cons first _ ih =>
    intro g member
    rcases List.mem_cons.mp member with rfl | later
    · exact ⟨_, List.mem_cons_self, first⟩
    · obtain ⟨f, inside, filled⟩ := ih g later
      exact ⟨f, List.mem_cons_of_mem _ inside, filled⟩

theorem map_bare (each : List.Forall₂ (Filled calls) files gs) (bare : ∀ f ∈ files, f.bare = f) :
    gs.map LibraryFile.bare = files := by
  induction each with
  | nil => rfl
  | cons first _ ih =>
    obtain ⟨head, tail⟩ := List.forall_mem_cons.mp bare
    rw [List.map_cons, first.bare_eq, head, ih tail]

end LinkM.Filled

/-- Within a file of the library no name is defined twice. Two files define a common name only if they
meet, and if no two of them do, `library_labels.asm` defines no name twice. -/
theorem library_names {σ : Type} (asm : Assembler σ) (s t : Linker (σ × List Call))
    (built : Build.buildLibrary asm.traced s = .ok () t)
    (distinct : ∀ call ∈ t.assembler.2.drop s.assembler.2.length, call.Distinct) :
    let files := t.library.map LibraryFile.bare
    let exports := t.library.flatMap LibraryFile.exports
    Library.discover s.workspace s.disk = .ok files ∧
    (∃ text, t.disk.readText (sourceIn s.workspace.root "library_labels.asm") = .ok text ∧
      text = Label.definitions exports ∧
      ((∀ call ∈ t.assembler.2.drop s.assembler.2.length, call.Plain) →
        (Text.linesOf text).map Label.ofDefinition? = exports.map fun e => some e.low)) ∧
    (∀ f ∈ t.library, (f.exports.map (·.name)).Nodup) ∧
    (∀ f ∈ t.library, ∀ g ∈ t.library, ∀ e ∈ f.exports, ∀ e' ∈ g.exports, e.name = e'.name → f.Meets g) ∧
    (files.Pairwise (fun f g => ¬f.Meets g) → (exports.map (·.name)).Nodup) := by
  intro files exports
  have leads : LinkM.Leads (· = s) (Build.buildLibrary asm.traced) _ := LinkM.leads_buildLibrary
  have reached := leads.run s rfl
  rw [built] at reached
  obtain ⟨found, more, discovered, shelved, each, read⟩ := reached
  have calls : t.assembler.2.drop s.assembler.2.length = more := by
    rw [shelved.record, List.drop_left]
  rw [calls] at distinct ⊢
  have known := Library.bare_of_discover discovered
  have same : files = found := LinkM.Filled.map_bare each fun f member => (known f member).1
  have once : ∀ g ∈ t.library, (g.exports.map (·.name)).Nodup := by
    intro g member
    obtain ⟨f, inside, filled⟩ := LinkM.Filled.exists_of_mem each g member
    exact filled.nodup_exports (known f inside).1 distinct
  refine ⟨same ▸ discovered, ⟨_, Disk.readText_of_read read, rfl, fun plain => ?_⟩, once, ?_, fun apart => ?_⟩
  · refine Label.linesOf_definitions fun e member => ?_
    obtain ⟨g, inside, exported⟩ := List.mem_flatMap.mp member
    obtain ⟨f, here, filled⟩ := LinkM.Filled.exists_of_mem each g inside
    exact filled.solid_exports (known f here).1 (known f here).2 plain e exported
  · intro f _ g _ e exported e' exported' name
    exact LibraryFile.meets_of_shared exported exported' name
  · exact Library.nodup_exports once (List.pairwise_map.mp apart)

/-! ### Small libraries -/

theorem Library.discover_flat {w : Workspace} {d : Disk} {l : Location} {files : List LibraryFile}
    (ways : List Way) (opens : d.directory (w.root.join ⟨"library"⟩) = .ok l)
    (granted : d.obstacles.refused .listDirectory l = none) (flat : d.directoriesBelow l = []) (listed : (d.entries.toList.filterMap fun (place, e) =>
      match e with
      | .file _ => l.wayTo? place
      | .directory => none) = ways)
    (sorted : ways.Pairwise fun a b => (compare a b).isLE)
    (made : (ways.filterMap fun way => (Workspace.along (w.root.join ⟨"library"⟩) way).below? w.root).mapM
      LibraryFile.ofPath = .ok files) :
    discover w d = .ok files := by
  have order : d.filesBelow l = ways := by
    unfold Disk.filesBelow
    exact (congrArg Way.sort listed).trans (List.mergeSort_of_pairwise sorted)
  have same : Workspace.entered d l true = Workspace.entered d l false := by
    simp [Workspace.entered, flat]
  have listable : Workspace.unlistable? d (w.root.join ⟨"library"⟩) l (Workspace.entered d l true) = none := by
    rw [same, Workspace.unlistable?_flat opens, granted]
    rfl
  have all : ways.filter (fun way => true || way.length == 1) = ways := by
    rw [List.filter_eq_self]
    exact fun _ _ => rfl
  unfold discover Workspace.filesUnder
  dsimp only
  rw [opens]
  dsimp only
  rw [listable, order, all]
  exact made

/-- Once the files of the library are found, they are all that its build takes from the disk. -/
theorem Build.buildLibrary_of_discover {σ : Type} {asm : Assembler σ} {s : Linker σ}
    {files : List LibraryFile} (found : Library.discover s.workspace s.disk = .ok files) :
    buildLibrary asm s = Library.insertAll asm
      { s with log := s.log ++ [⟨.info, "Building library..."⟩], library := files } := by
  let noted : Linker σ := { s with log := s.log ++ [⟨.info, "Building library..."⟩] }
  have first (rest : Unit → LinkM σ Unit) :
      (LinkM.note .info "Building library..." >>= rest) s = rest () noted := rfl
  have found' : Library.discover noted.workspace noted.disk = .ok files := found
  unfold buildLibrary
  rw [first, LinkM.get_bind, found']
  rfl

deriving instance DecidableEq for LibraryFile

namespace SmallLibrary

def root : Path := ⟨"."⟩

/-- Every source has one inner label, and the second one starts a bank behind the first. -/
def asm : Assembler Nat := ⟨"counting", fun _ disk n =>
  (.ok ⟨.empty, [⟨"Inner_x", 0x108001⟩], [if n = 0 then "_startl $108000" else "_startl $118000"]⟩,
    disk, n + 1)⟩

/-- A library of two files, and a ROM to insert them into. -/
def start (first second : String) : Linker (Nat × List Call) :=
  let library := Location.root.child "library"
  let disk := Disk.empty.insert library .directory
    |>.insert (library.child first) (.file .empty) |>.insert (library.child second) (.file .empty)
  { Linker.fresh disk root (0, []) with
    session := { rom? := some ⟨⟨"r.sfc"⟩, Rom.bank, Rom.bankHeader⟩ } }

/-- The calls and the labels of a library that is built, and what it defines. -/
structure Gives (text : String) (names : List String) (t : Linker (Nat × List Call)) : Prop where
  labels : t.assembler.2.map (fun call => call.answer.toOption.map (·.labels)) =
    List.replicate 2 (some [⟨"Inner_x", 0x108001⟩])
  read : (t.disk.readText (sourceIn root "library_labels.asm")).toOption = some text
  names : (t.library.flatMap LibraryFile.exports).map (·.name) = names

instance (text : String) (names : List String) : DecidablePred (Gives text names) := fun _ =>
  decidable_of_iff (_ ∧ _ ∧ _) ⟨fun ⟨labels, read, names⟩ => ⟨labels, read, names⟩,
    fun gives => ⟨gives.labels, gives.read, gives.names⟩⟩

theorem Gives.distinct {text : String} {names : List String} {t : Linker (Nat × List Call)}
    (gives : Gives text names t) : ∀ call ∈ t.assembler.2, call.Distinct := by
  intro call member assembly answer
  have labels : call.answer.toOption.map (·.labels) ∈ List.replicate 2 (some [⟨"Inner_x", 0x108001⟩]) :=
    gives.labels ▸ List.mem_map.mpr ⟨call, member, rfl⟩
  rw [answer] at labels
  have same : assembly.labels = [⟨"Inner_x", 0x108001⟩] := Option.some.inj (List.eq_of_mem_replicate labels)
  rw [same]
  decide

def inserted (first second : String) (files : List LibraryFile) :
    EStateM.Result LinkError (Linker (Nat × List Call)) Unit :=
  Library.insertAll asm.traced { start first second with
    log := [⟨.info, "Building library..."⟩], library := files }

def apart : List LibraryFile :=
  [⟨⟨"library/a.asm"⟩, "a", false, none, []⟩, ⟨⟨"library/b.bin"⟩, "b", true, none, []⟩]

theorem discover_apart : Library.discover ⟨root, []⟩ (start "a.asm" "b.bin").disk = .ok apart := by
  have opens : (start "a.asm" "b.bin").disk.directory (root.join ⟨"library"⟩) =
    .ok (Location.root.child "library") := by decide +kernel
  exact Library.discover_flat [["a.asm"], ["b.bin"]] opens rfl (by decide +kernel) (by decide +kernel)
    (by decide +kernel) (by decide +kernel)

theorem exists_apart : ∃ u t, inserted "a.asm" "b.bin" apart = .ok u t ∧
    Gives "a_x = $108001\nb = $118000\n" ["a_x", "b"] t ∧ t.library.map LibraryFile.bare = apart := by
  have ends : LinkM.succeeds (inserted "a.asm" "b.bin" apart) (fun t =>
    Gives "a_x = $108001\nb = $118000\n" ["a_x", "b"] t ∧ t.library.map LibraryFile.bare = apart) = true := by
    decide +kernel
  exact LinkM.exists_of_succeeds ends

def twins : List LibraryFile :=
  [⟨⟨"library/a.bin"⟩, "a", true, none, []⟩, ⟨⟨"library/a.dat"⟩, "a", true, none, []⟩]

theorem discover_twins : Library.discover ⟨root, []⟩ (start "a.bin" "a.dat").disk = .ok twins := by
  have opens : (start "a.bin" "a.dat").disk.directory (root.join ⟨"library"⟩) =
    .ok (Location.root.child "library") := by decide +kernel
  exact Library.discover_flat [["a.bin"], ["a.dat"]] opens rfl (by decide +kernel) (by decide +kernel)
    (by decide +kernel) (by decide +kernel)

theorem exists_twins : ∃ u t, inserted "a.bin" "a.dat" twins = .ok u t ∧
    Gives "a = $108000\na = $118000\n" ["a", "a"] t := by
  have ends : LinkM.succeeds (inserted "a.bin" "a.dat" twins)
    (Gives "a = $108000\na = $118000\n" ["a", "a"]) = true := by decide +kernel
  exact LinkM.exists_of_succeeds ends

end SmallLibrary

open SmallLibrary in
theorem library_names_small : ∃ t, Build.buildLibrary asm.traced (start "a.asm" "b.bin") = .ok () t ∧
    (∀ call ∈ t.assembler.2, call.Distinct) ∧
    (t.library.map LibraryFile.bare).Pairwise (fun f g => ¬f.Meets g) ∧
    ((t.library.flatMap LibraryFile.exports).map (·.name)).Nodup := by
  obtain ⟨_, t, ends, gives, bare⟩ := exists_apart
  have built : Build.buildLibrary asm.traced (start "a.asm" "b.bin") = .ok () t :=
    (Build.buildLibrary_of_discover discover_apart).trans ends
  have pairwise : (t.library.map LibraryFile.bare).Pairwise fun f g => ¬f.Meets g := by
    rw [bare]
    decide +kernel
  obtain ⟨-, -, -, -, names⟩ := library_names asm (start "a.asm" "b.bin") t built gives.distinct
  exact ⟨t, built, gives.distinct, pairwise, names pairwise⟩

open SmallLibrary in
/-- Two files that only their extensions tell apart define one name twice. -/
theorem library_name_twice : ∃ t, Build.buildLibrary asm.traced (start "a.bin" "a.dat") = .ok () t ∧
    (∀ call ∈ t.assembler.2, call.Distinct) ∧
    (t.disk.readText (sourceIn root "library_labels.asm")).toOption = some "a = $108000\na = $118000\n" ∧
    ¬((t.library.flatMap LibraryFile.exports).map (·.name)).Nodup := by
  obtain ⟨_, t, ends, gives⟩ := exists_twins
  refine ⟨t, (Build.buildLibrary_of_discover discover_twins).trans ends, gives.distinct, gives.read, ?_⟩
  rw [gives.names]
  decide

end RomLinker
