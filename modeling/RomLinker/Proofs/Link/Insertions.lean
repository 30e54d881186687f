import RomLinker.Proofs.Exports
import RomLinker.Proofs.Link.Trace

/-!
The steps of a build that insert and use resources, with the record of calls: the labels of the
resources and their calls are written in front of the last call, which is that of the main source
(`Closing`).
-/
namespace RomLinker.LinkM

open Workspace

variable {σ : Type} {asm : Assembler σ} {root : Path} {cs : Contexts} {old : ResourceTable}
  {r : Resource} {n : Nat} {settings : Settings}

theorem leads_takeLabels (known : old.get? r.id = some r) :
    Leads (Answered root cs old r) (r.takeLabels : LinkM (σ × List Call) Unit)
      fun _ => Inserted root cs old (r.id + 1) := by
  refine Ensures.read fun s holds => ?_
  obtain ⟨calls, call, assembly, record, count, linkage, answer, labels, wrapped, given⟩ := holds.calls
  have next : old.get? calls.length = some r := count ▸ known
  dsimp only
  rw [labels]
  cases taken : r.withLabels? assembly.labels with
  | none => exact Ensures.throw_bind fun _ _ => trivial
  | some r' =>
    have number : r'.id = calls.length := by
      obtain ⟨entry, -, rfl⟩ := Resource.withLabels?_eq_some taken
      exact count.symm
    have filed : Inserted root cs old (r.id + 1) { s with resources := s.resources.put r' } := by
      refine ⟨holds.root_eq, ?_, ?_⟩
      · rw [record, List.length_append, count]
        rfl
      · rw [record]
        exact linkage.put next number ⟨⟨assembly, answer, taken⟩, wrapped, given⟩
    have routines : Quiet
        (assembly.labels.forM (Resource.takeRoutine r.file) : LinkM (σ × List Call) Unit) :=
      Quiet.forM fun l _ => quiet_takeRoutine _ l
    refine Ensures.through (fun _ => Inserted root cs old (r.id + 1)) (Ensures.modify fun t same => ?_)
      fun _ => routines.leads fun s t same inserted => inserted.of_frame same
    rw [same]
    exact filed

theorem leads_insert (known : old.get? r.id = some r) :
    Leads (Inserted root cs old r.id)
      (r.insert asm.traced (ExtraBytes.fragment cs r.id r.directives.extraBytes))
      fun _ => Inserted root cs old (r.id + 1) := by
  have resource : Path.Named "resource.asm" := named_of_generated (by decide)
  have extra : Path.Named "extra_bytes.asm" := named_of_generated (by decide)
  have quiet {α : Type} {action : LinkM (σ × List Call) α} (quiet : Quiet action) :
      Leads (Answered root cs old r) action fun _ => Answered root cs old r :=
    quiet.leads fun s t same answered => answered.of_frame same
  unfold Resource.insert
  refine Ensures.bind ((quiet_note _ _).leads fun s t same inserted => inserted.of_frame same) fun _ => ?_
  refine Ensures.bind (leads_generate extra fun s inserted => inserted.root_eq) fun _ => ?_
  refine Ensures.through (fun path s => path = sourceIn root "resource.asm" ∧ Supplied root cs old r s)
    ?_ fun path => ?_
  · refine Ensures.mono (leads_generate resource (?_ : ∀ s : Linker _, _ → s.workspace.root = root)) ?_
      fun _ _ => trivial
    · rintro s ⟨-, before, inserted, generates⟩
      exact generates.root_eq.trans inserted.root_eq
    · rintro path t ⟨same, s, ⟨-, before, inserted, first⟩, second⟩
      refine ⟨same, (inserted.generates first).generates second, second.read, ?_⟩
      exact second.read_other resource extra (by decide) first.read
  · refine Ensures.bind leads_patch fun _ => ?_
    refine Ensures.pre (Ensures.bind (quiet (quiet_takePrints _ _)) fun inserted => ?_) ?_
    · refine Ensures.bind (quiet (quiet_modifySession fun _ => ⟨rfl, rfl⟩)) fun _ => ?_
      refine Ensures.bind (quiet (quiet_note _ _)) fun _ => ?_
      exact Ensures.bind (quiet (quiet_note _ _)) fun _ => leads_takeLabels known
    · rintro t ⟨s, request, assembly, ⟨rfl, supplied⟩, source, patches⟩
      exact supplied.answered source patches

/-- The resources behind those inserted so far are inserted in the order of their numbers. -/
theorem leads_insertAll (done rest : List Resource) (split : old.resources = done ++ rest)
    (numbered : ∀ k r, old.get? k = some r → r.id = k) :
    Leads (Inserted root cs old done.length)
      (rest.forM fun r => r.insert asm.traced (ExtraBytes.fragment cs r.id r.directives.extraBytes))
      fun _ => Inserted root cs old old.size := by
  induction rest generalizing done with
  | nil =>
    have all : old.size = done.length := by rw [ResourceTable.size, split, List.append_nil]
    rw [all]
    exact Ensures.pure fun _ inserted => inserted
  | cons r rest ih =>
    have here : old.get? done.length = some r := by
      rw [ResourceTable.get?, split, List.getElem?_append_right (Nat.le_refl _), Nat.sub_self]
      rfl
    have number := numbered _ r here
    rw [← number] at here ⊢
    refine Ensures.bind (leads_insert here) fun _ => ?_
    have next := ih (done ++ [r]) (by rw [split, List.append_assoc]; rfl)
    rw [List.length_append, ← number] at next
    exact next

theorem Inserted.resources_eq {s : Linker (σ × List Call)} (inserted : Inserted root cs old 0 s) :
    s.resources = old := by
  have same : s.resources.resources = old.resources := by
    refine List.ext_getElem? fun k => inserted.linkage.rest k ?_
    rw [inserted.count]
    exact Nat.zero_le k
  show (⟨s.resources.resources⟩ : ResourceTable) = ⟨old.resources⟩
  rw [same]

structure Labelled (root : Path) (cs : Contexts) (old t : ResourceTable) (s : Linker (σ × List Call)) :
    Prop where
  inserted : Inserted root cs old old.size s
  resources : s.resources = t
  labels : s.disk.read (sourceIn root "resource_labels.asm") = .ok t.definitions.toUTF8

theorem Labelled.of_frame {t : ResourceTable} {s u : Linker (σ × List Call)}
    (labelled : Labelled root cs old t s) (same : frame u = frame s) : Labelled root cs old t u := by
  refine ⟨labelled.inserted.of_frame same, ?_, ?_⟩
  · exact (congrArg Frame.resources same).trans labelled.resources
  · rw [show u.disk = s.disk from congrArg Frame.disk same]
    exact labelled.labels

theorem Labelled.generates {t : ResourceTable} {name contents : String} {s u : Linker (σ × List Call)}
    (labelled : Labelled root cs old t s) (generates : Generates root name contents s u)
    (generated : name ∈ generatedNames) (other : "resource_labels.asm" ≠ name) :
    Labelled root cs old t u := by
  have named : Path.Named "resource_labels.asm" := named_of_generated (by decide)
  refine ⟨labelled.inserted.generates generates, ?_, ?_⟩
  · rw [generates.rest]
    exact labelled.resources
  · exact generates.read_other (named_of_generated generated) named other labelled.labels

theorem leads_buildResources (numbered : ∀ k r, settings.resources.get? k = some r → r.id = k) :
    Leads (Untouched root) (Build.buildResources asm.traced settings)
      fun _ s => ∃ t, Labelled root settings.contexts settings.resources t s := by
  have named : Path.Named "resource_labels.asm" := named_of_generated (by decide)
  unfold Build.buildResources Build.insertResources
  refine Ensures.bind ((quiet_note _ _).leads fun s t same untouched => untouched.of_frame same) fun _ => ?_
  refine Ensures.through (fun _ => Inserted root settings.contexts settings.resources 0)
    (Ensures.modify fun s holds => ?_) fun _ => ?_
  · refine ⟨holds.root_eq, ?_, ?_⟩
    · rw [holds.none]
      rfl
    · rw [holds.none]
      exact Linkage.start _ _ _
  refine Ensures.through
    (fun _ => Inserted root settings.contexts settings.resources settings.resources.size)
    (Ensures.read fun s holds => ?_) fun _ => ?_
  · rw [holds.resources_eq]
    exact (leads_insertAll [] settings.resources.resources rfl numbered).pre fun t same => same ▸ holds
  refine Ensures.read fun s holds => ?_
  refine Ensures.bind (leads_generate named fun t same => same ▸ holds.root_eq) fun _ => ?_
  refine Ensures.pure ?_
  rintro t ⟨-, u, rfl, generates⟩
  exact ⟨u.resources, holds.generates generates, by rw [generates.rest], generates.read⟩

/-- The last call is that of the main source. It finds the labels of the resources and the calls. -/
def Closing (root : Path) (cs : Contexts) (old : ResourceTable) (calls : List Call) : Prop :=
  ∃ t before main, calls = before ++ [main] ∧
    main.request.source = (Workspace.mk root []).fixedSource "main.asm" ∧
    (insertions root calls).length = old.size ∧ Linkage root cs old (insertions root calls) t ∧
    main.disk.read (sourceIn root "resource_labels.asm") = .ok t.definitions.toUTF8 ∧
    main.disk.read (sourceIn root "resource_calls.asm") =
      .ok (Dispatch.render ((cs.resolve t).dispatch t)).toUTF8

structure Rendered (root : Path) (cs : Contexts) (old t : ResourceTable) (s : Linker (σ × List Call)) :
    Prop where
  labelled : Labelled root cs old t s
  calls : s.disk.read (sourceIn root "resource_calls.asm") =
    .ok (Dispatch.render ((cs.resolve t).dispatch t)).toUTF8

theorem Labelled.rendered {t : ResourceTable} {s u : Linker (σ × List Call)} (labelled : Labelled root cs old t s)
    (generates : Generates root "resource_calls.asm" (Dispatch.render ((cs.resolve t).dispatch t)) s u) :
    Rendered root cs old t u :=
  ⟨labelled.generates generates (by decide) (by decide), generates.read⟩

theorem Rendered.pointers {t : ResourceTable} {contents : String} {s u : Linker (σ × List Call)}
    (rendered : Rendered root cs old t s) (generates : Generates root "pointer_list.asm" contents s u) :
    Rendered root cs old t u :=
  ⟨rendered.labelled.generates generates (by decide) (by decide),
    generates.read_other (named_of_generated (by decide)) (named_of_generated (by decide)) (by decide)
      rendered.calls⟩

theorem Rendered.closing {t : ResourceTable} {request : Request} {assembly : Assembly}
    {s u : Linker (σ × List Call)} (rendered : Rendered root cs old t s)
    (source : request.source = (Workspace.mk root []).fixedSource "main.asm")
    (patches : Patches asm.traced request assembly s u) : Closing root cs old u.assembler.2 := by
  have other : request.source ≠ sourceIn root "resource.asm" := by
    rw [source]
    exact fixedSource_ne (by decide) (by decide)
  have same : insertions root u.assembler.2 = insertions root s.assembler.2 := by
    rw [patches.record, insertions_append]
    simp [insertions, other]
  obtain ⟨inserted, resources, labels⟩ := rendered.labelled
  refine ⟨t, s.assembler.2, ⟨request, s.disk, .ok assembly⟩, patches.record, source, ?_, ?_,
    labels, rendered.calls⟩
  · rw [same]
    exact inserted.count
  · rw [same, ← resources]
    exact inserted.linkage

theorem leads_buildMain {t : ResourceTable} :
    Leads (Labelled root settings.contexts old t) (Build.buildMain asm.traced settings)
      fun _ s => Closing root settings.contexts old s.assembler.2 := by
  have closing_of_frame (s u : Linker (σ × List Call)) (same : frame u = frame s)
      (closing : Closing root settings.contexts old s.assembler.2) :
      Closing root settings.contexts old u.assembler.2 := by
    rw [show u.assembler = s.assembler from congrArg Frame.assembler same]
    exact closing
  unfold Build.buildMain
  refine Ensures.bind ((quiet_note _ _).leads fun s u same labelled => labelled.of_frame same) fun _ => ?_
  refine Ensures.read fun s labelled => ?_
  dsimp only
  rw [labelled.resources]
  have start : ∀ u, u = s → Labelled root settings.contexts old t u := fun u same => same ▸ labelled
  refine Ensures.pre (Ensures.bind
    ((quiet_addDefines _).leads fun s u same labelled => labelled.of_frame same) fun _ => ?_) start
  refine Ensures.through (fun _ => Rendered root settings.contexts old t) ?_ fun _ => ?_
  · refine Ensures.mono (leads_generate (named_of_generated (by decide))
      fun u labelled => labelled.inserted.root_eq) ?_ fun _ _ => trivial
    rintro path u ⟨-, s, labelled, generates⟩
    exact labelled.rendered generates
  refine Ensures.read fun s rendered => ?_
  refine Ensures.through (fun _ => Rendered root settings.contexts old t) ?_ fun _ => ?_
  · refine Ensures.mono (leads_generate (named_of_generated (by decide))
      fun u same => same ▸ rendered.labelled.inserted.root_eq) ?_ fun _ _ => trivial
    rintro path u ⟨-, s, rfl, generates⟩
    exact rendered.pointers generates
  -- behind the call only its size and its prints are taken in, neither of which is in the frame
  unfold Build.patchBase
  have noted (size : Nat) :
      Quiet (modifySession (·.addSize .main size) : LinkM (σ × List Call) Unit) :=
    quiet_modifySession fun _ => ⟨rfl, rfl⟩
  refine Ensures.through (fun _ s => Closing root settings.contexts old s.assembler.2) ?_
    fun inserted => (noted inserted.size).leads closing_of_frame
  refine Ensures.read fun s rendered => ?_
  refine Ensures.through (fun _ s => Closing root settings.contexts old s.assembler.2) ?_ fun _ =>
    (quiet_takePrints _ _).leads closing_of_frame
  refine Ensures.mono leads_patch ?_ fun _ _ => trivial
  rintro - u ⟨s, request, assembly, rfl, source, patches⟩
  refine rendered.closing ?_ patches
  rw [source, ← rendered.labelled.inserted.root_eq]
  rfl

end RomLinker.LinkM
