import RomLinker.Proofs.Link.Steps
import RomLinker.Proofs.Resources

/-!
The record of the assembler's calls in a build. The calls that insert resources come in the order of
the resources' numbers, each with the extra bytes of its resource, and the labels of its answer are filed
with that resource (`Linkage`).
-/
namespace RomLinker

open Workspace

structure Call where
  request : Request
  disk : Disk
  answer : Except AssemblerFault Assembly

def Assembler.traced {σ : Type} (asm : Assembler σ) : Assembler (σ × List Call) where
  name := asm.name
  assemble request disk state :=
    let (answer, after, inner) := asm.assemble request disk state.1
    (answer, after, inner, state.2 ++ [⟨request, disk, answer⟩])

def insertions (root : Path) (calls : List Call) : List Call :=
  calls.filter fun call => decide (call.request.source = sourceIn root "resource.asm")

theorem insertions_append (root : Path) (before after : List Call) :
    insertions root (before ++ after) = insertions root before ++ insertions root after :=
  List.filter_append ..

/-- A call inserted a resource, and its labels were filed with the resource. -/
structure Linked (root : Path) (cs : Contexts) (r : Resource) (call : Call) (r' : Resource) : Prop where
  filed : ∃ assembly, call.answer = .ok assembly ∧ r.withLabels? assembly.labels = some r'
  wrapped : call.disk.read (sourceIn root "resource.asm") = .ok r.wrapper.toUTF8
  given : call.disk.read (sourceIn root "extra_bytes.asm") =
    .ok (ExtraBytes.fragment cs r.id r.directives.extraBytes).toUTF8

/-- Of the resources of a table, as many were inserted as there are calls. -/
structure Linkage (root : Path) (cs : Contexts) (old : ResourceTable) (calls : List Call)
    (t : ResourceTable) : Prop where
  size : t.size = old.size
  linked : ∀ k call, calls[k]? = some call → ∀ r, old.get? k = some r →
    ∃ r', t.get? k = some r' ∧ Linked root cs r call r'
  rest : ∀ k, calls.length ≤ k → t.get? k = old.get? k

namespace Linkage
variable {root : Path} {cs : Contexts} {old t : ResourceTable} {calls : List Call} {call : Call}
  {r r' : Resource}

theorem start (root : Path) (cs : Contexts) (old : ResourceTable) : Linkage root cs old [] old :=
  ⟨rfl, nofun, fun _ _ => rfl⟩

theorem put (linkage : Linkage root cs old calls t) (next : old.get? calls.length = some r)
    (number : r'.id = calls.length) (linked : Linked root cs r call r') :
    Linkage root cs old (calls ++ [call]) (t.put r') := by
  have inside : r'.id < t.size := by
    rw [number, linkage.size]
    exact (List.getElem?_eq_some_iff.mp next).1
  refine ⟨?_, ?_, ?_⟩
  · rw [← linkage.size]
    exact List.length_set
  · intro k other found q there
    rw [ResourceTable.get?_put inside, number]
    by_cases last : k = calls.length
    · subst last
      rw [if_pos rfl]
      rw [next] at there
      cases there
      have same : call = other := by simpa using found
      exact ⟨r', rfl, same ▸ linked⟩
    · have earlier : k < calls.length := by
        have bound := (List.getElem?_eq_some_iff.mp found).1
        rw [List.length_append, List.length_singleton] at bound
        omega
      rw [if_neg last]
      rw [List.getElem?_append_left earlier] at found
      exact linkage.linked k other found q there
  · intro k later
    rw [List.length_append, List.length_singleton] at later
    rw [ResourceTable.get?_put inside, number, if_neg (by omega)]
    exact linkage.rest k (by omega)

end Linkage

namespace LinkM

variable {σ : Type} {asm : Assembler σ} {root rom : Path} {cs : Contexts} {old : ResourceTable}
  {kept : Linker (σ × List Call) → Prop} {source : Path} {own : Defines} {r : Resource} {n : Nat}

theorem Calls.record {request : Request} {answer : Except AssemblerFault Assembly}
    {s t : Linker (σ × List Call)} (calls : Calls asm.traced request answer s t) :
    t.assembler.2 = s.assembler.2 ++ [⟨request, s.disk, answer⟩] := by
  have run := calls.run
  obtain ⟨same, rest⟩ := Prod.mk.inj run
  obtain ⟨-, inner⟩ := Prod.mk.inj rest
  rw [← same, ← inner]

/-- What a patched source leaves behind, but for the image of the ROM. -/
structure Patches {σ : Type} (asm : Assembler σ) (request : Request) (assembly : Assembly)
    (s t : Linker σ) : Prop where
  calls : ∃ u, Calls asm request (.ok assembly) s u ∧ frame t = frame u

theorem leads_patch {asm : Assembler σ} {kept : Linker σ → Prop} :
    Leads kept (patch asm source own) fun _ t => ∃ s request assembly, kept s ∧
      request.source = source ∧ Patches asm request assembly s t := by
  refine Ensures.read fun s holds => ?_
  cases s.session.rom? with
  | none => exact Ensures.throw fun _ _ => trivial
  | some rom =>
    have start : ∀ t, t = s → kept t := fun t same => same ▸ holds
    refine Ensures.pre (Ensures.bind (ensures_assemble.mono (fun _ _ after => after)
      fun _ _ => trivial) fun image => ?_) start
    refine Ensures.modify fun u reached => ?_
    obtain ⟨s, defines, assembly, holds, -, -, calls⟩ := reached
    exact ⟨s, _, assembly, holds, rfl, u, calls, frame_session (sameFrame_withData _ _)⟩

namespace Patches
variable {request : Request} {assembly : Assembly} {s t : Linker (σ × List Call)}

theorem record (patches : Patches asm.traced request assembly s t) :
    t.assembler.2 = s.assembler.2 ++ [⟨request, s.disk, .ok assembly⟩] := by
  obtain ⟨u, calls, same⟩ := patches.calls
  rw [show t.assembler = u.assembler from congrArg Frame.assembler same]
  exact calls.record

theorem labels (patches : Patches asm.traced request assembly s t) :
    t.session.labels = assembly.labels := by
  obtain ⟨u, calls, same⟩ := patches.calls
  rw [show t.session.labels = u.session.labels from congrArg Frame.labels same, calls.rest]
  rfl

theorem rest (patches : Patches asm.traced request assembly s t) :
    t.workspace = s.workspace ∧ t.resources = s.resources := by
  obtain ⟨u, calls, same⟩ := patches.calls
  rw [show t.workspace = u.workspace from congrArg Frame.workspace same,
    show t.resources = u.resources from congrArg Frame.resources same, calls.rest]
  exact ⟨rfl, rfl⟩

theorem library_eq (patches : Patches asm.traced request assembly s t) : t.library = s.library := by
  obtain ⟨u, calls, same⟩ := patches.calls
  rw [show t.library = u.library from congrArg Frame.library same, calls.rest]

end Patches

structure Untouched (root : Path) (s : Linker (σ × List Call)) : Prop where
  root_eq : s.workspace.root = root
  none : insertions root s.assembler.2 = []

theorem Untouched.of_frame {s t : Linker (σ × List Call)} (untouched : Untouched root s)
    (same : frame t = frame s) : Untouched root t := by
  have inner : t.assembler = s.assembler := congrArg Frame.assembler same
  have place : t.workspace = s.workspace := congrArg Frame.workspace same
  exact ⟨place ▸ untouched.root_eq, inner ▸ untouched.none⟩

theorem untouched_steady : Steady asm.traced root rom fun s : Linker (σ × List Call) => Untouched root s where
  frame s t same holds := holds.of_frame same
  root_eq s holds := holds.root_eq
  load s r same holds := ⟨holds.root_eq, holds.none⟩
  library s library holds := ⟨holds.root_eq, holds.none⟩
  makes s t makes holds := by
    rw [makes.rest]
    exact ⟨holds.root_eq, holds.none⟩
  generates s t name contents generated generates holds := by
    refine ⟨generates.root_eq.trans holds.root_eq, ?_⟩
    rw [generates.rest]
    exact holds.none
  breaks s t name contents generated breaks holds := by
    rw [breaks.rest]
    exact ⟨holds.root_eq, holds.none⟩
  calls s t request answer other calls holds := by
    refine ⟨?_, ?_⟩
    · rw [calls.rest]
      exact holds.root_eq
    · rw [calls.record, insertions_append, holds.none, List.nil_append]
      simp [insertions, other]

/-- As many resources were inserted as a number says. -/
structure Inserted (root : Path) (cs : Contexts) (old : ResourceTable) (n : Nat)
    (s : Linker (σ × List Call)) : Prop where
  root_eq : s.workspace.root = root
  count : (insertions root s.assembler.2).length = n
  linkage : Linkage root cs old (insertions root s.assembler.2) s.resources

theorem Inserted.of_frame {s t : Linker (σ × List Call)} (inserted : Inserted root cs old n s)
    (same : frame t = frame s) : Inserted root cs old n t := by
  have inner : t.assembler = s.assembler := congrArg Frame.assembler same
  have place : t.workspace = s.workspace := congrArg Frame.workspace same
  have table : t.resources = s.resources := congrArg Frame.resources same
  refine ⟨place ▸ inserted.root_eq, inner ▸ inserted.count, ?_⟩
  rw [inner, table]
  exact inserted.linkage

theorem Inserted.generates {name contents : String} {s t : Linker (σ × List Call)}
    (inserted : Inserted root cs old n s) (generates : Generates root name contents s t) :
    Inserted root cs old n t := by
  refine ⟨generates.root_eq.trans inserted.root_eq, ?_, ?_⟩
  · rw [generates.rest]
    exact inserted.count
  · rw [generates.rest]
    exact inserted.linkage

structure Supplied (root : Path) (cs : Contexts) (old : ResourceTable) (r : Resource)
    (s : Linker (σ × List Call)) : Prop where
  inserted : Inserted root cs old r.id s
  wrapped : s.disk.read (sourceIn root "resource.asm") = .ok r.wrapper.toUTF8
  given : s.disk.read (sourceIn root "extra_bytes.asm") =
    .ok (ExtraBytes.fragment cs r.id r.directives.extraBytes).toUTF8

structure Answered (root : Path) (cs : Contexts) (old : ResourceTable) (r : Resource)
    (s : Linker (σ × List Call)) : Prop where
  root_eq : s.workspace.root = root
  calls : ∃ calls call assembly, insertions root s.assembler.2 = calls ++ [call] ∧
    calls.length = r.id ∧ Linkage root cs old calls s.resources ∧ call.answer = .ok assembly ∧
    s.session.labels = assembly.labels ∧
    call.disk.read (sourceIn root "resource.asm") = .ok r.wrapper.toUTF8 ∧
    call.disk.read (sourceIn root "extra_bytes.asm") =
      .ok (ExtraBytes.fragment cs r.id r.directives.extraBytes).toUTF8

theorem Answered.of_frame {s t : Linker (σ × List Call)} (answered : Answered root cs old r s)
    (same : frame t = frame s) : Answered root cs old r t := by
  have inner : t.assembler = s.assembler := congrArg Frame.assembler same
  have place : t.workspace = s.workspace := congrArg Frame.workspace same
  have table : t.resources = s.resources := congrArg Frame.resources same
  have labels : t.session.labels = s.session.labels := congrArg Frame.labels same
  refine ⟨place ▸ answered.root_eq, ?_⟩
  rw [inner, table, labels]
  exact answered.calls

theorem Supplied.answered {request : Request} {assembly : Assembly} {s t : Linker (σ × List Call)}
    (supplied : Supplied root cs old r s) (source : request.source = sourceIn root "resource.asm")
    (patches : Patches asm.traced request assembly s t) : Answered root cs old r t := by
  obtain ⟨place, table⟩ := patches.rest
  refine ⟨place ▸ supplied.inserted.root_eq, insertions root s.assembler.2,
    ⟨request, s.disk, .ok assembly⟩, assembly, ?_,
    supplied.inserted.count, ?_, rfl, patches.labels, supplied.wrapped, supplied.given⟩
  · rw [patches.record, insertions_append]
    exact congrArg _ (List.filter_cons_of_pos (decide_eq_true source))
  · rw [table]
    exact supplied.inserted.linkage

end LinkM
end RomLinker
