import RomLinker.Proofs.ExtraBytes
import RomLinker.Proofs.Link.Insertions
import RomLinker.Proofs.Link.Load
import RomLinker.Proofs.Settings.Exact

/-!
Every symbol that the calls use is defined (`link_closure`).
-/
namespace RomLinker

open Workspace

namespace LinkM

variable {σ α : Type} {asm : Assembler σ} {root : Path} {settings : Settings} {override? : Option Path}

/-- A property that reads neither the disk nor the log, nor which files were written. -/
structure Unwritten (kept : Linker σ → Prop) : Prop where
  disk : ∀ s disk, kept s → kept { s with disk }
  log : ∀ s log, kept s → kept { s with log }
  written : ∀ s written, kept s → kept { s with workspace.written := written }

namespace Unwritten
variable {kept : Linker σ → Prop} (unwritten : Unwritten kept)
include unwritten

theorem and {kept' : Linker σ → Prop} (other : Unwritten kept') : Unwritten fun s => kept s ∧ kept' s :=
  ⟨fun s disk both => ⟨unwritten.disk s disk both.1, other.disk s disk both.2⟩,
    fun s log both => ⟨unwritten.log s log both.1, other.log s log both.2⟩,
    fun s written both => ⟨unwritten.written s written both.1, other.written s written both.2⟩⟩

theorem save : Keeps kept (save : LinkM σ Unit) := by
  refine ensures_saves.mono ?_ fun _ holds => holds
  rintro - t ⟨s, holds, saves⟩
  rw [saves.rest]
  exact unwritten.disk s _ holds

theorem sequential : Sequential fun _ (action : LinkM σ _) => Keeps kept action :=
  Keeps.sequential unwritten.log

theorem keeps_disk (disk : Linker σ → Disk) :
    Keeps kept (modify fun s => { s with disk := disk s } : LinkM σ Unit) :=
  Keeps.modify fun s holds => unwritten.disk s _ holds

theorem markRom (rom : Path) : Keeps kept (Build.markRom rom : LinkM σ Unit) :=
  unwritten.sequential.markRom unwritten.keeps_disk rom

theorem cleanup : Keeps kept (cleanup : LinkM σ Unit) := by
  refine Keeps.bind Keeps.get fun s => Keeps.bind
    (Keeps.modify fun t holds => unwritten.written t _ holds) fun _ => ?_
  refine Keeps.forM fun p _ => ?_
  unfold discard
  refine Keeps.bind Keeps.get fun t => ?_
  split
  · exact Keeps.modify fun u holds => unwritten.disk u _ holds
  · exact Keeps.modify fun u holds => unwritten.log u _ holds

theorem conclude (rom : Path) : Keeps kept (Build.conclude rom : LinkM σ Report) :=
  ensures_conclude unwritten.save unwritten.log (unwritten.markRom rom)

theorem generate (name contents : String) : Keeps kept (generate name contents : LinkM σ Path) := by
  refine unwritten.sequential.generate unwritten.keeps_disk (fun p => Keeps.modify fun s holds => ?_) name contents
  unfold Workspace.remember
  split
  · exact holds
  · exact unwritten.written s _ holds

end Unwritten

section Assembler
variable (kept : σ → Prop)

theorem unwritten_assembler : Unwritten fun s : Linker σ => kept s.assembler :=
  ⟨fun _ _ holds => holds, fun _ _ holds => holds, fun _ _ holds => holds⟩

theorem keeps_save : Keeps (fun s : Linker σ => kept s.assembler) (save : LinkM σ Unit) :=
  (unwritten_assembler kept).save

theorem keeps_markRom (rom : Path) :
    Keeps (fun s : Linker σ => kept s.assembler) (Build.markRom rom : LinkM σ Unit) :=
  (unwritten_assembler kept).markRom rom

theorem keeps_cleanup : Keeps (fun s : Linker σ => kept s.assembler) (cleanup : LinkM σ Unit) :=
  (unwritten_assembler kept).cleanup

theorem keeps_conclude (rom : Path) :
    Keeps (fun s : Linker σ => kept s.assembler) (Build.conclude rom : LinkM σ Report) :=
  (unwritten_assembler kept).conclude rom

end Assembler

/-- The main source was assembled, and nothing behind it. -/
abbrev Closed (root : Path) (settings : Settings) (inner : σ × List Call) : Prop :=
  Closing root settings.contexts settings.resources inner.2

theorem leads_upToSave {rom : Path} (numbered : ∀ k r, settings.resources.get? k = some r → r.id = k) :
    Leads (Untouched root) (Build.upToSave asm.traced settings rom)
      fun _ s => Closed root settings s.assembler := by
  have steady : Steady asm.traced root rom fun s : Linker (σ × List Call) => Untouched root s :=
    untouched_steady
  unfold Build.upToSave
  refine Ensures.bind (steady.loadRom settings).leads fun _ => ?_
  refine Ensures.bind (steady.patchBase (by decide)).leads fun _ => ?_
  refine Ensures.bind steady.scan.leads fun _ => Ensures.bind steady.buildLibrary.leads fun _ => ?_
  refine Ensures.bind (leads_buildResources numbered) fun _ => ?_
  exact Ensures.exists_pre fun t => leads_buildMain

theorem leads_run (numbered : ∀ k r, settings.resources.get? k = some r → r.id = k) :
    Leads (Untouched root) (Build.run asm.traced settings override?)
      fun _ s => Closed root settings s.assembler := by
  rw [Build.run_eq]
  refine Ensures.read fun s untouched => ?_
  have start : ∀ t, t = s → Untouched root t := fun t same => same ▸ untouched
  cases Build.romPath s.workspace settings override? with
  | error error => exact Ensures.throw fun _ _ => trivial
  | ok rom =>
    refine Ensures.pre (Ensures.bind (leads_upToSave numbered) fun _ => ?_) start
    exact (keeps_conclude (Closed root settings) rom).leads

theorem closed_of_build {d : Disk} {state : σ} {report : Report} {t : Linker (σ × List Call)}
    (numbered : ∀ k r, settings.resources.get? k = some r → r.id = k)
    (built : build asm.traced settings override? (Linker.fresh d root (state, [])) = .ok report t) :
    Closed root settings t.assembler := by
  have leads : Leads (Untouched root) (build asm.traced settings override?)
      fun _ s => Closed root settings s.assembler :=
    (leads_run numbered).andAlways (keeps_cleanup (Closed root settings))
  have reached := leads.run (Linker.fresh d root (state, [])) ⟨rfl, rfl⟩
  rw [built] at reached
  exact reached

end LinkM

/-- The labels of an inserted resource have names of their own, without white space, and among them is
one for every table of extra bytes that the assembler was given. -/
def Call.NamesTables (root : Path) (call : Call) : Prop :=
  ∀ assembly, call.answer = .ok assembly →
    (assembly.labels.map (·.name)).Nodup ∧
    (∀ l ∈ assembly.labels, ∀ c ∈ l.name.toList, Text.isBlank c = false) ∧
    ∀ text, call.disk.readText (sourceIn root "extra_bytes.asm") = .ok text →
      ∀ name, ".." ++ name ++ ":" ∈ Text.linesOf text →
        ∃ l ∈ assembly.labels, l.name = "Inner_ExtraBytes_" ++ name

namespace Resource

theorem solid_symbol {id : Nat} {part : String} (plain : ∀ c ∈ part.toList, Text.isBlank c = false) :
    Text.Solid (symbol id part) := by
  have head : ∀ c ∈ "UberResource".toList, Text.isBlank c = false := by decide
  refine ⟨fun none => ?_, fun c member => ?_⟩
  · have letters := congrArg String.toList none
    rw [toList_symbol] at letters
    exact absurd (List.append_eq_nil_iff.mp letters).1 (by decide)
  · rw [toList_symbol] at member
    rcases List.mem_append.mp member with front | rest
    · exact head c front
    rcases List.mem_append.mp rest with digit | rest
    · obtain ⟨d, small, rfl⟩ := Text.exists_digit_of_mem_numeral (by decide) digit
      exact (Address.digitChar_plain (by omega)).2.1
    rcases List.mem_cons.mp rest with rfl | back
    · decide
    · exact plain c back

theorem plain_of_innerName {part : String}
    (plain : ∀ c ∈ (innerName part).toList, Text.isBlank c = false) :
    ∀ c ∈ part.toList, Text.isBlank c = false := by
  by_cases nmi : part = "NMI"
  · subst nmi
    decide
  · intro c member
    refine plain c ?_
    rw [innerName, if_neg nmi, String.toList_append]
    exact List.mem_append_right _ member

end Resource

/-- A symbol stands for a label inside of a resource: the resource with the symbol's number, the call
that inserted it, and the label that the symbol's part is read from. -/
structure StandsFor (root : Path) (resources : ResourceTable) (calls : List Call) (symbol : String)
    (l : Label) : Prop where
  resource : ∃ id part r call assembly, symbol = Resource.symbol id part ∧
    resources.get? id = some r ∧ calls[id]? = some call ∧
    call.disk.readText (sourceIn root "resource.asm") = .ok r.wrapper ∧
    call.answer = .ok assembly ∧ l ∈ assembly.labels ∧ l.name = Resource.innerName part

/-! ### The two texts -/

theorem filter_eq_singleton {xs : List Label} {x : Label} (distinct : (xs.map (·.name)).Nodup)
    (member : x ∈ xs) : xs.filter (·.name == x.name) = [x] := by
  induction xs with
  | nil => cases member
  | cons y ys ih =>
    obtain ⟨fresh, rest⟩ := List.nodup_cons.mp distinct
    rcases List.mem_cons.mp member with rfl | later
    · have none : ys.filter (·.name == x.name) = [] := by
        rw [List.filter_eq_nil_iff]
        intro z inside same
        exact fresh (List.mem_map.mpr ⟨z, inside, eq_of_beq same⟩)
      simp [none]
    · have other : y.name ≠ x.name := by
        intro same
        exact fresh (List.mem_map.mpr ⟨x, later, same.symm⟩)
      simpa [other] using ih rest later

namespace Linkage
variable {root : Path} {cs : Contexts} {old t : ResourceTable} {calls : List Call} {r' : Resource}
  {k : Nat}

/-- Once all resources are inserted, each comes from one call. -/
theorem exists_linked (linkage : Linkage root cs old calls t) (all : calls.length = old.size)
    (found : t.get? k = some r') :
    ∃ r call, old.get? k = some r ∧ calls[k]? = some call ∧ Linked root cs r call r' := by
  have inside : k < t.size := (List.getElem?_eq_some_iff.mp found).1
  have bound : k < old.size := linkage.size ▸ inside
  have bound' : k < calls.length := all ▸ bound
  have there : old.get? k = some old.resources[k] := List.getElem?_eq_getElem bound
  have called : calls[k]? = some calls[k] := List.getElem?_eq_getElem bound'
  obtain ⟨q, same, linked⟩ := linkage.linked k calls[k] called old.resources[k] there
  rw [found] at same
  cases same
  exact ⟨_, _, there, called, linked⟩

variable (linkage : Linkage root cs old calls t) (all : calls.length = old.size)
  (named : ∀ call ∈ calls, call.NamesTables root)
include linkage all named

theorem nodup_exports (numbered : ∀ k r, old.get? k = some r → r.id = k) : (t.exports.map (·.name)).Nodup := by
  have known (k : Nat) (inside : k < t.resources.length) :
      t.resources[k].id = k ∧ (t.resources[k].exports.map (·.name)).Nodup := by
    have found : t.get? k = some t.resources[k] := List.getElem?_eq_getElem inside
    obtain ⟨r, call, there, called, ⟨assembly, answer, taken⟩, -, -⟩ := linkage.exists_linked all found
    have distinct := (named call (List.mem_of_getElem? called) assembly answer).1
    refine ⟨?_, Resource.nodup_exports taken distinct⟩
    obtain ⟨entry, -, same⟩ := Resource.withLabels?_eq_some taken
    rw [same]
    exact numbered k r there
  refine ResourceTable.nodup_exports ?_ fun r member => ?_
  · rw [List.pairwise_iff_getElem]
    intro i j left right before same
    rw [(known i left).1, (known j right).1] at same
    omega
  · obtain ⟨k, inside, rfl⟩ := List.mem_iff_getElem.mp member
    exact (known k inside).2

theorem solid_exports {e : Label} (member : e ∈ t.exports) : Text.Solid e.name := by
  obtain ⟨r', here, exported⟩ := List.mem_flatMap.mp member
  obtain ⟨k, inside, rfl⟩ := List.mem_iff_getElem.mp here
  have found : t.get? k = some t.resources[k] := List.getElem?_eq_getElem inside
  obtain ⟨r, call, -, called, ⟨assembly, answer, taken⟩, -, -⟩ := linkage.exists_linked all found
  obtain ⟨part, l, listed, rfl, name⟩ := Resource.exists_label_of_mem_exports taken exported
  obtain ⟨-, plain, -⟩ := named call (List.mem_of_getElem? called) assembly answer
  exact Resource.solid_symbol (Resource.plain_of_innerName (name ▸ plain l listed))

theorem exists_export {symbol : String} (numbered : ∀ k r, old.get? k = some r → r.id = k)
    (member : symbol ∈ Dispatch.symbolsIn (Dispatch.render ((cs.resolve t).dispatch t))) :
    ∃ l, StandsFor root old calls symbol l ∧ ⟨symbol, l.address⟩ ∈ t.exports := by
  obtain ⟨line, inside, uses⟩ := Dispatch.mem_symbolsIn_render member
  obtain ⟨kind, slot, a, held, r', found, reason⟩ := Contexts.explains_of_mem_dispatch inside uses
  obtain ⟨r, call, there, called, ⟨assembly, answer, taken⟩, wrapped, given⟩ :=
    linkage.exists_linked all found
  have number : r.id = a.resource := numbered _ _ there
  have stands {part : String} {l : Label} (same : line.symbol? = some (Resource.symbol a.resource part))
      (listed : l ∈ assembly.labels) (name : l.name = Resource.innerName part)
      (exported : ⟨Resource.symbol r.id part, l.address⟩ ∈ r'.exports) :
      ∃ l, StandsFor root old calls symbol l ∧ ⟨symbol, l.address⟩ ∈ t.exports := by
    rw [uses] at same
    cases same
    rw [number] at exported
    refine ⟨l, ⟨a.resource, part, r, call, assembly, rfl, there, called,
      Disk.readText_of_read wrapped, answer, listed, name⟩, ?_⟩
    exact List.mem_flatMap.mpr ⟨r', List.mem_of_getElem? found, exported⟩
  rcases reason with ⟨rfl, bytes⟩ | rfl | ⟨rfl, answers⟩
  · obtain ⟨-, -, tables⟩ := named call (List.mem_of_getElem? called) assembly answer
    have count : r'.directives = r.directives := by
      obtain ⟨entry, -, same⟩ := Resource.withLabels?_eq_some taken
      rw [same]
    have line : ".." ++ slot.label kind ++ ":" ∈
        Text.linesOf (ExtraBytes.fragment cs r.id r.directives.extraBytes) := by
      rw [number, ← count]
      exact ExtraBytes.label_mem_fragment held bytes
    obtain ⟨l, listed, name⟩ := tables _ (Disk.readText_of_read given) _ line
    rw [← Resource.innerName_table] at name
    exact stands rfl listed name (Resource.mem_exports_table taken listed name)
  · obtain ⟨l, listed, name, exported⟩ := Resource.mem_exports_entry taken
    exact stands rfl listed name exported
  · obtain ⟨l, listed, name, exported⟩ := Resource.mem_exports_nmi taken answers
    exact stands rfl listed name exported

end Linkage

open LinkM

/-- In every build that succeeds, the main source finds each symbol that the calls of resources use
defined exactly once, by the label inside of the resource that the symbol stands for, and no symbol
defined twice. -/
theorem link_closure {σ : Type} (asm : Assembler σ) (source : String) (w : Workspace) (read : Disk)
    (settings : Settings) (override? : Option Path) (root : Path) (d : Disk) (state : σ)
    (report : Report) (t : Linker (σ × List Call))
    (accepted : Settings.parse source w read = .ok settings)
    (built : build asm.traced settings override? (Linker.fresh d root (state, [])) = .ok report t)
    (named : ∀ call ∈ insertions root t.assembler.2, call.NamesTables root) :
    ∃ (main : Call) (callsText labelsText : String) (defined : List Label),
      t.assembler.2.getLast? = some main ∧
      main.request.source = (Workspace.mk root []).fixedSource "main.asm" ∧
      main.disk.readText (sourceIn root "resource_calls.asm") = .ok callsText ∧
      main.disk.readText (sourceIn root "resource_labels.asm") = .ok labelsText ∧
      (Text.linesOf labelsText).map Label.ofDefinition? = defined.map some ∧
      (defined.map (·.name)).Nodup ∧
      ∀ symbol ∈ Dispatch.symbolsIn callsText,
        ∃ l, StandsFor root settings.resources (insertions root t.assembler.2) symbol l ∧
          defined.filter (·.name == symbol) = [⟨symbol, l.address.low⟩] := by
  have numbered : ∀ k r, settings.resources.get? k = some r → r.id = k :=
    (Settings.holds_of_parse accepted).mentions.ids
  have closed : Closed root settings t.assembler := closed_of_build numbered built
  obtain ⟨table, before, main, calls, last, all, linkage, labels, dispatched⟩ := closed
  have solid : ∀ e ∈ table.exports, Text.Solid e.name := fun e => linkage.solid_exports all named
  have names : (table.exports.map Label.low).map (·.name) = table.exports.map (·.name) := by
    rw [List.map_map]
    rfl
  have distinct : ((table.exports.map Label.low).map (·.name)).Nodup := by
    rw [names]
    exact linkage.nodup_exports all named numbered
  refine ⟨main, _, _, table.exports.map Label.low, by simp [calls], last,
    Disk.readText_of_read dispatched, Disk.readText_of_read labels, ?_, distinct,
    fun symbol member => ?_⟩
  · rw [ResourceTable.definitions, Label.linesOf_definitions solid, List.map_map]
    rfl
  · obtain ⟨l, stands, exported⟩ := linkage.exists_export all named numbered member
    refine ⟨l, stands, ?_⟩
    exact filter_eq_singleton (x := ⟨symbol, l.address.low⟩) distinct
      (List.mem_map.mpr ⟨_, exported, rfl⟩)

/-! ### A small build -/

/-- A resource was inserted with these labels, and with this source of its extra bytes. -/
def Call.Gave (root : Path) (labels : List Label) (tables : String) (call : Call) : Prop :=
  call.answer.toOption.map (·.labels) = some labels ∧
    (call.disk.readText (sourceIn root "extra_bytes.asm")).toOption = some tables

instance (root : Path) (labels : List Label) (tables : String) :
    DecidablePred (Call.Gave root labels tables) :=
  fun _ => inferInstanceAs (Decidable (_ ∧ _))

theorem Call.Gave.labels_eq {root : Path} {labels : List Label} {tables : String} {call : Call}
    (gave : call.Gave root labels tables) {assembly : Assembly} (answer : call.answer = .ok assembly) :
    assembly.labels = labels := by
  have same := gave.1
  rw [answer] at same
  exact Option.some.inj same

namespace SmallBuild

def root : Path := ⟨"."⟩

/-- One resource with a byte of its own, in one slot. -/
def source : String := "global: g\nstatusbar: s\nmacrolib: m\nfreeram: $7F0000\nlevel:\n5 a.asm 7\n"

def disk : Disk :=
  let level := Location.root.child "level"
  Disk.empty.insert level .directory
    |>.insert (level.child "a.asm") (.file ";>bytes 1\n".toUTF8)
    |>.insert (Location.root.child "r.sfc") (.file Rom.bank)

def settings : Settings := (Settings.parse source ⟨root, []⟩ disk).toOption.getD {}

def labels : List Label := [⟨"Inner_ResourceEntry", 0x108000⟩, ⟨"Inner_ExtraBytes_Level5", 0x108010⟩]

def tables : String := "..Level5:\n    db $07\n"

/-- Every source has the same labels, and leaves nothing of the image. -/
def asm : Assembler Unit := ⟨"fixed", fun _ disk inner => (.ok ⟨.empty, labels, []⟩, disk, inner)⟩

def start : Linker (Unit × List Call) := Linker.fresh disk root ((), [])

theorem accepted : Settings.parse source ⟨root, []⟩ disk = .ok settings := by
  have passes : (Settings.parse source ⟨root, []⟩ disk).isOk = true := by decide +kernel
  obtain ⟨given, parsed⟩ := Except.exists_of_isOk passes
  unfold SmallBuild.settings
  rw [parsed]
  rfl

theorem lookup_bank : disk.lookup (Location.root.child "r.sfc") = some (.file Rom.bank) :=
  (Disk.lookup_insert Location.child_ne_root).trans (if_pos rfl)

theorem read_bank {d : Disk} {p : Path} (same : ∀ l, d.lookup l = disk.lookup l)
    (located : d.locate p = .ok (Location.root.child "r.sfc")) : d.read p = .ok Rom.bank :=
  Disk.read_eq_ok.mpr ⟨_, located, Disk.entryAt_eq_ok.mpr ⟨by decide, (same _).trans lookup_bank⟩⟩

theorem found : disk.read ⟨"./r.sfc"⟩ = .ok Rom.bank := read_bank (fun _ => rfl) (by decide +kernel)

def restOf {σ : Type} (asm : Assembler σ) (state : σ) : EStateM.Result LinkError (Linker σ) Report :=
  behindBank asm settings ⟨"./r.sfc"⟩ (Linker.fresh disk root state)

theorem build_eq_restOf {σ : Type} (asm : Assembler σ) (state : σ) :
    build asm settings (some ⟨"r.sfc"⟩) (Linker.fresh disk root state) = restOf asm state := by
  have path : Build.romPath ⟨root, []⟩ settings (some ⟨"r.sfc"⟩) = .ok ⟨"./r.sfc"⟩ := by decide +kernel
  exact build_of_bank path found

def rest : EStateM.Result LinkError (Linker (Unit × List Call)) Report :=
  behindBank asm.traced settings ⟨"./r.sfc"⟩ start

theorem build_eq : build asm.traced settings (some ⟨"r.sfc"⟩) start = rest :=
  build_eq_restOf asm.traced ((), [])

theorem exists_rest : ∃ report t, rest = .ok report t ∧
    ∀ call ∈ insertions root t.assembler.2, call.Gave root labels tables := by
  have ends : succeeds rest (fun t => ∀ call ∈ insertions root t.assembler.2, call.Gave root labels tables) =
    true := by decide +kernel
  exact exists_of_succeeds ends

theorem namesTables {call : Call} (gave : call.Gave root labels tables) : call.NamesTables root := by
  intro assembly answer
  rw [gave.labels_eq answer]
  refine ⟨by decide, by decide, fun text read name line => ?_⟩
  have same := gave.2
  rw [read] at same
  have lines : Text.linesOf tables = [".." ++ "Level5" ++ ":", "    db $07"] := by decide +kernel
  rw [Option.some.inj same, lines] at line
  rcases List.mem_cons.mp line with equal | other
  · rw [String.append_left_inj, String.append_right_inj] at equal
    subst equal
    exact ⟨⟨"Inner_ExtraBytes_Level5", 0x108010⟩, by decide, rfl⟩
  · have starts := congrArg String.toList (List.mem_singleton.mp other)
    rw [String.toList_append, String.toList_append] at starts
    exact absurd (congrArg List.head? starts) (by simp)

end SmallBuild

open SmallBuild in
theorem link_closure_small : ∃ settings report t main callsText, ∃ defined : List Label,
    Settings.parse source ⟨root, []⟩ disk = .ok settings ∧
    build asm.traced settings (some ⟨"r.sfc"⟩) start = .ok report t ∧
    t.assembler.2.getLast? = some main ∧
    main.disk.readText (sourceIn root "resource_calls.asm") = .ok callsText ∧
    (defined.map (·.name)).Nodup ∧
    ∀ symbol ∈ Dispatch.symbolsIn callsText,
      ∃ l ∈ labels, defined.filter (·.name == symbol) = [⟨symbol, l.address.low⟩] := by
  obtain ⟨report, t, ends, gave⟩ := exists_rest
  have built : build asm.traced settings (some ⟨"r.sfc"⟩) start = .ok report t := build_eq.trans ends
  obtain ⟨main, callsText, -, defined, last, -, dispatched, -, -, distinct, each⟩ :=
    link_closure asm source ⟨root, []⟩ disk settings (some ⟨"r.sfc"⟩) root disk () report t accepted built
      fun call member => namesTables (gave call member)
  refine ⟨settings, report, t, main, callsText, defined, accepted, built, last, dispatched, distinct,
    fun symbol used => ?_⟩
  obtain ⟨l, ⟨id, part, r, call, assembly, -, -, called, -, answer, listed, -⟩, once⟩ := each symbol used
  rw [(gave call (List.mem_of_getElem? called)).labels_eq answer] at listed
  exact ⟨l, listed, once⟩

end RomLinker
