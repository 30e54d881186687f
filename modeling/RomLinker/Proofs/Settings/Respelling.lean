import RomLinker.Proofs.Disk.Normal
import RomLinker.Proofs.Settings.Exact

/-!
Lists that differ in how the paths of their items are spelled. What such a list makes goes by the normal
forms alone, and so does everything that an item needs, except that a new file is looked for along the path as
it is written (`Findable`, `parse_respelling`).
-/
namespace RomLinker

theorem EachAfter.congr {α β : Type} {f : α → β} {xs ys : List α} {passes others : List α → α → Prop}
    (all : EachAfter passes xs) (same : xs.map f = ys.map f)
    (step : ∀ before front x y, before.map f = front.map f → f x = f y → passes before x → others front y) :
    EachAfter others ys := by
  rintro front y after rfl
  rw [List.map_append, List.map_cons] at same
  obtain ⟨before, rest, rfl, fronts, behind⟩ := List.map_eq_append_iff.mp same
  obtain ⟨x, later, rfl, here, -⟩ := List.map_eq_cons_iff.mp behind
  exact step before front x y fronts here (all before x later rfl)

theorem exists_mem_of_map_eq {α β : Type} {f : α → β} {xs ys : List α} {y : α}
    (same : xs.map f = ys.map f) (member : y ∈ ys) : ∃ x ∈ xs, f x = f y :=
  List.mem_map.mp (same ▸ List.mem_map_of_mem member)

namespace Listing

/-- An item wherever it stands, with the normal form of its path if it is in a section. -/
def Item.settled (section? : Option ContextKind) (item : Item) : Item :=
  let file := match section? with
    | some kind => ((Path.mk kind.directory).join ⟨item.file⟩).normal.text
    | none => item.file
  ⟨file, item.bytes, .point 0⟩

theorem Item.bytes_settled (section? : Option ContextKind) (item : Item) :
    (item.settled section?).bytes = item.bytes := by
  simp only [Item.settled]

theorem Item.file_settled (kind : ContextKind) (slot : SlotKey) (item : Item) :
    (item.settled (some kind)).file = (Placed.mk kind slot item).name.text := by
  rw [Item.settled, ← Placed.normal_file, Placed.file]

/-- A statement wherever it stands, in which paths of items count by their normal forms. -/
def Statement.settled (section? : Option ContextKind) : Statement → Statement
  | .verbose on _ => .verbose on (.point 0)
  | .rom path _ => .rom path (.point 0)
  | .file role path _ => .file role path (.point 0)
  | .freeram address _ => .freeram address (.point 0)
  | .header kind _ => .header kind (.point 0)
  | .slot key _ items _ => .slot key (.point 0) (items.map (Item.settled section?)) (.point 0)

def settledFrom (section? : Option ContextKind) : List Statement → List Statement
  | [] => []
  | s :: rest => s.settled section? :: settledFrom (s.header?.or section?) rest

/-- Two lists that say the same but for the spelling of the paths of their items. -/
structure Respelling (source other : String) : Prop where
  readable : (parse source).faults = [] ↔ (parse other).faults = []
  settled : settledFrom none (parse source).statements = settledFrom none (parse other).statements

variable {section? : Option ContextKind} {xs ys : List Statement} {s t : Statement}

def Statement.shape (s : Statement) : Option Command × Option ContextKind × Bool :=
  (s.command?, s.header?, s.line?.isSome)

@[simp] theorem Statement.shape_settled (section? : Option ContextKind) (s : Statement) :
    (s.settled section?).shape = s.shape := by
  cases s <;> rfl

theorem shape_congr (same : s.settled section? = t.settled section?) : s.shape = t.shape := by
  rw [← Statement.shape_settled section? s, same, Statement.shape_settled]

theorem map_shape_settledFrom (section? : Option ContextKind) (xs : List Statement) :
    (settledFrom section? xs).map Statement.shape = xs.map Statement.shape := by
  induction xs generalizing section? with
  | nil => rfl
  | cons s rest ih => simp [settledFrom, ih]

/-- What an item says, for which its path counts by its normal form. -/
def Placed.said (p : Placed) : ContextKind × SlotKey × List UInt8 × Path :=
  (p.kind, p.slot, p.item.bytes, p.name)

theorem Placed.said_inj {p q : Placed} : p.said = q.said ↔
    p.kind = q.kind ∧ p.slot = q.slot ∧ p.item.bytes = q.item.bytes ∧ p.name = q.name := by
  simp [said]

theorem map_said_placedFrom (section? : Option ContextKind) (xs : List Statement) :
    (placedFrom section? xs).map Placed.said =
      (placedFrom section? (settledFrom section? xs)).map fun p =>
        (p.kind, p.slot, p.item.bytes, ⟨p.item.file⟩) := by
  induction xs generalizing section? with
  | nil => rfl
  | cons s rest ih =>
    have header : (s.settled section?).header? = s.header? := by cases s <;> rfl
    have here : (placedIn section? s).map Placed.said =
        (placedIn section? (s.settled section?)).map fun p =>
          (p.kind, p.slot, p.item.bytes, ⟨p.item.file⟩) := by
      cases section? with
      | none => rfl
      | some kind =>
        cases s with
        | slot slot slotSpan items span =>
          simp only [placedIn, Statement.settled, Statement.line?, List.map_map]
          refine List.map_congr_left fun item _ => ?_
          simp only [Function.comp_apply, Placed.said, Item.file_settled kind slot item, Item.bytes_settled]
        | _ => rfl
    rw [settledFrom, placedFrom, placedFrom, List.map_append, List.map_append, here, header, ih]

variable {w : Workspace} {d : Disk}

/-- What an item needs of the spelling of its path: to be followed as it is written, unless an earlier item
has the same normal path. -/
def Findable (w : Workspace) (d : Disk) (before : List Placed) (p : Placed) : Prop :=
  (∃ l, d.locate (w.path p.file) = .ok l) ∨ ∃ q ∈ before, q.name = p.name

theorem isFile_of_directives {file : Path} {directives : Directives}
    (read : directivesOf? w d file = some directives) : d.isFile (w.path file) = true := by
  unfold directivesOf? Disk.readText at read
  cases bytes : d.read (w.path file) with
  | error fault =>
    rw [bytes] at read
    cases read
  | ok content =>
    obtain ⟨l, located, entry⟩ := Disk.read_eq_ok.mp bytes
    exact Disk.isFile_iff.mpr ⟨l, content, located, (Disk.entryAt_eq_ok.mp entry).2⟩

theorem Accepts.findable {before : List Placed} {p : Placed} (accepts : Accepts w d before p) :
    Findable w d before p := by
  refine accepts.file.imp_left fun isFile => ?_
  obtain ⟨l, -, located, -⟩ := Disk.isFile_iff.mp isFile
  exact ⟨l, located⟩

theorem Accepts.congr {before front : List Placed} {p q : Placed}
    (fronts : before.map Placed.said = front.map Placed.said) (same : p.said = q.said)
    (accepts : Accepts w d before p) (findable : Findable w d front q) : Accepts w d front q := by
  obtain ⟨kinds, slots, bytes, names⟩ := Placed.said_inj.mp same
  obtain ⟨directives, read, given⟩ := accepts.bytes
  rw [names] at read
  rw [bytes] at given
  refine ⟨?_, ⟨directives, read, given⟩, kinds ▸ slots ▸ accepts.fits, ?_⟩
  · refine findable.imp_left fun located => ?_
    have file := isFile_of_directives read
    rw [← Placed.normal_file] at file
    exact (Disk.isFile_iff_locate file).mpr located
  · intro later member kind slot name
    obtain ⟨earlier, member', alike⟩ := exists_mem_of_map_eq fronts member
    obtain ⟨kinds', slots', -, names'⟩ := Placed.said_inj.mp alike
    rw [← kinds, ← kinds'] at kind
    rw [← slots, ← slots'] at slot
    rw [← names, ← names'] at name
    exact accepts.fresh earlier member' kind slot name

end Listing

namespace Settings
open Listing

variable {w : Workspace} {d : Disk} {draft next mid : Draft} {kind : ContextKind} {slot : SlotKey}

/-! ### Two runs -/

/-- Two spellings of a file that can both be used are one resource. -/
theorem Draft.resource_congr {p q : Placed} {r r' : Resource} (same : p.name = q.name)
    (left : draft.resource w d p.file = (.ok r, next)) (right : draft.resource w d q.file = (.ok r', mid)) :
    r = r' ∧ next = mid := by
  have known : draft.resources.find? p.file = draft.resources.find? q.file := by
    unfold ResourceTable.find?
    rw [Placed.normal_file, Placed.normal_file, same]
  rcases Draft.resource_cases w d draft p with
    ⟨a, found, result⟩ | ⟨a, absent, -, read, result⟩ | ⟨-, -, e, n, result⟩ <;>
  rcases Draft.resource_cases w d draft q with
    ⟨b, found', result'⟩ | ⟨b, absent', -, read', result'⟩ | ⟨-, -, e', n', result'⟩
  · cases left.symm.trans result
    cases right.symm.trans result'
    cases found.symm.trans (known.trans found')
    exact ⟨rfl, rfl⟩
  · cases found.symm.trans (known.trans absent')
  · cases right.symm.trans result'
  · cases absent.symm.trans (known.trans found')
  · cases left.symm.trans result
    cases right.symm.trans result'
    rw [same] at read
    cases read.symm.trans read'
    rw [same]
    exact ⟨rfl, rfl⟩
  · cases right.symm.trans result'
  all_goals cases left.symm.trans result

theorem Draft.assign_congr {i j : Item} (same : i.settled (some kind) = j.settled (some kind))
    (left : draft.assign w d kind slot i = (.ok (), next))
    (right : draft.assign w d kind slot j = (.ok (), mid)) : next = mid := by
  obtain ⟨r, m, contexts, found, -, assigned, rfl⟩ := Draft.assign_eq_ok.mp left
  obtain ⟨r', m', contexts', found', -, assigned', rfl⟩ := Draft.assign_eq_ok.mp right
  have bytes := congrArg Item.bytes same
  rw [Item.bytes_settled, Item.bytes_settled] at bytes
  have files := congrArg Item.file same
  rw [Item.file_settled kind slot, Item.file_settled kind slot] at files
  obtain ⟨rfl, rfl⟩ := Draft.resource_congr (congrArg Path.mk files) found found'
  rw [bytes] at assigned
  cases assigned.symm.trans assigned'
  rfl

theorem Draft.assignAll_congr {items others : List Item}
    (same : items.map (Item.settled (some kind)) = others.map (Item.settled (some kind)))
    (left : draft.assignAll w d kind slot items = (none, next))
    (right : draft.assignAll w d kind slot others = (none, mid)) : next = mid := by
  induction items generalizing draft others with
  | nil =>
    obtain rfl := List.map_eq_nil_iff.mp same.symm
    exact (Prod.mk.inj (left.symm.trans right)).2
  | cons i rest ih =>
    obtain ⟨j, later, rfl, here, behind⟩ := List.map_eq_cons_iff.mp same.symm
    obtain ⟨a, step, left⟩ := Draft.assignAll_cons_eq_none.mp left
    obtain ⟨b, step', right⟩ := Draft.assignAll_cons_eq_none.mp right
    cases Draft.assign_congr here.symm step step'
    exact ih behind.symm left right

theorem Draft.apply_settled {s : Statement} (bare : s.line? = none) (section? : Option ContextKind) :
    (draft.apply w d (s.settled section?)).2 = (draft.apply w d s).2 := by
  cases s with
  | slot key slotSpan items span => cases bare
  | header kind span => rfl
  | _ =>
    simp only [Draft.apply, Statement.settled]
    split <;> rfl

theorem Draft.apply_congr {s t : Statement} (same : s.settled draft.heading? = t.settled draft.heading?)
    (left : draft.apply w d s = (none, next)) (right : draft.apply w d t = (none, mid)) : next = mid := by
  have lines : s.line?.isSome = t.line?.isSome := congrArg (·.2.2) (shape_congr same)
  cases bare : s.line? with
  | none =>
    have bare' : t.line? = none := by simpa [bare] using lines
    have one : (draft.apply w d (s.settled draft.heading?)).2 = (draft.apply w d s).2 :=
      Draft.apply_settled bare _
    have two : (draft.apply w d (t.settled draft.heading?)).2 = (draft.apply w d t).2 :=
      Draft.apply_settled bare' _
    rw [left, same] at one
    rw [right] at two
    exact one.symm.trans two
  | some line =>
    cases s with
    | slot key slotSpan items span =>
      cases t with
      | slot key' slotSpan' others span' =>
        obtain ⟨rfl, -, items, -⟩ := Statement.slot.inj same
        unfold Draft.apply at left right
        cases heading : draft.heading? with
        | none =>
          rw [heading] at left
          cases left
        | some kind =>
          rw [heading] at left right items
          exact Draft.assignAll_congr items left right
      | _ => cases same
    | _ => cases bare

theorem Draft.Follows.applyAll_congr {before xs ys : List Statement} (follows : draft.Follows w d before)
    (same : settledFrom draft.heading? xs = settledFrom draft.heading? ys)
    (left : draft.applyAll w d xs = ([], next)) (right : draft.applyAll w d ys = ([], mid)) : next = mid := by
  induction xs generalizing draft before ys with
  | nil =>
    cases ys with
    | nil => exact (Prod.mk.inj (left.symm.trans right)).2
    | cons t rest => cases same
  | cons s xs ih =>
    cases ys with
    | nil => cases same
    | cons t ys =>
      obtain ⟨here, behind⟩ := List.cons.inj same
      obtain ⟨a, step, left⟩ := Draft.applyAll_cons_eq_nil.mp left
      obtain ⟨b, step', right⟩ := Draft.applyAll_cons_eq_nil.mp right
      cases Draft.apply_congr here step step'
      have further := follows.apply_none step
      have headings : s.header? = t.header? := congrArg (·.2.1) (shape_congr here)
      have heading : a.heading? = s.header?.or draft.heading? := by
        rw [further.heading, heading?_concat, follows.heading]
      rw [← headings, ← heading] at behind
      exact ih further behind left right

theorem parse_congr {source other : String} {settings settings' : Settings}
    (same : Respelling source other) (left : parse source w d = .ok settings)
    (right : parse other w d = .ok settings') : settings = settings' := by
  obtain ⟨-, draft, run, -, rfl⟩ := parse_eq_ok.mp left
  obtain ⟨-, draft', run', -, rfl⟩ := parse_eq_ok.mp right
  rw [Draft.follows_empty.applyAll_congr same.settled run run']

section
variable {xs ys : List Statement} (same : settledFrom none xs = settledFrom none ys)
include same

theorem map_shape_congr : xs.map Statement.shape = ys.map Statement.shape := by
  rw [← map_shape_settledFrom none, same, map_shape_settledFrom]

theorem map_said_congr : (placed xs).map Placed.said = (placed ys).map Placed.said := by
  rw [map_said_placedFrom, same, ← map_said_placedFrom]

theorem count_congr (c : Command) : count xs c = count ys c := by
  have whole (zs : List Statement) : count zs c = (zs.map Statement.shape).countP (·.1 == some c) := by
    rw [List.countP_map]
    rfl
  rw [whole, map_shape_congr same, ← whole]

theorem Fine.respelled (fine : Fine w d xs) : Fine w d ys ↔ EachAfter (Findable w d) (placed ys) := by
  constructor
  · exact fun other before p after split => (other.items before p after split).findable
  · intro findable
    refine ⟨fun c => count_congr same c ▸ fine.once c, ?_, ?_⟩
    · refine fine.headed.congr (map_shape_congr same) fun before front s t fronts alike headed line => ?_
      have lines : s.line?.isSome = t.line?.isSome := congrArg (·.2.2) alike
      obtain ⟨h, member, header⟩ := headed (lines.trans line)
      obtain ⟨h', member', alike'⟩ := exists_mem_of_map_eq fronts.symm member
      have headers : h'.header? = h.header? := congrArg (·.2.1) alike'
      exact ⟨h', member', headers ▸ header⟩
    · have both : EachAfter (fun front q => Findable w d front q → Accepts w d front q) (placed ys) :=
        fine.items.congr (map_said_congr same) fun _ _ _ _ fronts alike => Accepts.congr fronts alike
      exact fun front q after split => both front q after split (findable front q after split)

end

/-- Of two spellings of one list, one that is accepted decides about the other but for how paths are written:
the files of all items are there, and the other list is accepted with the same settings exactly where each
of its paths can be followed as it is written or comes behind an item with the same normal path. -/
theorem parse_respelling {source other : String} {settings : Settings} (same : Respelling source other)
    (accepted : parse source w d = .ok settings) :
    (∀ p ∈ placed (Listing.parse other).statements, d.isFile (w.path p.name) = true) ∧
    (parse other w d = .ok settings ↔
      EachAfter (Findable w d) (placed (Listing.parse other).statements)) ∧
    ∀ settings', parse other w d = .ok settings' → settings' = settings := by
  obtain ⟨readable, fine, roles, freeram⟩ := exists_parse_iff.mp ⟨settings, accepted⟩
  have unique (settings' : Settings) (again : parse other w d = .ok settings') : settings' = settings :=
    (parse_congr same accepted again).symm
  refine ⟨fun p member => ?_, ⟨fun again => ?_, fun findable => ?_⟩, unique⟩
  · obtain ⟨q, there, alike⟩ := exists_mem_of_map_eq (map_said_congr same.settled) member
    obtain ⟨before, after, split⟩ := List.append_of_mem there
    obtain ⟨directives, read, -⟩ := (fine.items before q after split).bytes
    exact (Placed.said_inj.mp alike).2.2.2 ▸ isFile_of_directives read
  · obtain ⟨-, fine', -⟩ := exists_parse_iff.mp ⟨settings, again⟩
    exact (fine.respelled same.settled).mp fine'
  · have fine' := (fine.respelled same.settled).mpr findable
    have counts := count_congr same.settled
    obtain ⟨settings', again⟩ := exists_parse_iff.mpr ⟨same.readable.mp readable, fine',
      fun role => counts (.file role) ▸ roles role, counts .freeram ▸ freeram⟩
    exact unique settings' again ▸ again

/-- Through a directory that is there, a detour is a spelling like any other. -/
theorem parse_respelling_detour :
    let list (item : String) :=
      "global: g\nstatusbar: s\nmacrolib: m\nfreeram: $7F0000\nlevel:\n5 " ++ item ++ "\n"
    let level := Location.root.child "level"
    let d : Disk := Disk.empty.insert level .directory |>.insert (level.child "x") .directory
      |>.insert (level.child "a.asm") (.file ByteArray.empty)
    ∃ settings, Respelling (list "a.asm") (list "x/.././a.asm") ∧
      parse (list "a.asm") ⟨⟨""⟩, []⟩ d = .ok settings ∧
      parse (list "x/.././a.asm") ⟨⟨""⟩, []⟩ d = .ok settings := by
  intro list level d
  have same : Respelling (list "a.asm") (list "x/.././a.asm") :=
    ⟨by decide +kernel, by decide +kernel⟩
  have accepted : (parse (list "a.asm") ⟨⟨""⟩, []⟩ d).isOk = true := by decide +kernel
  cases result : parse (list "a.asm") ⟨⟨""⟩, []⟩ d with
  | error faults =>
    rw [result] at accepted
    cases accepted
  | ok settings =>
    obtain ⟨-, spelled, -⟩ := parse_respelling same result
    refine ⟨settings, same, rfl, spelled.mpr ?_⟩
    let item : Placed := ⟨.level, .index 5, ⟨"x/.././a.asm", [], ⟨61, 73⟩⟩⟩
    have items : placed (Listing.parse (list "x/.././a.asm")).statements = [] ++ [item] := by decide +kernel
    rw [items, EachAfter.concat_iff]
    refine ⟨EachAfter.nil, Or.inl ⟨level.child "a.asm", ?_⟩⟩
    decide +kernel

/-- Through a directory that is not there, a path is refused that has the normal form of an accepted one, unless
the list has it in its normal form before. -/
theorem detour_refused :
    let list (items : String) := "global: g\nstatusbar: s\nmacrolib: m\nfreeram: $7F0000\nlevel:\n" ++ items
    let level := Location.root.child "level"
    let d : Disk := Disk.empty.insert level .directory
      |>.insert (level.child "a.asm") (.file ByteArray.empty)
    let accepts (items : String) := (parse (list items) ⟨⟨""⟩, []⟩ d).isOk
    Respelling (list "5 a.asm\n") (list "5 x/../a.asm\n") ∧
      accepts "5 a.asm\n" = true ∧ accepts "5 x/../a.asm\n" = false ∧
      accepts "0 a.asm\n5 x/../a.asm\n" = true := by
  refine ⟨⟨?_, ?_⟩, ?_, ?_, ?_⟩ <;> decide +kernel

end Settings
end RomLinker
