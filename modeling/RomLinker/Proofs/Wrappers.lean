import RomLinker.Proofs.Disk.Normal
import RomLinker.Proofs.Settings.Complete

/-!
Paths inside generated sources. No token that names a file has a quote or a line feed in its path, and no
step from there to the file of a resource puts one in (`quotable_name`). So the source around a resource is
two lines with one path in quotes on each of them, and the file can be read back from it (`wrappers_sealed`).
-/
namespace RomLinker

/-- A text that can stand between two quotes on one line. -/
def Quotable (s : String) : Prop := '"' ∉ s.toList ∧ '\n' ∉ s.toList

instance (s : String) : Decidable (Quotable s) := inferInstanceAs (Decidable (_ ∧ _))

theorem Text.count_intercalate {c : Char} {ps : List (List Char)} (plain : ∀ p ∈ ps, c ∉ p)
    (filled : ps ≠ []) : ([c].intercalate ps).count c + 1 = ps.length := by
  induction ps with
  | nil => exact absurd rfl filled
  | cons p ps ih =>
    obtain ⟨here, below⟩ := List.forall_mem_cons.mp plain
    have none : p.count c = 0 := List.count_eq_zero_of_not_mem here
    cases ps with
    | nil => simp [none]
    | cons q ps =>
      have rest := ih below (by simp)
      rw [List.intercalate_cons_cons, List.count_append, List.count_append, none, List.count_singleton_self,
        List.length_cons, ← rest]
      omega

namespace Path
variable {p q : Path} {c : Char} {segments : List String}

theorem mem_follow {way : List Component} {step x : Component} (member : x ∈ follow way step) :
    x ∈ way ∨ x = step := by
  unfold follow at member
  split at member
  · exact Or.inl member
  · split at member
    · exact Or.inl (List.mem_cons_of_mem _ member)
    · exact Or.inl member
    · exact (List.mem_cons.mp member).symm
  · exact (List.mem_cons.mp member).symm

theorem mem_normalComponents {steps : List Component} {x : Component}
    (member : x ∈ normalComponents steps) : x ∈ steps := by
  have follows (way : List Component) : x ∈ steps.foldl follow way → x ∈ way ∨ x ∈ steps := by
    clear member
    induction steps generalizing way with
    | nil => exact Or.inl
    | cons step rest ih =>
      intro held
      rcases ih (follow way step) held with here | later
      · rcases mem_follow here with old | rfl
        · exact Or.inl old
        · exact Or.inr List.mem_cons_self
      · exact Or.inr (List.mem_cons_of_mem step later)
  exact (follows [] (List.mem_reverse.mp member)).resolve_left List.not_mem_nil

theorem text_of_segment {s : String} {x : Component} (step : componentOfSegment s = some x) : x.text = s := by
  unfold componentOfSegment at step
  split at step
  · cases step
  · split at step
    · rename_i up
      cases step
      exact (eq_of_beq up).symm
    · cases step
      rfl

theorem mem_text_of_mem_segments {s : String} (part : s ∈ p.segments) (member : c ∈ s.toList) :
    c ∈ p.text.toList := by
  obtain ⟨piece, cut, rfl⟩ := List.mem_map.mp part
  rw [String.toList_ofList] at member
  exact (Text.infix_of_mem_pieces cut).subset member

theorem mem_text_of_mem_components {x : Component} (part : x ∈ p.components) (member : c ∈ x.text.toList) :
    c ∈ p.text.toList := by
  rcases List.mem_append.mp part with lead | body
  · obtain ⟨s, inside, rfl⟩ := List.mem_map.mp lead
    have own : s ∈ p.segments := leadAndBody_append p ▸ List.mem_append_left _ inside
    split at member
    · rename_i dot
      exact mem_text_of_mem_segments own (eq_of_beq dot ▸ member)
    · cases member
  · obtain ⟨s, inside, step⟩ := List.mem_filterMap.mp body
    have own : s ∈ p.segments := leadAndBody_append p ▸ List.mem_append_right _ inside
    exact mem_text_of_mem_segments own (text_of_segment step ▸ member)

theorem mem_ofComponents {steps : List Component} (member : c ∈ (ofComponents steps).text.toList) :
    c = '/' ∨ ∃ x ∈ steps, c ∈ x.text.toList := by
  have joined {xs : List Component} (member : c ∈ (joinSegments (xs.map Component.text)).toList) :
      c = '/' ∨ ∃ x ∈ xs, c ∈ x.text.toList := by
    rcases mem_joinSegments member with slash | ⟨s, inside, held⟩
    · exact Or.inl slash
    · obtain ⟨x, part, rfl⟩ := List.mem_map.mp inside
      exact Or.inr ⟨x, part, held⟩
  unfold ofComponents at member
  split at member
  · rename_i steps
    rw [String.toList_append, List.mem_append] at member
    rcases member with slash | below
    · exact Or.inl (by simpa using slash)
    · rcases joined below with slash | ⟨x, part, held⟩
      · exact Or.inl slash
      · exact Or.inr ⟨x, List.mem_cons_of_mem _ part, held⟩
  · exact joined member

theorem mem_normal (member : c ∈ p.normal.text.toList) : c = '/' ∨ c ∈ p.text.toList := by
  rcases mem_ofComponents member with slash | ⟨x, part, held⟩
  · exact Or.inl slash
  · exact Or.inr (mem_text_of_mem_components (mem_normalComponents part) held)

theorem mem_join (member : c ∈ (p.join q).text.toList) :
    c = '/' ∨ c ∈ p.text.toList ∨ c ∈ q.text.toList := by
  unfold join at member
  split at member
  · exact Or.inr (Or.inr member)
  · split at member
    · rw [String.toList_append, List.mem_append] at member
      exact Or.inr member
    · rw [String.toList_append, String.toList_append, List.mem_append, List.mem_append] at member
      rcases member with (front | slash) | behind
      · exact Or.inr (Or.inl front)
      · exact Or.inl (by simpa using slash)
      · exact Or.inr (Or.inr behind)

end Path

namespace Listing
variable {source : String} {t : Token} {s : Statement} {path : String} {ts : List Token}

theorem quote_notMem_of_fits {kind : TokenKind} {text behind : List Char}
    (fits : PieceKind.Fits (.token kind) text behind) (bare : kind = .word ∨ kind = .number) : '"' ∉ text := by
  have word : Rule.Accepts (.token .word) text := by
    rcases bare with rfl | rfl
    · exact Longest.accepts fits
    · exact accepts_word_of_number (Longest.accepts fits)
  intro quote
  cases word.2 '"' quote

theorem quotable_of_names (member : .token t ∈ lexemes source) (names : t.Names path) : Quotable path := by
  obtain ⟨kind', behind, fits, same⟩ := fits_of_mem member
  have line : '\n' ∈ t.text.toList → t.kind = .newline := by
    intro feed
    have newline := PieceKind.token.inj (newline_of_fits fits feed).1
    rcases same with same | ⟨word, -⟩
    · rw [← same, newline]
    · cases newline.symm.trans word
  cases names with
  | bare kind =>
    constructor
    · rcases same with rfl | ⟨rfl, -⟩
      · exact quote_notMem_of_fits fits kind
      · exact quote_notMem_of_fits fits (Or.inl rfl)
    · intro feed
      rw [line feed] at kind
      rcases kind with kind | kind <;> cases kind
  | quoted _ kind text plain =>
    refine ⟨plain, fun feed => ?_⟩
    have inside : '\n' ∈ t.text.toList := by
      rw [text]
      simp [feed]
    cases kind.symm.trans (line inside)

theorem files_of_spells {P : String → Prop} (spells : Spells ts s)
    (tokens : ∀ t ∈ ts, ∀ path, t.Names path → P path) : ∀ item ∈ s.items, P item.file := by
  have files {first : Token} {rest : List Token} {found : List Item} (files : Files rest found)
      (tokens : ∀ t ∈ first :: rest, ∀ path, t.Names path → P path) : ∀ item ∈ found, P item.file :=
    files.all (fun _ _ _ _ here => here) fun t member => tokens t (List.mem_cons_of_mem first member)
  cases spells with
  | aggregate star ts items last first named ends => exact files named tokens
  | slot t index ts items last value fits named ends => exact files named tokens
  | _ => exact nofun

theorem quotable_item (member : s ∈ (parse source).statements) : ∀ item ∈ s.items, Quotable item.file := by
  obtain ⟨ts, spells, tokens⟩ := exists_spells member
  exact files_of_spells spells fun t inside path names => quotable_of_names (tokens t inside) names

end Listing

namespace Settings
open Listing

theorem exists_of_mem_placedFrom {section? : Option ContextKind} {statements : List Statement} {p : Placed}
    (member : p ∈ placedFrom section? statements) : ∃ s ∈ statements, p.item ∈ s.items := by
  induction statements generalizing section? with
  | nil => cases member
  | cons s rest ih =>
    rcases List.mem_append.mp member with here | later
    · exact ⟨s, List.mem_cons_self, item_mem_of_placedIn here⟩
    · obtain ⟨t, inside, item⟩ := ih later
      exact ⟨t, List.mem_cons_of_mem s inside, item⟩

/-- The path of a resource can stand in quotes: the directory of the section and the normal form add
nothing to the path of the item that could not. -/
theorem quotable_name {source : String} {p : Placed} (member : p ∈ placed (Listing.parse source).statements) :
    Quotable p.name.text := by
  obtain ⟨s, inside, item⟩ := exists_of_mem_placedFrom member
  obtain ⟨quote, feed⟩ := quotable_item inside p.item item
  have plain : '"' ∉ p.kind.directory.toList ∧ '\n' ∉ p.kind.directory.toList := by
    cases p.kind <;> decide
  have absent {c : Char} (slash : c ≠ '/') (kind : c ∉ p.kind.directory.toList)
      (item : c ∉ p.item.file.toList) : c ∉ p.name.text.toList := by
    intro held
    rw [← Placed.normal_file] at held
    rcases Path.mem_normal held with here | held
    · exact slash here
    · rcases Path.mem_join held with here | held | held
      · exact slash here
      · exact kind held
      · exact item held
  exact ⟨absent (by decide) plain.1 quote, absent (by decide) plain.2 feed⟩

end Settings

/-! ### Sources around resources -/

namespace Resource
variable {r q : Resource}

/-- The file that the source around a resource names: what stands between its last two quotes. -/
def namedFile? (wrapper : String) : Option Path :=
  (Text.pieces (· == '"') wrapper.toList)[3]?.map fun text => ⟨String.ofList text⟩

theorem quotable_slashed {p : Path} (quotable : Quotable p.text) : Quotable p.slashed := by
  have absent {c : Char} (slash : c ≠ '/') (plain : c ∉ p.text.toList) : c ∉ p.slashed.toList := by
    intro held
    rw [Path.slashed, String.toList_ofList, List.mem_map] at held
    obtain ⟨x, member, turned⟩ := held
    split at turned
    · exact slash turned.symm
    · exact plain (turned ▸ member)
  exact ⟨absent (by decide) quotable.1, absent (by decide) quotable.2⟩

def stretches (r : Resource) : List (List Char) :=
  ["incsrc ".toList, "../base/resource_template.asm".toList, '\n' :: "%UberResource(".toList,
    r.file.slashed.toList, ", ".toList ++ ((flagText r.directives.setsDataBank).toList ++ [')', '\n'])]

theorem wrapper_eq (r : Resource) : r.wrapper.toList = ['"'].intercalate r.stretches := by
  unfold wrapper stretches
  generalize r.file.slashed = file
  generalize flagText r.directives.setsDataBank = flag
  simp only [toString, String.toList_append, List.append_assoc, List.intercalate_cons_cons,
    List.intercalate_singleton]
  rfl

theorem lines_wrapper (r : Resource) : r.wrapper.toList =
    ("incsrc ".toList ++ '"' :: "../base/resource_template.asm".toList ++ ['"']) ++ '\n' ::
      (("%UberResource(".toList ++ '"' :: r.file.slashed.toList ++ '"' :: ", ".toList ++
        (flagText r.directives.setsDataBank).toList ++ [')']) ++ ['\n']) := by
  rw [wrapper_eq, stretches]
  simp only [List.intercalate_cons_cons, List.intercalate_singleton, List.append_assoc, List.cons_append,
    List.nil_append]

/-- A source that holds a path and is closed around it: two lines, and two pairs of quotes with the path in
the second. -/
structure Seals (wrapper : String) (path : List Char) : Prop where
  quotes : wrapper.toList.count '"' = 4
  feeds : wrapper.toList.count '\n' = 2
  lines : ∃ first second, wrapper.toList = first ++ '\n' :: (second ++ ['\n']) ∧
    '\n' ∉ first ∧ '\n' ∉ second
  last : (Text.pieces (· == '"') wrapper.toList)[3]? = some path

theorem quotable_flagText (on : Bool) : Quotable (flagText on) := by
  cases on <;> decide

theorem quote_notMem_stretches (quotable : Quotable r.file.text) : ∀ s ∈ r.stretches, '"' ∉ s := by
  have file := (quotable_slashed quotable).1
  have flag := (quotable_flagText r.directives.setsDataBank).1
  have texts : '"' ∉ "incsrc ".toList ∧ '"' ∉ "../base/resource_template.asm".toList ∧
      '"' ∉ '\n' :: "%UberResource(".toList ∧ '"' ∉ ", ".toList ∧ '"' ∉ [')', '\n'] := by
    decide
  obtain ⟨included, template, call, comma, closed⟩ := texts
  simp only [stretches, List.forall_mem_cons, List.mem_append, not_or]
  exact ⟨included, template, call, file, ⟨comma, flag, closed⟩, nofun⟩

theorem seals_wrapper (quotable : Quotable r.file.text) :
    Seals r.wrapper (r.file.text.toList.map fun c => if c = '\\' then '/' else c) := by
  have plain := quote_notMem_stretches quotable
  obtain ⟨first, second, split, one, other⟩ : ∃ first second,
      r.wrapper.toList = first ++ '\n' :: (second ++ ['\n']) ∧ '\n' ∉ first ∧ '\n' ∉ second := by
    have file := (quotable_slashed quotable).2
    have flag := (quotable_flagText r.directives.setsDataBank).2
    exact ⟨_, _, lines_wrapper r, by decide, by simp [file, flag]⟩
  constructor
  · have count := Text.count_intercalate plain (by simp [stretches])
    rw [← wrapper_eq] at count
    exact Nat.succ.inj count
  · rw [split, List.count_append, List.count_cons_self, List.count_append, List.count_eq_zero_of_not_mem one,
      List.count_eq_zero_of_not_mem other]
    rfl
  · exact ⟨first, second, split, one, other⟩
  · rw [wrapper_eq, Text.pieces_intercalate plain (by simp [stretches])]
    simp [stretches, Path.slashed]

/-- The file is read back from the source where no slash of it was turned. -/
theorem namedFile?_wrapper (quotable : Quotable r.file.text) (straight : '\\' ∉ r.file.text.toList) :
    namedFile? r.wrapper = some r.file := by
  have same : r.file.text.toList.map (fun c => if c = '\\' then '/' else c) = r.file.text.toList := by
    refine (List.map_congr_left fun c member => ?_).trans (List.map_id _)
    exact if_neg (ne_of_mem_of_not_mem member straight)
  rw [namedFile?, (seals_wrapper quotable).last, same]
  simp

end Resource

namespace Settings
open Listing
variable {source : String} {w : Workspace} {d : Disk} {settings : Settings} {r q : Resource}

theorem exists_placed_of_mem (accepted : parse source w d = .ok settings)
    (member : r ∈ settings.resources.resources) :
    ∃ p ∈ placed (Listing.parse source).statements, r.file = p.file.normal := by
  have mentioned := (holds_of_parse accepted).mentions.mem_iff.mp ⟨r, member, rfl⟩
  obtain ⟨p, inside, same⟩ := List.mem_map.mp mentioned
  exact ⟨p, inside, same.symm.trans p.normal_file.symm⟩

theorem quotable_file (accepted : parse source w d = .ok settings) (member : r ∈ settings.resources.resources) :
    Quotable r.file.text := by
  obtain ⟨p, inside, same⟩ := exists_placed_of_mem accepted member
  rw [same, p.normal_file]
  exact quotable_name inside

/-- No path of a list breaks out of the source that is generated around it. In an accepted list every resource
is the normal file of an item, and the source around it is two lines with four quotes, of which the last two
enclose that file with its slashes turned. So where a path has no backslash it is read back from the source,
and then two resources never have one source. -/
theorem wrappers_sealed (accepted : parse source w d = .ok settings) :
    (∀ r ∈ settings.resources.resources,
      (∃ p ∈ placed (Listing.parse source).statements, r.file = p.file.normal) ∧
        Resource.Seals r.wrapper (r.file.text.toList.map fun c => if c = '\\' then '/' else c) ∧
        ('\\' ∉ r.file.text.toList → Resource.namedFile? r.wrapper = some r.file)) ∧
    ∀ r ∈ settings.resources.resources, ∀ q ∈ settings.resources.resources,
      '\\' ∉ r.file.text.toList → '\\' ∉ q.file.text.toList → r.wrapper = q.wrapper → r = q := by
  constructor
  · intro r member
    have quotable := quotable_file accepted member
    exact ⟨exists_placed_of_mem accepted member, Resource.seals_wrapper quotable,
      Resource.namedFile?_wrapper quotable⟩
  · intro r member q member' straight straight' same
    have here := Resource.namedFile?_wrapper (quotable_file accepted member) straight
    have there := Resource.namedFile?_wrapper (quotable_file accepted member') straight'
    have files : r.file = q.file := by
      rw [same, there] at here
      exact (Option.some.inj here).symm
    have distinct := (holds_of_parse accepted).mentions.nodup_files
    exact List.inj_on_of_nodup_map distinct member member' files

/-- Of a list with a bare path and a quoted one that has a blank. -/
theorem wrappers_sealed_two :
    let source := "global: g\nstatusbar: s\nmacrolib: m\nfreeram: $7F0000\nlevel:\n5 a.asm \"b c.asm\"\n"
    let level : Location := Location.root.child "level"
    let d : Disk := Disk.empty.insert level .directory
      |>.insert (level.child "a.asm") (.file "".toUTF8) |>.insert (level.child "b c.asm") (.file "".toUTF8)
    ∃ settings r q, parse source ⟨⟨""⟩, []⟩ d = .ok settings ∧ settings.resources.resources = [r, q] ∧
      r.file = ⟨"level/a.asm"⟩ ∧ Resource.namedFile? q.wrapper = some ⟨"level/b c.asm"⟩ ∧
      r.wrapper ≠ q.wrapper := by
  intro source level d
  have files : (parse source ⟨⟨""⟩, []⟩ d).toOption.map (·.resources.resources.map (·.file)) =
      some [⟨"level/a.asm"⟩, ⟨"level/b c.asm"⟩] := by decide +kernel
  cases accepted : parse source ⟨⟨""⟩, []⟩ d with
  | error faults =>
    rw [accepted] at files
    cases files
  | ok settings =>
    rw [accepted] at files
    obtain ⟨sealed, distinct⟩ := wrappers_sealed accepted
    obtain ⟨r, rest, both, first, listed⟩ := List.map_eq_cons_iff.mp (Option.some.inj files)
    obtain ⟨q, rest, split, second, none⟩ := List.map_eq_cons_iff.mp listed
    rw [split, List.map_eq_nil_iff.mp none] at both
    have here : r ∈ settings.resources.resources := by simp [both]
    have there : q ∈ settings.resources.resources := by simp [both]
    have straight : '\\' ∉ r.file.text.toList := by
      rw [first]
      decide
    have straight' : '\\' ∉ q.file.text.toList := by
      rw [second]
      decide
    refine ⟨settings, r, q, rfl, both, first, ?_, fun same => ?_⟩
    · rw [← second]
      exact (sealed q there).2.2 straight'
    · have one := distinct r here q there straight straight' same
      rw [one, second] at first
      revert first
      decide

end Settings

end RomLinker
