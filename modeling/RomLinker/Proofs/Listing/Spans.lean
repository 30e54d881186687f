import RomLinker.Proofs.Listing.Spelling
import RomLinker.Proofs.Listing.Tiling

/-!
Where the parts of a list stand. Every span that comes out of a list can be cut out of its source
(`Span.Within`): those of a statement are joined from lexemes of its line (`spans_of_spells`), and that of a
fault is the span of a lexeme or of what ends the line (`points_statement?`). Lines do not overlap, and so
neither do statements.
-/
namespace RomLinker

/-- A span that can be cut out of a text. -/
structure Span.Within (s : Span) (source : String) : Prop where
  ordered : s.start ≤ s.stop
  inside : s.stop ≤ source.utf8ByteSize
  starts : String.Pos.Raw.IsValid source ⟨s.start⟩
  stops : String.Pos.Raw.IsValid source ⟨s.stop⟩

structure Span.Inside (s t : Span) : Prop where
  start : t.start ≤ s.start
  stop : s.stop ≤ t.stop

namespace Listing

def Statement.span : Statement → Span
  | .verbose _ span | .rom _ span | .file _ _ span | .freeram _ span | .header _ span | .slot _ _ _ span => span

def Statement.items : Statement → List Item
  | .slot _ _ items _ => items
  | _ => []

def Statement.spans : Statement → List Span
  | .slot _ slotSpan items span => span :: slotSpan :: items.map Item.span
  | s => [s.span]

/-- What holds of two spans and of the smallest span that covers both. -/
def Joins (P : Span → Prop) : Prop := ∀ a b, P a → P b → P (a.join b)

theorem joins_within (source : String) : Joins (Span.Within · source) := by
  intro a b first second
  have ordered₁ := first.ordered
  have ordered₂ := second.ordered
  refine ⟨?_, ?_, ?_, ?_⟩
  · simp only [Span.join]
    omega
  · exact Nat.max_le.mpr ⟨first.inside, second.inside⟩
  · change String.Pos.Raw.IsValid source ⟨min a.start b.start⟩
    rcases Nat.le_total a.start b.start with le | le
    · rw [Nat.min_eq_left le]
      exact first.starts
    · rw [Nat.min_eq_right le]
      exact second.starts
  · change String.Pos.Raw.IsValid source ⟨max a.stop b.stop⟩
    rcases Nat.le_total a.stop b.stop with le | le
    · rw [Nat.max_eq_right le]
      exact second.stops
    · rw [Nat.max_eq_left le]
      exact first.stops

theorem joins_inside (whole : Span) : Joins (Span.Inside · whole) := by
  intro a b first second
  exact ⟨Nat.le_min.mpr ⟨first.start, second.start⟩, Nat.max_le.mpr ⟨first.stop, second.stop⟩⟩

/-! ### Spans of statements -/

section
variable {P : Span → Prop} {t : Token} {ts : List Token} {item : Item} {found : List Item} {s : Statement}

theorem spans_of_files (joins : Joins P) (files : Files ts found) (rest : ∀ t ∈ ts, P t.span) :
    ∀ item ∈ found, P item.span :=
  files.all (fun t member _ _ here => joins _ _ here (rest t member)) fun t member _ _ => rest t member

/-- What holds of the tokens of a statement holds of its spans. -/
theorem spans_of_spells (joins : Joins P) (spells : Spells ts s) (tokens : ∀ t ∈ ts, P t.span) :
    ∀ span ∈ s.spans, P span := by
  have slotLine {slot : SlotKey} {first : Token} {rest : List Token} {last : Item}
      {found : List Item} (tokens : ∀ t ∈ first :: rest, P t.span) (files : Files rest found)
      (ends : found.getLast? = some last) :
      ∀ span ∈ (Statement.slot slot first.span found (first.span.join last.span)).spans, P span := by
    have head := tokens first List.mem_cons_self
    have items := spans_of_files joins files fun t member => tokens t (List.mem_cons_of_mem first member)
    intro span member
    rcases List.mem_cons.mp member with rfl | member
    · exact joins _ _ head (items last (List.mem_of_getLast? ends))
    · rcases List.mem_cons.mp member with rfl | member
      · exact head
      · obtain ⟨item, inside, rfl⟩ := List.mem_map.mp member
        exact items item inside
  have argument {command t : Token} (tokens : ∀ u ∈ [command, t], P u.span) :
      ∀ span ∈ [command.span.join t.span], P span := by
    intro span member
    rw [List.mem_singleton.mp member]
    exact joins _ _ (tokens command List.mem_cons_self) (tokens t (List.mem_cons_of_mem _ List.mem_cons_self))
  cases spells with
  | verbose command t on first kind text => exact argument tokens
  | rom command t path first named => exact argument tokens
  | file role command t path first named => exact argument tokens
  | freeram command t address first value fits => exact argument tokens
  | header context command first =>
    intro span member
    rw [List.mem_singleton.mp member]
    exact tokens command List.mem_cons_self
  | aggregate star ts items last first files ends => exact slotLine tokens files ends
  | slot t index ts items last value fits files ends => exact slotLine tokens files ends

def InOrder (spans : List Span) : Prop :=
  spans.Pairwise (fun a b => a.stop ≤ b.start) ∧ ∀ a ∈ spans, a.start ≤ a.stop

theorem inOrder_cons {a : Span} {spans : List Span} :
    InOrder (a :: spans) ↔ a.start ≤ a.stop ∧ (∀ b ∈ spans, a.stop ≤ b.start) ∧ InOrder spans := by
  simp only [InOrder, List.pairwise_cons, List.forall_mem_cons]
  constructor
  · rintro ⟨⟨behind, apart⟩, filled, all⟩
    exact ⟨filled, behind, apart, all⟩
  · rintro ⟨filled, behind, apart, all⟩
    exact ⟨⟨behind, apart⟩, filled, all⟩

theorem InOrder.stop_le {spans : List Span} (ordered : InOrder spans) {last : Span}
    (ends : spans.getLast? = some last) : ∀ a ∈ spans, a.stop ≤ last.stop := by
  obtain ⟨front, rfl⟩ := List.getLast?_eq_some_iff.mp ends
  intro a member
  rcases List.mem_append.mp member with earlier | here
  · have apart := (List.pairwise_append.mp ordered.1).2.2 a earlier last List.mem_cons_self
    have filled := ordered.2 last (List.mem_append_right _ List.mem_cons_self)
    omega
  · rw [List.mem_singleton.mp here]

theorem inOrder_of_continues (continues : Continues item ts found)
    (ordered : InOrder (item.span :: ts.map Token.span)) :
    InOrder (found.map Item.span) ∧ ∀ other ∈ found, item.span.start ≤ other.span.start := by
  induction continues with
  | done item => exact ⟨ordered, by simp⟩
  | byte item t byte ts found value _ ih =>
    obtain ⟨filled, behind, tokens⟩ := inOrder_cons.mp ordered
    obtain ⟨long, later, rest⟩ := inOrder_cons.mp tokens
    have next := behind t.span List.mem_cons_self
    have start : (item.span.join t.span).start = item.span.start := Nat.min_eq_left (by omega)
    have stop : (item.span.join t.span).stop = t.span.stop := Nat.max_eq_right (by omega)
    have joined : InOrder (item.span.join t.span :: ts.map Token.span) := by
      rw [inOrder_cons, start, stop]
      exact ⟨by omega, later, rest⟩
    have whole := ih joined
    rw [start] at whole
    exact whole
  | file item t path ts found later named _ ih =>
    obtain ⟨filled, behind, tokens⟩ := inOrder_cons.mp ordered
    have next := behind t.span List.mem_cons_self
    obtain ⟨rest, below⟩ := ih tokens
    constructor
    · rw [List.map_cons, inOrder_cons]
      refine ⟨filled, fun span member => ?_, rest⟩
      obtain ⟨other, inside, rfl⟩ := List.mem_map.mp member
      exact Nat.le_trans next (below other inside)
    · intro other member
      rcases List.mem_cons.mp member with rfl | member
      · exact Nat.le_refl _
      · have start := below other member
        dsimp only at start
        omega

theorem items_inside (spells : Spells ts s) (ordered : InOrder (ts.map Token.span)) :
    ∀ item ∈ s.items, item.span.Inside s.span := by
  have slotLine {first : Token} {rest : List Token} {found : List Item} {last : Item}
      (ordered : InOrder ((first :: rest).map Token.span)) (files : Files rest found)
      (ends : found.getLast? = some last) :
      ∀ item ∈ found, item.span.Inside (first.span.join last.span) := by
    cases files with
    | mk t path ts _ named continues =>
      obtain ⟨filled, behind, tokens⟩ := inOrder_cons.mp ordered
      have next := behind t.span List.mem_cons_self
      obtain ⟨items, below⟩ := inOrder_of_continues continues tokens
      intro item member
      have start := below item member
      have stop := items.stop_le (by rw [List.getLast?_map, ends]; rfl) item.span (List.mem_map_of_mem member)
      dsimp only at start
      exact ⟨Nat.le_trans (Nat.min_le_left _ _) (by omega), Nat.le_trans stop (Nat.le_max_right _ _)⟩
  cases spells with
  | aggregate star ts items last first files ends => exact slotLine ordered files ends
  | slot t index ts items last value fits files ends => exact slotLine ordered files ends
  | _ => exact fun item member => absurd member List.not_mem_nil

end

/-! ### Spans of faults -/

/-- A step that fails at a span of a kind, or else gives what it has to. -/
def Checked.Points {α : Type} (P : Span → Prop) (Q : α → Prop) : Checked α → Prop
  | .ok a => Q a
  | .error e => P e.span

section
variable {α β : Type} {P : Span → Prop} {stop first : Token} {line : List Lexeme}

theorem points_bind {Q : α → Prop} {R : β → Prop} {step : Checked α} {f : α → Checked β}
    (here : step.Points P Q) (rest : ∀ a, Q a → (f a).Points P R) : (step >>= f).Points P R := by
  cases step with
  | error e => exact here
  | ok a => exact rest a here

def Known (P : Span → Prop) (found : Token × List Lexeme) : Prop :=
  P found.1.span ∧ ∀ x ∈ found.2, P x.span

theorem points_next (ends : P stop.span) (all : ∀ x ∈ line, P x.span) :
    (next stop line).Points P (Known P) := by
  cases line with
  | nil => exact ⟨ends, all⟩
  | cons x rest =>
    have below : ∀ y ∈ rest, P y.span := fun y member => all y (List.mem_cons_of_mem x member)
    cases x with
    | token t => exact ⟨all _ List.mem_cons_self, below⟩
    | stray text span => exact all _ List.mem_cons_self

theorem points_nextPath (what : Needed) (ends : P stop.span) (all : ∀ x ∈ line, P x.span) :
    (nextPath what stop line).Points P (Known P) := by
  apply points_bind (points_next ends all)
  intro found known
  dsimp only
  split
  · exact known
  · exact known.1

theorem points_expectEnd (ends : P stop.span) (all : ∀ x ∈ line, P x.span) :
    (expectEnd stop line).Points P fun _ => True := by
  apply points_bind (points_next ends all)
  intro found known
  dsimp only
  split
  · trivial
  · exact known.1

theorem points_hex {t : Token} (here : P t.span) : t.hex.Points P fun _ => True := by
  rw [hex_eq]
  split
  · trivial
  · exact here

theorem points_byte {t : Token} (here : P t.span) : t.byte.Points P fun _ => True := by
  apply points_bind (points_hex here)
  intro value _
  split
  · exact here
  · trivial

theorem points_onOrOff {t : Token} (here : P t.span) : t.onOrOff.Points P fun _ => True := by
  unfold Token.onOrOff
  split
  · trivial
  · split
    · trivial
    · exact here

theorem points_ramAddress {t : Token} (here : P t.span) : t.ramAddress.Points P fun _ => True := by
  unfold Token.ramAddress
  split
  · apply points_bind (points_hex here)
    intro address _
    split
    · exact here
    · trivial
  · exact here

theorem points_items (done : List Item) (all : ∀ x ∈ line, P x.span) :
    (items done line).Points P fun _ => True := by
  induction line generalizing done with
  | nil => trivial
  | cons x rest ih =>
    have here := all x List.mem_cons_self
    have below : ∀ y ∈ rest, P y.span := fun y member => all y (List.mem_cons_of_mem x member)
    cases x with
    | stray text span => exact here
    | token t =>
      by_cases byte : t.IsByte done
      · obtain ⟨number, given⟩ := byte
        obtain ⟨item, before, rfl⟩ := List.exists_cons_of_ne_nil given
        rw [items_byte rest number]
        exact points_bind (points_byte here) fun byte _ => ih _ below
      · rw [items_file rest byte]
        split
        · exact ih _ below
        · exact here

theorem points_slotLine (slot : SlotKey) (here : P first.span) (all : ∀ x ∈ line, P x.span) :
    (slotLine slot first line).Points P fun _ => True := by
  apply points_bind (points_items [] all)
  intro found _
  cases found.getLast? with
  | none => exact here
  | some last => trivial

/-- A fault of a statement is at one of its lexemes or at what ends its line. -/
theorem points_statement (here : P first.span) (ends : P stop.span) (all : ∀ x ∈ line, P x.span) :
    (statement first line stop).Points P fun _ => True := by
  have finish (s : Statement) {rest : List Lexeme} (all : ∀ x ∈ rest, P x.span) :
      (expectEnd stop rest >>= fun _ => pure s).Points P fun _ => True :=
    points_bind (points_expectEnd ends all) fun _ _ => trivial
  cases kind : first.kind with
  | verbose =>
    rw [statement_verbose _ _ kind]
    apply points_bind (points_nextPath _ ends all)
    intro found known
    exact points_bind (points_onOrOff known.1) fun on _ => finish _ known.2
  | rom =>
    rw [statement, kind]
    exact points_bind (points_nextPath _ ends all) fun found known => finish _ known.2
  | file role =>
    rw [statement, kind]
    exact points_bind (points_nextPath _ ends all) fun found known => finish _ known.2
  | freeram =>
    rw [statement_freeram _ _ kind]
    apply points_bind (points_next ends all)
    intro found known
    exact points_bind (points_ramAddress known.1) fun address _ => finish _ known.2
  | context context =>
    rw [statement, kind]
    exact finish _ all
  | star =>
    rw [statement, kind]
    exact points_slotLine _ here all
  | number =>
    rw [statement, kind]
    exact points_bind (points_hex here) fun index _ => points_slotLine _ here all
  | newline | word | quoted | endOfFile =>
    rw [statement, kind]
    exact here

theorem points_statement? {l : Line} (ends : P l.ending.span) (all : ∀ x ∈ l.content, P x.span) :
    l.statement?.Points P fun _ => True := by
  unfold Line.statement?
  cases content : l.content with
  | nil => trivial
  | cons x rest =>
    rw [content] at all
    have here := all x List.mem_cons_self
    have below : ∀ y ∈ rest, P y.span := fun y member => all y (List.mem_cons_of_mem x member)
    cases x with
    | stray text span => exact here
    | token first =>
      have points : (statement first rest l.ending).Points P fun _ => True := points_statement here ends below
      dsimp only
      cases made : statement first rest l.ending with
      | error e =>
        rw [made] at points
        exact points
      | ok s => trivial

end

/-! ### Lines of a source -/

section
variable {source : String} {cs : List Char} {start : Nat} {l : Line} {x : Lexeme} {s : Statement}

theorem le_start_of_mem (member : l ∈ linesFrom start cs) : start ≤ l.start := by
  induction cs using lineInduction generalizing start with
  | line cs whole =>
    rw [linesFrom_line whole] at member
    rw [List.mem_singleton.mp member]
  | below cs rest whole ih =>
    rw [linesFrom_append whole] at member
    rcases List.mem_cons.mp member with rfl | member
    · exact Nat.le_refl _
    · have below := ih member
      omega

theorem pairwise_linesFrom (start : Nat) (cs : List Char) :
    (linesFrom start cs).Pairwise fun l m => l.stop < m.start := by
  induction cs using lineInduction generalizing start with
  | line cs whole =>
    rw [linesFrom_line whole]
    exact List.pairwise_singleton _ _
  | below cs rest whole ih =>
    rw [linesFrom_append whole, List.pairwise_cons]
    exact ⟨fun m member => le_start_of_mem member, ih _⟩

/-- Two lines of which none has a part of the other. -/
def Line.Beside (l m : Line) : Prop := l = m ∨ l.stop < m.start ∨ m.stop < l.start

theorem beside_of_mem {m : Line} (here : l ∈ linesFrom start cs) (there : m ∈ linesFrom start cs) :
    l.Beside m := by
  have ordered := pairwise_linesFrom start cs
  have down : (linesFrom start cs).Pairwise Line.Beside := ordered.imp fun before => Or.inr (Or.inl before)
  have up : (linesFrom start cs).Pairwise (flip Line.Beside) := ordered.imp fun before => Or.inr (Or.inr before)
  have self : ∀ l ∈ linesFrom start cs, l.Beside l := fun l _ => Or.inl rfl
  exact List.Pairwise.forall_of_forall_of_flip self down up here there

theorem stop_of_open (member : l ∈ linesFrom start cs) (last : l.closed = false) :
    l.stop = start + size cs := by
  induction cs using lineInduction generalizing start with
  | line cs whole =>
    rw [linesFrom_line whole] at member
    rw [List.mem_singleton.mp member]
    rfl
  | below cs rest whole ih =>
    rw [linesFrom_append whole] at member
    have feed : size ('\n' :: rest) = 1 + size rest := size_append ['\n'] rest
    rcases List.mem_cons.mp member with rfl | member
    · cases last
    · rw [ih member, size_append, feed]
      omega

theorem mem_lexemes_of_content (member : l ∈ lines source) (inside : x ∈ l.content) : x ∈ lexemes source :=
  List.mem_flatMap.mpr ⟨l, member, List.mem_append_left _ inside⟩

theorem filled_of_mem_content (inside : x ∈ l.content) : x.span.start ≤ x.span.stop := by
  rw [Line.content, lexemesFrom_eq] at inside
  obtain ⟨front, kind, text, back, -, found⟩ := mem_place.mp inside
  rw [(lexeme?_eq_some found).2.1]
  exact Nat.le_add_right _ _

theorem inside_of_mem_content (inside : x ∈ l.content) : x.span.Inside ⟨l.start, l.stop⟩ := by
  rw [Line.content, lexemesFrom_eq] at inside
  have bounds := bounds_of_mem_place inside
  rw [flatten_cover] at bounds
  exact ⟨bounds.1, bounds.2⟩

theorem isValid_size {before behind : List Char} (split : source.toList = before ++ behind) :
    String.Pos.Raw.IsValid source ⟨size before⟩ := by
  rw [String.Pos.Raw.isValid_iff_exists_append]
  refine ⟨String.ofList before, String.ofList behind, ?_, rfl⟩
  rw [← String.ofList_append, ← split, String.ofList_toList]

theorem within_point (source : String) : (Span.point source.utf8ByteSize).Within source := by
  have last : String.Pos.Raw.IsValid source ⟨source.utf8ByteSize⟩ := String.Pos.Raw.isValid_rawEndPos
  exact ⟨Nat.le_refl _, Nat.le_refl _, last, last⟩

theorem within_of_mem (member : x ∈ lexemes source) : x.span.Within source := by
  obtain ⟨y, before, behind, stands, alike⟩ := stands_of_mem member
  have same : x.span = y.span := by rcases alike with rfl | ⟨_, _, rfl, rfl⟩ <;> rfl
  have split := stands.source
  have whole := size_toList source
  rw [split, size_append, size_append] at whole
  rw [same, stands.span]
  refine ⟨?_, ?_, ?_, ?_⟩
  · exact Nat.le_add_right _ _
  · dsimp only
    omega
  · rw [List.append_assoc] at split
    exact isValid_size split
  · dsimp only
    rw [← size_append]
    exact isValid_size split

theorem within_ending (member : l ∈ lines source) : l.ending.span.Within source := by
  cases closed : l.closed with
  | true =>
    have there : .token l.ending ∈ lexemes source := by
      refine List.mem_flatMap.mpr ⟨l, member, List.mem_append_right _ ?_⟩
      rw [if_pos closed]
      exact List.mem_cons_self
    exact within_of_mem there
  | false =>
    have stop := stop_of_open member closed
    rw [Nat.zero_add, size_toList] at stop
    rw [Line.ending, closed, stop]
    exact within_point source

theorem mem_statements : s ∈ (parse source).statements ↔ ∃ l ∈ lines source, l.statement? = .ok (some s) := by
  rw [parse_statements, List.mem_filterMap]
  constructor
  · rintro ⟨l, member, said⟩
    refine ⟨l, member, ?_⟩
    rcases same : l.statement? with e | _ | t <;> rw [same] at said <;> cases said
    rfl
  · rintro ⟨l, member, said⟩
    refine ⟨l, member, ?_⟩
    rw [said]
    rfl

theorem mem_faults_collect {ls : List Line} {e : Flagged Fault} :
    e ∈ (collect ls).faults ↔ ∃ l ∈ ls, l.statement? = .error e := by
  induction ls with
  | nil => simp [collect, Parsed.empty]
  | cons l ls ih =>
    have here : e ∈ l.parsed.faults ↔ l.statement? = .error e := by
      unfold Line.parsed
      rcases l.statement? with e' | _ | s
      · simp [Parsed.ofFault, eq_comm]
      · simp [Parsed.empty]
      · simp [Parsed.ofStatement]
    simp only [List.mem_cons, exists_eq_or_imp]
    exact List.mem_append.trans (or_congr here ih)

theorem spans_inside_line (said : l.statement? = .ok (some s)) :
    ∀ span ∈ s.spans, span.Inside ⟨l.start, l.stop⟩ := by
  obtain ⟨ts, content, spells⟩ := (statement?_eq_some l s).mp said
  refine spans_of_spells (joins_inside _) spells fun t member => ?_
  have inside : .token t ∈ l.content := by
    rw [content]
    exact List.mem_map_of_mem member
  exact inside_of_mem_content inside

theorem span_mem_spans (s : Statement) : s.span ∈ s.spans := by
  cases s <;> exact List.mem_cons_self

theorem item_span_mem_spans {item : Item} (member : item ∈ s.items) : item.span ∈ s.spans := by
  cases s with
  | slot slot slotSpan items span =>
    exact List.mem_cons_of_mem _ (List.mem_cons_of_mem _ (List.mem_map_of_mem member))
  | _ => cases member

theorem start_of_mem_faults {e : Flagged Fault} (failed : l.statement? = .error e) :
    l.start ≤ e.span.start ∧ e.span.start ≤ l.stop := by
  have ending : l.ending.span.start = l.stop := by
    unfold Line.ending
    split <;> rfl
  have points : l.statement?.Points (fun span => l.start ≤ span.start ∧ span.start ≤ l.stop) fun _ => True := by
    apply points_statement?
    · rw [ending]
      exact ⟨Nat.le_add_right _ _, Nat.le_refl _⟩
    · intro x inside
      have part := inside_of_mem_content inside
      exact ⟨part.start, Nat.le_trans (filled_of_mem_content inside) part.stop⟩
  rw [failed] at points
  exact points

theorem exists_spells (member : s ∈ (parse source).statements) :
    ∃ ts, Spells ts s ∧ ∀ t ∈ ts, .token t ∈ lexemes source := by
  obtain ⟨l, line, said⟩ := mem_statements.mp member
  obtain ⟨ts, content, spells⟩ := (statement?_eq_some l s).mp said
  refine ⟨ts, spells, fun t inside => mem_lexemes_of_content line ?_⟩
  rw [content]
  exact List.mem_map_of_mem inside

theorem spans_within (member : s ∈ (parse source).statements) : ∀ span ∈ s.spans, span.Within source := by
  obtain ⟨ts, spells, tokens⟩ := exists_spells member
  exact spans_of_spells (joins_within source) spells fun t inside => within_of_mem (tokens t inside)

theorem faults_within {e : Flagged Fault} (member : e ∈ (parse source).faults) : e.span.Within source := by
  rw [parse_eq_collect] at member
  obtain ⟨l, line, failed⟩ := mem_faults_collect.mp member
  have points : l.statement?.Points (Span.Within · source) fun _ => True :=
    points_statement? (within_ending line) fun x inside => within_of_mem (mem_lexemes_of_content line inside)
  rw [failed] at points
  exact points

theorem items_within_statement (member : s ∈ (parse source).statements) :
    ∀ item ∈ s.items, item.span.Inside s.span := by
  obtain ⟨l, -, said⟩ := mem_statements.mp member
  obtain ⟨ts, content, spells⟩ := (statement?_eq_some l s).mp said
  have apart : l.content.Pairwise fun x y => x.span.stop ≤ y.span.start := by
    rw [Line.content, lexemesFrom_eq]
    exact pairwise_place _ _
  have filled : ∀ x ∈ l.content, x.span.start ≤ x.span.stop := fun x inside => filled_of_mem_content inside
  rw [content] at apart filled
  refine items_inside spells ⟨?_, ?_⟩
  · rw [List.pairwise_map] at apart ⊢
    exact apart
  · intro span member
    obtain ⟨t, inside, rfl⟩ := List.mem_map.mp member
    exact filled _ (List.mem_map_of_mem inside)

theorem pairwise_statements (source : String) :
    (parse source).statements.Pairwise fun s t => s.span.stop < t.span.start := by
  rw [parse_statements, List.pairwise_filterMap]
  refine (pairwise_linesFrom 0 source.toList).imp fun {l m} apart s here t below => ?_
  have line {l : Line} {s : Statement} (said : l.statement?.toOption.join = some s) :
      s.span.Inside ⟨l.start, l.stop⟩ := by
    refine spans_inside_line ?_ s.span (span_mem_spans s)
    rcases same : l.statement? with e | _ | t <;> rw [same] at said <;> cases said
    rfl
  have stop := (line here).stop
  have start := (line below).start
  dsimp only at stop start
  omega

/-- A line feed of a source is at the end of a line, and in none. -/
theorem feed_outside {i : Nat} (feed : newlineAt i ∈ lexemes source) (member : l ∈ lines source) :
    ¬ Span.Has ⟨l.start, l.stop⟩ i := by
  obtain ⟨m, line, inside⟩ := List.mem_flatMap.mp feed
  have stop : i = m.stop := by
    rcases List.mem_append.mp inside with content | ending
    · exact absurd rfl (formed_of_mem_content content).inside.1
    · split at ending
      · have same := Lexeme.token.inj (List.mem_singleton.mp ending)
        rename_i closed
        rw [Line.ending, if_pos closed] at same
        exact congrArg (fun t : Token => t.span.start) same
      · cases ending
  have bounds (l : Line) : l.start ≤ l.stop := Nat.le_add_right _ _
  have apart := beside_of_mem member line
  have here := bounds l
  have there := bounds m
  rintro ⟨low, high⟩
  dsimp only at low high
  rcases apart with rfl | before | behind <;> omega

theorem feed_outside_statement (member : s ∈ (parse source).statements) {before behind : List Char}
    (split : source.toList = before ++ '\n' :: behind) : ¬ s.span.Has (size before) := by
  obtain ⟨l, line, said⟩ := mem_statements.mp member
  have outside := feed_outside (newlineAt_mem_lexemes split) line
  have inside := spans_inside_line said s.span (span_mem_spans s)
  intro has
  exact outside ⟨Nat.le_trans inside.start has.1, Nat.lt_of_lt_of_le has.2 inside.stop⟩

end

end Listing
end RomLinker
