import RomLinker.Proofs.Listing.Grammar

/-!
Lines that are statements. From the left, each step of the linker accepts what the grammar does
(`items_eq_ok`, `argument_eq_ok`), and so the statements of a list are those that its lines spell
(`statements_spelled`).
-/
namespace RomLinker.Listing

section
variable {stop : Token} {line : List Lexeme}

/-- An item as it is when all of its bytes are read, which are collected last one first. -/
def Item.inOrder (item : Item) : Item := { item with bytes := item.bytes.reverse }

theorem inOrder_addByte (item : Item) (byte : UInt8) (span : Span) :
    (item.addByte byte span).inOrder =
      ⟨item.inOrder.file, item.inOrder.bytes ++ [byte], item.inOrder.span.join span⟩ := by
  simp [Item.addByte, Item.inOrder]

theorem exists_tokens_cons {t : Token} {holds : List Token → Prop} :
    (∃ ts, .token t :: line = ts.map .token ∧ holds ts) ↔
      ∃ ts, line = ts.map .token ∧ holds (t :: ts) := by
  constructor
  · rintro ⟨ts, same, found⟩
    cases ts with
    | nil => cases same
    | cons u ts =>
      cases same
      exact ⟨ts, rfl, found⟩
  · rintro ⟨ts, rfl, found⟩
    exact ⟨t :: ts, rfl, found⟩

theorem not_tokens_stray {text : String} {span : Span} (ts : List Token) :
    .stray text span :: line ≠ ts.map .token := by
  cases ts <;> exact nofun

theorem continues_number {t : Token} (shape : t.Formed) (number : t.kind = .number) {item : Item}
    {ts : List Token} {found : List Item} :
    Continues item (t :: ts) found ↔ ∃ byte, t.byte = .ok byte ∧
      Continues ⟨item.file, item.bytes ++ [byte], item.span.join t.span⟩ ts found := by
  constructor
  · intro continues
    cases continues with
    | byte _ _ byte _ _ value rest => exact ⟨byte, (byte_eq_ok shape number).mpr value, rest⟩
    | file _ _ path _ items other named rest => exact absurd number other
  · rintro ⟨byte, value, rest⟩
    exact .byte item t byte ts found ((byte_eq_ok shape number).mp value) rest

theorem continues_other {t : Token} (shape : t.Formed) (other : t.kind ≠ .number) {item : Item}
    {ts : List Token} {found : List Item} :
    Continues item (t :: ts) found ↔ t.kind.namesFile = true ∧
      ∃ later, Continues ⟨t.path, [], t.span⟩ ts later ∧ found = item :: later := by
  constructor
  · intro continues
    cases continues with
    | byte _ _ byte _ _ value rest => exact absurd value.number other
    | file _ _ path _ items _ named rest =>
      obtain ⟨file, rfl⟩ := (names_iff shape).mp named
      exact ⟨file, items, rest, rfl⟩
  · rintro ⟨file, later, rest, rfl⟩
    exact .file item t t.path ts later other ((names_iff shape).mpr ⟨file, rfl⟩) rest

theorem items_eq_ok (formed : ∀ t, .token t ∈ line → t.Formed) {item : Item}
    {before found : List Item} :
    items (item :: before) line = .ok found ↔ ∃ ts, line = ts.map .token ∧
      ∃ later, Continues item.inOrder ts later ∧ found = (before.map Item.inOrder).reverse ++ later := by
  -- the last item may still take bytes, and those before it are done
  induction line generalizing item before with
  | nil =>
    have all : items (item :: before) [] = .ok ((before.map Item.inOrder).reverse ++ [item.inOrder]) := by
      rw [items, List.map_cons, List.reverse_cons]
      rfl
    rw [all]
    constructor
    · intro same
      cases same
      exact ⟨[], rfl, _, .done _, rfl⟩
    · rintro ⟨ts, none, later, continues, rfl⟩
      obtain rfl := List.map_eq_nil_iff.mp none.symm
      cases continues
      rfl
  | cons x line ih =>
    have below : ∀ t, .token t ∈ line → t.Formed :=
      fun t member => formed t (List.mem_cons_of_mem x member)
    cases x with
    | stray text span =>
      refine ⟨fun wrong => ?_, ?_⟩
      · cases wrong
      · rintro ⟨ts, same, -⟩
        exact absurd same (not_tokens_stray ts)
    | token t =>
      have shape := formed t List.mem_cons_self
      rw [exists_tokens_cons]
      by_cases number : t.kind = .number
      · rw [items_byte line number]
        simp only [continues_number shape number]
        cases t.byte with
        | error e =>
          refine ⟨fun wrong => ?_, ?_⟩
          · cases wrong
          · rintro ⟨_, _, _, ⟨_, wrong, -⟩, -⟩
            cases wrong
        | ok byte =>
          simp only [Except.ok.injEq, exists_eq_left']
          rw [← inOrder_addByte]
          exact ih below
      · have other : ¬ t.IsByte (item :: before) := fun byte => number byte.1
        rw [items_file line other]
        simp only [continues_other shape number]
        split
        · rename_i file
          rw [ih below]
          constructor
          · rintro ⟨ts, whole, later, continues, rfl⟩
            refine ⟨ts, whole, _, ⟨file, later, continues, rfl⟩, ?_⟩
            rw [List.map_cons, List.reverse_cons, List.append_assoc]
            rfl
          · rintro ⟨ts, whole, _, ⟨-, later, continues, rfl⟩, rfl⟩
            refine ⟨ts, whole, later, continues, ?_⟩
            rw [List.map_cons, List.reverse_cons, List.append_assoc]
            rfl
        · rename_i none
          refine ⟨fun wrong => ?_, ?_⟩
          · cases wrong
          · rintro ⟨_, _, _, ⟨file, -⟩, -⟩
            exact absurd file none

theorem items_nil_eq_ok (formed : ∀ t, .token t ∈ line → t.Formed) {found : List Item}
    (some : found ≠ []) :
    items [] line = .ok found ↔ ∃ ts, line = ts.map .token ∧ Files ts found := by
  cases line with
  | nil =>
    constructor
    · intro none
      cases none
      exact absurd rfl some
    · rintro ⟨ts, none, files⟩
      obtain rfl := List.map_eq_nil_iff.mp none.symm
      cases files
  | cons x line =>
    have below : ∀ t, .token t ∈ line → t.Formed :=
      fun t member => formed t (List.mem_cons_of_mem x member)
    cases x with
    | stray text span => exact ⟨nofun, fun ⟨ts, same, _⟩ => absurd same (not_tokens_stray ts)⟩
    | token t =>
      have shape := formed t List.mem_cons_self
      have first : ¬ t.IsByte [] := fun byte => byte.2 rfl
      rw [items_file line first, exists_tokens_cons]
      constructor
      · intro read
        split at read
        · rename_i file
          obtain ⟨ts, whole, later, continues, rfl⟩ := (items_eq_ok below).mp read
          exact ⟨ts, whole, .mk t _ ts _ ((names_iff shape).mpr ⟨file, rfl⟩) continues⟩
        · cases read
      · rintro ⟨ts, whole, files⟩
        cases files with
        | mk _ path _ _ named rest =>
          obtain ⟨file, rfl⟩ := (names_iff shape).mp named
          rw [if_pos file]
          exact (items_eq_ok below).mpr ⟨ts, whole, found, rest, rfl⟩

theorem slotLine_eq_ok (formed : ∀ t, .token t ∈ line → t.Formed) {slot : SlotKey} {first : Token}
    {s : Statement} : slotLine slot first line = .ok s ↔ ∃ ts found last, line = ts.map .token ∧
      Files ts found ∧ found.getLast? = some last ∧
      s = .slot slot first.span found (first.span.join last.span) := by
  have filled {found : List Item} {last : Item} (ends : found.getLast? = some last) : found ≠ [] := by
    rintro rfl
    cases ends
  unfold slotLine
  rw [Except.bind_eq_ok]
  constructor
  · rintro ⟨found, made, read⟩
    cases ends : found.getLast? with
    | none =>
      rw [ends] at read
      cases read
    | some last =>
      rw [ends] at read
      cases read
      obtain ⟨ts, whole, files⟩ := (items_nil_eq_ok formed (filled ends)).mp made
      exact ⟨ts, found, last, whole, files, ends, rfl⟩
  · rintro ⟨ts, found, last, whole, files, ends, rfl⟩
    refine ⟨found, (items_nil_eq_ok formed (filled ends)).mpr ⟨ts, whole, files⟩, ?_⟩
    rw [ends]
    rfl

structure EndsLine (stop : Token) : Prop where
  kind : stop.kind = .newline ∨ stop.kind = .endOfFile

theorem endsLine_ending (l : Line) : EndsLine l.ending := by
  unfold Line.ending
  split
  · exact ⟨Or.inl rfl⟩
  · exact ⟨Or.inr rfl⟩

theorem nextPath_eq_ok (ends : EndsLine stop) {what : Needed} {t : Token} {rest : List Lexeme} :
    nextPath what stop line = .ok (t, rest) ↔ line = .token t :: rest ∧ t.kind.namesFile = true := by
  unfold nextPath
  cases line with
  | nil =>
    have other : ¬ stop.kind.namesFile = true := by
      rcases ends.kind with kind | kind <;> rw [kind] <;> decide
    change (if stop.kind.namesFile then _ else _) = _ ↔ _
    rw [if_neg other]
    exact ⟨nofun, nofun⟩
  | cons x line =>
    cases x with
    | stray text span => exact ⟨nofun, nofun⟩
    | token t' =>
      change (if t'.kind.namesFile then _ else _) = _ ↔ _
      split
      · rename_i file
        constructor
        · intro same
          cases same
          exact ⟨rfl, file⟩
        · rintro ⟨same, -⟩
          cases same
          rfl
      · rename_i other
        constructor
        · exact nofun
        · rintro ⟨same, file⟩
          cases same
          exact absurd file other

theorem finish_eq_ok (ends : EndsLine stop) (formed : ∀ t, .token t ∈ line → t.Formed)
    {s s' : Statement} :
    (expectEnd stop line >>= fun _ => pure s') = Except.ok s ↔ line = [] ∧ s' = s := by
  unfold expectEnd
  cases line with
  | nil =>
    change (if stop.kind = .newline ∨ stop.kind = .endOfFile then pure () else _) >>= _ = _ ↔ _
    rw [if_pos ends.kind]
    constructor
    · intro same
      cases same
      exact ⟨rfl, rfl⟩
    · rintro ⟨-, rfl⟩
      rfl
  | cons x line =>
    cases x with
    | stray text span => exact ⟨nofun, nofun⟩
    | token t =>
      have inner := (formed t List.mem_cons_self).inside
      change (if t.kind = .newline ∨ t.kind = .endOfFile then pure () else _) >>= _ = _ ↔ _
      rw [if_neg (fun h => h.elim inner.1 inner.2)]
      exact ⟨nofun, nofun⟩

/-- A command with one argument, which is a path and passes a check. -/
theorem argument_eq_ok {α : Type} (ends : EndsLine stop) (formed : ∀ t, .token t ∈ line → t.Formed)
    (what : Needed) (check : Token → Checked α) (make : Token → α → Statement) {s : Statement} :
    (do
      let (t, rest) ← nextPath what stop line
      let a ← check t
      expectEnd stop rest
      return make t a) = Except.ok s ↔
    ∃ t a, line = [.token t] ∧ t.kind.namesFile = true ∧ check t = .ok a ∧ make t a = s := by
  rw [Except.bind_eq_ok]
  constructor
  · rintro ⟨⟨t, rest⟩, found, read⟩
    obtain ⟨rfl, file⟩ := (nextPath_eq_ok ends).mp found
    obtain ⟨a, checked, read⟩ := Except.bind_eq_ok.mp read
    have below : ∀ u, .token u ∈ rest → u.Formed :=
      fun u member => formed u (List.mem_cons_of_mem _ member)
    obtain ⟨rfl, same⟩ := (finish_eq_ok ends below).mp read
    exact ⟨t, a, rfl, file, checked, same⟩
  · rintro ⟨t, a, rfl, file, checked, rfl⟩
    have last : ∀ u : Token, .token u ∈ ([] : List Lexeme) → u.Formed :=
      fun _ member => absurd member List.not_mem_nil
    exact ⟨(t, []), (nextPath_eq_ok ends).mpr ⟨rfl, file⟩,
      Except.bind_eq_ok.mpr ⟨a, checked, (finish_eq_ok ends last).mpr ⟨rfl, rfl⟩⟩⟩

theorem freeram_eq_ok (ends : EndsLine stop) (formed : ∀ t, .token t ∈ line → t.Formed)
    (make : Token → Address → Statement) {s : Statement} :
    (do
      let (t, rest) ← next stop line
      let address ← t.ramAddress
      expectEnd stop rest
      return make t address) = Except.ok s ↔
    ∃ t address, line = [.token t] ∧ t.ramAddress = .ok address ∧ make t address = s := by
  cases line with
  | nil =>
    have failed : stop.ramAddress = .error ⟨.needed .ramAddress stop.kind, stop.span⟩ := by
      apply if_neg
      rcases ends.kind with kind | kind <;> rw [kind] <;> decide
    change (stop.ramAddress >>= _) = _ ↔ _
    rw [failed]
    constructor
    · exact nofun
    · rintro ⟨t, address, none, -⟩
      cases none
  | cons x rest =>
    cases x with
    | stray text span =>
      constructor
      · exact nofun
      · rintro ⟨t, address, same, -⟩
        cases same
    | token t =>
      have below : ∀ u, .token u ∈ rest → u.Formed :=
        fun u member => formed u (List.mem_cons_of_mem _ member)
      change (t.ramAddress >>= _) = _ ↔ _
      rw [Except.bind_eq_ok]
      constructor
      · rintro ⟨address, read, made⟩
        obtain ⟨rfl, same⟩ := (finish_eq_ok ends below).mp made
        exact ⟨t, address, rfl, read, same⟩
      · rintro ⟨u, address, same, read, made⟩
        cases same
        exact ⟨address, read, (finish_eq_ok ends below).mpr ⟨rfl, made⟩⟩

theorem spells_of_statement (ends : EndsLine stop) {first : Token} (shape : first.Formed)
    (formed : ∀ t, .token t ∈ line → t.Formed) {s : Statement}
    (read : statement first line stop = .ok s) :
    ∃ ts, line = ts.map .token ∧ Spells (first :: ts) s := by
  have one {t : Token} (whole : line = [.token t]) : t.Formed :=
    formed t (whole ▸ List.mem_cons_self)
  cases kind : first.kind with
  | verbose =>
    rw [statement_verbose _ _ kind] at read
    obtain ⟨t, on, rfl, file, text, rfl⟩ := (argument_eq_ok ends formed .onOrOff Token.onOrOff
      fun t on => .verbose on (first.span.join t.span)).mp read
    exact ⟨[t], rfl, .verbose first t on kind file (onOrOff_eq_ok.mp text)⟩
  | rom =>
    rw [statement, kind] at read
    obtain ⟨t, path, whole, file, named, rfl⟩ := (argument_eq_ok ends formed .romFileName
      (fun t => .ok t.path) fun t path => .rom path (first.span.join t.span)).mp read
    cases named
    exact ⟨[t], whole, .rom first t _ kind ((names_iff (one whole)).mpr ⟨file, rfl⟩)⟩
  | file role =>
    rw [statement, kind] at read
    obtain ⟨t, path, whole, file, named, rfl⟩ := (argument_eq_ok ends formed .fileName
      (fun t => .ok t.path) fun t path => .file role path (first.span.join t.span)).mp read
    cases named
    exact ⟨[t], whole, .file role first t _ kind ((names_iff (one whole)).mpr ⟨file, rfl⟩)⟩
  | freeram =>
    rw [statement_freeram _ _ kind] at read
    obtain ⟨t, address, whole, value, rfl⟩ := (freeram_eq_ok ends formed
      fun t address => .freeram address (first.span.join t.span)).mp read
    obtain ⟨value, fits⟩ := (ramAddress_eq_ok (one whole)).mp value
    exact ⟨[t], whole, .freeram first t address kind value fits⟩
  | context context =>
    rw [statement, kind] at read
    obtain ⟨rfl, rfl⟩ := (finish_eq_ok ends formed).mp read
    exact ⟨[], rfl, .header context first kind⟩
  | star =>
    rw [statement, kind] at read
    obtain ⟨ts, found, last, whole, files, ends, rfl⟩ := (slotLine_eq_ok formed).mp read
    exact ⟨ts, whole, .aggregate first ts found last kind files ends⟩
  | number =>
    rw [statement, kind] at read
    obtain ⟨index, value, read⟩ := Except.bind_eq_ok.mp read
    obtain ⟨ts, found, last, whole, files, ends, rfl⟩ := (slotLine_eq_ok formed).mp read
    have value := (hex_eq_ok shape kind).mp value
    exact ⟨ts, whole, .slot first _ ts found last value (UInt32.toNat_lt _) files ends⟩
  | newline | word | quoted | endOfFile =>
    rw [statement, kind] at read
    cases read

theorem statement_of_spells (ends : EndsLine stop) {first : Token} {ts : List Token}
    (shape : first.Formed) (formed : ∀ t ∈ ts, t.Formed) {s : Statement}
    (spells : Spells (first :: ts) s) : statement first (ts.map .token) stop = .ok s := by
  have all : ∀ t, .token t ∈ ts.map Lexeme.token → t.Formed := by
    intro t member
    obtain ⟨u, inside, same⟩ := List.mem_map.mp member
    cases same
    exact formed t inside
  cases spells with
  | verbose _ t on kind file text =>
    rw [statement_verbose _ _ kind]
    exact (argument_eq_ok ends all .onOrOff Token.onOrOff
      fun t on => .verbose on (first.span.join t.span)).mpr
        ⟨t, on, rfl, file, onOrOff_eq_ok.mpr text, rfl⟩
  | rom _ t path kind named =>
    obtain ⟨file, rfl⟩ := (names_iff (formed t List.mem_cons_self)).mp named
    rw [statement, kind]
    exact (argument_eq_ok ends all .romFileName (fun t => .ok t.path)
      fun t path => .rom path (first.span.join t.span)).mpr ⟨t, t.path, rfl, file, rfl, rfl⟩
  | file role _ t path kind named =>
    obtain ⟨file, rfl⟩ := (names_iff (formed t List.mem_cons_self)).mp named
    rw [statement, kind]
    exact (argument_eq_ok ends all .fileName (fun t => .ok t.path)
      fun t path => .file role path (first.span.join t.span)).mpr ⟨t, t.path, rfl, file, rfl, rfl⟩
  | freeram _ t address kind value fits =>
    rw [statement_freeram _ _ kind]
    have read := (ramAddress_eq_ok (formed t List.mem_cons_self)).mpr ⟨value, fits⟩
    exact (freeram_eq_ok ends all fun t address => .freeram address (first.span.join t.span)).mpr
      ⟨t, address, rfl, read, rfl⟩
  | header context _ kind =>
    rw [statement, kind]
    exact (finish_eq_ok ends all).mpr ⟨rfl, rfl⟩
  | aggregate _ ts found last kind files last' =>
    rw [statement, kind]
    exact (slotLine_eq_ok all).mpr ⟨ts, found, last, rfl, files, last', rfl⟩
  | slot _ index ts found last value fits files last' =>
    have small : (UInt32.ofNat index).toNat = index := UInt32.toNat_ofNat_of_lt' fits
    have read : first.hex = .ok (UInt32.ofNat index) :=
      (hex_eq_ok shape value.number).mpr (small.symm ▸ value)
    rw [statement, value.number]
    dsimp only
    rw [read]
    change slotLine (.index (UInt32.ofNat index).toNat) first _ = _
    rw [small]
    exact (slotLine_eq_ok all).mpr ⟨ts, found, last, rfl, files, last', rfl⟩

end

theorem statement?_eq_none (l : Line) : l.statement? = .ok none ↔ l.content = [] := by
  unfold Line.statement?
  cases l.content with
  | nil => exact ⟨fun _ => rfl, fun _ => rfl⟩
  | cons x rest =>
    refine ⟨fun none => ?_, nofun⟩
    cases x with
    | stray text span => cases none
    | token first =>
      obtain ⟨s, -, same⟩ := Except.map_eq_ok.mp none
      cases same

theorem statement?_eq_some (l : Line) (s : Statement) :
    l.statement? = .ok (some s) ↔ ∃ ts, l.content = ts.map .token ∧ Spells ts s := by
  have formed : ∀ t, .token t ∈ l.content → t.Formed := fun _ member => formed_of_mem_content member
  have ends := endsLine_ending l
  unfold Line.statement?
  cases content : l.content with
  | nil =>
    constructor
    · exact nofun
    · rintro ⟨ts, none, spells⟩
      obtain rfl := List.map_eq_nil_iff.mp none.symm
      cases spells
  | cons x rest =>
    rw [content] at formed
    have below : ∀ t, .token t ∈ rest → t.Formed :=
      fun t member => formed t (List.mem_cons_of_mem x member)
    cases x with
    | stray text span => exact ⟨nofun, fun ⟨ts, same, _⟩ => absurd same (not_tokens_stray ts)⟩
    | token first =>
      have shape := formed first List.mem_cons_self
      rw [exists_tokens_cons]
      change some <$> statement first rest l.ending = _ ↔ _
      rw [Except.map_eq_ok]
      constructor
      · rintro ⟨s', made, same⟩
        cases same
        exact spells_of_statement ends shape below made
      · rintro ⟨ts, rfl, spells⟩
        have inner : ∀ u ∈ ts, u.Formed := fun u member => below u (List.mem_map_of_mem member)
        exact ⟨s, statement_of_spells ends shape inner spells, rfl⟩

/-- The list has just the statements that its lines spell, in the order of the lines. -/
theorem parse_statements (source : String) :
    (parse source).statements = (lines source).filterMap fun l => l.statement?.toOption.join := by
  have whole : parse source = collect (lines source) := parse_eq_collect source
  rw [whole]
  induction lines source with
  | nil => rfl
  | cons l ls ih =>
    have here : l.parsed.statements = (l.statement?.toOption.join).toList := by
      unfold Line.parsed
      rcases l.statement? with e | _ | s <;> rfl
    rw [collect_cons, List.filterMap_cons]
    change l.parsed.statements ++ (collect ls).statements = _
    rw [here, ih]
    cases l.statement?.toOption.join <;> rfl

/-- A line gives a statement just if nothing in it is stray and its tokens spell one, which is then
the one it gives. -/
theorem statements_spelled :
    (∀ source, (parse source).statements =
      (lines source).filterMap fun l => l.statement?.toOption.join) ∧
    ∀ (l : Line) (s : Statement),
      l.statement? = .ok (some s) ↔ ∃ ts, l.content = ts.map .token ∧ Spells ts s :=
  ⟨parse_statements, statement?_eq_some⟩

end RomLinker.Listing
