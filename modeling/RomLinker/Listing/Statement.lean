import RomLinker.Address
import RomLinker.Listing.Fault
import RomLinker.Listing.Line

/-!
Statements of the list. Every line stands for itself: it holds nothing, one statement or one fault
(`Line.statement?`), and the faults of one line leave the others alone.
-/
namespace RomLinker.Listing

/-- A resource file named in a slot's line, with the byte values behind it. -/
structure Item where
  file : String
  bytes : List UInt8
  span : Span
deriving DecidableEq, Repr

inductive Statement where
  | verbose (on : Bool) (span : Span)
  | rom (path : String) (span : Span)
  | file (role : FileRole) (path : String) (span : Span)
  | freeram (address : Address) (span : Span)
  | header (context : ContextKind) (span : Span)
  | slot (slot : SlotKey) (slotSpan : Span) (items : List Item) (span : Span)
deriving DecidableEq, Repr

abbrev Checked (α : Type) := Except (Flagged Fault) α

def next (stop : Token) : List Lexeme → Checked (Token × List Lexeme)
  | [] => .ok (stop, [])
  | .token t :: rest => .ok (t, rest)
  | .stray text span :: _ => .error ⟨.unexpectedText text, span⟩

def nextPath (what : Needed) (stop : Token) (rest : List Lexeme) :
    Checked (Token × List Lexeme) := do
  let (t, rest) ← next stop rest
  if t.kind.namesFile then return (t, rest) else throw ⟨.needed what t.kind, t.span⟩

def expectEnd (stop : Token) (rest : List Lexeme) : Checked Unit := do
  let (t, _) ← next stop rest
  if t.kind = .newline ∨ t.kind = .endOfFile then return ()
  else throw ⟨.unexpectedEnd t.kind, t.span⟩

/-- The path that a token names, without its quotes. -/
def Token.path (t : Token) : String :=
  if t.kind = .quoted then String.ofList (t.text.toList.filter (· != '"')) else t.text

def Token.hex (t : Token) : Checked UInt32 :=
  let digits := match t.text.toList with
    | '$' :: digits => digits
    | digits => digits
  match Text.word? digits with
  | some value => .ok value
  | none => .error ⟨.invalidHex t.text, t.span⟩

/-- The items of a slot's line behind the ones in `done`, which come last first, and so do their
bytes. A number names a file only where there is none before it, and is a byte of the last file
otherwise. -/
def items (done : List Item) : List Lexeme → Checked (List Item)
  | [] => .ok (done.map fun item => { item with bytes := item.bytes.reverse }).reverse
  | .stray text span :: _ => .error ⟨.unexpectedText text, span⟩
  | .token t :: rest =>
    match t.kind, done with
    | .number, item :: before => do
      let value ← t.hex
      if value > 0xFF then throw ⟨.byteTooLarge value, t.span⟩
      items ({ item with bytes := value.toUInt8 :: item.bytes, span := item.span.join t.span } ::
        before) rest
    | kind, _ =>
      if kind.namesFile then items (⟨t.path, [], t.span⟩ :: done) rest
      else .error ⟨.needed .fileName kind, t.span⟩

def slotLine (slot : SlotKey) (first : Token) (rest : List Lexeme) : Checked Statement := do
  let found ← items [] rest
  match found.getLast? with
  | none => throw ⟨.noFiles, first.span⟩
  | some last => return .slot slot first.span found (first.span.join last.span)

def statement (first : Token) (rest : List Lexeme) (stop : Token) : Checked Statement := do
  match first.kind with
  | .verbose =>
    let (t, rest) ← nextPath .onOrOff stop rest
    let on ← if t.text = "on" then pure true
      else if t.text = "off" then pure false
      else throw ⟨.notOnOrOff t.text, t.span⟩
    expectEnd stop rest
    return .verbose on (first.span.join t.span)
  | .rom =>
    let (t, rest) ← nextPath .romFileName stop rest
    expectEnd stop rest
    return .rom t.path (first.span.join t.span)
  | .file role =>
    let (t, rest) ← nextPath .fileName stop rest
    expectEnd stop rest
    return .file role t.path (first.span.join t.span)
  | .freeram =>
    let (t, rest) ← next stop rest
    if t.kind ≠ .number then throw ⟨.needed .ramAddress t.kind, t.span⟩
    let address ← t.hex
    if address > 0xFFFFFF then throw ⟨.addressTooLarge, t.span⟩
    expectEnd stop rest
    return .freeram address (first.span.join t.span)
  | .context kind =>
    expectEnd stop rest
    return .header kind first.span
  | .star => slotLine .aggregate first rest
  | .number => slotLine (.index (← first.hex).toNat) first rest
  | kind => throw ⟨.unexpectedStart kind, first.span⟩

def Line.statement? (line : Line) : Checked (Option Statement) :=
  match line.content with
  | [] => .ok none
  | .stray text span :: _ => .error ⟨.unexpectedText text, span⟩
  | .token first :: rest => some <$> statement first rest line.ending

/-- The statements and the faults of a list, each in the order of their lines. -/
structure Parsed where
  statements : List Statement
  faults : List (Flagged Fault)

/-- What a line adds to the lines before it, the last of which come first. -/
def Parsed.add (before : Parsed) (line : Line) : Parsed :=
  match line.statement? with
  | .ok none => before
  | .ok (some s) => { before with statements := s :: before.statements }
  | .error e => { before with faults := e :: before.faults }

def Parsed.reverse (p : Parsed) : Parsed := ⟨p.statements.reverse, p.faults.reverse⟩

def parse (source : String) : Parsed :=
  (foldLines Parsed.add ⟨[], []⟩ 0 [] source.toList).reverse

theorem parse_eq (source : String) :
    parse source = ((lines source).foldl Parsed.add ⟨[], []⟩).reverse := by
  rw [parse, foldLines_eq, lines]

end RomLinker.Listing
