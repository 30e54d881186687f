import RomLinker.Listing.Token

/-!
A line of the list file cut up. `lexemesFrom` reads it from the left; what it reads is told apart in
two steps (`lexemesFrom_eq`). `cover` cuts a text into pieces that lose nothing (`flatten_cover`):
tokens, what is skipped and what no rule accepts. `place` leaves the skipped pieces out and gives
the others their place in the list.
-/
namespace RomLinker.Listing

inductive PieceKind where
  | skipped
  | token (kind : TokenKind)
  | stray
deriving DecidableEq, Repr

def isSkipped (c : Char) : Bool := c = ' ' || c = '\t' || c = '\r' || c = '\x0c'

/-- The kind of the piece that starts with `c`, and how many of the characters behind `c` it takes.
White space stays together. A comment goes on to the end of its line, and so does a quote that
nothing closes; any other character that no rule accepts stands alone. -/
def firstPiece (c : Char) (cs : List Char) : PieceKind × Nat :=
  if isSkipped c then (.skipped, cs.findIdx (!isSkipped ·))
  else if c = ';' then (.skipped, cs.length)
  else match longest c cs with
    | some (kind, n) => (.token kind, n - 1)
    | none => (.stray, if c = '"' then cs.length else 0)

def cutBehind (n : Nat) (cs : List Char) : List Char × List Char :=
  if n = 0 then ([], cs) else cs.splitAt n

theorem cutBehind_eq (n : Nat) (cs : List Char) : cutBehind n cs = (cs.take n, cs.drop n) := by
  unfold cutBehind
  split
  · simp_all
  · exact List.splitAt_eq ..

/-- A token, or a stray text that begins none. -/
inductive Lexeme where
  | token (t : Token)
  | stray (text : String) (span : Span)
deriving DecidableEq, Repr

/-- What a piece of a kind is to the list, if it is not skipped. -/
def PieceKind.lexeme? (kind : PieceKind) (text : String) (span : Span) : Option Lexeme :=
  match kind with
  | .skipped => none
  | .token kind => some (.token ⟨kind, text, span⟩)
  | .stray => some (.stray text span)

/-- The lexemes of a text that starts at `start`, behind the ones in `done`, which come last
first. -/
def lexemesBehind (done : List Lexeme) (start : Nat) : List Char → List Lexeme
  | [] => done.reverse
  | c :: cs =>
    let (kind, n) := firstPiece c cs
    let parts := cutBehind n cs
    let text := String.ofList (c :: parts.1)
    let stop := start + text.utf8ByteSize
    match kind.lexeme? text ⟨start, stop⟩ with
    | some x => lexemesBehind (x :: done) stop parts.2
    | none => lexemesBehind done stop parts.2
termination_by cs => cs.length
decreasing_by
  all_goals
    simp only [cutBehind_eq, List.length_drop, List.length_cons]
    omega

def lexemesFrom (start : Nat) (cs : List Char) : List Lexeme := lexemesBehind [] start cs

/-- What finds the first piece of a text: its kind, and how many characters belong to it behind the
one that it starts with. -/
abbrev Engine := Char → List Char → PieceKind × Nat

section
variable (engine : Engine)

/-- The pieces of a text, each of which starts where the one before it ends. -/
def cover : List Char → List (PieceKind × List Char)
  | [] => []
  | c :: cs =>
    let (kind, n) := engine c cs
    (kind, c :: cs.take n) :: cover (cs.drop n)
termination_by cs => cs.length
decreasing_by
  simp only [List.length_drop, List.length_cons]
  omega

theorem cover_nil : cover engine [] = [] := by rw [cover]

theorem cover_cons (c : Char) (cs : List Char) :
    cover engine (c :: cs) = ((engine c cs).1, c :: cs.take (engine c cs).2) ::
      cover engine (cs.drop (engine c cs).2) := by
  rw [cover]

theorem flatten_cover (cs : List Char) : ((cover engine cs).map (·.2)).flatten = cs := by
  fun_induction cover engine cs with
  | case1 => rfl
  | case2 c cs kind n _ ih => simp [ih]

end

/-- The bytes that a text takes in the list file. -/
def size (cs : List Char) : Nat := (String.ofList cs).utf8ByteSize

/-- The pieces that count, with their spans, when the first one starts at `start`. -/
def place (start : Nat) : List (PieceKind × List Char) → List Lexeme
  | [] => []
  | (kind, cs) :: rest =>
    let stop := start + size cs
    (kind.lexeme? (String.ofList cs) ⟨start, stop⟩).toList ++ place stop rest

theorem lexemesBehind_eq (done : List Lexeme) (start : Nat) (cs : List Char) :
    lexemesBehind done start cs = done.reverse ++ place start (cover firstPiece cs) := by
  fun_induction cover firstPiece cs generalizing done start with
  | case1 => simp [lexemesBehind, place]
  | case2 c cs kind n first ih =>
    rw [lexemesBehind]
    simp only [first, cutBehind_eq, place, size]
    split <;> simp_all

theorem lexemesFrom_eq (start : Nat) (cs : List Char) :
    lexemesFrom start cs = place start (cover firstPiece cs) := by
  simp [lexemesFrom, lexemesBehind_eq]

def dropLine : List Lexeme → List Lexeme
  | [] => []
  | .token t :: rest => if t.kind = .newline then rest else dropLine rest
  | .stray .. :: rest => dropLine rest

end RomLinker.Listing
