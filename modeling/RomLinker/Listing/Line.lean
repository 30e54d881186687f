import RomLinker.Listing.Lexeme

/-!
Lines of the list file. A line feed ends a line and is the last token of it; the last line has no
line feed and ends with the source. Each line is cut up by itself, and all of them together are the
lexemes of the source.
-/
namespace RomLinker.Listing

structure Line where
  start : Nat
  text : List Char
  closed : Bool
deriving DecidableEq, Repr

def endOf (source : String) : Token := ⟨.endOfFile, "", .point source.utf8ByteSize⟩

namespace Line

def stop (l : Line) : Nat := l.start + size l.text

def ending (l : Line) : Token :=
  if l.closed then ⟨.newline, "\n", ⟨l.stop, l.stop + 1⟩⟩ else ⟨.endOfFile, "", .point l.stop⟩

def content (l : Line) : List Lexeme := lexemesFrom l.start l.text

def lexemes (l : Line) : List Lexeme :=
  l.content ++ if l.closed then [.token l.ending] else []

end Line

/-- Takes the lines of a text in order. The first line starts at `start` and has the characters of
`before`, the last one first, in front of the text. -/
def foldLines {β : Type} (f : β → Line → β) (init : β) (start : Nat) (before : List Char) :
    List Char → β
  | [] => f init ⟨start, before.reverse, false⟩
  | c :: cs =>
    if c = '\n' then
      let line : Line := ⟨start, before.reverse, true⟩
      foldLines f (f init line) (line.stop + 1) [] cs
    else foldLines f init start (c :: before) cs

theorem foldLines_eq {β : Type} (f : β → Line → β) (init : β) (start : Nat)
    (before cs : List Char) :
    foldLines f init start before cs =
      (foldLines (fun ls l => l :: ls) [] start before cs).reverse.foldl f init := by
  suffices h : ∀ (done : List Line), foldLines f (done.reverse.foldl f init) start before cs =
      (foldLines (fun ls l => l :: ls) done start before cs).reverse.foldl f init from h []
  induction cs generalizing start before with
  | nil => intro done; simp [foldLines]
  | cons c cs ih =>
    intro done
    simp only [foldLines]
    split
    · rw [← ih]
      simp
    · exact ih ..

def lines (source : String) : List Line :=
  (foldLines (fun ls l => l :: ls) [] 0 [] source.toList).reverse

def lexemes (source : String) : List Lexeme := (lines source).flatMap Line.lexemes

end RomLinker.Listing
