import RomLinker.Context.Kind
import RomLinker.Text.Lines

/-!
Tokens of the list file. Line feeds are tokens that end lines; inside a line each kind has a rule,
which reaches as far as the longest text that it accepts. `longest` picks the rule that reaches
furthest; of two that reach equally far, commands come before numbers and numbers before words.
-/
namespace RomLinker

/-- A byte range of a text, the start in and the stop out. -/
structure Span where
  start : Nat
  stop : Nat
deriving DecidableEq, Repr, Inhabited

namespace Span

/-- The smallest span that covers both. -/
def join (a b : Span) : Span := ⟨min a.start b.start, max a.stop b.stop⟩

def point (n : Nat) : Span := ⟨n, n⟩

end Span

/-- The assembly files that every list names once each, by what they are for. -/
inductive FileRole where
  | global
  | statusbar
  | macrolib
deriving DecidableEq, Repr

namespace FileRole

def all : List FileRole := [.global, .statusbar, .macrolib]

def keyword : FileRole → String
  | .global => "global:"
  | .statusbar => "statusbar:"
  | .macrolib => "macrolib:"

def define : FileRole → String
  | .global => "UberGlobalFile"
  | .statusbar => "UberStatusbarFile"
  | .macrolib => "UberMacrolibFile"

end FileRole

namespace Listing

inductive TokenKind where
  | newline
  | verbose
  | rom
  | file (role : FileRole)
  | freeram
  | context (kind : ContextKind)
  | star
  | number
  | word
  | quoted
  | endOfFile
deriving DecidableEq, Repr

namespace TokenKind

def spelling? : TokenKind → Option String
  | .newline => some "\n"
  | .verbose => some "verbose:"
  | .rom => some "rom:"
  | .file role => some role.keyword
  | .freeram => some "freeram:"
  | .context kind => some (kind.directory ++ ":")
  | .star => some "*"
  | .number | .word | .quoted | .endOfFile => none

def shown : TokenKind → String
  | .newline => "end of line"
  | .number => "number"
  | .word => "word"
  | .quoted => "quoted path"
  | .endOfFile => "end of file"
  | kind => "'" ++ kind.spelling?.getD "" ++ "'"

def namesFile (kind : TokenKind) : Bool := kind = .word || kind = .quoted || kind = .number

end TokenKind

def commands : List (TokenKind × List Char) :=
  let kinds : List TokenKind := [.verbose, .rom] ++ FileRole.all.map .file ++ [.freeram] ++
    ContextKind.all.map .context
  kinds.filterMap fun kind => kind.spelling?.map fun spelling => (kind, spelling.toList)

/-- Words end at white space and at the characters that mean something else. -/
def isWordChar (c : Char) : Bool :=
  !Text.isBlank c && c != ';' && c != ':' && c != '*' && c != '"'

def wordLength (cs : List Char) : Nat := cs.findIdx (!isWordChar ·)

/-- Hex digits, with or without a dollar sign in front. -/
def hexLength (cs : List Char) : Nat :=
  let (sign, digits) := match cs with
    | '$' :: rest => (1, rest)
    | _ => (0, cs)
  let n := digits.findIdx (!Text.isHexDigit ·)
  if n = 0 then 0 else sign + n

/-- How far a command reaches that breaks off before its colon, at white space outside ASCII. -/
def brokenOffLength (cs : List Char) : Nat :=
  let n := wordLength cs
  let breaksOff := cs[n]?.any fun c => 0x80 ≤ c.toNat
  if breaksOff && commands.any fun (_, letters) => (cs.take n).isPrefixOf letters then n else 0

/-- Hex digits, or a command that breaks off and whose first letter is a hex digit: what breaks off
is still taken for what it began as. -/
def numberLength (cs : List Char) : Nat :=
  if cs.head?.any Text.isHexDigit then max (hexLength cs) (brokenOffLength cs) else hexLength cs

/-- The command that a text starts with. None begins another, so there is one at most. -/
def command? (cs : List Char) : Option (TokenKind × Nat) :=
  (commands.find? fun (_, letters) => (Text.dropHead? letters cs).isSome).map
    fun (kind, letters) => (kind, letters.length)

/-- What is found so far or a rule that reaches further. -/
def further (found : Option (TokenKind × Nat)) (kind : TokenKind) (n : Nat) :
    Option (TokenKind × Nat) :=
  if found.elim 0 (·.2) < n then some (kind, n) else found

/-- The quoted text behind an opening quote, with both quotes. -/
def quoted? (cs : List Char) : Option (TokenKind × Nat) :=
  let n := cs.findIdx (· == '"')
  if cs[n]? = some '"' then some (.quoted, n + 2) else none

/-- The rule that reaches furthest in a line that starts with `c`, numbers before words. The first
character says which rules apply: all commands and numbers start like words. -/
def longest (c : Char) (cs : List Char) : Option (TokenKind × Nat) :=
  if c = '*' then some (.star, 1)
  else if c = '"' then quoted? cs
  else if isWordChar c then
    let text := c :: cs
    further (further (command? text) .number (numberLength text)) .word (wordLength text)
  else none

structure Token where
  kind : TokenKind
  text : String
  span : Span
deriving DecidableEq, Repr

end Listing

end RomLinker
