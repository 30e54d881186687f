import RomLinker.Proofs.Listing.Cutting

/-!
The rules of the list, each as the texts that it accepts, and what an engine does that takes the
longest match of them (`Engine.LongestMatch`). A text says by its first character which rules can accept
it (`starts_of_accepts`), and each of them reaches as far as the lexer measures.
-/
namespace RomLinker.Listing

variable {c : Char} {cs text front behind : List Char} {kind : TokenKind}

inductive Rule where
  | blanks
  | comment
  | token (kind : TokenKind)
deriving DecidableEq

namespace Rule

def Accepts : Rule → List Char → Prop
  | .blanks, text => text ≠ [] ∧ ∀ c ∈ text, isSkipped c = true
  | .comment, text => ∃ inner, text = ';' :: inner ∧ '\n' ∉ inner
  | .token .number, text => ∃ digits, digits ≠ [] ∧ (∀ c ∈ digits, Text.isHexDigit c = true) ∧
      (text = digits ∨ text = '$' :: digits)
  | .token .word, text => text ≠ [] ∧ ∀ c ∈ text, isWordChar c = true
  | .token .quoted, text => ∃ inner, text = '"' :: inner ++ ['"'] ∧ '"' ∉ inner ∧ '\n' ∉ inner
  | .token kind, text => kind.spelling?.map String.toList = some text

def starts : Rule → Char → Bool
  | .blanks => isSkipped
  | .comment => (· == ';')
  | .token .newline => (· == '\n')
  | .token .star => (· == '*')
  | .token .quoted => (· == '"')
  | .token .endOfFile => fun _ => false
  | .token _ => isWordChar

end Rule

/-- A rule accepts a text and none accepts more of what starts there. Of the others only words may
reach as far, and only as far as a number. -/
structure Longest (rule : Rule) (text behind : List Char) : Prop where
  accepts : rule.Accepts text
  most : ∀ other front, Rule.Accepts other front → front <+: text ++ behind →
    front.length ≤ text.length ∧
      (front = text → other = rule ∨ (rule = .token .number ∧ other = .token .word))

/-- White space that is left out, or a comment up to the end of its line. -/
def Skipped (text behind : List Char) : Prop :=
  (∀ c ∈ text, isSkipped c = true) ∨ ∃ inner, text = ';' :: inner ∧ '\n' ∉ inner ∧ Ends behind

/-- A text with which no rule can begin: one character, or an open quote that stays in its line. -/
structure Unmatched (text behind : List Char) : Prop where
  none : ∀ rule front, Rule.Accepts rule front → ¬ front <+: text ++ behind
  shape : (∃ c, text = [c]) ∨ ∃ inner, text = '"' :: inner ∧ '"' ∉ inner ∧ '\n' ∉ inner

def PieceKind.Fits (piece : PieceKind) (text behind : List Char) : Prop :=
  match piece with
  | .skipped => Skipped text behind
  | .token kind => Longest (.token kind) text behind
  | .stray => Unmatched text behind

/-- The piece that a rule finds. White space and comments are skipped. -/
def Rule.piece : Rule → PieceKind
  | .blanks | .comment => .skipped
  | .token kind => .token kind

/-- The choice among the rules: one that reaches furthest, and not words where numbers reach as
far. -/
structure Rule.Wins (rule : Rule) (text behind : List Char) : Prop where
  accepts : rule.Accepts text
  furthest : ∀ other front, Rule.Accepts other front → front <+: text ++ behind →
    front.length ≤ text.length
  first : rule = .token .word → ¬ Rule.Accepts (.token .number) text

namespace Engine
variable (engine : Engine) (c : Char) (cs : List Char)

def taken : List Char := c :: cs.take (engine c cs).2

def left : List Char := cs.drop (engine c cs).2

theorem taken_append_left : engine.taken c cs ++ engine.left c cs = c :: cs :=
  congrArg (c :: ·) (List.take_append_drop _ _)

/-- The engine takes the longest match of the rules. Where nothing matches, its error covers one
character, or some more with which a match could have begun. -/
structure LongestMatch : Prop where
  found : ∀ c cs rule front, Rule.Accepts rule front → front <+: c :: cs →
    ∃ winner : Rule, (engine c cs).1 = winner.piece ∧
      winner.Wins (engine.taken c cs) (engine.left c cs)
  none : ∀ c cs, (∀ rule front, Rule.Accepts rule front → ¬ front <+: c :: cs) →
    (engine c cs).1 = .stray ∧ (engine.taken c cs = [c] ∨
      ∃ rule rest, Rule.Accepts rule (engine.taken c cs ++ rest))

end Engine

theorem isWordChar_of_isHexDigit (hex : Text.isHexDigit c = true) : isWordChar c = true := by
  have all : ∀ n < 0x80, Text.isHexDigit (Char.ofNat n) = true → isWordChar (Char.ofNat n) = true := by
    decide +kernel
  have here := all c.toNat (Text.toNat_lt_of_isHexDigit hex)
  rw [Char.ofNat_toNat] at here
  exact here hex

theorem isWordChar_of_isSkipped (skipped : isSkipped c = true) : isWordChar c = false := by
  unfold isSkipped at skipped
  simp only [Bool.or_eq_true, decide_eq_true_eq] at skipped
  rcases skipped with ((rfl | rfl) | rfl) | rfl <;> decide

theorem mem_commands (member : (kind, text) ∈ commands) :
    (∃ inner, text = inner ++ [':'] ∧ inner ≠ [] ∧ ∀ c ∈ inner, isWordChar c = true) ∧
      Rule.Accepts (.token kind) text ∧ ∀ c, (Rule.token kind).starts c = isWordChar c := by
  have shapes : ∀ command ∈ commands, command.2 = command.2.dropLast ++ [':'] ∧
      command.2.dropLast ≠ [] ∧ command.2.dropLast.all isWordChar = true := by decide +kernel
  obtain ⟨colon, filled, inner⟩ := shapes _ member
  refine ⟨⟨text.dropLast, colon, filled, List.all_eq_true.mp inner⟩, ?_⟩
  have kinds : ∀ command ∈ commands, command.1 ≠ .newline ∧ command.1 ≠ .star ∧
      command.1 ≠ .number ∧ command.1 ≠ .word ∧ command.1 ≠ .quoted ∧ command.1 ≠ .endOfFile ∧
      command.1.spelling?.map String.toList = some command.2 := by decide +kernel
  obtain ⟨newline, star, number, word, quoted, endOfFile, spelled⟩ := kinds _ member
  cases kind with
  | newline => exact absurd rfl newline
  | star => exact absurd rfl star
  | number => exact absurd rfl number
  | word => exact absurd rfl word
  | quoted => exact absurd rfl quoted
  | endOfFile => exact absurd rfl endOfFile
  | _ => exact ⟨spelled, fun _ => rfl⟩

theorem accepts_token (accepts : Rule.Accepts (.token kind) text) :
    (kind = .newline ∧ text = ['\n']) ∨ (kind = .star ∧ text = ['*']) ∨ kind = .number ∨ kind = .word ∨
      kind = .quoted ∨ (kind, text) ∈ commands := by
  have named : ∀ role, (TokenKind.file role, role.keyword.toList) ∈ commands := by
    intro role
    cases role <;> decide
  have headed : ∀ context, (TokenKind.context context, (context.directory ++ ":").toList) ∈ commands := by
    intro context
    cases context <;> decide
  have command (member : (kind, text) ∈ commands) :
      (kind = .newline ∧ text = ['\n']) ∨ (kind = .star ∧ text = ['*']) ∨ kind = .number ∨
        kind = .word ∨ kind = .quoted ∨ (kind, text) ∈ commands := by
    simp only [member, or_true]
  cases kind with
  | number | word | quoted => simp
  | endOfFile => cases accepts
  | newline =>
    cases accepts
    exact Or.inl ⟨rfl, rfl⟩
  | star =>
    cases accepts
    exact Or.inr (Or.inl ⟨rfl, rfl⟩)
  | file role =>
    cases accepts
    exact command (named role)
  | context context =>
    cases accepts
    exact command (headed context)
  | _ =>
    cases accepts
    exact command (by decide)

theorem starts_of_accepts {rule : Rule} (accepts : rule.Accepts text) :
    ∃ c rest, text = c :: rest ∧ rule.starts c = true := by
  have nonempty {p : Char → Bool} (some : text ≠ []) (all : ∀ c ∈ text, p c = true) :
      ∃ c rest, text = c :: rest ∧ p c = true := by
    obtain ⟨c, rest, rfl⟩ := List.exists_cons_of_ne_nil some
    exact ⟨c, rest, rfl, all c List.mem_cons_self⟩
  cases rule with
  | blanks => exact nonempty accepts.1 accepts.2
  | comment =>
    obtain ⟨inner, rfl, -⟩ := accepts
    exact ⟨';', inner, rfl, rfl⟩
  | token kind =>
    rcases accepts_token accepts with
      ⟨rfl, rfl⟩ | ⟨rfl, rfl⟩ | rfl | rfl | rfl | command
    · exact ⟨'\n', [], rfl, rfl⟩
    · exact ⟨'*', [], rfl, rfl⟩
    · obtain ⟨digits, some, hex, rfl | rfl⟩ := accepts
      · exact nonempty some fun c member => isWordChar_of_isHexDigit (hex c member)
      · exact ⟨'$', digits, rfl, rfl⟩
    · exact nonempty accepts.1 accepts.2
    · obtain ⟨inner, rfl, -⟩ := accepts
      exact ⟨'"', inner ++ ['"'], rfl, rfl⟩
    · obtain ⟨⟨inner, rfl, some, word⟩, -, starts⟩ := mem_commands command
      obtain ⟨c, rest, rfl⟩ := List.exists_cons_of_ne_nil some
      exact ⟨c, rest ++ [':'], rfl, (starts c).trans (word c List.mem_cons_self)⟩

theorem length_le_findIdx {p : Char → Bool} (all : ∀ x ∈ front, p x = true) (starts : front <+: cs) :
    front.length ≤ cs.findIdx (!p ·) := by
  obtain ⟨rest, rfl⟩ := starts
  have none : front.findIdx (!p ·) = front.length := by
    rw [List.findIdx_eq_length]
    intro x member
    rw [all x member]
    rfl
  rw [List.findIdx_append, none, if_neg (Nat.lt_irrefl _)]
  omega

theorem not_take_findIdx {stop : Char → Bool} {x : Char} (member : x ∈ cs.take (cs.findIdx stop)) :
    stop x = false := by
  obtain ⟨i, bound, rfl⟩ := List.mem_take_iff_getElem.mp member
  exact List.not_of_lt_findIdx (Nat.lt_of_lt_of_le bound (Nat.min_le_left _ _))

theorem all_take_findIdx {p : Char → Bool} (cs : List Char) :
    ∀ x ∈ cs.take (cs.findIdx (!p ·)), p x = true := by
  intro x member
  have stays := not_take_findIdx member
  rwa [Bool.not_eq_false'] at stays

theorem length_take_of_le {n : Nat} (bound : n ≤ cs.length) : (cs.take n).length = n := by
  rw [List.length_take]
  omega

theorem length_le_wordLength (accepts : Rule.Accepts (.token .word) front) (starts : front <+: cs) :
    front.length ≤ wordLength cs :=
  length_le_findIdx accepts.2 starts

theorem length_le_hexLength (accepts : Rule.Accepts (.token .number) front) (starts : front <+: cs) :
    front.length ≤ hexLength cs := by
  obtain ⟨digits, some, hex, rfl | rfl⟩ := accepts
  · obtain ⟨d, rest, rfl⟩ := List.exists_cons_of_ne_nil some
    obtain ⟨tail, rfl⟩ := starts
    have plain : ((d :: rest) ++ tail).head? ≠ Option.some '$' := by
      intro dollar
      obtain rfl := Option.some.inj dollar
      exact absurd (hex '$' List.mem_cons_self) (by decide)
    rw [hexLength_of_ne plain]
    exact length_le_findIdx hex (List.prefix_append _ _)
  · obtain ⟨tail, rfl⟩ := starts
    have reach : digits.length ≤ digitLength (digits ++ tail) :=
      length_le_findIdx hex (List.prefix_append _ _)
    have long : 0 < digits.length := List.length_pos_iff.mpr some
    rw [List.cons_append, hexLength_dollar, if_neg (by omega), List.length_cons]
    omega

theorem accepts_take_hexLength (reaches : 0 < hexLength cs) :
    Rule.Accepts (.token .number) (cs.take (hexLength cs)) := by
  by_cases dollar : cs.head? = some '$'
  · obtain ⟨rest, rfl⟩ := List.head?_eq_some_iff.mp dollar
    rw [hexLength_dollar] at reaches ⊢
    split at reaches
    · cases reaches
    · rename_i digits
      refine ⟨rest.take (digitLength rest), ?_, all_take_findIdx rest, Or.inr ?_⟩
      · rw [ne_eq, List.take_eq_nil_iff]
        rintro (none | rfl)
        · exact digits none
        · exact digits rfl
      · rw [if_neg digits, Nat.add_comm, List.take_succ_cons]
  · rw [hexLength_of_ne dollar] at reaches ⊢
    refine ⟨cs.take (digitLength cs), ?_, all_take_findIdx cs, Or.inl rfl⟩
    rw [ne_eq, List.take_eq_nil_iff]
    rintro (none | rfl)
    · omega
    · exact absurd reaches (Nat.lt_irrefl 0)

theorem accepts_word_of_number (accepts : Rule.Accepts (.token .number) text) :
    Rule.Accepts (.token .word) text := by
  obtain ⟨digits, some, hex, rfl | rfl⟩ := accepts
  · exact ⟨some, fun c member => isWordChar_of_isHexDigit (hex c member)⟩
  · refine ⟨nofun, List.forall_mem_cons.mpr ⟨by decide, fun c member => ?_⟩⟩
    exact isWordChar_of_isHexDigit (hex c member)

theorem hexLength_le_wordLength (cs : List Char) : hexLength cs ≤ wordLength cs := by
  rcases Nat.eq_zero_or_pos (hexLength cs) with none | reaches
  · omega
  · have word := accepts_word_of_number (accepts_take_hexLength reaches)
    have bound := length_le_wordLength word (List.take_prefix _ _)
    rwa [length_take_of_le (hexLength_le cs)] at bound

theorem accepts_take_wordLength (reaches : 0 < wordLength cs) :
    Rule.Accepts (.token .word) (cs.take (wordLength cs)) := by
  refine ⟨?_, all_take_findIdx cs⟩
  rw [ne_eq, List.take_eq_nil_iff]
  rintro (none | rfl)
  · omega
  · exact absurd reaches (Nat.lt_irrefl 0)

end RomLinker.Listing
