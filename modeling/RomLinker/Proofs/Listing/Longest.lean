import RomLinker.Proofs.Listing.Rules

/-!
The longest match at each place of a text. `byRules` finds it (`longestMatch_byRules`), and whatever
finds it cuts a text into pieces that fit (`Engine.LongestMatch.fits`). The lexer cuts like `byRules`,
but takes a command that breaks off in front of white space outside ASCII for a number
(`firstOfText_cases`).
-/
namespace RomLinker.Listing

variable {c : Char} {cs text front behind : List Char} {kind : TokenKind} {rule : Rule}

theorem starts_of_match (accepts : rule.Accepts front) (starts : front <+: c :: cs) :
    rule.starts c = true := by
  obtain ⟨x, rest, rfl, first⟩ := starts_of_accepts accepts
  obtain ⟨rfl, -⟩ := List.cons_prefix_cons.mp starts
  exact first

theorem rule_of_isWordChar (word : isWordChar c = true) (accepts : rule.Accepts front)
    (starts : front <+: c :: cs) :
    rule = .token .number ∨ rule = .token .word ∨
      ∃ kind, rule = .token kind ∧ (kind, front) ∈ commands := by
  have first := starts_of_match accepts starts
  cases rule with
  | blanks =>
    rw [isWordChar_of_isSkipped first] at word
    cases word
  | comment =>
    obtain rfl := eq_of_beq first
    cases word
  | token kind =>
    rcases accepts_token accepts with ⟨rfl, -⟩ | ⟨rfl, -⟩ | rfl | rfl | rfl | command
    · obtain rfl := eq_of_beq first
      cases word
    · obtain rfl := eq_of_beq first
      cases word
    · exact Or.inl rfl
    · exact Or.inr (Or.inl rfl)
    · obtain rfl := eq_of_beq first
      cases word
    · exact Or.inr (Or.inr ⟨kind, rfl, command⟩)

theorem commands_apart {a b : TokenKind × List Char} (left : a ∈ commands) (right : b ∈ commands)
    (starts : a.2 <+: b.2) : a = b := by
  have all : ∀ a ∈ commands, ∀ b ∈ commands, a.2 <+: b.2 → a = b := by decide
  exact all a left b right starts

theorem wordLength_of_command (member : (kind, text) ∈ commands) (starts : text <+: cs) :
    wordLength cs + 1 = text.length := by
  obtain ⟨⟨inner, rfl, -, word⟩, -⟩ := mem_commands member
  obtain ⟨rest, rfl⟩ := starts
  have none : inner.findIdx (!isWordChar ·) = inner.length := by
    rw [List.findIdx_eq_length]
    intro x member
    rw [word x member]
    rfl
  have colon : (':' :: rest).findIdx (!isWordChar ·) = 0 := rfl
  unfold wordLength
  rw [List.append_assoc, List.findIdx_append, none, if_neg (Nat.lt_irrefl _), List.cons_append,
    List.nil_append, colon, List.length_append, Nat.zero_add]
  rfl

/-- The rule that a character leaves where no word begins with it. -/
def markRule? (c : Char) : Option Rule :=
  if isSkipped c then some .blanks
  else if c = ';' then some .comment
  else if c = '
' then some (.token .newline)
  else if c = '*' then some (.token .star)
  else if c = '"' then some (.token .quoted)
  else none

theorem markRule?_of_starts (mark : isWordChar c = false) (first : rule.starts c = true) :
    markRule? c = some rule := by
  have words {p : Prop} (word : isWordChar c = true) : p := by
    rw [mark] at word
    cases word
  cases rule with
  | blanks => exact if_pos first
  | comment =>
    obtain rfl := eq_of_beq first
    rfl
  | token kind =>
    cases kind with
    | newline | star | quoted =>
      obtain rfl := eq_of_beq first
      rfl
    | endOfFile => cases first
    | _ => exact words first

/-- Two rules for one text are the same, or numbers and words. -/
theorem eq_of_accepts {a b : Rule} (left : a.Accepts text) (right : b.Accepts text) :
    a = b ∨ (a = .token .number ∧ b = .token .word) ∨ (a = .token .word ∧ b = .token .number) := by
  obtain ⟨c, rest, rfl, first⟩ := starts_of_accepts left
  have first' := starts_of_match right (List.prefix_refl _)
  cases word : isWordChar c with
  | false =>
    have same := (markRule?_of_starts word first).symm.trans (markRule?_of_starts word first')
    exact Or.inl (Option.some.inj same)
  | true =>
    -- a command ends with a colon, so that it is no number and no word
    have colon {kind : TokenKind} (member : (kind, c :: rest) ∈ commands) :
        ¬ Rule.Accepts (.token .word) (c :: rest) := by
      intro accepts
      obtain ⟨⟨inner, split, -⟩, -⟩ := mem_commands member
      have ends : ':' ∈ c :: rest := by simp [split]
      cases accepts.2 ':' ends
    rcases rule_of_isWordChar word left (List.prefix_refl _) with rfl | rfl | ⟨kind, rfl, member⟩ <;>
      rcases rule_of_isWordChar word right (List.prefix_refl _) with rfl | rfl | ⟨kind', rfl, member'⟩
    · exact Or.inl rfl
    · exact Or.inr (Or.inl ⟨rfl, rfl⟩)
    · exact absurd (accepts_word_of_number left) (colon member')
    · exact Or.inr (Or.inr ⟨rfl, rfl⟩)
    · exact Or.inl rfl
    · exact absurd left (colon member')
    · exact absurd (accepts_word_of_number right) (colon member)
    · exact absurd right (colon member)
    · cases commands_apart member member' (List.prefix_refl _)
      exact Or.inl rfl

theorem Rule.Wins.longest (wins : rule.Wins text behind) : Longest rule text behind := by
  refine ⟨wins.accepts, fun other front accepts starts => ⟨wins.furthest other front accepts starts, ?_⟩⟩
  rintro rfl
  rcases eq_of_accepts wins.accepts accepts with same | number | ⟨word, rfl⟩
  · exact Or.inl same.symm
  · exact Or.inr number
  · exact absurd accepts (wins.first word)

/-! ### What an engine finds -/

theorem skipped_of_wins (wins : rule.Wins text behind) (skips : rule.piece = .skipped) :
    Skipped text behind := by
  cases rule with
  | blanks => exact Or.inl wins.accepts.2
  | token kind => cases skips
  | comment =>
    obtain ⟨inner, rfl, inLine⟩ := wins.accepts
    refine Or.inr ⟨inner, rfl, inLine, fun x first => ?_⟩
    -- or else the comment would go on
    by_contra other
    obtain ⟨rest, rfl⟩ := List.head?_eq_some_iff.mp first
    have more : Rule.Accepts .comment (';' :: inner ++ [x]) := by
      refine ⟨inner ++ [x], rfl, ?_⟩
      rw [List.mem_append, List.mem_singleton]
      rintro (here | same)
      · exact inLine here
      · exact other same.symm
    have bound := wins.furthest _ _ more (by simp)
    simp only [List.length_append, List.length_singleton] at bound
    omega

/-- What could have become a match, where there is none, is an open quote. -/
theorem quote_of_begins {x : Char} {rest : List Char}
    (none : ∀ rule front, Rule.Accepts rule front → ¬ front <+: c :: x :: text ++ behind)
    (begins : rule.Accepts (c :: x :: text ++ rest)) :
    ∃ inner, c :: x :: text = '"' :: inner ∧ '"' ∉ inner ∧ '\n' ∉ inner := by
  have first := starts_of_match begins (List.prefix_refl _)
  have alone (rule : Rule) (accepts : rule.Accepts [c]) : False :=
    none rule [c] accepts ⟨x :: text ++ behind, rfl⟩
  have noWord (word : isWordChar c = true) : False :=
    alone (.token .word) ⟨nofun, List.forall_mem_singleton.mpr word⟩
  cases rule with
  | blanks => exact (alone .blanks ⟨nofun, List.forall_mem_singleton.mpr first⟩).elim
  | comment =>
    obtain rfl := eq_of_beq first
    exact (alone .comment ⟨[], rfl, List.not_mem_nil⟩).elim
  | token kind =>
    cases kind with
    | newline =>
      obtain rfl := eq_of_beq first
      exact (alone (.token .newline) rfl).elim
    | star =>
      obtain rfl := eq_of_beq first
      exact (alone (.token .star) rfl).elim
    | endOfFile => cases first
    | quoted =>
      obtain ⟨inner, split, quote, feed⟩ := begins
      rcases List.eq_nil_or_concat rest with rfl | ⟨rest, last, rfl⟩
      · rw [List.append_nil] at split
        have quoted : Rule.Accepts (.token .quoted) (c :: x :: text) := ⟨inner, split, quote, feed⟩
        exact (none _ _ quoted (List.prefix_append _ _)).elim
      · rw [List.concat_eq_append, ← List.append_assoc] at split
        obtain ⟨same, -⟩ := List.append_inj' split rfl
        obtain ⟨rfl, rfl⟩ := List.cons.inj same
        exact ⟨x :: text, rfl, fun h => quote (List.mem_append_left rest h),
          fun h => feed (List.mem_append_left rest h)⟩
    | _ => exact (noWord first).elim

theorem Engine.LongestMatch.fits {engine : Engine} (longest : engine.LongestMatch) (c : Char)
    (cs : List Char) : (engine c cs).1.Fits (engine.taken c cs) (engine.left c cs) := by
  by_cases matched : ∃ rule front, Rule.Accepts rule front ∧ front <+: c :: cs
  · obtain ⟨rule, front, accepts, starts⟩ := matched
    obtain ⟨winner, piece, wins⟩ := longest.found c cs rule front accepts starts
    rw [piece]
    cases winner with
    | blanks => exact skipped_of_wins wins rfl
    | comment => exact skipped_of_wins wins rfl
    | token kind => exact wins.longest
  · have none : ∀ rule front, Rule.Accepts rule front → ¬ front <+: c :: cs :=
      fun rule front accepts starts => matched ⟨rule, front, accepts, starts⟩
    obtain ⟨stray, covered⟩ := longest.none c cs none
    rw [stray]
    refine ⟨by rwa [engine.taken_append_left], ?_⟩
    rcases covered with alone | ⟨rule, rest, begins⟩
    · exact Or.inl ⟨c, alone⟩
    · rw [← engine.taken_append_left] at none
      revert none begins
      unfold Engine.taken
      cases cs.take (engine c cs).2 with
      | nil => exact fun _ _ => Or.inl ⟨c, rfl⟩
      | cons x text => exact fun none begins => Or.inr (quote_of_begins none begins)

theorem wins_command (word : isWordChar c = true) (member : (kind, text) ∈ commands)
    (starts : text <+: c :: cs) (whole : text ++ behind = c :: cs) :
    (Rule.token kind).Wins text behind := by
  have past := wordLength_of_command member starts
  refine ⟨(mem_commands member).2.1, fun other front accepts here => ?_, fun _ number => ?_⟩
  · rw [whole] at here
    rcases rule_of_isWordChar word accepts here with rfl | rfl | ⟨kind', rfl, member'⟩
    · have reach := length_le_hexLength accepts here
      have bound := hexLength_le_wordLength (c :: cs)
      omega
    · have reach := length_le_wordLength accepts here
      omega
    · rcases List.prefix_or_prefix_of_prefix here starts with short | long
      · exact short.length_le
      · cases commands_apart member member' long
        exact Nat.le_refl _
  · have reach := length_le_wordLength (accepts_word_of_number number) starts
    omega

theorem not_begins_command (none : command? cs = none) (member : (kind, front) ∈ commands) :
    ¬ front <+: cs := by
  intro starts
  have missing := List.find?_eq_none.mp (Option.map_eq_none_iff.mp none) _ member
  exact missing (dropHead?_isSome.mpr starts)

theorem wordLength_pos (word : isWordChar c = true) : 0 < wordLength (c :: cs) := by
  unfold wordLength
  rw [List.findIdx_cons, word]
  exact Nat.succ_pos _

theorem isWordChar_getElem {x : Char} (here : cs[wordLength cs]? = some x) : isWordChar x = false := by
  obtain ⟨bound, same⟩ := List.getElem?_eq_some_iff.mp here
  have ends : (!isWordChar cs[wordLength cs]) = true := List.findIdx_getElem (w := bound)
  rwa [same, Bool.not_eq_true'] at ends

/-- Where no command begins, the word rule reaches furthest, and hex digits may reach as far. -/
theorem wins_word (word : isWordChar c = true) (none : command? (c :: cs) = none) :
    (Rule.token (if hexLength (c :: cs) = wordLength (c :: cs) then .number else .word)).Wins
      ((c :: cs).take (wordLength (c :: cs))) ((c :: cs).drop (wordLength (c :: cs))) := by
  have long : 0 < wordLength (c :: cs) := wordLength_pos word
  have bound : wordLength (c :: cs) ≤ (c :: cs).length := List.findIdx_le_length
  have size := length_take_of_le bound
  have hexBound := hexLength_le_wordLength (c :: cs)
  refine ⟨?_, fun other front accepts starts => ?_, fun words number => ?_⟩
  · split
    · rename_i hex
      rw [← hex]
      exact accepts_take_hexLength (by omega)
    · exact accepts_take_wordLength long
  · rw [List.take_append_drop] at starts
    rw [size]
    rcases rule_of_isWordChar word accepts starts with rfl | rfl | ⟨kind, rfl, member⟩
    · have reach := length_le_hexLength accepts starts
      omega
    · exact length_le_wordLength accepts starts
    · exact absurd starts (not_begins_command none member)
  · have reach := length_le_hexLength number (List.take_prefix _ _)
    rw [if_pos (by omega)] at words
    cases words

/-! ### The rules as an engine -/

/-- The longest match as the rules have it, over any number of lines. -/
def byRules : Engine := fun c cs =>
  if isWordChar c then
    match command? (c :: cs) with
    | some (kind, n) => (.token kind, n - 1)
    | none =>
      (.token (if hexLength (c :: cs) = wordLength (c :: cs) then .number else .word),
        wordLength (c :: cs) - 1)
  else firstOfText c cs

/-- What an engine may do at a place: find the winner, or have an error where nothing matches. -/
def Engine.Chooses (engine : Engine) (c : Char) (cs : List Char) : Prop :=
  (∃ winner : Rule, (engine c cs).1 = winner.piece ∧
      winner.Wins (engine.taken c cs) (engine.left c cs)) ∨
    (∀ rule front, Rule.Accepts rule front → ¬ front <+: c :: cs) ∧ (engine c cs).1 = .stray ∧
      (engine.taken c cs = [c] ∨ ∃ rule rest, Rule.Accepts rule (engine.taken c cs ++ rest))

theorem Engine.chooses_of_wins {engine : Engine} {n : Nat} (rule : Rule) (answer : engine c cs = (rule.piece, n))
    (wins : rule.Wins (c :: cs.take n) (cs.drop n)) : engine.Chooses c cs := by
  refine Or.inl ⟨rule, by rw [answer], ?_⟩
  unfold taken left
  rw [answer]
  exact wins

theorem Engine.chooses_of_stray {engine : Engine} {n : Nat} (answer : engine c cs = (.stray, n))
    (none : ∀ rule front, Rule.Accepts rule front → ¬ front <+: c :: cs)
    (covered : c :: cs.take n = [c] ∨ ∃ rule rest, Rule.Accepts rule (c :: cs.take n ++ rest)) :
    engine.Chooses c cs := by
  refine Or.inr ⟨none, by rw [answer], ?_⟩
  unfold taken
  rwa [answer]

theorem chooses_word (word : isWordChar c = true) (cs : List Char) : byRules.Chooses c cs := by
  cases command : command? (c :: cs) with
  | some reached =>
    obtain ⟨kind, n⟩ := reached
    obtain ⟨letters, member, starts, rfl⟩ := command?_eq_some command
    have past := wordLength_of_command member starts
    have cut : (c :: cs).take letters.length = letters := (List.prefix_iff_eq_take.mp starts).symm
    have wins := wins_command word member starts (List.prefix_iff_eq_append.mp starts)
    rw [← cut, List.length_take_of_le starts.length_le, ← past] at wins
    apply Engine.chooses_of_wins (n := wordLength (c :: cs)) _ _ wins
    simp only [byRules, word, command, ← past]
    rfl
  | none =>
    have wins := wins_word word command
    have long : 0 < wordLength (c :: cs) := wordLength_pos word
    obtain ⟨n, same⟩ := Nat.exists_eq_add_one_of_ne_zero (Nat.ne_of_gt long)
    rw [same] at wins
    apply Engine.chooses_of_wins (n := n) _ _ wins
    simp only [byRules, word, command, same]
    rfl

/-- A mark has one rule, and what that one accepts is all there is to compare. -/
theorem chooses_mark {n : Nat} (rule : Rule) (mark : isWordChar c = false)
    (answer : byRules c cs = (rule.piece, n)) (accepts : rule.Accepts (c :: cs.take n))
    (most : ∀ front, rule.Accepts front → front <+: c :: cs → front.length ≤ (c :: cs.take n).length) :
    byRules.Chooses c cs := by
  have first := starts_of_match accepts (List.prefix_refl _)
  refine Engine.chooses_of_wins rule answer ⟨accepts, fun other front accepts' starts => ?_, ?_⟩
  · rw [List.cons_append, List.take_append_drop] at starts
    have same := markRule?_of_starts mark (starts_of_match accepts' starts)
    rw [markRule?_of_starts mark first] at same
    obtain rfl := Option.some.inj same
    exact most front accepts' starts
  · rintro rfl
    exact absurd (mark.symm.trans first) (by decide)

theorem chooses_newline (cs : List Char) : byRules.Chooses '\n' cs := by
  refine chooses_mark (n := 0) (.token .newline) rfl rfl rfl fun front accepts _ => ?_
  cases accepts
  exact Nat.le_refl _

theorem chooses_star (cs : List Char) : byRules.Chooses '*' cs := by
  refine chooses_mark (n := 0) (.token .star) rfl rfl rfl fun front accepts _ => ?_
  cases accepts
  exact Nat.le_refl _

theorem chooses_comment (cs : List Char) : byRules.Chooses ';' cs := by
  have inLine : '\n' ∉ cs.take (cs.findIdx (· == '\n')) := by
    intro member
    cases not_take_findIdx member
  refine chooses_mark (n := cs.findIdx (· == '\n')) .comment rfl rfl ⟨_, rfl, inLine⟩ ?_
  intro front accepts starts
  obtain ⟨inner, rfl, plain⟩ := accepts
  have line : ∀ x ∈ inner, (!(x == '\n')) = true := by
    intro x member
    have other : x ≠ '\n' := fun same => plain (same ▸ member)
    simp [other]
  have reach := length_le_findIdx line (List.cons_prefix_cons.mp starts).2
  simp only [Bool.not_not] at reach
  rw [List.length_cons, List.length_cons, length_take_of_le List.findIdx_le_length]
  omega

theorem chooses_blanks (skipped : isSkipped c = true) (cs : List Char) : byRules.Chooses c cs := by
  have mark := isWordChar_of_isSkipped skipped
  have answer : byRules c cs = (.skipped, cs.findIdx (!isSkipped ·)) := by
    have plain (x : Char) (other : isSkipped x = false) : c ≠ x := by
      rintro rfl
      exact absurd (skipped.symm.trans other) (by decide)
    simp [byRules, firstOfText, firstPiece, mark, skipped, plain '\n' rfl, plain ';' rfl, plain '"' rfl]
  refine chooses_mark .blanks mark answer ?_ fun front accepts starts => ?_
  · exact ⟨List.cons_ne_nil c _, List.forall_mem_cons.mpr ⟨skipped, all_take_findIdx cs⟩⟩
  · have reach := length_le_findIdx accepts.2 starts
    rw [List.findIdx_cons, skipped] at reach
    rw [List.length_cons, length_take_of_le List.findIdx_le_length]
    exact reach

theorem quoted_reach (accepts : Rule.Accepts (.token .quoted) front) (starts : front <+: '"' :: cs) :
    cs[cs.findIdx fun x => x == '"' || x == '\n']? = some '"' ∧
      front.length = (cs.findIdx fun x => x == '"' || x == '\n') + 2 := by
  obtain ⟨inner, rfl, quote, feed⟩ := accepts
  obtain ⟨rest, whole⟩ := starts
  obtain rfl : inner ++ ['"'] ++ rest = cs := (List.cons.inj whole).2
  have none : inner.findIdx (fun x => x == '"' || x == '\n') = inner.length := by
    rw [List.findIdx_eq_length]
    intro x member
    have other : x ≠ '"' := fun same => quote (same ▸ member)
    have inLine : x ≠ '\n' := fun same => feed (same ▸ member)
    simp [other, inLine]
  have reach : (inner ++ ['"'] ++ rest).findIdx (fun x => x == '"' || x == '\n') = inner.length := by
    rw [List.append_assoc, List.findIdx_append, none, if_neg (Nat.lt_irrefl _)]
    exact Nat.zero_add _
  rw [reach]
  simp

theorem chooses_quote (cs : List Char) : byRules.Chooses '"' cs := by
  have answer : byRules '"' cs =
      if cs[cs.findIdx fun x => x == '"' || x == '\n']? = some '"'
      then (.token .quoted, (cs.findIdx fun x => x == '"' || x == '\n') + 1)
      else (.stray, cs.findIdx fun x => x == '"' || x == '\n') := rfl
  have inside : ∀ x ∈ cs.take (cs.findIdx fun x => x == '"' || x == '\n'), x ≠ '"' ∧ x ≠ '\n' := by
    intro x member
    have free := not_take_findIdx member
    rw [Bool.or_eq_false_iff, beq_eq_false_iff_ne, beq_eq_false_iff_ne] at free
    exact free
  have quote : '"' ∉ cs.take (cs.findIdx fun x => x == '"' || x == '\n') :=
    fun member => (inside _ member).1 rfl
  have inLine : '\n' ∉ cs.take (cs.findIdx fun x => x == '"' || x == '\n') :=
    fun member => (inside _ member).2 rfl
  by_cases closed : cs[cs.findIdx fun x => x == '"' || x == '\n']? = some '"'
  · rw [if_pos closed] at answer
    have cut : cs.take ((cs.findIdx fun x => x == '"' || x == '\n') + 1) =
        cs.take (cs.findIdx fun x => x == '"' || x == '\n') ++ ['"'] := by
      rw [List.take_add_one, closed]
      rfl
    have bound : (cs.findIdx fun x => x == '"' || x == '\n') < cs.length :=
      (List.getElem?_eq_some_iff.mp closed).1
    refine chooses_mark (.token .quoted) rfl answer ?_ fun front accepts starts => ?_
    · rw [cut]
      exact ⟨_, rfl, quote, inLine⟩
    · rw [(quoted_reach accepts starts).2, List.length_cons, List.length_take]
      omega
  · rw [if_neg closed] at answer
    refine Engine.chooses_of_stray answer (fun rule front accepts starts => ?_) ?_
    · have same := markRule?_of_starts rfl (starts_of_match accepts starts)
      obtain rfl : Rule.token .quoted = rule := Option.some.inj same
      exact closed (quoted_reach accepts starts).1
    · exact Or.inr ⟨.token .quoted, ['"'], _, rfl, quote, inLine⟩

theorem chooses_byRules (c : Char) (cs : List Char) : byRules.Chooses c cs := by
  by_cases word : isWordChar c = true
  · exact chooses_word word cs
  by_cases skipped : isSkipped c = true
  · exact chooses_blanks skipped cs
  by_cases comment : c = ';'
  · exact comment ▸ chooses_comment cs
  by_cases feed : c = '\n'
  · exact feed ▸ chooses_newline cs
  by_cases star : c = '*'
  · exact star ▸ chooses_star cs
  by_cases quote : c = '"'
  · exact quote ▸ chooses_quote cs
  -- no rule is left for any other character
  have mark : isWordChar c = false := Bool.eq_false_iff.mpr word
  have answer : byRules c cs = (.stray, 0) := by
    simp [byRules, firstOfText, firstPiece, longest, word, skipped, comment, feed, star, quote]
  refine Engine.chooses_of_stray answer (fun rule front accepts starts => ?_) (Or.inl rfl)
  have rest := markRule?_of_starts mark (starts_of_match accepts starts)
  simp [markRule?, skipped, comment, feed, star, quote] at rest

theorem longestMatch_byRules : byRules.LongestMatch := by
  constructor
  · intro c cs rule front accepts starts
    rcases chooses_byRules c cs with found | ⟨none, -⟩
    · exact found
    · exact absurd starts (none rule front accepts)
  · intro c cs none
    rcases chooses_byRules c cs with ⟨winner, -, wins⟩ | ⟨-, stray⟩
    · have starts : byRules.taken c cs <+: c :: cs := ⟨_, byRules.taken_append_left c cs⟩
      exact absurd starts (none winner _ wins.accepts)
    · exact stray

/-! ### The lexer beside the rules -/

theorem isBlank_of_ends_word {x : Char} (ends : isWordChar x = false) :
    (Text.isBlank x && decide (0x80 ≤ x.toNat)) = decide (0x80 ≤ x.toNat) := by
  cases wide : decide (0x80 ≤ x.toNat) with
  | false => exact Bool.and_false _
  | true =>
    have plain (y : Char) (ascii : y.toNat < 0x80) : x ≠ y := by
      rintro rfl
      exact absurd (of_decide_eq_true wide) (by omega)
    cases blank : Text.isBlank x with
    | true => rfl
    | false =>
      simp [isWordChar, blank, plain ';' (by decide), plain ':' (by decide), plain '*' (by decide),
        plain '"' (by decide)] at ends

theorem brokenOffLength_of_ascii (ascii : ∀ x ∈ cs, Text.isBlank x = true → x.toNat < 0x80) :
    brokenOffLength cs = 0 := by
  have stays : (cs[wordLength cs]?.any fun x => decide (0x80 ≤ x.toNat)) = false := by
    cases here : cs[wordLength cs]? with
    | none => rfl
    | some x =>
      have blank := isBlank_of_ends_word (isWordChar_getElem here)
      have bound := ascii x (List.mem_of_getElem? here)
      cases wide : decide (0x80 ≤ x.toNat) with
      | false => exact wide
      | true =>
        rw [wide, Bool.and_true] at blank
        exact absurd (bound blank) (Nat.not_lt.mpr (of_decide_eq_true wide))
  unfold brokenOffLength
  simp [stays]

theorem brokenOffLength_le_wordLength (cs : List Char) : brokenOffLength cs ≤ wordLength cs := by
  unfold brokenOffLength
  dsimp only
  split <;> omega

theorem numberLength_cons (c : Char) (cs : List Char) : numberLength (c :: cs) =
    if Text.isHexDigit c then max (hexLength (c :: cs)) (brokenOffLength (c :: cs))
    else hexLength (c :: cs) := rfl

theorem numberLength_le_wordLength (c : Char) (cs : List Char) :
    numberLength (c :: cs) ≤ wordLength (c :: cs) := by
  have digits := hexLength_le_wordLength (c :: cs)
  have broken := brokenOffLength_le_wordLength (c :: cs)
  rw [numberLength_cons]
  split <;> omega

theorem longest_of_isWordChar (word : isWordChar c = true) : longest c cs =
    further (further (command? (c :: cs)) .number (numberLength (c :: cs))) .word
      (wordLength (c :: cs)) := by
  have star : c ≠ '*' := by
    rintro rfl
    cases word
  have quote : c ≠ '"' := by
    rintro rfl
    cases word
  rw [longest, if_neg star, if_neg quote, if_pos word]

theorem further_of_le {other : TokenKind} {m n : Nat} (short : m ≤ n) :
    further (some (kind, n)) other m = some (kind, n) :=
  if_neg (Nat.not_lt.mpr short)

theorem firstOfText_of_isWordChar (word : isWordChar c = true) :
    firstOfText c cs = match longest c cs with
      | some (kind, n) => (.token kind, n - 1)
      | none => (.stray, 0) := by
  have plain (x : Char) (other : isWordChar x = false) : c ≠ x := by
    rintro rfl
    exact absurd (word.symm.trans other) (by decide)
  have unskipped : isSkipped c = false := by
    by_contra skipped
    rw [isWordChar_of_isSkipped (Bool.not_eq_false _ ▸ skipped)] at word
    cases word
  have first := plain '\n' rfl
  have comment := plain ';' rfl
  have quote := plain '"' rfl
  cases found : longest c cs with
  | none => simp [firstOfText, firstPiece, found, first, comment, quote, unskipped]
  | some reached => simp [firstOfText, firstPiece, found, first, comment, quote, unskipped]

theorem byRules_of_no_command (word : isWordChar c = true)
    (none : command? (c :: cs) = none) : byRules c cs =
      (.token (if hexLength (c :: cs) = wordLength (c :: cs) then .number else .word),
        wordLength (c :: cs) - 1) := by
  simp only [byRules, word, none]
  rfl

/-- The lexer cuts where the rules do. It has another kind where a word breaks off that begins a
command. -/
theorem firstOfText_cases (c : Char) (cs : List Char) : firstOfText c cs = byRules c cs ∨
    0 < brokenOffLength (c :: cs) ∧
      ∃ n, byRules c cs = (.token .word, n) ∧ firstOfText c cs = (.token .number, n) := by
  cases word : isWordChar c with
  | false =>
    left
    rw [byRules, word]
    rfl
  | true =>
    have number := numberLength_le_wordLength c cs
    rw [firstOfText_of_isWordChar word, longest_of_isWordChar word]
    cases command : command? (c :: cs) with
    | some reached =>
      obtain ⟨kind, n⟩ := reached
      obtain ⟨letters, member, starts, rfl⟩ := command?_eq_some command
      have past := wordLength_of_command member starts
      left
      rw [further_of_le (by omega), further_of_le (by omega)]
      simp only [byRules, word, command]
      rfl
    | none =>
      have long : 0 < wordLength (c :: cs) := wordLength_pos word
      have hex := hexLength_le_wordLength (c :: cs)
      have digits : hexLength (c :: cs) ≤ numberLength (c :: cs) := by
        rw [numberLength_cons]
        split <;> omega
      have rules := byRules_of_no_command word command
      unfold further
      by_cases all : numberLength (c :: cs) = wordLength (c :: cs)
      · by_cases only : hexLength (c :: cs) = wordLength (c :: cs)
        · left
          rw [if_pos only] at rules
          simp [rules, all, long]
        · right
          rw [if_neg only] at rules
          refine ⟨?_, _, rules, by simp [all, long]⟩
          rw [numberLength_cons] at all
          split at all <;> omega
      · left
        rw [if_neg (by omega)] at rules
        rw [rules, if_pos]
        split
        · change numberLength (c :: cs) < _
          omega
        · exact long

end RomLinker.Listing
