import Mathlib.Data.List.Find
import RomLinker.Listing.Statement

/-!
One piece of a line. `longest_cases` says which rule found a token and how far it reached; what is
known of the text of a token follows from it (`Token.Formed`). No rule looks past a line feed
(`longest_append`).
-/
namespace RomLinker.Listing

variable {c : Char} {cs behind : List Char} {kind : TokenKind} {n : Nat}

theorem further_eq_some {found : Option (TokenKind × Nat)} {other : TokenKind} {m : Nat}
    (h : further found other m = some (kind, n)) :
    found = some (kind, n) ∨ (kind = other ∧ n = m ∧ 0 < m) := by
  unfold further at h
  split at h
  · rename_i reaches
    cases h
    exact Or.inr ⟨rfl, rfl, by omega⟩
  · exact Or.inl h

theorem command?_eq_some (h : command? cs = some (kind, n)) :
    ∃ letters, (kind, letters) ∈ commands ∧ letters <+: cs ∧ n = letters.length := by
  obtain ⟨⟨kind', letters⟩, found, same⟩ := Option.map_eq_some_iff.mp h
  cases same
  have starts := List.find?_some found
  obtain ⟨rest, split⟩ := Option.isSome_iff_exists.mp starts
  exact ⟨letters, List.mem_of_find?_eq_some found, ⟨rest, (Text.dropHead?_eq_some.mp split).symm⟩, rfl⟩

theorem quoted?_eq_some (h : quoted? cs = some (kind, n)) :
    ∃ text rest, cs = text ++ '"' :: rest ∧ '"' ∉ text ∧ kind = .quoted ∧ n = text.length + 2 := by
  unfold quoted? at h
  dsimp only at h
  split at h
  · rename_i closed
    cases h
    obtain ⟨inside, last⟩ := List.getElem?_eq_some_iff.mp closed
    refine ⟨cs.take (cs.findIdx (· == '"')), cs.drop (cs.findIdx (· == '"') + 1), ?_, ?_, rfl, ?_⟩
    · have split := List.take_append_drop (cs.findIdx (· == '"')) cs
      rw [List.drop_eq_getElem_cons inside, last] at split
      exact split.symm
    · intro member
      obtain ⟨i, bound, same⟩ := List.mem_take_iff_getElem.mp member
      have before : i < cs.findIdx (· == '"') := by omega
      have other := List.not_of_lt_findIdx before
      simp [same] at other
    · rw [List.length_take]
      omega
  · cases h

/-- The rule that found a token, and how far it reached. -/
theorem longest_cases (h : longest c cs = some (kind, n)) :
    (c = '*' ∧ kind = .star ∧ n = 1) ∨ (c = '"' ∧ quoted? cs = some (kind, n)) ∨
      (isWordChar c = true ∧ (command? (c :: cs) = some (kind, n) ∨
        (kind = .number ∧ n = numberLength (c :: cs) ∧ 0 < n) ∨
        (kind = .word ∧ n = wordLength (c :: cs) ∧ 0 < n))) := by
  unfold longest at h
  split at h
  · rename_i star
    cases h
    exact Or.inl ⟨star, rfl, rfl⟩
  · split at h
    · rename_i quote
      exact Or.inr (Or.inl ⟨quote, h⟩)
    · split at h
      · rename_i word
        refine Or.inr (Or.inr ⟨word, ?_⟩)
        rcases further_eq_some h with h | ⟨rfl, rfl, reaches⟩
        · rcases further_eq_some h with command | ⟨rfl, rfl, reaches⟩
          · exact Or.inl command
          · exact Or.inr (Or.inl ⟨rfl, rfl, reaches⟩)
        · exact Or.inr (Or.inr ⟨rfl, rfl, reaches⟩)
      · cases h

def digitLength (cs : List Char) : Nat := cs.findIdx (!Text.isHexDigit ·)

theorem hexLength_dollar (cs : List Char) :
    hexLength ('$' :: cs) = if digitLength cs = 0 then 0 else 1 + digitLength cs := rfl

theorem hexLength_of_ne (other : cs.head? ≠ some '$') : hexLength cs = digitLength cs := by
  have bare : hexLength cs = if digitLength cs = 0 then 0 else 0 + digitLength cs := by
    unfold hexLength
    cases cs with
    | nil => rfl
    | cons x rest =>
      have first : x ≠ '$' := fun same => other (congrArg some same)
      simp [first, digitLength]
  rw [bare]
  split <;> omega

theorem hexLength_le (cs : List Char) : hexLength cs ≤ cs.length := by
  by_cases dollar : cs.head? = some '$'
  · obtain ⟨rest, rfl⟩ := List.head?_eq_some_iff.mp dollar
    have bound : digitLength rest ≤ rest.length := List.findIdx_le_length
    rw [hexLength_dollar, List.length_cons]
    split <;> omega
  · rw [hexLength_of_ne dollar]
    exact List.findIdx_le_length

theorem brokenOffLength_le (cs : List Char) : brokenOffLength cs ≤ cs.length := by
  have bound : wordLength cs ≤ cs.length := List.findIdx_le_length
  unfold brokenOffLength
  dsimp only
  split <;> omega

theorem numberLength_le (cs : List Char) : numberLength cs ≤ cs.length := by
  have digits := hexLength_le cs
  have broken := brokenOffLength_le cs
  unfold numberLength
  split <;> omega

theorem longest_le (h : longest c cs = some (kind, n)) : n ≤ cs.length + 1 := by
  rcases longest_cases h with ⟨-, -, rfl⟩ | ⟨-, quoted⟩ | ⟨-, command | ⟨-, rfl, -⟩ | ⟨-, rfl, -⟩⟩
  · omega
  · obtain ⟨text, rest, rfl, -, -, rfl⟩ := quoted?_eq_some quoted
    rw [List.length_append, List.length_cons]
    omega
  · obtain ⟨letters, -, starts, rfl⟩ := command?_eq_some command
    exact starts.length_le
  · exact numberLength_le _
  · exact List.findIdx_le_length

theorem firstPiece_le (c : Char) (cs : List Char) : (firstPiece c cs).2 ≤ cs.length := by
  unfold firstPiece
  split
  · exact List.findIdx_le_length
  · split
    · exact Nat.le_refl _
    · split
      · rename_i kind n found
        have bound := longest_le found
        dsimp only
        omega
      · dsimp only
        split <;> omega

/-- What a token of a line looks like by its kind. The text of a number starts like hex digits, and
need not be all of them. -/
structure Token.Formed (t : Token) : Prop where
  inside : t.kind ≠ .newline ∧ t.kind ≠ .endOfFile
  quoted : t.kind = .quoted → ∃ text, t.text.toList = '"' :: text ++ ['"'] ∧ '"' ∉ text
  number : t.kind = .number → ∃ digit rest, Text.isHexDigit digit = true ∧
    (t.text.toList = digit :: rest ∨ t.text.toList = '$' :: digit :: rest)

theorem kind_of_command {letters : List Char} (member : (kind, letters) ∈ commands) :
    kind ≠ .newline ∧ kind ≠ .endOfFile ∧ kind ≠ .quoted ∧ kind ≠ .number := by
  have all : ∀ command ∈ commands, command.1 ≠ .newline ∧ command.1 ≠ .endOfFile ∧
      command.1 ≠ .quoted ∧ command.1 ≠ .number := by decide
  exact all _ member

theorem digitLength_pos (reaches : 0 < digitLength cs) :
    ∃ digit rest, cs = digit :: rest ∧ Text.isHexDigit digit = true := by
  cases cs with
  | nil => cases reaches
  | cons x rest =>
    refine ⟨x, rest, rfl, ?_⟩
    cases hex : Text.isHexDigit x with
    | true => rfl
    | false => simp [digitLength, List.findIdx_cons, hex] at reaches

theorem head_of_numberLength (reaches : 0 < numberLength (c :: cs)) :
    Text.isHexDigit c = true ∨ ∃ digit rest, c = '$' ∧ cs = digit :: rest ∧
      Text.isHexDigit digit = true ∧ 2 ≤ numberLength (c :: cs) := by
  by_cases digit : Text.isHexDigit c = true
  · exact Or.inl digit
  · have only : numberLength (c :: cs) = hexLength (c :: cs) := if_neg digit
    rw [only] at reaches ⊢
    by_cases dollar : c = '$'
    · subst dollar
      rw [hexLength_dollar] at reaches ⊢
      have some : 0 < digitLength cs := by
        split at reaches <;> omega
      obtain ⟨d, rest, rfl, hex⟩ := digitLength_pos some
      refine Or.inr ⟨d, rest, rfl, rfl, hex, ?_⟩
      split <;> omega
    · have bare : (c :: cs).head? ≠ some '$' := fun same => dollar (Option.some.inj same)
      rw [hexLength_of_ne bare] at reaches
      obtain ⟨d, rest, split, hex⟩ := digitLength_pos reaches
      obtain ⟨rfl, -⟩ := List.cons.inj split
      exact absurd hex digit

theorem formed_of_longest {span : Span} (h : longest c cs = some (kind, n)) :
    Token.Formed ⟨kind, String.ofList (c :: cs.take (n - 1)), span⟩ := by
  rcases longest_cases h with
    ⟨-, rfl, rfl⟩ | ⟨rfl, quoted⟩ | ⟨-, command | ⟨rfl, size, reaches⟩ | ⟨rfl, -, -⟩⟩
  · exact ⟨⟨nofun, nofun⟩, nofun, nofun⟩
  · obtain ⟨text, rest, rfl, plain, rfl, rfl⟩ := quoted?_eq_some quoted
    refine ⟨⟨nofun, nofun⟩, fun _ => ⟨text, ?_, plain⟩, nofun⟩
    have cut : (text ++ '"' :: rest).take (text.length + 2 - 1) = text ++ ['"'] := by
      have whole : text ++ '"' :: rest = (text ++ ['"']) ++ rest := by simp
      rw [whole, List.take_left']
      simp
    rw [String.toList_ofList, cut]
    rfl
  · obtain ⟨letters, member, -, -⟩ := command?_eq_some command
    obtain ⟨line, file, quoted, number⟩ := kind_of_command member
    exact ⟨⟨line, file⟩, fun same => absurd same quoted, fun same => absurd same number⟩
  · refine ⟨⟨nofun, nofun⟩, nofun, fun _ => ?_⟩
    rcases head_of_numberLength (size ▸ reaches) with digit | ⟨digit, rest, rfl, rfl, hex, two⟩
    · exact ⟨c, _, digit, Or.inl String.toList_ofList⟩
    · obtain ⟨m, same⟩ : ∃ m, n - 1 = m + 1 := ⟨n - 2, by omega⟩
      refine ⟨digit, rest.take m, hex, Or.inr ?_⟩
      rw [String.toList_ofList, same]
      rfl
  · exact ⟨⟨nofun, nofun⟩, nofun, nofun⟩

theorem firstPiece_token (same : (firstPiece c cs).1 = .token kind) :
    ∃ m, longest c cs = some (kind, m) ∧ (firstPiece c cs).2 = m - 1 := by
  unfold firstPiece at same ⊢
  split at same
  · cases same
  · rename_i plain
    split at same
    · cases same
    · rename_i open'
      rw [if_neg plain, if_neg open']
      cases found : longest c cs with
      | none =>
        rw [found] at same
        cases same
      | some reached =>
        rw [found] at same
        cases same
        exact ⟨reached.2, rfl, rfl⟩

theorem formed_of_mem_place {t : Token} {start : Nat} (member : .token t ∈ place start (cover firstPiece cs)) :
    t.Formed := by
  fun_induction cover firstPiece cs generalizing start with
  | case1 => cases member
  | case2 c cs kind n first ih =>
    rcases List.mem_append.mp member with here | later
    · have piece : (firstPiece c cs).1 = kind ∧ (firstPiece c cs).2 = n := by rw [first]; exact ⟨rfl, rfl⟩
      cases kind with
      | skipped | stray => simp [PieceKind.lexeme?] at here
      | token kind =>
        obtain ⟨m, found, reach⟩ := firstPiece_token piece.1
        rw [piece.2] at reach
        simp only [PieceKind.lexeme?, Option.toList_some, List.mem_singleton, Lexeme.token.injEq] at here
        rw [here, reach]
        exact formed_of_longest found
    · exact ih later

theorem formed_of_mem_content {t : Token} {l : Line} (member : .token t ∈ l.content) : t.Formed := by
  rw [Line.content, lexemesFrom_eq] at member
  exact formed_of_mem_place member

/-! ### The end of a line -/

def Ends (behind : List Char) : Prop := ∀ c ∈ behind.head?, c = '\n'

theorem ends_nil : Ends [] := nofun

theorem ends_cons (rest : List Char) : Ends ('\n' :: rest) := by
  intro c first
  exact (Option.some.inj first).symm

theorem Ends.forall {p : Char → Prop} (ends : Ends behind) (feed : p '\n') : ∀ c ∈ behind.head?, p c := by
  intro c first
  rw [ends c first]
  exact feed

def Halts (behind : List Char) : Prop := ∀ c ∈ behind.head?, c = '\n' ∨ c = '\r'

theorem Ends.halts (ends : Ends behind) : Halts behind := fun c first => Or.inl (ends c first)

theorem Halts.forall {p : Char → Prop} (halts : Halts behind) (feed : p '\n') (return' : p '\r') :
    ∀ c ∈ behind.head?, p c := by
  intro c first
  rcases halts c first with rfl | rfl
  · exact feed
  · exact return'

theorem findIdx_append_of_stops {stop : Char → Bool} (stops : ∀ c ∈ behind.head?, stop c = true)
    (cs : List Char) : (cs ++ behind).findIdx stop = cs.findIdx stop := by
  rw [List.findIdx_append]
  split
  · rfl
  · rename_i missing
    have all : cs.findIdx stop = cs.length := by
      have bound := @List.findIdx_le_length _ stop cs
      omega
    have here : behind.findIdx stop = 0 := by
      cases behind with
      | nil => rfl
      | cons x rest =>
        rw [List.findIdx_cons, stops x rfl]
        rfl
    omega

theorem head?_append {passes : Char → Bool} (stops : ∀ c ∈ behind.head?, passes c = false)
    (cs : List Char) : (cs ++ behind).head?.any passes = cs.head?.any passes := by
  cases cs with
  | cons x rest => rfl
  | nil =>
    cases behind with
    | nil => rfl
    | cons x rest => exact stops x rfl

theorem hexLength_append (halts : Halts behind) (cs : List Char) :
    hexLength (cs ++ behind) = hexLength cs := by
  have digits (xs : List Char) : digitLength (xs ++ behind) = digitLength xs :=
    findIdx_append_of_stops (halts.forall (by decide) (by decide)) xs
  by_cases dollar : cs.head? = some '$'
  · obtain ⟨rest, rfl⟩ := List.head?_eq_some_iff.mp dollar
    rw [List.cons_append, hexLength_dollar, hexLength_dollar, digits]
  · have other : (cs ++ behind).head? ≠ some '$' := by
      have same : (cs ++ behind).head?.any (· == '$') = cs.head?.any (· == '$') :=
        head?_append (halts.forall (by decide) (by decide)) cs
      intro first
      rw [first] at same
      cases found : cs.head? with
      | none => simp [found] at same
      | some x =>
        rw [found] at same dollar
        simp at same dollar
        exact dollar same
    rw [hexLength_of_ne dollar, hexLength_of_ne other, digits]

theorem wordLength_append (halts : Halts behind) (cs : List Char) :
    wordLength (cs ++ behind) = wordLength cs :=
  findIdx_append_of_stops (halts.forall (by decide) (by decide)) cs

theorem brokenOffLength_append (halts : Halts behind) (cs : List Char) :
    brokenOffLength (cs ++ behind) = brokenOffLength cs := by
  have bound : wordLength cs ≤ cs.length := List.findIdx_le_length
  have past : ((cs ++ behind)[wordLength cs]?.any fun c => 0x80 ≤ c.toNat) =
      (cs[wordLength cs]?.any fun c => 0x80 ≤ c.toNat) := by
    rw [List.getElem?_append]
    split
    · rfl
    · rename_i all
      have here : wordLength cs - cs.length = 0 := by omega
      have last : cs[wordLength cs]? = none := List.getElem?_eq_none (by omega)
      rw [here, last, ← List.head?_eq_getElem?]
      exact head?_append (halts.forall (by decide) (by decide)) []
  unfold brokenOffLength
  simp only [wordLength_append halts, past, List.take_append_of_le_length bound]

theorem numberLength_append (halts : Halts behind) (cs : List Char) :
    numberLength (cs ++ behind) = numberLength cs := by
  have head : (cs ++ behind).head?.any Text.isHexDigit = cs.head?.any Text.isHexDigit :=
    head?_append (halts.forall (by decide) (by decide)) cs
  unfold numberLength
  rw [head, hexLength_append halts, brokenOffLength_append halts]

theorem isPrefix_append {letters : List Char} (fresh : ∀ c ∈ behind.head?, c ∉ letters) :
    letters <+: cs ++ behind ↔ letters <+: cs := by
  constructor
  · intro starts
    rcases List.prefix_or_prefix_of_prefix starts (List.prefix_append cs behind) with short | long
    · exact short
    · obtain ⟨rest, rfl⟩ := long
      have front : rest <+: behind := (List.prefix_append_right_inj cs).mp starts
      cases rest with
      | nil => exact ⟨[], by simp⟩
      | cons x rest =>
        obtain ⟨tail, split⟩ := front
        have first : behind.head? = some x := by rw [← split]; rfl
        exact absurd (List.mem_append_right cs List.mem_cons_self) (fresh x first)
  · intro starts
    exact starts.trans (List.prefix_append cs behind)

theorem dropHead?_isSome {letters : List Char} :
    (Text.dropHead? letters cs).isSome = true ↔ letters <+: cs := by
  rw [Option.isSome_iff_exists]
  constructor
  · rintro ⟨rest, split⟩
    exact ⟨rest, (Text.dropHead?_eq_some.mp split).symm⟩
  · rintro ⟨rest, split⟩
    exact ⟨rest, Text.dropHead?_eq_some.mpr split.symm⟩

theorem command?_append (halts : Halts behind) (cs : List Char) :
    command? (cs ++ behind) = command? cs := by
  have feed : ∀ command ∈ commands, '\n' ∉ command.2 := by decide
  have return' : ∀ command ∈ commands, '\r' ∉ command.2 := by decide
  have same : ∀ command ∈ commands, (Text.dropHead? command.2 (cs ++ behind)).isSome =
      (Text.dropHead? command.2 cs).isSome := by
    intro command member
    rw [Bool.eq_iff_iff, dropHead?_isSome, dropHead?_isSome]
    exact isPrefix_append (halts.forall (feed command member) (return' command member))
  unfold command?
  rw [List.find?_congr same]

/-- Apart from quotes, a rule finds the same with more text behind the line. -/
theorem longest_append (halts : Halts behind) (other : c ≠ '"') (cs : List Char) :
    longest c (cs ++ behind) = longest c cs := by
  have command := command?_append halts (c :: cs)
  have number := numberLength_append halts (c :: cs)
  have word := wordLength_append halts (c :: cs)
  rw [List.cons_append] at command number word
  unfold longest
  rw [if_neg other, if_neg other]
  simp only [command, number, word]

end RomLinker.Listing
