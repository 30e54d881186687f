import RomLinker.Proofs.Lines
import RomLinker.Proofs.SymbolFile.Locations

/-!
Symbol files as they are written. `Row` says what a line can hold, given the section that it stands in, and
`Written` which texts are made of such lines, with white space around each and either ending. Whatever stands
between them, the labels of a file are those of its label rows, in order (`Written.read`); and every list of
labels has such a file (`written_file`).
-/
namespace RomLinker

namespace Text

def Trimmed (cs : List Char) : Prop :=
  (∀ c ∈ cs.head?, isBlank c = false) ∧ ∀ c ∈ cs.getLast?, isBlank c = false

instance (cs : List Char) : Decidable (Trimmed cs) :=
  decidable_of_iff (cs.head?.all (!isBlank ·) ∧ cs.getLast?.all (!isBlank ·)) <| by
    simp only [Trimmed, Option.all_eq_true, Bool.not_eq_true', Option.mem_def]

theorem Trimmed.append {front back : List Char} (trimmed : Trimmed back) (filled : front ≠ [])
    (solid : ∀ c ∈ front, isBlank c = false) (some : back ≠ []) (middle : List Char) :
    Trimmed (front ++ middle ++ back) := by
  constructor
  · intro c first
    obtain ⟨x, rest, rfl⟩ := List.exists_cons_of_ne_nil filled
    obtain rfl : x = c := by simpa using first
    exact solid x List.mem_cons_self
  · intro c last
    rcases List.eq_nil_or_concat back with rfl | ⟨rest, x, rfl⟩
    · exact absurd rfl some
    · refine trimmed.2 c ?_
      simpa using last

theorem Trimmed.trim_eq {cs : List Char} (trimmed : Trimmed cs) : trim cs = cs := by
  have front : trimStart cs = cs := by
    cases cs with
    | nil => rfl
    | cons c cs => simp [trimStart, trimmed.1 c rfl]
  have back : trimEnd cs = cs := by
    rcases List.eq_nil_or_concat cs with rfl | ⟨front, c, rfl⟩
    · rfl
    · simp [trimEnd, trimmed.2 c (by simp)]
  rw [trim, front, back]

def Margin (cs : List Char) : Prop := ∀ c ∈ cs, isBlank c = true ∧ c ≠ '\n'

instance (cs : List Char) : Decidable (Margin cs) :=
  inferInstanceAs (Decidable (∀ c ∈ cs, isBlank c = true ∧ c ≠ '\n'))

theorem trim_within {front body back : List Char} (before : Margin front) (after : Margin back)
    (trimmed : Trimmed body) : trim (front ++ body ++ back) = body := by
  rw [trim_append_back fun c member => (after c member).1, trim_append_front fun c member => (before c member).1,
    trimmed.trim_eq]

/-- So many hex digits, in either case, that stand for a number. -/
structure Digits (width value : Nat) (digits : List Char) : Prop where
  length : digits.length = width
  hex : ∀ c ∈ digits, isHexDigit c = true
  value : valueBehind 16 hexDigit? 0 digits = value

theorem Digits.number {width value : Nat} {digits : List Char} (written : Digits width value digits)
    (filled : 0 < width) : Number digits value := by
  have some : digits ≠ [] := by
    intro none
    have length := written.length
    simp [none] at length
    omega
  exact written.value ▸ .bare digits some written.hex

end Text

namespace SymbolFile
open Text

/-- What a line holds, if it stands in a section of labels or not, and if the lines below it do: nothing, a
comment, a heading, anything else outside of the sections of labels, and in them a label or anything that has no
location of 32-bit numbers. -/
inductive Row : Bool → List Char → Bool → List Label → Prop
  | blank {inLabels : Bool} : Row inLabels [] inLabels []
  | comment {inLabels : Bool} (text : List Char) : Row inLabels (';' :: text) inLabels []
  | labels {inLabels : Bool} : Row inLabels "[labels]".toList true []
  | other {inLabels : Bool} (text : List Char) (different : '[' :: text ≠ "[labels]".toList) :
    Row inLabels ('[' :: text) false []
  | foreign (text : List Char) (entry : text.head? ≠ some '[') : Row false text false []
  | noise (text : List Char) (entry : text.head? ≠ some '[')
    (bare : ∀ bank offset name, Locates text bank offset name → 0x100000000 ≤ bank ∨ 0x100000000 ≤ offset) :
    Row true text true []
  | label (l : Label) (high low gap : List Char) (bank : Digits 2 (l.address.toNat / 0x10000) high)
    (offset : Digits 4 (l.address.toNat % 0x10000) low) (parted : gap ≠ [])
    (blank : ∀ c ∈ gap, isBlank c = true) (named : Trimmed l.name.toList) :
    Row true (high ++ ':' :: low ++ gap ++ l.name.toList) true [l]

variable {inLabels after : Bool} {body : List Char} {labels : List Label}

theorem locates_label {l : Label} {high low gap : List Char} (bank : Digits 2 (l.address.toNat / 0x10000) high)
    (offset : Digits 4 (l.address.toNat % 0x10000) low) (parted : gap ≠ [])
    (blank : ∀ c ∈ gap, isBlank c = true) (named : Trimmed l.name.toList) :
    Locates (high ++ ':' :: low ++ gap ++ l.name.toList) (l.address.toNat / 0x10000) (l.address.toNat % 0x10000)
      l.name.toList := by
  obtain ⟨c, more, rfl⟩ := List.exists_cons_of_ne_nil parted
  obtain ⟨first, below⟩ := List.forall_mem_cons.mp blank
  have rest : trim (more ++ l.name.toList) = l.name.toList := by
    rw [trim_append_front below, named.trim_eq]
  exact ⟨high, low, c, more ++ l.name.toList, by simp, bank.number (by decide), offset.number (by decide), first,
    rest⟩

theorem joined_halves (a : Address) : joined (a.toNat / 0x10000) (a.toNat % 0x10000) = a := by
  have word : a.toNat < 0x100000000 := a.toNat_lt
  have apart : a.toNat / 0x10000 * 0x10000 &&& a.toNat % 0x10000 = 0 := and_of_narrow (Nat.mod_lt _ (by decide))
  rw [← UInt32.toNat_inj, (joined_exact_iff (by omega)).mpr ⟨by omega, apart⟩]
  omega

theorem isHeading_of_head {text : List Char} (entry : text.head? ≠ some '[') : isHeading text = false := by
  simpa [isHeading] using entry

theorem Row.read (row : Row inLabels body after labels) (line : List Char) (trimmed : trim line = body)
    (rest : List (List Char)) : ofLines inLabels (line :: rest) = labels ++ ofLines after rest := by
  rw [ofLines_cons, trimmed]
  cases row with
  | blank => simp [isHeading, isEntry]
  | comment text => simp [isHeading, isEntry]
  | labels => rfl
  | other text different =>
    have distinct : ('[' :: text == "[labels]".toList) = false := beq_eq_false_iff_ne.mpr different
    rw [distinct]
    rfl
  | foreign text entry => simp [isHeading_of_head entry]
  | noise text entry bare => simp [isHeading_of_head entry, label?_eq_none.mpr bare]
  | label l high low gap bank offset parted blank named =>
    have locates := locates_label bank offset parted blank named
    have word : l.address.toNat < 0x100000000 := l.address.toNat_lt
    obtain ⟨heading, entry⟩ := plain_of_locates locates
    rw [heading, if_neg Bool.false_ne_true, if_pos ⟨rfl, entry⟩, label?_of_locates locates,
      if_pos ⟨by omega, by omega⟩, joined_halves, String.ofList_toList]
    rfl

/-- A text whose lines are rows, the first of them inside of a section of labels or not, and the labels in it. -/
inductive Written : Bool → List Char → List Label → Prop
  | nil {inLabels : Bool} : Written inLabels [] []
  | last {inLabels after : Bool} {labels : List Label} (front body back : List Char) (before : Margin front)
    (behind : Margin back) (trimmed : Trimmed body) (whole : '\n' ∉ body) (row : Row inLabels body after labels) :
    Written inLabels (front ++ body ++ back) labels
  | line {inLabels after : Bool} {labels more : List Label} (front body back ending rest : List Char)
    (before : Margin front) (behind : Margin back) (trimmed : Trimmed body) (whole : '\n' ∉ body)
    (row : Row inLabels body after labels) (ends : ending = ['\n'] ∨ ending = ['\r', '\n'])
    (below : Written after rest more) :
    Written inLabels (front ++ body ++ back ++ ending ++ rest) (labels ++ more)

theorem newline_notMem_margin {cs : List Char} (margin : Margin cs) : '\n' ∉ cs :=
  fun member => (margin '\n' member).2 rfl

/-- A carriage return belongs to the white space behind a row. -/
theorem exists_margin {back ending : List Char} (behind : Margin back)
    (ends : ending = ['\n'] ∨ ending = ['\r', '\n']) :
    ∃ wider, Margin wider ∧ back ++ ending = wider ++ ['\n'] := by
  rcases ends with rfl | rfl
  · exact ⟨back, behind, rfl⟩
  · refine ⟨back ++ ['\r'], ?_, by simp⟩
    intro c member
    rcases List.mem_append.mp member with member | member
    · exact behind c member
    · rw [List.mem_singleton.mp member]
      decide

/-- The labels of a file are those of its rows. -/
theorem Written.read {text : List Char} (written : Written inLabels text labels) :
    ofLines inLabels (text.splitOn '\n') = labels := by
  have whole {front body back : List Char} (before : Margin front) (behind : Margin back) (inner : '\n' ∉ body) :
      '\n' ∉ front ++ body ++ back := by
    simp [newline_notMem_margin before, newline_notMem_margin behind, inner]
  induction written with
  | nil => cases ‹Bool› <;> rfl
  | last front body back before behind trimmed inner row =>
    rw [List.splitOn_eq_singleton (whole before behind inner), row.read _ (trim_within before behind trimmed)]
    simp [ofLines]
  | line front body back ending rest before behind trimmed inner row ends below ih =>
    obtain ⟨wider, margin, same⟩ := exists_margin behind ends
    have split : front ++ body ++ back ++ ending ++ rest = front ++ body ++ wider ++ '\n' :: rest := by
      rw [List.append_assoc (front ++ body), same]
      simp
    rw [split, List.splitOn_append_cons_self, List.splitOn_eq_singleton (whole before margin inner),
      List.singleton_append, row.read _ (trim_within before margin trimmed), ih]

/-- A label that a file can hold. -/
structure Writable (l : Label) : Prop where
  address : l.address.toNat < 0x1000000
  filled : l.name.toList ≠ []
  trimmed : Trimmed l.name.toList
  oneLine : '\n' ∉ l.name.toList

def lineOf (l : Label) : List Char :=
  fixedHex 2 (l.address.toNat / 0x10000) ++ ':' :: fixedHex 4 (l.address.toNat % 0x10000) ++ [' '] ++ l.name.toList

def file (labels : List Label) : List Char := "[labels]\n".toList ++ labels.flatMap fun l => lineOf l ++ ['\n']

theorem digits_fixedHex {width value : Nat} (small : value < Nat.pow 16 width) :
    Digits width value (fixedHex width value) := by
  have hex : ∀ c ∈ fixedHex width value, isHexDigit c = true := by
    intro c member
    obtain ⟨d, below, rfl⟩ := exists_digit_of_mem_fixedHex member
    simp [isHexDigit, hexDigit?_digitChar below]
  have read := valueFrom?_fixedHex width value (Nat.le_refl (Nat.pow 16 width))
  rw [Nat.mod_eq_of_lt small] at read
  have room : 0 < Nat.pow 16 width := Nat.pow_pos (by decide)
  exact ⟨length_fixedHex width value, hex, ((valueFrom?_eq_some (by decide) room).mp read).2.1⟩

theorem row_lineOf {l : Label} (writable : Writable l) : Row true (lineOf l) true [l] := by
  have address := writable.address
  refine .label l _ _ [' '] (digits_fixedHex ?_) (digits_fixedHex ?_) (by decide) (by decide) writable.trimmed
  · show l.address.toNat / 0x10000 < 0x100
    omega
  · show l.address.toNat % 0x10000 < 0x10000
    omega

theorem trimmed_lineOf {l : Label} (writable : Writable l) : Trimmed (lineOf l) := by
  have filled : fixedHex 2 (l.address.toNat / 0x10000) ≠ [] := by
    intro none
    have length := length_fixedHex 2 (l.address.toNat / 0x10000)
    simp [none] at length
  have solid : ∀ c ∈ fixedHex 2 (l.address.toNat / 0x10000), isBlank c = false := by
    intro c member
    obtain ⟨d, below, rfl⟩ := exists_digit_of_mem_fixedHex member
    exact (Address.digitChar_plain below).2.1
  have middle := writable.trimmed.append filled solid writable.filled
    (':' :: fixedHex 4 (l.address.toNat % 0x10000) ++ [' '])
  simpa [lineOf] using middle

theorem newline_notMem_lineOf {l : Label} (writable : Writable l) : '\n' ∉ lineOf l := by
  have digits (width n : Nat) : '\n' ∉ fixedHex width n :=
    fun member => (oneLine_fixedHex width n '\n' member).1 rfl
  simp [lineOf, digits, writable.oneLine]

theorem written_file {labels : List Label} (writable : ∀ l ∈ labels, Writable l) :
    Written false (file labels) labels := by
  have rows : ∀ labels : List Label, (∀ l ∈ labels, Writable l) →
      Written true (labels.flatMap fun l => lineOf l ++ ['\n']) labels := by
    intro labels writable
    induction labels with
    | nil => exact .nil
    | cons l labels ih =>
      obtain ⟨first, below⟩ := List.forall_mem_cons.mp writable
      have line := Written.line [] (lineOf l) [] ['\n'] _ nofun nofun (trimmed_lineOf first)
        (newline_notMem_lineOf first) (row_lineOf first) (Or.inl rfl) (ih below)
      simpa using line
  have heading : Row false "[labels]".toList true [] := .labels
  exact .line [] "[labels]".toList [] ['\n'] _ nofun nofun (by decide +kernel) (by decide +kernel) heading
    (Or.inl rfl) (rows labels writable)

/-- Symbol files are read as they are written. Whatever stands between them, the labels of a text made of rows are
those of its label rows, as often as they stand there and in order; and each list of labels that can be written has
such a text. -/
theorem labels_round_trip :
    (∀ (text : String) (labels : List Label), Written false text.toList labels → parse text = labels) ∧
    ∀ labels : List Label, (∀ l ∈ labels, Writable l) → Written false (file labels) labels := by
  constructor
  · intro text labels written
    rw [parse, ofLines_lines, written.read]
  · exact fun labels => written_file

/-- A comment, a label with white space around it, a line without a location, and a section of another kind. -/
theorem labels_round_trip_mixed :
    let text := "; by hand\r\n [labels]\n1f:8000\tno entry \r\nnot a label\n[source files]\n00:8000 foreign"
    Written false text.toList [⟨"no entry", 0x1F8000⟩] ∧ parse text = [⟨"no entry", 0x1F8000⟩] := by
  intro text
  have rows : text.toList = [] ++ "; by hand".toList ++ [] ++ ['\r', '\n'] ++
      ([' '] ++ "[labels]".toList ++ [] ++ ['\n'] ++
      ([] ++ ("1f".toList ++ ':' :: "8000".toList ++ ['\t'] ++ "no entry".toList) ++ [' '] ++ ['\r', '\n'] ++
      ([] ++ "not a label".toList ++ [] ++ ['\n'] ++
      ([] ++ "[source files]".toList ++ [] ++ ['\n'] ++
      ([] ++ "00:8000 foreign".toList ++ []))))) := by
    decide +kernel
  have label : Row true ("1f".toList ++ ':' :: "8000".toList ++ ['\t'] ++ "no entry".toList) true
      [⟨"no entry", 0x1F8000⟩] :=
    .label ⟨"no entry", 0x1F8000⟩ "1f".toList "8000".toList ['\t'] ⟨rfl, by decide, by decide⟩
      ⟨rfl, by decide, by decide⟩ (by decide +kernel) (by decide +kernel) (by decide +kernel)
  have noise : Row true "not a label".toList true [] := by
    exact .noise _ (by decide +kernel) (label?_eq_none.mp (by decide +kernel))
  have heading : Row true "[source files]".toList false [] := .other _ (by decide +kernel)
  have foreign : Row false "00:8000 foreign".toList false [] := .foreign _ (by decide +kernel)
  have written : Written false text.toList [⟨"no entry", 0x1F8000⟩] := by
    rw [rows]
    refine .line _ _ _ _ _ ?_ ?_ ?_ ?_ (.comment _) (Or.inr rfl) <|
      .line _ _ _ _ _ ?_ ?_ ?_ ?_ .labels (Or.inl rfl) <|
      .line _ _ _ _ _ ?_ ?_ ?_ ?_ label (Or.inr rfl) <|
      .line _ _ _ _ _ ?_ ?_ ?_ ?_ noise (Or.inl rfl) <|
      .line _ _ _ _ _ ?_ ?_ ?_ ?_ heading (Or.inl rfl) <|
      .last _ _ _ ?_ ?_ ?_ ?_ foreign
    all_goals decide +kernel
  exact ⟨written, labels_round_trip.1 text _ written⟩

end SymbolFile
end RomLinker
