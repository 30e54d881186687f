import RomLinker.Directives
import RomLinker.Proofs.Numeral
import RomLinker.Proofs.Outcome

/-!
What the directives of a file come to (`Directives.parse_settled`). Of each of the two directives with an
argument the first line counts, whatever the rest of the file says (`ofLines_congr`); the byte count is read
first, so that its fault is the one that is reported.
-/
namespace RomLinker

namespace Text

/-! ### Signed numbers -/

/-- The number that decimal digits stand for, with or without a sign in front of them. -/
def Signed (cs : List Char) (n : Int) : Prop :=
  ∃ digits, digits ≠ [] ∧ (∀ c ∈ digits, (decimalDigit? c).isSome = true) ∧
    (((cs = digits ∨ cs = '+' :: digits) ∧ n = valueBehind 10 decimalDigit? 0 digits) ∨
      (cs = '-' :: digits ∧ n = -valueBehind 10 decimalDigit? 0 digits))

theorem integer?_minus (digits : List Char) : integer? ('-' :: digits) =
    Option.map (fun n : Nat => -(n : Int))
      (value? 10 (0x8000000000000000 + 1) decimalDigit? digits) := by
  have read : integer? ('-' :: digits) = Option.map (fun n : Int => -n)
      (value? 10 (0x8000000000000000 + 1) decimalDigit? digits >>= fun n => pure (n : Int)) := rfl
  rw [read]
  cases value? 10 (0x8000000000000000 + 1) decimalDigit? digits <;> rfl

theorem integer?_plus (digits : List Char) : integer? ('+' :: digits) =
    Option.map (fun n : Nat => (n : Int)) (value? 10 0x8000000000000000 decimalDigit? digits) := by
  have read : integer? ('+' :: digits) = Option.map id
      (value? 10 0x8000000000000000 decimalDigit? digits >>= fun n => pure (n : Int)) := rfl
  rw [read]
  cases value? 10 0x8000000000000000 decimalDigit? digits <;> rfl

theorem integer?_bare {cs : List Char} (plus : cs.head? ≠ some '+') (minus : cs.head? ≠ some '-') :
    integer? cs =
      Option.map (fun n : Nat => (n : Int)) (value? 10 0x8000000000000000 decimalDigit? cs) := by
  unfold integer?
  split
  rename_i negative digits sign
  split at sign
  · exact absurd rfl plus
  · exact absurd rfl minus
  · cases sign
    cases value? 10 0x8000000000000000 decimalDigit? cs <;> rfl

theorem head?_ne_of_decimal {digits : List Char} {c : Char} (other : decimalDigit? c = none)
    (decimal : ∀ c ∈ digits, (decimalDigit? c).isSome = true) : digits.head? ≠ some c := by
  intro first
  have digit := decimal c (List.mem_of_head? first)
  rw [other] at digit
  cases digit

theorem sign_cases (cs : List Char) : (∃ digits, cs = '+' :: digits) ∨ (∃ digits, cs = '-' :: digits) ∨
    (cs.head? ≠ some '+' ∧ cs.head? ≠ some '-') := by
  by_cases plus : cs.head? = some '+'
  · exact Or.inl (List.head?_eq_some_iff.mp plus)
  · by_cases minus : cs.head? = some '-'
    · exact Or.inr (Or.inl (List.head?_eq_some_iff.mp minus))
    · exact Or.inr (Or.inr ⟨plus, minus⟩)

theorem integer?_eq_some {cs : List Char} {n : Int} : integer? cs = some n ↔
    Signed cs n ∧ -0x8000000000000000 ≤ n ∧ n < 0x8000000000000000 := by
  have above (v : Nat) (digits : List Char) :
      value? 10 0x8000000000000000 decimalDigit? digits = some v ↔ _ :=
    value?_eq_some (by decide) (by decide)
  have below (v : Nat) (digits : List Char) :
      value? 10 (0x8000000000000000 + 1) decimalDigit? digits = some v ↔ _ :=
    value?_eq_some (by decide) (by decide)
  constructor
  · intro read
    rcases sign_cases cs with ⟨digits, rfl⟩ | ⟨digits, rfl⟩ | ⟨plus, minus⟩
    · rw [integer?_plus] at read
      obtain ⟨v, value, rfl⟩ := Option.map_eq_some_iff.mp read
      obtain ⟨some, decimal, rfl, bound⟩ := (above v digits).mp value
      exact ⟨⟨digits, some, decimal, Or.inl ⟨Or.inr rfl, rfl⟩⟩, by omega, by omega⟩
    · rw [integer?_minus] at read
      obtain ⟨v, value, rfl⟩ := Option.map_eq_some_iff.mp read
      obtain ⟨some, decimal, rfl, bound⟩ := (below v digits).mp value
      exact ⟨⟨digits, some, decimal, Or.inr ⟨rfl, rfl⟩⟩, by omega, by omega⟩
    · rw [integer?_bare plus minus] at read
      obtain ⟨v, value, rfl⟩ := Option.map_eq_some_iff.mp read
      obtain ⟨some, decimal, rfl, bound⟩ := (above v cs).mp value
      exact ⟨⟨cs, some, decimal, Or.inl ⟨Or.inl rfl, rfl⟩⟩, by omega, by omega⟩
  · rintro ⟨⟨digits, some, decimal, ⟨rfl | rfl, rfl⟩ | ⟨rfl, rfl⟩⟩, least, most⟩
    · have plus : cs.head? ≠ Option.some '+' := head?_ne_of_decimal rfl decimal
      have minus : cs.head? ≠ Option.some '-' := head?_ne_of_decimal rfl decimal
      rw [integer?_bare plus minus, (above _ _).mpr ⟨some, decimal, rfl, by omega⟩]
      rfl
    · rw [integer?_plus, (above _ _).mpr ⟨some, decimal, rfl, by omega⟩]
      rfl
    · rw [integer?_minus, (below _ _).mpr ⟨some, decimal, rfl, by omega⟩]
      rfl

end Text

namespace Directives

/-! ### Arguments -/

def FirstArgument (keyword : String) (lines : List (List Char)) (argument : List Char) : Prop :=
  ∃ before after, lines = before ++ (keyword.toList ++ argument) :: after ∧
    ∀ line ∈ before, ¬ keyword.toList <+: line

variable {keyword : String} {lines : List (List Char)} {argument : List Char}

theorem dropHead?_eq_none {head line : List Char} : Text.dropHead? head line = none ↔ ¬ head <+: line := by
  rw [Option.eq_none_iff_forall_ne_some]
  constructor
  · rintro none ⟨rest, rfl⟩
    exact none rest (Text.dropHead?_eq_some.mpr rfl)
  · intro other rest found
    exact other ⟨rest, (Text.dropHead?_eq_some.mp found).symm⟩

theorem argument?_eq_some : argument? keyword lines = some argument ↔
    FirstArgument keyword lines argument := by
  unfold argument? FirstArgument
  rw [List.findSome?_eq_some_iff]
  constructor
  · rintro ⟨before, line, after, rfl, found, none⟩
    obtain rfl := Text.dropHead?_eq_some.mp found
    exact ⟨before, after, rfl, fun line member => dropHead?_eq_none.mp (none line member)⟩
  · rintro ⟨before, after, rfl, none⟩
    exact ⟨before, _, after, rfl, Text.dropHead?_eq_some.mpr rfl,
      fun line member => dropHead?_eq_none.mpr (none line member)⟩

theorem argument?_eq_none : argument? keyword lines = none ↔
    ∀ line ∈ lines, ¬ keyword.toList <+: line := by
  unfold argument?
  rw [List.findSome?_eq_none_iff]
  exact forall₂_congr fun _ _ => dropHead?_eq_none

def CountsBytes (argument : List Char) : Prop :=
  ∃ n : Int, Text.Signed (Text.trim argument) n ∧ 0 ≤ n ∧ n ≤ 255

/-- What is wrong with an argument that is no number of bytes. -/
def BytesFault (argument : List Char) : Fault → Prop
  | .numberOutOfRange => ∃ n : Int, Text.Signed (Text.trim argument) n ∧
      -0x8000000000000000 ≤ n ∧ n < 0x8000000000000000
  | .invalidNumber => ¬ ∃ n : Int, Text.Signed (Text.trim argument) n ∧
      -0x8000000000000000 ≤ n ∧ n < 0x8000000000000000
  | .unknownCallSite _ => False

theorem byteCount_of_counts (counts : CountsBytes argument) :
    ∃ b : UInt8, byteCount argument = .ok b ∧ Text.Signed (Text.trim argument) b.toNat := by
  obtain ⟨n, number, least, most⟩ := counts
  have read : Text.integer? (Text.trim argument) = some n :=
    Text.integer?_eq_some.mpr ⟨number, by omega, by omega⟩
  have value : ((UInt8.ofNat n.toNat).toNat : Int) = n := by
    rw [UInt8.toNat_ofNat_of_lt' (by show n.toNat < 256; omega)]
    omega
  rw [← value] at number
  refine ⟨UInt8.ofNat n.toNat, ?_, number⟩
  rw [byteCount, read]
  exact if_pos ⟨least, most⟩

theorem byteCount_of_not_counts (other : ¬ CountsBytes argument) :
    ∃ e, byteCount argument = .error e ∧ BytesFault argument e := by
  unfold byteCount
  cases read : Text.integer? (Text.trim argument) with
  | none =>
    refine ⟨_, rfl, fun ⟨n, fits⟩ => ?_⟩
    cases read.symm.trans (Text.integer?_eq_some.mpr fits)
  | some n =>
    have fits := Text.integer?_eq_some.mp read
    have wide : ¬ (0 ≤ n ∧ n ≤ 255) := fun range => other ⟨n, fits.1, range⟩
    exact ⟨.numberOutOfRange, if_neg wide, n, fits⟩

def siteNames : List String := ["init", "main", "load", "end"]

def ListsSites (argument : List Char) : Prop :=
  ∀ piece ∈ Text.pieces (· == ',') argument, String.ofList (Text.trim piece) ∈ siteNames

theorem ofName?_eq_some {name : String} {site : CallSite} :
    CallSite.ofName? name = some site ↔ name = site.name := by
  constructor
  · intro found
    have named := List.find?_some found
    exact (eq_of_beq named).symm
  · rintro rfl
    cases site <;> decide

theorem mem_siteNames {name : String} : name ∈ siteNames ↔ ∃ site : CallSite, name = site.name := by
  have names : siteNames = CallSite.all.map CallSite.name := rfl
  have every (site : CallSite) : site ∈ CallSite.all := by cases site <;> decide
  rw [names, List.mem_map]
  exact ⟨fun ⟨site, _, same⟩ => ⟨site, same.symm⟩, fun ⟨site, same⟩ => ⟨site, every site, same.symm⟩⟩

theorem mem_map_name {site : CallSite} {sites : List CallSite} :
    site.name ∈ sites.map CallSite.name ↔ site ∈ sites := by
  refine ⟨fun named => ?_, List.mem_map_of_mem⟩
  obtain ⟨other, member, same⟩ := List.mem_map.mp named
  have found := (ofName?_eq_some.mpr rfl).symm.trans (ofName?_eq_some.mpr same)
  rw [← Option.some.inj found]
  exact member

def readSite (piece : List Char) : Except Fault CallSite :=
  match CallSite.ofName? (String.ofList (Text.trim piece)) with
  | some site => .ok site
  | none => .error (.unknownCallSite (String.ofList (Text.trim piece)))

theorem callSites_eq (argument : List Char) :
    callSites argument = (Text.pieces (· == ',') argument).mapM readSite := rfl

theorem readSite_eq_ok {piece : List Char} {site : CallSite} :
    readSite piece = .ok site ↔ String.ofList (Text.trim piece) = site.name := by
  unfold readSite
  rw [← ofName?_eq_some]
  cases CallSite.ofName? (String.ofList (Text.trim piece)) <;> simp

theorem readSite_of_unknown {piece : List Char} (unknown : String.ofList (Text.trim piece) ∉ siteNames) :
    readSite piece = .error (.unknownCallSite (String.ofList (Text.trim piece))) := by
  unfold readSite
  cases found : CallSite.ofName? (String.ofList (Text.trim piece)) with
  | none => rfl
  | some site => exact absurd (mem_siteNames.mpr ⟨site, ofName?_eq_some.mp found⟩) unknown

theorem mapM_readSite_cons (piece : List Char) (pieces : List (List Char)) :
    (piece :: pieces).mapM readSite = do
      let site ← readSite piece
      let sites ← pieces.mapM readSite
      return site :: sites := List.mapM_cons

theorem mapM_readSite_eq_ok {pieces : List (List Char)} {sites : List CallSite}
    (read : pieces.mapM readSite = .ok sites) :
    (pieces.map fun piece => String.ofList (Text.trim piece)) = sites.map CallSite.name := by
  induction pieces generalizing sites with
  | nil =>
    cases read
    rfl
  | cons piece pieces ih =>
    obtain ⟨site, others, first, rest, rfl⟩ := Except.mapM_cons_eq_ok.mp read
    rw [List.map_cons, List.map_cons, ih rest, readSite_eq_ok.mp first]

/-- The first piece that names no call site is the one that is reported. -/
theorem mapM_readSite_cases (pieces : List (List Char)) :
    ((∀ piece ∈ pieces, String.ofList (Text.trim piece) ∈ siteNames) ∧
      ∃ sites, pieces.mapM readSite = .ok sites) ∨
    ∃ front piece back, pieces = front ++ piece :: back ∧
      (∀ other ∈ front, String.ofList (Text.trim other) ∈ siteNames) ∧
      String.ofList (Text.trim piece) ∉ siteNames ∧
      pieces.mapM readSite = .error (.unknownCallSite (String.ofList (Text.trim piece))) := by
  induction pieces with
  | nil => exact Or.inl ⟨nofun, [], rfl⟩
  | cons piece pieces ih =>
    rw [mapM_readSite_cons]
    by_cases known : String.ofList (Text.trim piece) ∈ siteNames
    · obtain ⟨site, named⟩ := mem_siteNames.mp known
      rw [readSite_eq_ok.mpr named]
      rcases ih with ⟨all, sites, read⟩ | ⟨front, other, back, rfl, before, unknown, read⟩
      · rw [read]
        exact Or.inl ⟨List.forall_mem_cons.mpr ⟨known, all⟩, _, rfl⟩
      · rw [read]
        exact Or.inr ⟨piece :: front, other, back, rfl, List.forall_mem_cons.mpr ⟨known, before⟩,
          unknown, rfl⟩
    · rw [readSite_of_unknown known]
      exact Or.inr ⟨[], piece, pieces, rfl, nofun, known, rfl⟩

/-! ### Lines that count -/

/-- A line that says nothing behind other lines: it is no directive, or one of these has its kind. -/
def Idle (front : List (List Char)) (line : List Char) : Prop :=
  (line = ";>dbr off".toList → line ∈ front) ∧
    ∀ keyword ∈ [";>bytes ", ";>sa1 "], keyword.toList <+: line → ∃ l ∈ front, keyword.toList <+: l

theorem argument?_append {front back xs : List (List Char)}
    (idle : ∀ line ∈ xs, keyword.toList <+: line → ∃ l ∈ front, keyword.toList <+: l) :
    argument? keyword (front ++ xs ++ back) = argument? keyword (front ++ back) := by
  have parts (a b : List (List Char)) : argument? keyword (a ++ b) =
      (argument? keyword a).or (argument? keyword b) := List.findSome?_append
  rw [parts, parts, parts]
  cases found : argument? keyword front with
  | some argument => rfl
  | none =>
    have missing := argument?_eq_none.mp found
    have none : argument? keyword xs = none := by
      refine argument?_eq_none.mpr fun line member starts => ?_
      obtain ⟨l, before, starts'⟩ := idle line member starts
      exact missing l before starts'
    rw [none]
    rfl

theorem dbrOff_mem_append {front back xs : List (List Char)}
    (idle : ∀ line ∈ xs, line = ";>dbr off".toList → line ∈ front) :
    ";>dbr off".toList ∈ front ++ xs ++ back ↔ ";>dbr off".toList ∈ front ++ back := by
  rw [List.mem_append, List.mem_append, List.mem_append]
  constructor
  · rintro ((before | here) | behind)
    · exact Or.inl before
    · exact Or.inl (idle _ here rfl)
    · exact Or.inr behind
  · exact Or.imp_left Or.inl

theorem ofLines_congr {xs ys : List (List Char)}
    (dbr : ";>dbr off".toList ∈ xs ↔ ";>dbr off".toList ∈ ys)
    (bytes : argument? ";>bytes " xs = argument? ";>bytes " ys)
    (sa1 : argument? ";>sa1 " xs = argument? ";>sa1 " ys) : ofLines xs = ofLines ys := by
  have contains : xs.contains ";>dbr off".toList = ys.contains ";>dbr off".toList := by
    rw [Bool.eq_iff_iff, List.contains_iff_mem, List.contains_iff_mem]
    exact dbr
  unfold ofLines
  rw [bytes, sa1, contains]

theorem ofLines_append {front back xs : List (List Char)} (idle : ∀ line ∈ xs, Idle front line) :
    ofLines (front ++ xs ++ back) = ofLines (front ++ back) :=
  ofLines_congr (dbrOff_mem_append fun line member => (idle line member).1)
    (argument?_append fun line member => (idle line member).2 _ List.mem_cons_self)
    (argument?_append fun line member =>
      (idle line member).2 _ (List.mem_cons_of_mem _ List.mem_cons_self))

/-- What the lines of a file say in their directives. -/
structure Says (lines : List (List Char)) (d : Directives) : Prop where
  dataBank : d.setsDataBank = false ↔ ";>dbr off".toList ∈ lines
  bytes : ∀ argument, FirstArgument ";>bytes " lines argument →
    Text.Signed (Text.trim argument) d.extraBytes.toNat
  noBytes : (∀ line ∈ lines, ¬ ";>bytes ".toList <+: line) → d.extraBytes = 0
  sites : ∀ site, d.onSa1 site = true ↔ ∃ argument, FirstArgument ";>sa1 " lines argument ∧
    ∃ piece ∈ Text.pieces (· == ',') argument, String.ofList (Text.trim piece) = site.name

def bytesOf (lines : List (List Char)) : Except Fault UInt8 :=
  match argument? ";>bytes " lines with
  | some argument => byteCount argument
  | none => .ok 0

def sitesOf (lines : List (List Char)) : Except Fault (List CallSite) :=
  match argument? ";>sa1 " lines with
  | some argument => callSites argument
  | none => .ok []

theorem ofLines_eq (lines : List (List Char)) : ofLines lines = do
    let extraBytes ← bytesOf lines
    let sites ← sitesOf lines
    return {
      setsDataBank := !lines.contains ";>dbr off".toList
      extraBytes
      onSa1 := fun site => sites.contains site } := by
  unfold ofLines bytesOf sitesOf
  cases argument? ";>bytes " lines <;> cases argument? ";>sa1 " lines <;> rfl

theorem firstArgument_unique {other : List Char} (first : FirstArgument keyword lines argument)
    (first' : FirstArgument keyword lines other) : other = argument :=
  Option.some.inj ((argument?_eq_some.mpr first').symm.trans (argument?_eq_some.mpr first))

theorem bytesOf_of_counts (counts : ∀ a, FirstArgument ";>bytes " lines a → CountsBytes a) :
    ∃ b, bytesOf lines = .ok b ∧
      (∀ a, FirstArgument ";>bytes " lines a → Text.Signed (Text.trim a) b.toNat) ∧
      ((∀ line ∈ lines, ¬ ";>bytes ".toList <+: line) → b = 0) := by
  unfold bytesOf
  cases found : argument? ";>bytes " lines with
  | none =>
    refine ⟨0, rfl, fun a first => ?_, fun _ => rfl⟩
    cases found.symm.trans (argument?_eq_some.mpr first)
  | some argument =>
    have first := argument?_eq_some.mp found
    obtain ⟨b, read, number⟩ := byteCount_of_counts (counts argument first)
    refine ⟨b, read, fun a first' => ?_, fun none => ?_⟩
    · rw [firstArgument_unique first first']
      exact number
    · cases found.symm.trans (argument?_eq_none.mpr none)

theorem bytesOf_of_not_counts (first : FirstArgument ";>bytes " lines argument)
    (other : ¬ CountsBytes argument) : ∃ e, bytesOf lines = .error e ∧ BytesFault argument e := by
  unfold bytesOf
  rw [argument?_eq_some.mpr first]
  exact byteCount_of_not_counts other

theorem sitesOf_of_lists (lists : ∀ a, FirstArgument ";>sa1 " lines a → ListsSites a) :
    ∃ sites, sitesOf lines = .ok sites ∧
      ∀ site, site ∈ sites ↔ ∃ a, FirstArgument ";>sa1 " lines a ∧
        ∃ piece ∈ Text.pieces (· == ',') a, String.ofList (Text.trim piece) = site.name := by
  unfold sitesOf
  cases found : argument? ";>sa1 " lines with
  | none =>
    refine ⟨[], rfl, fun site => ⟨nofun, fun ⟨a, first, _⟩ => ?_⟩⟩
    cases found.symm.trans (argument?_eq_some.mpr first)
  | some argument =>
    have first := argument?_eq_some.mp found
    rcases mapM_readSite_cases (Text.pieces (· == ',') argument) with
      ⟨-, sites, read⟩ | ⟨front, piece, back, cut, -, unknown, -⟩
    · have names := mapM_readSite_eq_ok read
      refine ⟨sites, (callSites_eq argument).trans read, fun site => ?_⟩
      rw [← mem_map_name, ← names, List.mem_map]
      constructor
      · exact fun listed => ⟨argument, first, listed⟩
      · rintro ⟨a, first', listed⟩
        rw [firstArgument_unique first first'] at listed
        exact listed
    · refine absurd (lists argument first piece ?_) unknown
      rw [cut]
      exact List.mem_append_right _ List.mem_cons_self

theorem sitesOf_of_not_lists (first : FirstArgument ";>sa1 " lines argument)
    (other : ¬ ListsSites argument) :
    ∃ front piece back, Text.pieces (· == ',') argument = front ++ piece :: back ∧
      (∀ known ∈ front, String.ofList (Text.trim known) ∈ siteNames) ∧
      String.ofList (Text.trim piece) ∉ siteNames ∧
      sitesOf lines = .error (.unknownCallSite (String.ofList (Text.trim piece))) := by
  unfold sitesOf
  simp only [argument?_eq_some.mpr first, callSites_eq]
  rcases mapM_readSite_cases (Text.pieces (· == ',') argument) with ⟨all, -⟩ | faulty
  · exact absurd all other
  · exact faulty

theorem ofLines_of_counts (counts : ∀ a, FirstArgument ";>bytes " lines a → CountsBytes a)
    (lists : ∀ a, FirstArgument ";>sa1 " lines a → ListsSites a) :
    ∃ d, ofLines lines = .ok d ∧ Says lines d := by
  obtain ⟨b, bytes, number, none⟩ := bytesOf_of_counts counts
  obtain ⟨sites, listed, named⟩ := sitesOf_of_lists lists
  rw [ofLines_eq, bytes, listed]
  refine ⟨_, rfl, ?_, number, none, fun site => List.contains_iff_mem.trans (named site)⟩
  show (!lines.contains ";>dbr off".toList) = false ↔ _
  rw [Bool.not_eq_false', List.contains_iff_mem]

theorem ofLines_of_not_counts (first : FirstArgument ";>bytes " lines argument)
    (other : ¬ CountsBytes argument) : ∃ e, ofLines lines = .error e ∧ BytesFault argument e := by
  obtain ⟨e, bytes, fault⟩ := bytesOf_of_not_counts first other
  rw [ofLines_eq, bytes]
  exact ⟨e, rfl, fault⟩

theorem ofLines_of_not_lists (counts : ∀ a, FirstArgument ";>bytes " lines a → CountsBytes a)
    (first : FirstArgument ";>sa1 " lines argument) (other : ¬ ListsSites argument) :
    ∃ front piece back, Text.pieces (· == ',') argument = front ++ piece :: back ∧
      (∀ known ∈ front, String.ofList (Text.trim known) ∈ siteNames) ∧
      String.ofList (Text.trim piece) ∉ siteNames ∧
      ofLines lines = .error (.unknownCallSite (String.ofList (Text.trim piece))) := by
  obtain ⟨b, bytes, -⟩ := bytesOf_of_counts counts
  obtain ⟨front, piece, back, cut, known, unknown, sites⟩ := sitesOf_of_not_lists first other
  rw [ofLines_eq, bytes, sites]
  exact ⟨front, piece, back, cut, known, unknown, rfl⟩

theorem counts_of_ofLines {d : Directives} (read : ofLines lines = .ok d) (a : List Char)
    (first : FirstArgument ";>bytes " lines a) : CountsBytes a := by
  refine Classical.byContradiction fun other => ?_
  obtain ⟨e, faulty, -⟩ := ofLines_of_not_counts first other
  cases read.symm.trans faulty

theorem lists_of_ofLines {d : Directives} (read : ofLines lines = .ok d) (a : List Char)
    (first : FirstArgument ";>sa1 " lines a) : ListsSites a := by
  refine Classical.byContradiction fun other => ?_
  obtain ⟨_, _, _, _, _, _, faulty⟩ := ofLines_of_not_lists (counts_of_ofLines read) first other
  cases read.symm.trans faulty

/-- A file is read if the first argument of each of the two directives is in order, and then into what
it says; of two faulty arguments the number of bytes is reported. Lines that say nothing behind the
lines in front of them may be put in, left out or changed at will. -/
theorem parse_settled (source : String) :
    ((∃ d, parse source = .ok d) ↔
      (∀ argument, FirstArgument ";>bytes " (Text.lines source.toList) argument → CountsBytes argument) ∧
      ∀ argument, FirstArgument ";>sa1 " (Text.lines source.toList) argument → ListsSites argument) ∧
    (∀ d, parse source = .ok d → Says (Text.lines source.toList) d) ∧
    (∀ argument, FirstArgument ";>bytes " (Text.lines source.toList) argument →
      ¬ CountsBytes argument → ∃ e, parse source = .error e ∧ BytesFault argument e) ∧
    (∀ argument,
      (∀ a, FirstArgument ";>bytes " (Text.lines source.toList) a → CountsBytes a) →
      FirstArgument ";>sa1 " (Text.lines source.toList) argument → ¬ ListsSites argument →
      ∃ front piece back, Text.pieces (· == ',') argument = front ++ piece :: back ∧
        (∀ known ∈ front, String.ofList (Text.trim known) ∈ siteNames) ∧
        String.ofList (Text.trim piece) ∉ siteNames ∧
        parse source = .error (.unknownCallSite (String.ofList (Text.trim piece)))) ∧
    ∀ (other : String) (front xs ys back : List (List Char)),
      Text.lines source.toList = front ++ xs ++ back →
      Text.lines other.toList = front ++ ys ++ back →
      (∀ line ∈ xs ++ ys, Idle front line) → parse source = parse other := by
  have read : parse source = ofLines (Text.lines source.toList) := rfl
  rw [read]
  generalize Text.lines source.toList = lines
  refine ⟨⟨fun ⟨d, read⟩ => ⟨counts_of_ofLines read, lists_of_ofLines read⟩,
    fun ⟨counts, lists⟩ => ?_⟩, fun d read => ?_, fun _ => ofLines_of_not_counts,
    fun _ => ofLines_of_not_lists, ?_⟩
  · obtain ⟨d, read, -⟩ := ofLines_of_counts counts lists
    exact ⟨d, read⟩
  · obtain ⟨d', read', said⟩ := ofLines_of_counts (counts_of_ofLines read) (lists_of_ofLines read)
    cases read.symm.trans read'
    exact said
  · rintro other front xs ys back rfl cut idle
    obtain ⟨idle, idle'⟩ := List.forall_mem_append.mp idle
    show ofLines _ = ofLines (Text.lines other.toList)
    rw [cut, ofLines_append idle, ofLines_append idle']

/-- A faulty line behind the one that counts does no harm. -/
example : (parse ";>bytes  +3\t\r\n;>bytes 999").toOption.map (·.extraBytes) = some 3 := by
  decide +kernel

end Directives

end RomLinker
