import RomLinker.Proofs.Listing.Lines

/-!
A reader of the list that knows no lines. It has what is left of the list and the kind of the last
token; after a fault it goes on behind the next line feed, unless that is what it has just read
(`recover`). It comes to an end because each action leaves an end of what it found (`Consumes`).
-/
namespace RomLinker.Listing

def TokenKind.endsLine (kind : TokenKind) : Bool := kind = .newline || kind = .endOfFile

/-- What is left of the list, and the kind of the last token if the last thing read was one. -/
structure Reader where
  rest : List Lexeme
  last? : Option TokenKind

abbrev Reads (α : Type) := EStateM (Flagged Fault) Reader α

namespace Reader

/-- Behind the last lexeme there is the end of the file, as often as it is asked for. -/
def token (eof : Token) : Reads Token
  | ⟨[], _⟩ => .ok eof ⟨[], some eof.kind⟩
  | ⟨.token t :: rest, _⟩ => .ok t ⟨rest, some t.kind⟩
  | ⟨.stray text span :: rest, _⟩ => .error ⟨.unexpectedText text, span⟩ ⟨rest, none⟩

def pathToken (what : Needed) (eof : Token) : Reads Token := do
  let t ← token eof
  if t.kind.namesFile then return t else throw ⟨.needed what t.kind, t.span⟩

def lineEnd (eof : Token) : Reads Unit := do
  let t ← token eof
  if t.kind.endsLine then return () else throw ⟨.unexpectedEnd t.kind, t.span⟩

def check {α : Type} (checked : Checked α) : Reads α := fun r =>
  match checked with
  | .ok a => .ok a r
  | .error e => .error e r

/-- The items of a slot's line behind the ones in `done`, up to the token that ends the line. -/
def itemsFrom (eof : Token) (done : List Item) :
    List Lexeme → EStateM.Result (Flagged Fault) Reader (List Item)
  | [] => .ok (done.map fun item => { item with bytes := item.bytes.reverse }).reverse
      ⟨[], some eof.kind⟩
  | .stray text span :: rest => .error ⟨.unexpectedText text, span⟩ ⟨rest, none⟩
  | .token t :: rest =>
    if t.kind.endsLine then
      .ok (done.map fun item => { item with bytes := item.bytes.reverse }).reverse ⟨rest, some t.kind⟩
    else match t.kind, done with
      | .number, item :: before =>
        match t.byte with
        | .error e => .error e ⟨rest, some t.kind⟩
        | .ok byte => itemsFrom eof (item.addByte byte t.span :: before) rest
      | kind, _ =>
        if kind.namesFile then itemsFrom eof (⟨t.path, [], t.span⟩ :: done) rest
        else .error ⟨.needed .fileName kind, t.span⟩ ⟨rest, some t.kind⟩

section
variable {eof t : Token} {done before : List Item} {item : Item} (rest : List Lexeme)

theorem itemsFrom_end (ends : t.kind.endsLine = true) :
    itemsFrom eof done (.token t :: rest) =
      .ok (done.map fun item => { item with bytes := item.bytes.reverse }).reverse
        ⟨rest, some t.kind⟩ := by
  rw [itemsFrom.eq_def]
  exact if_pos ends

theorem itemsFrom_byte (number : t.kind = .number) :
    itemsFrom eof (item :: before) (.token t :: rest) =
      match t.byte with
      | .error e => .error e ⟨rest, some t.kind⟩
      | .ok byte => itemsFrom eof (item.addByte byte t.span :: before) rest := by
  rw [itemsFrom.eq_def]
  simp only [number]
  rfl

theorem itemsFrom_file (inner : t.kind.endsLine = false) (file : ¬ t.IsByte done) :
    itemsFrom eof done (.token t :: rest) =
      if t.kind.namesFile then itemsFrom eof (⟨t.path, [], t.span⟩ :: done) rest
      else .error ⟨.needed .fileName t.kind, t.span⟩ ⟨rest, some t.kind⟩ := by
  rw [itemsFrom.eq_def]
  simp only [inner, Bool.false_eq_true, if_false]
  split
  · rename_i number
    exact absurd ⟨number, nofun⟩ file
  · rfl

end

def items (eof : Token) : Reads (List Item) := fun r => itemsFrom eof [] r.rest

def slotLine (slot : SlotKey) (first eof : Token) : Reads Statement := do
  let found ← items eof
  match found.getLast? with
  | none => throw ⟨.noFiles, first.span⟩
  | some last => return .slot slot first.span found (first.span.join last.span)

def statement (first eof : Token) : Reads Statement :=
  match first.kind with
  | .verbose => do
    let t ← pathToken .onOrOff eof
    let on ← check t.onOrOff
    lineEnd eof
    return .verbose on (first.span.join t.span)
  | .rom => do
    let t ← pathToken .romFileName eof
    lineEnd eof
    return .rom t.path (first.span.join t.span)
  | .file role => do
    let t ← pathToken .fileName eof
    lineEnd eof
    return .file role t.path (first.span.join t.span)
  | .freeram => do
    let t ← token eof
    let address ← check t.ramAddress
    lineEnd eof
    return .freeram address (first.span.join t.span)
  | .context kind => do
    lineEnd eof
    return .header kind first.span
  | .star => slotLine .aggregate first eof
  | .number => do slotLine (.index (← check first.hex).toNat) first eof
  | kind => throw ⟨.unexpectedStart kind, first.span⟩

/-- Goes on to the next line, unless the last token read was the end of its own. -/
def recover (r : Reader) : Reader :=
  if r.last?.any TokenKind.endsLine then r else { r with rest := dropLine r.rest }

def after {α : Type} : EStateM.Result (Flagged Fault) Reader α → Reader
  | .ok _ r | .error _ r => r

structure Consumes {α : Type} (action : Reads α) : Prop where
  suffix : ∀ r, (after (action r)).rest <:+ r.rest

namespace Consumes
variable {α β : Type}

theorem pure (a : α) : Consumes (Pure.pure a) := ⟨fun _ => List.suffix_refl _⟩

theorem throw (e : Flagged Fault) : Consumes (MonadExcept.throw e : Reads α) :=
  ⟨fun _ => List.suffix_refl _⟩

theorem bind {action : Reads α} {next : α → Reads β} (first : Consumes action)
    (rest : ∀ a, Consumes (next a)) : Consumes (action >>= next) := by
  refine ⟨fun r => ?_⟩
  have left := first.suffix r
  change (after (EStateM.bind action next r)).rest <:+ r.rest
  unfold EStateM.bind
  cases result : action r with
  | error e r' =>
    rw [result] at left
    exact left
  | ok a r' =>
    rw [result] at left
    exact ((rest a).suffix r').trans left

end Consumes

theorem consumes_token (eof : Token) : Consumes (token eof) := by
  refine ⟨fun r => ?_⟩
  obtain ⟨_ | ⟨_ | _, rest⟩, last⟩ := r
  · exact List.suffix_refl _
  · exact List.suffix_cons _ _
  · exact List.suffix_cons _ _

theorem consumes_pathToken (what : Needed) (eof : Token) : Consumes (pathToken what eof) := by
  apply (consumes_token eof).bind
  intro t
  split
  · exact Consumes.pure t
  · exact Consumes.throw _

theorem consumes_lineEnd (eof : Token) : Consumes (lineEnd eof) := by
  apply (consumes_token eof).bind
  intro t
  split
  · exact Consumes.pure ()
  · exact Consumes.throw _

theorem consumes_check {α : Type} (checked : Checked α) : Consumes (check checked) := by
  refine ⟨fun r => ?_⟩
  cases checked <;> exact List.suffix_refl _

theorem suffix_itemsFrom (eof : Token) (done : List Item) (line : List Lexeme) :
    (after (itemsFrom eof done line)).rest <:+ line := by
  fun_induction itemsFrom eof done line with
  | case1 => exact List.suffix_refl _
  | case2 => exact List.suffix_cons _ _
  | case3 => exact List.suffix_cons _ _
  | case4 => exact List.suffix_cons _ _
  | case5 _ _ _ _ _ _ _ _ ih => exact ih.trans (List.suffix_cons _ _)
  | case6 _ _ _ _ _ _ ih => exact ih.trans (List.suffix_cons _ _)
  | case7 => exact List.suffix_cons _ _

theorem consumes_slotLine (slot : SlotKey) (first eof : Token) : Consumes (slotLine slot first eof) := by
  have found : Consumes (items eof) := ⟨fun r => suffix_itemsFrom eof [] r.rest⟩
  apply found.bind
  intro items
  split
  · exact Consumes.throw _
  · exact Consumes.pure _

theorem consumes_statement (first eof : Token) : Consumes (statement first eof) := by
  have finish (s : Statement) : Consumes (lineEnd eof >>= fun _ => Pure.pure s) :=
    (consumes_lineEnd eof).bind fun _ => Consumes.pure s
  unfold statement
  split
  · apply (consumes_pathToken _ eof).bind
    intro t
    exact (consumes_check t.onOrOff).bind fun _ => finish _
  · exact (consumes_pathToken _ eof).bind fun _ => finish _
  · exact (consumes_pathToken _ eof).bind fun _ => finish _
  · apply (consumes_token eof).bind
    intro t
    exact (consumes_check t.ramAddress).bind fun _ => finish _
  · exact finish _
  · exact consumes_slotLine _ _ _
  · exact (consumes_check first.hex).bind fun _ => consumes_slotLine _ _ _
  · exact Consumes.throw _

theorem suffix_dropLine (ls : List Lexeme) : dropLine ls <:+ ls := by
  fun_induction dropLine ls with
  | case1 => exact List.suffix_refl _
  | case2 => exact List.suffix_cons _ _
  | case3 _ _ _ ih => exact ih.trans (List.suffix_cons _ _)
  | case4 _ _ _ ih => exact ih.trans (List.suffix_cons _ _)

theorem suffix_recover (r : Reader) : (recover r).rest <:+ r.rest := by
  unfold recover
  split
  · exact List.suffix_refl _
  · exact suffix_dropLine r.rest

/-- The statements and the faults of a list, which is read up to its end. -/
def readFrom (eof : Token) : List Lexeme → Parsed
  | [] => .empty
  | .stray text span :: rest =>
    (Parsed.ofFault ⟨.unexpectedText text, span⟩).append (readFrom eof (recover ⟨rest, none⟩).rest)
  | .token first :: rest =>
    if first.kind = .newline then readFrom eof rest
    else if first.kind = .endOfFile then .empty
    else match _same : statement first eof ⟨rest, some first.kind⟩ with
      | .ok s r => (Parsed.ofStatement s).append (readFrom eof r.rest)
      | .error e r => (Parsed.ofFault e).append (readFrom eof (recover r).rest)
termination_by ls => ls.length
decreasing_by
  · have left : (recover ⟨rest, none⟩).rest.length ≤ rest.length := (suffix_recover _).length_le
    simp only [List.length_cons]
    omega
  · simp only [List.length_cons]
    omega
  · have left := ((consumes_statement first eof).suffix ⟨rest, some first.kind⟩).length_le
    simp only [_same, after] at left
    simp only [List.length_cons]
    omega
  · have left := ((consumes_statement first eof).suffix ⟨rest, some first.kind⟩).length_le
    have below := (suffix_recover r).length_le
    simp only [_same, after] at left
    simp only [List.length_cons]
    omega

end Reader

end RomLinker.Listing
