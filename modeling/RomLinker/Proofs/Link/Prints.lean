import RomLinker.Proofs.Link.Lengths
import RomLinker.Proofs.Link.Quiet

/-!
What printed lines lead to (`takePrints_exact`). If every line is sound behind the ones in front of it, they
add the start of each part on the side to the addresses to clean, and where the main part starts first, if
that is wanted; to the sizes they add those of the parts on the side, and to the log the messages. Where the
main part starts and its size are returned. If not, it ends with the first line that is not sound.
-/
namespace RomLinker

namespace PrintMarker

/-- The addresses to clean that printed lines give, line after line: the start of each part on the side,
and the first start of the main part if `capture` says so. -/
def captured : Bool → List String → List Address
  | _, [] => []
  | capture, line :: lines =>
    match Line.ofText line with
    | .start (some start) => (if capture then [start] else []) ++ captured false lines
    | .extra (some start) (some _) => start :: captured capture lines
    | _ => captured capture lines

variable {line : String} {lines : List String} {start stop : Address} {capture : Bool}

theorem firstStart?_cons :
    firstStart? (line :: lines) = (Line.ofText line).start?.or (firstStart? lines) := by
  unfold firstStart?
  rw [List.findSome?_cons]
  cases (Line.ofText line).start? <;> rfl

/-- A start in front ends the capture. -/
theorem cleanOf?_cons {last : String} :
    cleanOf? capture (line :: lines) last =
      cleanOf? ((Line.ofText line).start?.isNone && capture) lines last := by
  unfold cleanOf?
  rw [firstStart?_cons, Option.isNone_or, Bool.and_assoc, Bool.and_left_comm]

theorem captured_concat {last : String} :
    captured capture (lines ++ [last]) = captured capture lines ++ (cleanOf? capture lines last).toList := by
  induction lines generalizing capture with
  | nil =>
    rcases read : Line.ofText last with (_ | start) | _ | ⟨_ | start, _ | stop⟩ | _ <;>
      cases capture <;> simp [captured, cleanOf?, firstStart?, read]
  | cons line lines ih =>
    rw [cleanOf?_cons]
    rcases read : Line.ofText line with (_ | start) | _ | ⟨_ | start, _ | stop⟩ | _ <;>
      simp [captured, Line.start?, read, ih]

theorem captured_eq_cleaned : captured capture lines = cleaned capture lines := by
  induction lines using List.reverseRecOn with
  | nil => rfl
  | append_singleton lines last ih => rw [captured_concat, cleaned_concat, ih]

theorem lt_of_captured {a : Address} (member : a ∈ captured capture lines) :
    a.toNat < Address.limit := by
  induction lines generalizing capture with
  | nil => cases member
  | cons line lines ih =>
    unfold captured at member
    split at member
    · rename_i start read
      rcases List.mem_append.mp member with first | later
      · split at first
        · rw [List.mem_singleton.mp first]
          exact lt_of_start read
        · cases first
      · exact ih later
    · rename_i start stop read
      rcases List.mem_cons.mp member with rfl | later
      · exact lt_of_extra read
      · exact ih later
    · exact ih member

end PrintMarker

namespace Ledger

theorem add_zero (l : Ledger) (p : Purpose) : l.add 0 p = l := by
  cases p <;> rfl

theorem add_comm (l : Ledger) (m n : Nat) (p q : Purpose) : (l.add m p).add n q = (l.add n q).add m p := by
  cases p <;> cases q <;> simp only [add, Nat.add_right_comm]

theorem add_add (l : Ledger) (m n : Nat) (p : Purpose) : (l.add m p).add n p = l.add (m + n) p := by
  cases p <;> simp only [add, Nat.add_assoc]

end Ledger

namespace PrintMarker

variable {σ : Type} {before lines : List String} {line : String} {file : Path} {capture : Bool}

/-- What the lines so far said of the main part. -/
def reached (lines : List String) : Progress :=
  { first? := firstStart? lines, size := mainSize lines, opened? := opening? lines }

def messages (file : Path) (lines : List String) : Log :=
  (lines.filter fun line => Line.ofText line = .message).map fun line => ⟨.info, s!"{file.text}: {line}"⟩

def taken (file : Path) (capture : Bool) (lines : List String) (s : Linker σ) : Linker σ :=
  { s with
    log := s.log ++ messages file lines
    session := { s.session with
      cleans := s.session.cleans ++ cleaned capture lines
      ledger := s.session.ledger.add (sideSize lines) .other } }

theorem messages_marker (marker : Line.ofText line ≠ .message) : messages file [line] = [] := by
  simp [messages, marker]

theorem messages_message (read : Line.ofText line = .message) :
    messages file [line] = [⟨.info, s!"{file.text}: {line}"⟩] := by
  simp [messages, read]

theorem taken_nil (s : Linker σ) : taken file capture [] s = s := by
  unfold taken
  rw [show messages file [] = [] from rfl, show cleaned capture [] = [] from rfl,
    show sideSize [] = 0 from rfl, Ledger.add_zero, List.append_nil, List.append_nil]

theorem reached_concat : reached (before ++ [line]) =
    { first? := (firstStart? before).or (Line.ofText line).start?
      size := mainSize before + mainLength before line
      opened? := (Line.ofText line).bound?.getD (opening? before) } := by
  unfold reached
  rw [firstStart?_concat, mainSize_concat, opening?_concat]

theorem taken_concat (s : Linker σ) : taken file capture (before ++ [line]) s =
    let t := taken file capture before s
    { t with
      log := t.log ++ messages file [line]
      session := { t.session with
        cleans := t.session.cleans ++ (cleanOf? capture before line).toList
        ledger := t.session.ledger.add (sideLength line) .other } } := by
  unfold taken
  rw [cleaned_concat, sideSize_concat]
  simp only [Ledger.add_add, List.append_assoc]
  rw [messages, List.filter_append, List.map_append]
  rfl

theorem distance_of_le {start stop : Address} (ordered : start ≤ stop) (s : Linker σ) :
    distance file line start stop s = .ok (stop.toNat - start.toNat) s := by
  unfold distance
  rw [if_neg (UInt32.not_lt.mpr ordered)]
  rfl

theorem distance_of_lt {start stop : Address} (short : stop < start) (s : Linker σ) :
    distance file line start stop s = .error (.toolchain file (.endsBeforeStart line)) s := by
  unfold distance
  rw [if_pos short]
  rfl

theorem takeLine_of_sound (sound : Sound before line) (s : Linker σ) :
    takeLine file capture (reached before) line (taken file capture before s) =
      .ok (reached (before ++ [line])) (taken file capture (before ++ [line]) s) := by
  rw [reached_concat, taken_concat]
  unfold Sound at sound
  unfold takeLine
  cases read : Line.ofText line with
  | start start? =>
    rw [read] at sound
    obtain ⟨start, rfl⟩ := Option.isSome_iff_exists.mp sound
    have silent : messages file [line] = [] := messages_marker (by simp [read])
    simp only [silent, mainLength, sideLength, cleanOf?, Line.start?, Line.bound?, read, Ledger.add_zero,
      List.append_nil]
    cases wanted : (reached before).first?.isNone && capture with
    | true =>
      have first : ((firstStart? before).isNone && capture) = true := wanted
      rw [if_pos rfl, if_pos first]
      rfl
    | false =>
      have later : ¬((firstStart? before).isNone && capture) = true := Bool.eq_false_iff.mp wanted
      rw [if_neg Bool.false_ne_true, if_neg later, Option.toList_none, List.append_nil]
      rfl
  | stop stop? =>
    rw [read] at sound
    obtain ⟨start, stop, opened, rfl, ordered⟩ := sound
    have silent : messages file [line] = [] := messages_marker (by simp [read])
    simp only [silent, mainLength, sideLength, cleanOf?, Line.start?, Line.bound?, read, opened, Ledger.add_zero,
      Option.or_none, Option.toList_none, List.append_nil]
    rw [show (reached before).opened? = some start from opened]
    exact LinkM.bind_of_ok (distance_of_le ordered _)
  | extra start? stop? =>
    rw [read] at sound
    obtain ⟨start, stop, rfl, rfl, ordered⟩ := sound
    have silent : messages file [line] = [] := messages_marker (by simp [read])
    simp only [silent, mainLength, sideLength, cleanOf?, Line.start?, Line.bound?, read, Option.or_none,
      List.append_nil]
    exact LinkM.bind_of_ok (distance_of_le ordered _)
  | message =>
    simp only [messages_message read, mainLength, sideLength, cleanOf?, Line.start?, Line.bound?, read,
      Ledger.add_zero, Option.or_none, Option.toList_none, List.append_nil]
    rfl

def markerFaults (line : String) : List ToolchainFault :=
  [.malformedMarker line, .unmatchedEnd line, .endsBeforeStart line]

theorem takeLine_of_not_sound (file : Path) (capture : Bool) (unsound : ¬Sound before line) (s : Linker σ) :
    ∃ fault ∈ markerFaults line,
      takeLine file capture (reached before) line s = .error (.toolchain file fault) s := by
  have malformed : .malformedMarker line ∈ markerFaults line := by simp [markerFaults]
  have unmatched : .unmatchedEnd line ∈ markerFaults line := by simp [markerFaults]
  have backwards : .endsBeforeStart line ∈ markerFaults line := by simp [markerFaults]
  unfold Sound at unsound
  unfold takeLine
  cases read : Line.ofText line with
  | start start? =>
    rw [read] at unsound
    cases start? with
    | none => exact ⟨_, malformed, rfl⟩
    | some start => exact absurd rfl unsound
  | stop stop? =>
    rw [read] at unsound
    cases stop? with
    | none => exact ⟨_, malformed, rfl⟩
    | some stop =>
      cases opened : opening? before with
      | none =>
        simp only [show (reached before).opened? = none from opened]
        exact ⟨_, unmatched, rfl⟩
      | some start =>
        have short : stop < start := UInt32.not_le.mp fun ordered => unsound ⟨start, stop, opened, rfl, ordered⟩
        simp only [show (reached before).opened? = some start from opened]
        exact ⟨_, backwards, LinkM.bind_of_error (distance_of_lt short s)⟩
  | extra start? stop? =>
    rw [read] at unsound
    cases start? with
    | none => exact ⟨_, malformed, rfl⟩
    | some start =>
      cases stop? with
      | none => exact ⟨_, malformed, rfl⟩
      | some stop =>
        have short : stop < start := UInt32.not_le.mp fun ordered => unsound ⟨start, stop, rfl, rfl, ordered⟩
        exact ⟨_, backwards, LinkM.bind_of_error (distance_of_lt short s)⟩
  | message =>
    rw [read] at unsound
    exact absurd trivial unsound

/-! ### All lines -/

/-- The lines in front of a line were taken in, and this one is not sound. -/
structure StopsAt (file : Path) (capture : Bool) (before : List String) (line : String) (s : Linker σ)
    (e : LinkError) (t : Linker σ) : Prop where
  sound : EachAfter Sound before
  unsound : ¬Sound before line
  fault : ∃ fault ∈ markerFaults line, e = .toolchain file fault
  state : t = taken file capture before s

theorem takeLines_cases (file : Path) (capture : Bool) (lines : List String) (s : Linker σ) :
    (EachAfter Sound lines ∧
      lines.foldlM (takeLine file capture) {} s = .ok (reached lines) (taken file capture lines s)) ∨
    ∃ before line after e t, lines = before ++ line :: after ∧ StopsAt file capture before line s e t ∧
      lines.foldlM (takeLine file capture) {} s = .error e t := by
  -- From the end, since a line is taken in by what the lines in front of it said.
  induction lines using List.reverseRecOn with
  | nil =>
    refine Or.inl ⟨EachAfter.nil, ?_⟩
    rw [taken_nil]
    rfl
  | append_singleton lines last ih =>
    rw [List.foldlM_append]
    simp only [List.foldlM_cons, List.foldlM_nil, bind_pure]
    rcases ih with ⟨sound, ran⟩ | ⟨before, line, after, e, t, split, stops, stopped⟩
    · rw [LinkM.bind_of_ok ran]
      by_cases fine : Sound lines last
      · exact Or.inl ⟨EachAfter.concat_iff.mpr ⟨sound, fine⟩, takeLine_of_sound fine s⟩
      · obtain ⟨fault, marked, stopped⟩ :=
          takeLine_of_not_sound file capture fine (taken file capture lines s)
        exact Or.inr ⟨lines, last, [], _, _, rfl, ⟨sound, fine, ⟨fault, marked, rfl⟩, rfl⟩, stopped⟩
    · refine Or.inr ⟨before, line, after ++ [last], e, t, ?_, stops, LinkM.bind_of_error stopped⟩
      rw [split, List.append_assoc, List.cons_append]

end PrintMarker

namespace LinkM

open PrintMarker

variable {σ : Type} {s t : Linker σ} {file : Path} {capture : Bool}

theorem takePrints_cases (file : Path) (capture : Bool) (s : Linker σ) :
    (EachAfter Sound s.session.prints ∧
      takePrints file capture s =
        .ok (reached s.session.prints).insertion (taken file capture s.session.prints s)) ∨
    ∃ before line after e t, s.session.prints = before ++ line :: after ∧
      StopsAt file capture before line s e t ∧ takePrints file capture s = .error e t := by
  have run : takePrints file capture s =
      (s.session.prints.foldlM (takeLine file capture) {} >>= fun p => pure p.insertion) s := rfl
  rw [run]
  rcases takeLines_cases file capture s.session.prints s with
    ⟨sound, ran⟩ | ⟨before, line, after, e, t, split, stops, stopped⟩
  · exact Or.inl ⟨sound, bind_of_ok ran⟩
  · exact Or.inr ⟨before, line, after, e, t, split, stops, bind_of_error stopped⟩

/-- Some addresses are added to those to clean, and a number of bytes on the side to the sizes. What else
may change are the rest of the session, and the log. -/
structure Tallies (added : List Address) (n : Nat) (s t : Linker σ) : Prop where
  workspace : t.workspace = s.workspace
  assembler : t.assembler = s.assembler
  cleans : t.session.cleans = s.session.cleans ++ added
  ledger : t.session.ledger = s.session.ledger.add n .other

theorem leads_takePrints :
    Leads (· = s) (takePrints file capture) fun inserted t =>
      (EachAfter Sound s.session.prints ∧ inserted.size = mainSize s.session.prints) ∧
        Tallies (captured capture s.session.prints) (sideSize s.session.prints) s t := by
  refine ⟨fun t same => ?_⟩
  subst same
  rcases takePrints_cases file capture t with ⟨sound, ran⟩ | ⟨_, _, _, _, _, -, -, stopped⟩
  · rw [ran, captured_eq_cleaned]
    exact ⟨⟨sound, rfl⟩, rfl, rfl, rfl, rfl⟩
  · rw [stopped]
    trivial

/-- For all printed lines and every state: they are taken in exactly if every line is sound behind the ones in
front of it. Then the first start and the size of the main part are returned, the state has what the lines
give, and nothing else of it has changed. Where they are not taken in, the fault is of the first line that is
not sound, and the state has what the lines in front of it give. -/
theorem takePrints_exact (file : Path) (capture : Bool) (s : Linker σ) :
    (∀ inserted t, takePrints file capture s = .ok inserted t ↔
      EachAfter Sound s.session.prints ∧
        inserted = ⟨(firstStart? s.session.prints).getD 0, mainSize s.session.prints⟩ ∧
        t = { s with
          log := s.log ++ messages file s.session.prints
          session := { s.session with
            cleans := s.session.cleans ++ cleaned capture s.session.prints
            ledger := s.session.ledger.add (sideSize s.session.prints) .other } }) ∧
    ∀ e t, takePrints file capture s = .error e t →
      ∃ before line after, s.session.prints = before ++ line :: after ∧
        StopsAt file capture before line s e t := by
  rcases takePrints_cases file capture s with
    ⟨sound, ran⟩ | ⟨before, line, after, e, t, split, stops, stopped⟩
  · rw [ran]
    refine ⟨fun inserted t => ⟨fun same => ?_, fun ⟨_, returned, given⟩ => ?_⟩, fun e t other => ?_⟩
    · cases same
      exact ⟨sound, rfl, rfl⟩
    · rw [returned, given]
      rfl
    · cases other
  · rw [stopped]
    refine ⟨fun inserted u => ⟨fun other => ?_, fun ⟨sound, _⟩ => ?_⟩, fun e' u same => ?_⟩
    · cases other
    · exact absurd (sound before line after split) stops.unsound
    · cases same
      exact ⟨before, line, after, split, stops⟩

end LinkM
end RomLinker
