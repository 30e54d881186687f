/-!
Requests made of a state, one after the other. A request is granted and changes the state, or refused and
changes nothing. Two requests that do not meet may change places (`Apart.swaps`).
-/
namespace RomLinker.Requests

variable {S O E : Type} (grant : S → O → Except E S)

def settle (s : S) (o : O) : S :=
  match grant s o with
  | .ok t => t
  | .error _ => s

def run (s : S) (os : List O) : S := os.foldl (settle grant) s

def refusal? (s : S) (o : O) : Option E :=
  match grant s o with
  | .ok _ => none
  | .error e => some e

def answers (s : S) : List O → List (Option E)
  | [] => []
  | o :: os => refusal? grant s o :: answers (settle grant s o) os

def granted (s : S) : List O → List O
  | [] => []
  | o :: os =>
    match grant s o with
    | .ok t => o :: granted t os
    | .error _ => granted s os

/-- Two requests do not meet: neither changes the answer to the other, and it does not matter which one
comes first. -/
structure Apart (s : S) (p q : O) : Prop where
  second : refusal? grant (settle grant s p) q = refusal? grant s q
  first : refusal? grant (settle grant s q) p = refusal? grant s p
  state : settle grant (settle grant s p) q = settle grant (settle grant s q) p

variable {grant} {s t : S} {o p q : O} {e : E} {os before rest : List O}

theorem settle_of_ok (granted : grant s o = .ok t) : settle grant s o = t := by
  rw [settle, granted]

theorem settle_of_error (refused : grant s o = .error e) : settle grant s o = s := by
  rw [settle, refused]

theorem refusal?_eq_none : refusal? grant s o = none ↔ ∃ t, grant s o = .ok t := by
  unfold refusal?
  cases grant s o with
  | ok t => simp
  | error e => simp

theorem refusal?_eq_some : refusal? grant s o = some e ↔ grant s o = .error e := by
  unfold refusal?
  cases grant s o with
  | ok t => simp
  | error e => simp

theorem run_append (s : S) (before rest : List O) :
    run grant s (before ++ rest) = run grant (run grant s before) rest :=
  List.foldl_append

theorem run_concat (s : S) (os : List O) (o : O) :
    run grant s (os ++ [o]) = settle grant (run grant s os) o :=
  run_append s os [o]

theorem answers_append (s : S) (before rest : List O) :
    answers grant s (before ++ rest) =
      answers grant s before ++ answers grant (run grant s before) rest := by
  induction before generalizing s with
  | nil => rfl
  | cons o before ih =>
    rw [List.cons_append, answers, answers, ih, List.cons_append]
    rfl

/-- Two neighbours in a run of requests may change places: each of them keeps its answer, all others keep
theirs, and the run ends where it did. -/
structure Swaps (grant : S → O → Except E S) (s : S) (before : List O) (p q : O) (rest : List O) : Prop where
  state : run grant s (before ++ p :: q :: rest) = run grant s (before ++ q :: p :: rest)
  answers : ∃ pAnswer qAnswer others,
    answers grant s (before ++ p :: q :: rest) = answers grant s before ++ pAnswer :: qAnswer :: others ∧
    answers grant s (before ++ q :: p :: rest) = answers grant s before ++ qAnswer :: pAnswer :: others

theorem Apart.swaps (apart : Apart grant (run grant s before) p q) (rest : List O) :
    Swaps grant s before p q rest := by
  refine ⟨?_, refusal? grant (run grant s before) p, refusal? grant (run grant s before) q,
    Requests.answers grant (settle grant (settle grant (run grant s before) p) q) rest, ?_, ?_⟩
  · rw [run_append, run_append]
    change run grant (settle grant (settle grant (run grant s before) p) q) rest = _
    rw [apart.state]
    rfl
  · rw [answers_append, Requests.answers, Requests.answers, apart.second]
  · rw [answers_append, Requests.answers, Requests.answers, apart.first, apart.state]

end RomLinker.Requests
