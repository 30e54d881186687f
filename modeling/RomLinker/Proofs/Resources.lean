import Mathlib.Data.List.Basic
import Mathlib.Data.List.Induction
import Mathlib.Data.List.Nodup
import RomLinker.Resource

/-!
The numbers of resources. A table that took up files in some order has the normal paths among them,
each once, by first mention, and every resource stands at the place that its number names
(`ResourceTable.Mentions`).
-/
namespace RomLinker

section FirstMentions
variable {α : Type} [BEq α] [LawfulBEq α] {xs ys : List α} {x y : α}

theorem eraseDups_concat_of_mem (member : x ∈ xs) : (xs ++ [x]).eraseDups = xs.eraseDups := by
  have rest : [x].removeAll xs = [] := by simp [List.removeAll, member]
  rw [List.eraseDups_append, rest, List.eraseDups_nil, List.append_nil]

theorem eraseDups_concat_of_notMem (new : x ∉ xs) :
    (xs ++ [x]).eraseDups = xs.eraseDups ++ [x] := by
  have rest : [x].removeAll xs = [x] := by simp [List.removeAll, new]
  rw [List.eraseDups_append, rest]
  rfl

theorem nodup_eraseDups (xs : List α) : xs.eraseDups.Nodup := by
  induction xs using List.reverseRecOn with
  | nil => exact List.nodup_nil
  | append_singleton xs x ih =>
    by_cases member : x ∈ xs
    · rw [eraseDups_concat_of_mem member]
      exact ih
    · rw [eraseDups_concat_of_notMem member]
      refine List.nodup_append.mpr ⟨ih, by simp, ?_⟩
      intro a old b new same
      rw [List.mem_singleton.mp new] at same
      exact member (List.mem_eraseDups.mp (same ▸ old))

/-- What comes later does not change the place of what was mentioned. -/
theorem idxOf_eraseDups_append (member : x ∈ xs) :
    (xs ++ ys).eraseDups.idxOf x = xs.eraseDups.idxOf x := by
  rw [List.eraseDups_append, List.idxOf_append, if_pos (List.mem_eraseDups.mpr member)]

theorem idxOf_eraseDups_inj (member : x ∈ xs) :
    xs.eraseDups.idxOf x = xs.eraseDups.idxOf y ↔ x = y :=
  List.idxOf_inj (List.mem_eraseDups.mpr member)

end FirstMentions

namespace ResourceTable

/-- The table of the files that were taken up in an order. -/
structure Mentions (t : ResourceTable) (names : List Path) : Prop where
  files : t.resources.map (·.file) = names.eraseDups
  ids : ∀ k r, t.get? k = some r → r.id = k

theorem mentions_empty : empty.Mentions [] := ⟨rfl, fun _ _ found => by cases found⟩

variable {t : ResourceTable} {names : List Path} {file : Path} {r : Resource}

theorem Mentions.size (mentions : t.Mentions names) : t.size = names.eraseDups.length := by
  rw [← mentions.files, List.length_map]
  rfl

theorem Mentions.find?_eq_none (mentions : t.Mentions names) :
    t.find? file = none ↔ file.normal ∉ names := by
  rw [← List.mem_eraseDups, ← mentions.files]
  simp only [find?, List.find?_eq_none, beq_iff_eq, List.mem_map]
  exact ⟨fun absent ⟨r, member, same⟩ => absent r member same,
    fun absent r member same => absent ⟨r, member, same⟩⟩

theorem Mentions.find?_eq_some (mentions : t.Mentions names) (found : t.find? file = some r) :
    r.file = file.normal ∧ r.id = names.eraseDups.idxOf file.normal ∧ r ∈ t.resources := by
  have place := List.find?_eq_some_iff_append.mp found
  obtain ⟨same, before, after, split, earlier⟩ := place
  have here : r.file = file.normal := beq_iff_eq.mp same
  have absent : file.normal ∉ before.map (·.file) := by
    intro h
    obtain ⟨q, member, old⟩ := List.mem_map.mp h
    simpa [old] using earlier q member
  have number : r.id = before.length := by
    refine mentions.ids _ _ ?_
    rw [get?, split]
    simp
  have first : names.eraseDups.idxOf file.normal = before.length := by
    rw [← mentions.files, split, List.map_append, List.map_cons, List.idxOf_append, if_neg absent,
      here, List.idxOf_cons_self, Nat.zero_add, List.length_map]
  refine ⟨here, number.trans first.symm, ?_⟩
  rw [split]
  exact List.mem_append_right _ List.mem_cons_self

theorem Mentions.concat (mentions : t.Mentions names) (new : r.file ∉ names)
    (next : r.id = t.size) : (ResourceTable.mk (t.resources ++ [r])).Mentions (names ++ [r.file]) := by
  refine ⟨?_, fun k q found => ?_⟩
  · rw [eraseDups_concat_of_notMem new, ← mentions.files]
    simp
  · rcases Nat.lt_trichotomy k t.resources.length with below | rfl | above
    · refine mentions.ids k q ?_
      rw [← found]
      simp [get?, List.getElem?_append_left below]
    · have last : r = q := by simpa [get?] using found
      rw [← last, next]
      rfl
    · have outside : (ResourceTable.mk (t.resources ++ [r])).get? k = none := by
        rw [get?, List.getElem?_eq_none_iff]
        simp
        omega
      rw [outside] at found
      cases found

theorem Mentions.again (mentions : t.Mentions names) {name : Path} (known : name ∈ names) :
    t.Mentions (names ++ [name]) :=
  ⟨by rw [eraseDups_concat_of_mem known, mentions.files], mentions.ids⟩

theorem Mentions.mem_iff (mentions : t.Mentions names) :
    (∃ r ∈ t.resources, r.file = file) ↔ file ∈ names := by
  rw [← List.mem_eraseDups, ← mentions.files]
  simp

theorem Mentions.nodup_files (mentions : t.Mentions names) : (t.resources.map (·.file)).Nodup := by
  rw [mentions.files]
  exact nodup_eraseDups names

theorem Mentions.get?_id (mentions : t.Mentions names) (member : r ∈ t.resources) : t.get? r.id = some r := by
  obtain ⟨k, here⟩ := List.mem_iff_getElem?.mp member
  rw [mentions.ids k r here]
  exact here

theorem Mentions.unique (mentions : t.Mentions names) {q : Resource} (here : r ∈ t.resources)
    (there : q ∈ t.resources) (same : r.file = q.file) : r = q :=
  List.inj_on_of_nodup_map mentions.nodup_files here there same

theorem Mentions.find?_iff (mentions : t.Mentions names) :
    t.find? file = some r ↔ t.get? r.id = some r ∧ r.file = file.normal := by
  constructor
  · intro found
    obtain ⟨same, -, member⟩ := mentions.find?_eq_some found
    exact ⟨mentions.get?_id member, same⟩
  · intro ⟨here, same⟩
    have member : r ∈ t.resources := List.mem_of_getElem? here
    cases found : t.find? file with
    | none =>
      have known := mentions.mem_iff.mp ⟨r, member, same⟩
      exact absurd known (mentions.find?_eq_none.mp found)
    | some q =>
      obtain ⟨same', -, member'⟩ := mentions.find?_eq_some found
      rw [mentions.unique member member' (same.trans same'.symm)]

theorem get?_put (inside : r.id < t.size) (k : Nat) :
    (t.put r).get? k = if k = r.id then some r else t.get? k := by
  unfold put get?
  rw [List.getElem?_set]
  by_cases same : r.id = k
  · have bound : r.id < t.resources.length := inside
    rw [if_pos same, if_pos bound, if_pos same.symm]
  · rw [if_neg same, if_neg (Ne.symm same)]

/-- A changed resource keeps the table in order if it keeps its number and its file. -/
theorem Mentions.put (mentions : t.Mentions names) {q : Resource} (found : t.get? q.id = some r)
    (same : q.file = r.file) : (t.put q).Mentions names := by
  have inside : q.id < t.size := (List.getElem?_eq_some_iff.mp found).1
  refine ⟨?_, fun k u there => ?_⟩
  · have listed : (t.resources.map (·.file))[q.id]? = some q.file := by
      rw [List.getElem?_map, same]
      exact congrArg (Option.map _) found
    obtain ⟨bound, here⟩ := List.getElem?_eq_some_iff.mp listed
    rw [← mentions.files, ResourceTable.put, List.map_set, ← here, List.set_getElem_self]
  · rw [get?_put inside] at there
    split at there
    · rename_i last
      rw [← Option.some.inj there, last]
    · exact mentions.ids k u there

end ResourceTable

def directivesOf? (w : Workspace) (d : Disk) (file : Path) : Option Directives :=
  match d.readText (w.path file) with
  | .ok source => (Directives.parse source).toOption
  | .error _ => none

theorem Resource.readDirectives_eq_ok {r q : Resource} {w : Workspace} {d : Disk} :
    r.readDirectives w d = .ok q ↔
      ∃ directives, directivesOf? w d r.file = some directives ∧ q = { r with directives } := by
  unfold readDirectives directivesOf?
  cases read : d.readText (w.path r.file) with
  | error e => simp [read]
  | ok source =>
    cases parsed : Directives.parse source with
    | error e => simp [read, parsed, Except.toOption]
    | ok directives => simp [read, parsed, Except.toOption, eq_comm]

end RomLinker
