import Mathlib.Data.List.Basic
import RomLinker.Proofs.Asar
import RomLinker.Proofs.SymbolFile.Sections
import RomLinker.Proofs.Utf8

/-!
Symbol files by their bytes. The entries of a file can be told from all of its other lines whatever bytes there
are, so that its labels by section (`sectionLabels`) need no more than that the entries are ASCII. Read with
tolerance a file gives just these (`parse_decode`). The assembler's answer has them if all of the file is UTF-8,
and otherwise none (`labels_of_patch`).
-/
namespace RomLinker

namespace SymbolFile
open Text

def lineText (line : List UInt8) : List Char := trim (Utf8.decode ⟨line.toArray⟩).toList

/-- The lines of the sections of labels that are neither blank nor comments, by their bytes. -/
def entryBytes (bytes : ByteArray) : List (List UInt8) := entries lineText (bytes.data.toList.splitOn 0x0A)

def ascii (line : List UInt8) : List Char := line.map fun b => Char.ofNat b.toNat

def sectionLabels (bytes : ByteArray) : List Label :=
  (entryBytes bytes).filterMap fun line => label? (trim (ascii line))

theorem lineText_eq (line : List UInt8) : lineText line = trim (Utf8.charsFrom none line) := by
  rw [lineText, Utf8.toList_decode]

theorem parse_decode {bytes : ByteArray} (plain : ∀ line ∈ entryBytes bytes, ∀ b ∈ line, b < 0x80) :
    parse (Utf8.decode bytes) = sectionLabels bytes := by
  have texts : lineText = trim ∘ Utf8.charsFrom none := funext lineText_eq
  rw [parse_eq_entries, Utf8.toList_decode, Utf8.splitOn_charsFrom, entries_map, ← texts, List.filterMap_map]
  refine List.filterMap_congr fun line member => ?_
  simp [Utf8.charsFrom_ascii (plain line member), ascii]

end SymbolFile

namespace Asar
open SymbolFile

variable {σ : Type} {t : Tool σ} {source : Path} {defines : Defines} {last assembly : Assembly} {disk : Disk}
  {state after : σ} {run : Finished} {bytes : ByteArray}

/-- The strict reading of a file agrees with the tolerant one where all of it is UTF-8. -/
theorem symbolLabels_of_valid (valid : bytes.IsValidUTF8) :
    symbolLabels (some bytes) = parse (Text.Utf8.decode bytes) := by
  have text : bytes = (String.fromUTF8 bytes valid).toUTF8 := rfl
  rw [text, symbolLabels_text, Text.Utf8.decode_toUTF8]

theorem symbolLabels_of_invalid (invalid : ¬ bytes.IsValidUTF8) : symbolLabels (some bytes) = [] := by
  refine symbolLabels_of_unreadable fun text same => invalid ?_
  obtain rfl := Option.some.inj same
  exact text.isValidUTF8

theorem Describes.labels_eq (describes : Describes assembly run)
    (left : run.left.read (symbolsPath run.scratch) = .ok bytes) : assembly.labels = symbolLabels (some bytes) := by
  by_cases readable : ∃ text : String, bytes = text.toUTF8
  · obtain ⟨text, rfl⟩ := readable
    rw [describes.labels text left, symbolLabels_text]
  · have unreadable : ∀ text : String, some bytes ≠ some text.toUTF8 := by
      intro text same
      exact readable ⟨text, Option.some.inj same⟩
    rw [symbolLabels_of_unreadable unreadable]
    refine describes.unreadable fun text there => unreadable text ?_
    exact congrArg some (Except.ok.inj (left.symm.trans there))

theorem describes_of_ok (runs : Runs t source defines last.image disk state run after)
    (done : (t.patch source defines last disk state).1 = .ok ()) :
    Describes (t.patch source defines last disk state).2.1 run := by
  obtain ⟨run', after', runs', counts⟩ := exists_runs_of_ok done
  obtain ⟨rfl, -⟩ := runs.unique runs'
  exact ((patch_of_runs runs).2.2 counts).2

/-- A symbol file whose entries are ASCII, behind a request that succeeds. Whatever its other lines are, the entries
are read with tolerance as by themselves. But the labels of the assembly are these only if the file is UTF-8 from
end to end: any other byte anywhere loses all of them. -/
theorem labels_of_patch (runs : Runs t source defines last.image disk state run after)
    (done : (t.patch source defines last disk state).1 = .ok ())
    (left : run.left.read (symbolsPath run.scratch) = .ok bytes)
    (plain : ∀ line ∈ entryBytes bytes, ∀ b ∈ line, b < 0x80) :
    let labels := (t.patch source defines last disk state).2.1.labels
    parse (Text.Utf8.decode bytes) = sectionLabels bytes ∧
    (labels = sectionLabels bytes ↔ bytes.IsValidUTF8 ∨ sectionLabels bytes = []) ∧
    (¬ bytes.IsValidUTF8 → labels = []) := by
  intro labels
  have read : labels = symbolLabels (some bytes) := (describes_of_ok runs done).labels_eq left
  have tolerant := parse_decode plain
  refine ⟨tolerant, ?_, fun invalid => ?_⟩
  · by_cases valid : bytes.IsValidUTF8
    · rw [read, symbolLabels_of_valid valid, tolerant]
      exact ⟨fun _ => Or.inl valid, fun _ => rfl⟩
    · rw [read, symbolLabels_of_invalid valid]
      exact ⟨fun none => Or.inr none.symm, fun held => (held.resolve_left valid).symm⟩
  · rw [read, symbolLabels_of_invalid invalid]

def leaves (symbols : ByteArray) : Tool Unit where
  path := ⟨"asar"⟩
  scratch _ _ := ⟨"/tmp"⟩
  run _ disk state := (.ok ⟨true, .empty, .empty⟩, (disk.store (symbolsPath ⟨"/tmp"⟩) symbols).2, state)

/-- A label, and a section of file names with a byte behind them. -/
def symbolsWith (b : UInt8) : ByteArray :=
  ⟨"[labels]\n1F:8000 Good\n[source files]\n0000 a.asm".toUTF8.data ++ #[b]⟩

def leftBy (symbols : ByteArray) : Except AssemblerFault Unit × Assembly × Disk × Unit :=
  (leaves symbols).patch ⟨"a.asm"⟩ .empty ⟨.empty, [], []⟩ Disk.empty ()

theorem read_leaves {symbols : ByteArray}
    (runs : Runs (leaves symbols) ⟨"a.asm"⟩ .empty .empty Disk.empty () run ()) :
    run.left.read (symbolsPath run.scratch) = .ok symbols := by
  obtain ⟨fresh, made, stored⟩ := runs.staged
  have scratch : run.scratch = ⟨"/tmp"⟩ := runs.scratch
  rw [scratch] at made stored ⊢
  obtain ⟨-, rfl⟩ := Disk.makeDirectory_eq_ok made
  have found : (Disk.store _ _ _).2 = run.found := congrArg Prod.snd stored
  have left : (run.found.store (symbolsPath ⟨"/tmp"⟩) symbols).2 = run.left :=
    congrArg (fun answer => answer.2.1) runs.ran
  have opens : (((Disk.empty.insert (Disk.empty.place ⟨"/tmp"⟩) .directory).store (imagePath ⟨"/tmp"⟩)
      .empty).2.openPlace (symbolsPath ⟨"/tmp"⟩)).isOk = true := by decide +kernel
  rw [found] at opens
  obtain ⟨l, opened⟩ := Except.exists_of_isOk opens
  obtain ⟨k, written⟩ := Disk.store_eq_ok stored
  have smooth : run.found.obstacles = {} := written.obstacles
  have goes : (run.found.store (symbolsPath ⟨"/tmp"⟩) symbols).1 = .ok () := by
    rw [Disk.store, opened]
    show (run.found.put l .empty symbols).1 = .ok ()
    rw [Disk.put, smooth]
  obtain ⟨m, writes⟩ := Disk.store_eq_ok (Prod.ext goes left)
  exact writes.read

theorem labels_of_patch_ascii : ∃ run,
    Runs (leaves (symbolsWith 0x0A)) ⟨"a.asm"⟩ .empty .empty Disk.empty () run () ∧
    (leftBy (symbolsWith 0x0A)).1 = .ok () ∧
    run.left.read (symbolsPath run.scratch) = .ok (symbolsWith 0x0A) ∧
    (∀ line ∈ entryBytes (symbolsWith 0x0A), ∀ b ∈ line, b < 0x80) ∧
    (leftBy (symbolsWith 0x0A)).2.1.labels = [⟨"Good", 0x1F8000⟩] := by
  have plain : ∀ line ∈ entryBytes (symbolsWith 0x0A), ∀ b ∈ line, b < 0x80 := by decide +kernel
  have found : sectionLabels (symbolsWith 0x0A) = [⟨"Good", 0x1F8000⟩] := by decide +kernel
  have valid : (symbolsWith 0x0A).IsValidUTF8 := by decide +kernel
  have passes : (leftBy (symbolsWith 0x0A)).1.isOk = true := by decide +kernel
  obtain ⟨⟨⟩, done⟩ := Except.exists_of_isOk passes
  obtain ⟨run, ⟨⟩, runs, -⟩ := exists_runs_of_ok done
  have left := read_leaves runs
  have runs' : Runs (leaves (symbolsWith 0x0A)) ⟨"a.asm"⟩ .empty (Assembly.mk .empty [] []).image Disk.empty ()
    run () := runs
  have read := (labels_of_patch runs' done left plain).2.1.mpr (Or.inl valid)
  exact ⟨run, runs, done, left, plain, read.trans found⟩

theorem labels_lost : (leftBy (symbolsWith 0xE9)).1 = .ok () ∧
    (∃ run, Runs (leaves (symbolsWith 0xE9)) ⟨"a.asm"⟩ .empty .empty Disk.empty () run () ∧
      run.left.read (symbolsPath run.scratch) = .ok (symbolsWith 0xE9)) ∧
    (∀ line ∈ entryBytes (symbolsWith 0xE9), ∀ b ∈ line, b < 0x80) ∧
    sectionLabels (symbolsWith 0xE9) = [⟨"Good", 0x1F8000⟩] ∧
    (leftBy (symbolsWith 0xE9)).2.1.labels = [] := by
  have passes : (leftBy (symbolsWith 0xE9)).1.isOk = true := by decide +kernel
  obtain ⟨⟨⟩, done⟩ := Except.exists_of_isOk passes
  obtain ⟨run, ⟨⟩, runs, -⟩ := exists_runs_of_ok done
  have left := read_leaves runs
  have invalid : ¬ (symbolsWith 0xE9).IsValidUTF8 := by decide +kernel
  refine ⟨done, ⟨run, runs, left⟩, by decide +kernel, by decide +kernel, ?_⟩
  exact ((describes_of_ok runs done).labels_eq left).trans (symbolLabels_of_invalid invalid)

end Asar
end RomLinker
