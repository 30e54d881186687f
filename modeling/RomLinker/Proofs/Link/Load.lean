import RomLinker.Proofs.Link.Ensures

/-!
What a build does until its ROM is loaded (`build_of_read`), and the smallest file that is a ROM
(`Rom.IsBank`).
-/
namespace RomLinker

namespace LinkM

variable {σ α β : Type} {s t : Linker σ} {data : ByteArray} {header : Header}

theorem bind_congr_run {action action' : LinkM σ α} {next : α → LinkM σ β}
    (same : action s = action' t) : (action >>= next) s = (action' >>= next) t := by
  show EStateM.bind action next s = EStateM.bind action' next t
  unfold EStateM.bind
  rw [same]

def loadLog (rom : Rom) (log : Log) : Log :=
  let warned := log ++ [⟨.warn, s!"ROM \"{rom.path.text}\" has a bad checksum"⟩]
  (if !rom.header.verifies (Rom.body rom.data) then warned else log) ++ [⟨.debug, rom.describe⟩]

theorem adopt_of_headerOf {p : Path} (whole : Rom.headerOf data = .ok header) :
    adopt p data s = .ok () { s with
      log := loadLog ⟨p, data, header⟩ s.log
      session := { s.session with rom? := some ⟨p, data, header⟩ } } := by
  unfold adopt
  rw [whole]
  unfold loadLog
  cases sum : header.verifies (Rom.body data) <;> simp only [sum] <;> rfl

theorem load_of_read {p : Path} (found : s.disk.read p = .ok data)
    (whole : Rom.headerOf data = .ok header) :
    load p s = .ok () { s with
      log := loadLog ⟨p, data, header⟩ s.log
      session := { s.session with rom? := some ⟨p, data, header⟩ } } := by
  unfold load
  rw [get_bind, found]
  exact adopt_of_headerOf whole

def loaded (asm : Assembler σ) (rom : Rom) (s : Linker σ) : Linker σ :=
  let opening : Log := s.log ++ [⟨.info, s!"Loading ROM \"{rom.path.text}\"..."⟩]
  { s with
    log := loadLog rom opening ++ [⟨.debug, s!"using assembler \"{asm.name}\""⟩]
    session := { s.session with rom? := some rom } }

section UpToRom
variable {asm : Assembler σ} {settings : Settings} {override? : Option Path} {p : Path}
  (path : Build.romPath s.workspace settings override? = .ok p) (found : s.disk.read p = .ok data)
  (whole : Rom.headerOf data = .ok header)
include path found whole

/-- Up to the loaded ROM nothing stops a build that finds one, and only the log and the session
change. -/
theorem run_of_read : Build.run asm settings override? s =
    (Build.addDefines settings.defines >>= fun _ => Build.link asm settings p)
      (loaded asm ⟨p, data, header⟩ s) := by
  have load : Build.loadRom asm settings p s =
      Build.addDefines settings.defines (loaded asm ⟨p, data, header⟩ s) := by
    let opened : Linker σ := { s with log := s.log ++ [⟨.info, s!"Loading ROM \"{p.text}\"..."⟩] }
    have read : opened.disk.read p = .ok data := found
    have loads : LinkM.load p opened = (Pure.pure () : LinkM σ Unit) { opened with
        log := loadLog ⟨p, data, header⟩ opened.log
        session := { s.session with rom? := some ⟨p, data, header⟩ } } := load_of_read read whole
    show (LinkM.load p >>= fun _ => note .debug s!"using assembler \"{asm.name}\"" >>= fun _ =>
      Build.addDefines settings.defines) opened = _
    exact bind_congr_run loads
  unfold Build.run
  rw [get_bind, path]
  exact bind_congr_run load

theorem build_of_read : build asm settings override? s =
    ((Build.addDefines settings.defines >>= fun _ => Build.link asm settings p).andAlways cleanup)
      (loaded asm ⟨p, data, header⟩ s) := by
  unfold build andAlways
  rw [run_of_read path found whole]

end UpToRom

end LinkM

namespace LinkM

variable {σ α : Type}

def succeeds (result : EStateM.Result LinkError (Linker σ) α) (ends : Linker σ → Prop)
    [DecidablePred ends] : Bool :=
  match result with
  | .ok _ t => decide (ends t)
  | .error _ _ => false

theorem exists_of_succeeds {result : EStateM.Result LinkError (Linker σ) α} {ends : Linker σ → Prop}
    [DecidablePred ends] (seen : succeeds result ends = true) : ∃ a t, result = .ok a t ∧ ends t := by
  cases result with
  | error e t => cases seen
  | ok a t => exact ⟨a, t, rfl, of_decide_eq_true seen⟩

def stops (result : EStateM.Result LinkError (Linker σ) α) (ends : Linker σ → Prop)
    [DecidablePred ends] : Bool :=
  match result with
  | .ok _ _ => false
  | .error _ t => decide (ends t)

theorem exists_of_stops {result : EStateM.Result LinkError (Linker σ) α} {ends : Linker σ → Prop}
    [DecidablePred ends] (seen : stops result ends = true) : ∃ e t, result = .error e t ∧ ends t := by
  cases result with
  | ok a t => cases seen
  | error e t => exact ⟨e, t, rfl, of_decide_eq_true seen⟩

def outcome (result : EStateM.Result LinkError (Linker σ) α) : Except LinkError α :=
  match result with
  | .ok a _ => .ok a
  | .error e _ => .error e

theorem exists_of_outcome_ok {result : EStateM.Result LinkError (Linker σ) α} {a : α}
    (seen : outcome result = .ok a) : ∃ t, result = .ok a t := by
  cases result with
  | error e t => cases seen
  | ok a t =>
    cases seen
    exact ⟨t, rfl⟩

theorem exists_of_outcome_error {result : EStateM.Result LinkError (Linker σ) α} {e : LinkError}
    (seen : outcome result = .error e) : ∃ t, result = .error e t := by
  cases result with
  | ok a t => cases seen
  | error e t =>
    cases seen
    exact ⟨t, rfl⟩

end LinkM

namespace Rom

theorem body_of_whole {data : ByteArray} (whole : leadSize data = 0) : body data = data := by
  unfold body
  rw [whole, ByteArray.extract_zero_size]

/-- One bank of zeroes, but for the complement of the sum that it names. -/
structure IsBank (data : ByteArray) : Prop where
  size : data.size = bankSize
  get {i : Nat} (inside : i < bankSize) :
    data.get! i = if i = 0x7FDC ∨ i = 0x7FDD then 0xFF else 0

def bankHeader : Header := ⟨.loRom, String.ofList (List.replicate 21 '?'), 0, 0xFFFF, 0⟩

namespace IsBank
variable {data : ByteArray} (bank : IsBank data)
include bank

theorem read?_eq : Header.read? data .loRom = some bankHeader := by
  have letters : ∀ i ∈ List.range Header.titleSize, Header.titleChar (data.get! (0x7FC0 + i)) = '?' := by
    intro i inside
    have small : i < 21 := List.mem_range.mp inside
    rw [bank.get (show 0x7FC0 + i < 0x8000 by omega), if_neg (by omega)]
    decide
  have title : (List.range Header.titleSize).map (fun i => Header.titleChar (data.get! (0x7FC0 + i))) =
      List.replicate 21 '?' := by
    rw [List.map_congr_left letters]
    decide
  unfold Header.read? Header.wordAt Mapping.headerStart
  simp only
  rw [title, if_neg (by rw [bank.size]; decide), bank.get (by decide), bank.get (by decide),
    bank.get (by decide), bank.get (by decide), bank.get (by decide)]
  decide +kernel

theorem headerOf_eq : headerOf data = .ok bankHeader := by
  have whole : leadSize data = 0 := by
    unfold leadSize
    rw [bank.size]
    rfl
  have located : Header.locate? data = some bankHeader := by
    unfold Header.locate?
    rw [List.findSome?_cons, bank.read?_eq]
    rfl
  unfold headerOf
  rw [body_of_whole whole, whole, bank.size, located]
  rfl

end IsBank

theorem get!_ofFn {n i : Nat} (f : Fin n → UInt8) (inside : i < n) :
    (ByteArray.mk (Array.ofFn f)).get! i = f ⟨i, inside⟩ := by
  have within : i < (Array.ofFn f).size := by
    rw [Array.size_ofFn]
    exact inside
  show (Array.ofFn f)[i]! = f ⟨i, inside⟩
  rw [getElem!_pos _ i within, Array.getElem_ofFn]

def bank : ByteArray :=
  ⟨Array.ofFn fun i : Fin bankSize => if i.val = 0x7FDC ∨ i.val = 0x7FDD then 0xFF else 0⟩

theorem isBank_bank : IsBank bank where
  size := by
    unfold bank
    exact Array.size_ofFn
  get {i} inside := by
    unfold bank
    exact get!_ofFn _ inside

end Rom

namespace LinkM
variable {σ : Type}

/-- What a build does behind the loaded ROM, where that is a bank. -/
def behindBank (asm : Assembler σ) (settings : Settings) (p : Path) (s : Linker σ) :
    EStateM.Result LinkError (Linker σ) Report :=
  ((Build.addDefines settings.defines >>= fun _ => Build.link asm settings p).andAlways cleanup)
    (loaded asm ⟨p, Rom.bank, Rom.bankHeader⟩ s)

theorem build_of_bank {asm : Assembler σ} {settings : Settings} {override? : Option Path} {p : Path}
    {s : Linker σ} (path : Build.romPath s.workspace settings override? = .ok p)
    (found : s.disk.read p = .ok Rom.bank) : build asm settings override? s = behindBank asm settings p s :=
  build_of_read path found Rom.isBank_bank.headerOf_eq

end LinkM

end RomLinker
