/-
  The letter counter (IDZ3), the way from label to label: `main`, the functions for input and
  output, and the stack with what their prologs have saved.
-/
import OsCourse.Assembly.StringHandler

namespace Letters

open Riscv While

/-! ## The machine with its stack -/

/-- The labels, and the places behind the calls, in the order of the files. -/
inductive Label
  -- main.asm, tester.asm
  | main | mainProgram | mainExit | tests | testsExit | runTests | runTests2 | runTests3 | testsEpilog
  -- program.asm
  | program | programCount | programEpilog
  -- io_handler.asm
  | readNameOfFile | inputName | readNameEpilog | readStringFromFile | saveStringToFile | output | ynloop | epilog
  deriving DecidableEq

def Label.all : List Label :=
  [.main, .mainProgram, .mainExit, .tests, .testsExit, .runTests, .runTests2, .runTests3, .testsEpilog, .program,
    .programCount, .programEpilog, .readNameOfFile, .inputName, .readNameEpilog, .readStringFromFile,
    .saveStringToFile, .output, .ynloop, .epilog]

theorem Label.mem_all (p : Label) : p ∈ Label.all := by
  cases p <;> decide

/-- Where the program is: at a label, or at an address without one. -/
inductive Pc
  | at (p : Label)
  | lost (w : Word)

/-- The registers that a function has to restore. -/
structure Saved where
  s0 : Word
  s1 : Word
  s2 : Word
  s3 : Word
  s4 : Word
  s5 : Word
  s6 : Word

/-- What the long prolog leaves at the top of the stack: `ra` at `(sp)`, `s0` at `28(sp)`. -/
def Saved.frame (r : Saved) (ra : Word) : List Word := [ra, r.s6, r.s5, r.s4, r.s3, r.s2, r.s1, r.s0]

/-- The files by their names, and the simulator's table of names: of the files that are open, and
    of those that it could not open.  What `read_string_from_file` opens is closed before anything
    else happens. -/
structure Files where
  contents : List Byte → Option (List Byte)
  opened : List (List Byte)

/-- System call 1024 takes a name that is not in the table, if there is room. -/
def Files.Takes (f : Files) (room : ℕ) (name : List Byte) : Prop := name ∉ f.opened ∧ f.opened.length < room

instance (f : Files) (room : ℕ) (name : List Byte) : Decidable (f.Takes room name) :=
  inferInstanceAs (Decidable (_ ∧ _))

/-- The call to read -/
def Files.toRead (f : Files) (room : ℕ) (name : List Byte) : Option (List Byte) :=
  if f.Takes room name then f.contents name else none

/-- The call has failed; a name that it has taken is kept. -/
def Files.keep (f : Files) (room : ℕ) (name : List Byte) : Files :=
  if f.Takes room name then { f with opened := name :: f.opened } else f

/-- The file has been opened to write, and its text has been written. -/
def Files.write (f : Files) (name file : List Byte) : Files where
  contents := Function.update f.contents name (some file)
  opened := name :: f.opened

/-- The registers, the words of the stack from `sp` on, the heap, the buffer `file_name`, what
    has not yet been read of the console, the strings that have been printed, and the files. -/
structure State where
  pc : Pc
  ra : Word
  a0 : Word
  a1 : Word
  a3 : Word
  saved : Saved
  stack : List Word
  machine : Machine
  fileName : List Byte
  console : List Byte
  printed : List (List Byte)
  files : Files

/-- The layout of the memory, the addresses of the code, the files that can be written, and how
    many names the simulator's table holds. -/
structure Setting where
  layout : Layout
  addr : Label → Word
  addr_inj : Function.Injective addr
  text_le : ∀ p, 0x00400000 ≤ (addr p).toNat
  writable : List Byte → Bool
  maxFiles : ℕ
  maxFiles_ge : 3 ≤ maxFiles
  fuel : ℕ
  fuel_le : 10240 ≤ fuel

/-- How a run ends. -/
inductive Stop
  | exited
  | lost (w : Word)
  | waiting
  | overrun
  | unfinished
  deriving DecidableEq

namespace State

/-- System call 4 -/
def print (s : State) (t : List Byte) : State := { s with printed := s.printed ++ [t] }

/-- `lw` from the stack; above it are zeros. -/
def load (s : State) (i : ℕ) : Word := s.stack.getD i 0

/-- `ret`, when the address is in `ra` -/
def jump (Q : Setting) (s : State) : State :=
  { s with pc := ((Label.all.find? fun p => decide (Q.addr p = s.ra)).map Pc.at).getD (.lost s.ra) }

/-- `call` with the place behind it -/
def call (Q : Setting) (s : State) (p behind : Label) : State := { s with pc := .at p, ra := Q.addr behind }

/-- The long prolog of `read_string_from_file` and `save_string_to_file`. -/
def prolog (s : State) : State := { s with stack := s.saved.frame s.ra ++ s.stack }

/-- `er_name`, which prints nothing, as there is no `ecall`. -/
def erName (s : State) : State :=
  { s with pc := .at .inputName, a3 := 1, saved := { s.saved with s1 := -1 } }

end State

/-- The bytes of a string up to its NUL, as system call 4 prints them. -/
def cstringAt (m : Ram) : ℕ → Word → List Byte
  | 0, _ => []
  | n + 1, a => if m a = 0 then [] else m a :: cstringAt m n (a + 1)

/-! ## The texts -/

def choosePrompt : List Byte := ascii "type 'Y' for start autotest, or something else to open your file:: "
def readPrompt : List Byte := ascii "Input path to file for reading: "
def writePrompt : List Byte := ascii "Input path to file for writing: "
def outToConsole : List Byte := ascii "\nDo you want to print output into console? (Y/N):: "

def beatles : List Byte := ascii "beatles.txt"
def qeen : List Byte := ascii "qeen.txt"
def holyBible : List Byte := ascii "holy bible.txt"

def nameSize : ℕ := 256

/-! ## The code -/

/-- `str_get(file_name, NAME_SIZE)`.  Behind a name that fills the buffer the macro would look
    for the end of the line elsewhere. -/
def strGet (s : State) : State ⊕ (Stop × State) :=
  let line := s.console.takeWhile (· ≠ 10)
  if s.console.length = line.length then .inr (.waiting, s)
  else if nameSize ≤ line.length + 1 then .inr (.overrun, s)
  else .inl { s with
    fileName := line.takeWhile (· ≠ 0)
    console := s.console.drop (line.length + 1) }

/-- `read_char` -/
def readChar (s : State) : State ⊕ (Stop × State) :=
  match s.console with
  | [] => .inr (.waiting, s)
  | c :: console => .inl { s with a0 := c.setWidth 32, console := console }

/-- What follows when a system call has got its input. -/
def andThen (r : State ⊕ (Stop × State)) (f : State → State ⊕ (Stop × State)) : State ⊕ (Stop × State) :=
  match r with
  | .inl s => f s
  | .inr b => .inr b

/-- The code from a label to the next jump or label. -/
def block (Q : Setting) (s : State) : State ⊕ (Stop × State) :=
  match s.pc with
  | .lost w => .inr (.lost w, s)
  | .at .main =>
    andThen (readChar (s.print choosePrompt)) fun s : State =>
      let s := { s with saved := { s.saved with s0 := s.a0 } }
      if s.saved.s0 = (89 : Word) then .inl { s with pc := .at .tests } else .inl (s.call Q .readNameOfFile .mainProgram)
  | .at .mainProgram => .inl (s.call Q .program .mainExit)
  | .at .mainExit => .inr (.exited, s)
  | .at .tests => .inl (s.call Q .runTests .testsExit)
  | .at .testsExit => .inr (.exited, s)
  | .at .runTests =>
    let s := { s with stack := s.ra :: s.stack }
    .inl ({ s with fileName := beatles }.call Q .program .runTests2)
  | .at .runTests2 => .inl ({ s with fileName := qeen }.call Q .program .runTests3)
  | .at .runTests3 => .inl ({ s with fileName := holyBible }.call Q .program .testsEpilog)
  | .at .testsEpilog => .inl ({ s with ra := s.load 0, stack := s.stack.drop 1 }.jump Q)
  | .at .program =>
    let s := { s with stack := s.ra :: s.stack }
    .inl (s.call Q .readStringFromFile .programCount)
  | .at .programCount =>
    match countingVowelsAndConsonants Q.layout Q.fuel s.machine.mem s.a0 s.a1 with
    | none => .inr (.unfinished, s)
    | some (a0, a1) =>
      match createString Q.layout Q.fuel s.machine a0 a1 with
      | none => .inr (.unfinished, s)
      | some (a0, a1, m) => .inl ({ s with a0 := a0, a1 := a1, machine := m }.call Q .output .programEpilog)
  | .at .programEpilog => .inl ({ s with ra := s.load 0, stack := s.stack.drop 1 }.jump Q)
  | .at .readNameOfFile => .inl { s with stack := s.ra :: s.stack, a3 := 0, pc := .at .inputName }
  | .at .inputName =>
    andThen (strGet (s.print readPrompt)) fun s : State =>
      if s.a3 = 0 then .inl { s with pc := .at .readNameEpilog }
      else .inl (s.call Q .readStringFromFile .readNameEpilog)
  -- there is no `ret`: the next function follows
  | .at .readNameEpilog => .inl { s with ra := s.load 0, stack := s.stack.drop 1, pc := .at .readStringFromFile }
  | .at .readStringFromFile =>
    match s.files.toRead Q.maxFiles s.fileName with
    | none => .inl { s.prolog.erName with files := s.files.keep Q.maxFiles s.fileName }
    | some file =>
      -- the epilog takes from the stack what the prolog has put there
      match readStringFromFile Q.fuel { s.machine with file := file } with
      | none => .inr (.unfinished, s)
      | some (a0, a1, m) => .inl ({ s with a0 := a0, a1 := a1, machine := m }.jump Q)
  | .at .saveStringToFile =>
    let r := s.prolog
    let r := { r with saved := { r.saved with s3 := s.a0, s6 := s.a1 } }
    andThen (strGet (r.print writePrompt)) fun r : State =>
      if Q.writable r.fileName = true ∧ r.files.Takes Q.maxFiles r.fileName then
        -- the file is not closed
        .inl ({ r with
          files := r.files.write r.fileName (loadBytes r.machine.mem r.saved.s3 r.saved.s6.toNat)
          saved := s.saved
          stack := s.stack }.jump Q)
      else .inl { r.erName with files := r.files.keep Q.maxFiles r.fileName }
  | .at .output =>
    let s := { s with stack := s.ra :: s.saved.s1 :: s.saved.s0 :: s.stack }
    let s := { s with saved := { s.saved with s0 := s.a0, s1 := s.a1 } }
    .inl { s.print outToConsole with pc := .at .ynloop }
  | .at .ynloop =>
    andThen (readChar s) fun s : State =>
      if s.a0 = (89 : Word) then
        .inl { s.print (cstringAt s.machine.mem Q.fuel s.saved.s0) with pc := .at .epilog }
      else if s.a0 = (78 : Word) then
        .inl ({ s with a0 := s.saved.s0, a1 := s.saved.s1 }.call Q .saveStringToFile .epilog)
      else .inl s
  | .at .epilog => .inl ({ s with
      saved := { s.saved with s0 := s.load 2, s1 := s.load 1 }
      ra := s.load 0
      stack := s.stack.drop 3 }.jump Q)

/-- Before `main`: all registers are zero, and the table is empty. -/
def State.start (m : Machine) (console : List Byte) (disk : List Byte → Option (List Byte)) : State where
  pc := .at .main
  ra := 0
  a0 := 0
  a1 := 0
  a3 := 0
  saved := ⟨0, 0, 0, 0, 0, 0, 0⟩
  stack := []
  machine := m
  fileName := []
  console := console
  printed := []
  files := { contents := disk, opened := [] }

end Letters
