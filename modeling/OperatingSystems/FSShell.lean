import OperatingSystems.Formats
import OperatingSystems.FSReports

/-! `fs_sim.c`: the lines of the standard input, `execute_command`, and `main`. -/
namespace OperatingSystems.FS
open CStrings

/-- What a line finds in memory; `left` is what a function that ends without `return` seems to
return. -/
structure Context extends Env where
  left : ℤ

/-- What `execute_command` does with a line: call a function, or complain. -/
inductive Request where
  | call (command : Command)
  | ls
  | stat (name : Name)
  | df
  | usage (text : String)
  | unknown (comm : List Byte)
  deriving DecidableEq

/-- The comparisons of `execute_command`. -/
def dispatch (comm : List Byte) (arg1 arg2 : Name) (numArg : ℤ) : Request :=
  if command comm (ascii "create") then
    if numArg < 2 then .usage "error: create <filename> <size>\n"
    else .call (.create arg1 (Int32.ofBitVec (Formats.atoi arg2.bytes)))
  else if command comm (ascii "cat") then
    if numArg < 1 then .usage "error: cat <filename>\n" else .call (.cat arg1)
  else if command comm (ascii "rm") then
    if numArg < 1 then .usage "error: rm <filename>\n" else .call (.rm arg1)
  else if command comm (ascii "mkdir") then
    if numArg < 1 then .usage "error: mkdir <dirname>\n" else .call (.mkdir arg1)
  else if command comm (ascii "rmdir") then
    if numArg < 1 then .usage "error: rmdir <dirname>\n" else .call (.rmdir arg1)
  else if command comm (ascii "cd") then
    if numArg < 1 then .usage "error: cd <dirname>\n" else .call (.cd arg1)
  else if command comm (ascii "ls") then .ls
  else if command comm (ascii "stat") then
    if numArg < 1 then .usage "error: stat <filename>\n" else .stat arg1
  else if command comm (ascii "df") then .df
  else if command comm (ascii "ln") then
    if numArg < 2 then .usage "error: ln <src> <dest>\n" else .call (.ln arg1 arg2)
  else if command comm (ascii "cp") then
    if numArg < 2 then .usage "error: cp <src> <dest>\n" else .call (.cp arg1 arg2)
  else .unknown comm

def perform (fs : FileSystem) : Context × Request → Option (Reply × FileSystem)
  | (ctx, .call c) => execute fs (ctx.toEnv, c)
  | (ctx, .ls) => ls ctx.toEnv fs
  | (ctx, .stat name) => fileStat ctx.toEnv ctx.left name fs
  | (ctx, .df) => fsStat ctx.left fs
  | (_, .usage text) => some (.error text [], fs)
  | (_, .unknown comm) => some (.error "%s: command not found.\n" [.s comm], fs)

/-- `execute_command`; what its calls work on is a parameter. -/
def executeCommand {σ : Type*} (step : σ → Context × Request → Option (Reply × σ)) (ctx : Context)
    (comm : List Byte) (arg1 arg2 : Name) (numArg : ℤ) (s : σ) : Option (Reply × σ) :=
  step s (ctx, dispatch comm arg1 arg2 numArg)

/-! ### Lines -/

/-- The variables of `main` after a line. -/
structure Words where
  comm : List Byte
  arg1 : Name
  arg2 : Name
  numArg : ℤ

/-- A word stored in 16 bytes; `none` when it goes over their end. -/
def argument (s : List Byte) : Option Name :=
  if h : s.length < 16 ∧ 0 ∉ s then some ⟨s, h.1.trans (by decide), h.2⟩ else none

/-- What a variable holds that was zeroed before the scan. -/
def wordAt (values : List Formats.Value) (i : ℕ) : List Byte :=
  match values[i]? with
  | some (.word s) => s
  | _ => []

/-- The three `bzero` and the `sscanf`, where `fgets` has read the line into 112 bytes. -/
def scanWords (input : List Byte) : Option Words :=
  if input.length < 112 then
    let (ret, values) := Formats.sscanf (CStrings.cString input) "%s %s %s"
    if (wordAt values 0).length < 64 then
      (argument (wordAt values 1)).bind fun arg1 =>
      (argument (wordAt values 2)).map fun arg2 => ⟨wordAt values 0, arg1, arg2, ret - 1⟩
    else none
  else none

/-- The bytes that one `fgets(input, 256, stdin)` after the other takes. -/
def inputs : ℕ → List Byte → List (List Byte)
  | 0, _ => []
  | n+1, stdin =>
    if stdin = [] then []
    else line 10#8 (stdin.take 255) :: inputs n (fgetsRest 256 stdin)

/-- The loop of `main` from line `i` on. -/
def commandLoop {σ : Type*} (step : σ → Context × Request → Option (Reply × σ))
    (context : ℕ → Context) : ℕ → σ → List (List Byte) → Option (List (String × List Arg) × σ)
  | _, s, [] => some ([], s)
  | i, s, input :: inputs =>
    (scanWords input).bind fun words =>
    if command words.comm (ascii "quit") ∨ command words.comm (ascii "exit") then
      some ([("command: %s", [.s (CStrings.cString input)])], s)
    else
      (executeCommand step (context i) words.comm words.arg1 words.arg2 words.numArg s).bind
        fun p =>
      (commandLoop step context (i+1) p.2 inputs).map fun q =>
      (("command: %s", [.s (CStrings.cString input)]) :: p.1.printed ++ ("\n%% ", []) :: q.1, q.2)

/-- One run of the program: its input, and what it finds in memory. -/
structure Process where
  stdin : List Byte
  context : ℕ → Context
  behind : Block

/-- What is printed before the disk is mounted. -/
def sizes : String × List Arg :=
  ("sizeof inode: %d, sizeof superblock: %d, sizeof Dentry: %d\n", [.d 128, .d 512, .d 512])

/-- `main` with the disk file before and after, `none` for one that does not exist. -/
def main (disk : Option (ℤ → Block)) (p : Process) :
    Option (List (String × List Arg) × Option (ℤ → Block)) :=
  match disk.elim (some format) fsMount with
  | none => some ([sizes, ("Invalid disk!\n", [])], disk)
  | some fs =>
    (commandLoop perform p.context 0 fs (inputs p.stdin.length p.stdin)).map fun q =>
    (sizes :: ("%% ", []) :: q.1, some (fsUmount p.behind q.2).disk)

end OperatingSystems.FS
