import OperatingSystems.FSShell

/-! Requests as they are typed, and what the program makes of them. -/
namespace OperatingSystems.FS
open CStrings Formats

/-- The characters of a size. -/
def decimal (size : Int32) : List Byte := Value.print .decimal (.int size.toBitVec)

/-- A word that `scanf` reads as one. -/
def IsWord (s : List Byte) : Prop := s ≠ [] ∧ ∀ b ∈ s, isspace b = false

/-- A word that also fits its variable in `main`, and is a string. -/
structure Argument (s : List Byte) : Prop where
  isWord : IsWord s
  fits : s.length < 16
  string : 0 ∉ s

/-- The same as a test. -/
def isArgument (s : List Byte) : Bool :=
  !s.isEmpty && s.all (fun b => !isspace b && b != 0#8) && Nat.blt s.length 16

theorem argument_of_test {s : List Byte} (h : isArgument s = true) : Argument s := by
  simp only [isArgument, Bool.and_eq_true, Bool.not_eq_true', List.isEmpty_eq_false_iff,
    List.all_eq_true, bne_iff_ne] at h
  obtain ⟨⟨hne, hall⟩, hlen⟩ := h
  exact ⟨⟨hne, fun b hb => (hall b hb).1⟩, Nat.blt_eq.mp hlen, fun h0 => (hall 0 h0).2 rfl⟩

/-- The arguments of a request, in order. -/
def Request.arguments : Request → List (List Byte)
  | .call (.create name size) => [name.bytes, decimal size]
  | .call (.cat name) | .call (.rm name) | .call (.mkdir name) | .call (.rmdir name)
  | .call (.cd name) | .stat name => [name.bytes]
  | .call (.ln src dest) | .call (.cp src dest) => [src.bytes, dest.bytes]
  | .ls | .df | .usage _ | .unknown _ => []

def Request.comm : Request → List Byte
  | .call (.create _ _) => ascii "create"
  | .call (.cat _) => ascii "cat"
  | .call (.rm _) => ascii "rm"
  | .call (.mkdir _) => ascii "mkdir"
  | .call (.rmdir _) => ascii "rmdir"
  | .call (.cd _) => ascii "cd"
  | .call (.ln _ _) => ascii "ln"
  | .call (.cp _ _) => ascii "cp"
  | .ls => ascii "ls"
  | .stat _ => ascii "stat"
  | .df => ascii "df"
  | .usage _ => []
  | .unknown comm => comm

/-- The line that asks for it, without the newline. -/
def Request.line (q : Request) : List Byte :=
  q.comm ++ q.arguments.flatMap fun s => 32#8 :: s

/-- The line, and the newline. -/
def Request.typed (q : Request) : List Byte := q.line ++ [10#8]

/-- A request for one of the functions. -/
def Request.IsCall : Request → Prop
  | .usage _ | .unknown _ => False
  | _ => True

/-- One whose names can be typed. -/
structure Request.Typable (q : Request) : Prop where
  isCall : q.IsCall
  arguments : ∀ s ∈ q.arguments, Argument s

/-- Every size can be typed. -/
theorem argument_decimal (size : Int32) : Argument (decimal size) := by
  obtain ⟨b, s, hs, hge, hlen⟩ := print_decimal size.toBitVec
  have hspace : ∀ c : Byte, 45#8 ≤ c → isspace c = false := fun c hc =>
    isspace_of_le (BitVec.le_trans (by decide) hc)
  rw [decimal, hs]
  refine ⟨⟨List.cons_ne_nil _ _, fun c hc => hspace c (hge c hc)⟩, by omega, fun h0 => ?_⟩
  exact absurd (hge 0 h0) (by decide)

/-- A size is read as it was printed. -/
theorem atoi_decimal (size : Int32) : Int32.ofBitVec (atoi (decimal size)) = size := by
  rw [decimal, atoi_print]
  rfl

/-! ### Scanning -/

/-- `%s`, and `n` times a blank and `%s`. -/
def wordsFormat : ℕ → List Directive
  | 0 => [.word]
  | n+1 => .word :: .plain 32#8 :: wordsFormat n

theorem format_words : Formats.format "%s %s %s".toList = wordsFormat 2 := by decide

theorem scan_nil (n : ℕ) : scan (wordsFormat n) [] = ([], true) := by
  cases n <;> rfl

theorem scan_words (n : ℕ) (args : List (List Byte)) (hlen : args.length ≤ n)
    (hargs : ∀ s ∈ args, IsWord s) {w : List Byte} (hw : IsWord w) :
    (scan (wordsFormat n) (w ++ args.flatMap (fun s => 32#8 :: s) ++ [10#8])).1 =
      (w :: args).map .word := by
  induction args generalizing n w with
  | nil =>
    have hread : Directive.word.read (w ++ [10#8]) = .next (some (.word w)) [10#8] :=
      read_word hw fun c hc => by
        rw [← Option.some.inj hc]
        decide
    rw [List.flatMap_nil, List.append_nil]
    cases n with
    | zero =>
      rw [wordsFormat, scan, hread]
      rfl
    | succ n =>
      rw [wordsFormat, scan, hread]
      dsimp only
      rw [scan, show Directive.read (.plain 32#8) [10#8] = .next none [] by rfl]
      dsimp only
      rw [scan_nil]
      rfl
  | cons s args ih =>
    obtain ⟨m, rfl⟩ : ∃ m, n = m + 1 := ⟨n - 1, by rw [List.length_cons] at hlen; omega⟩
    have hs := hargs s List.mem_cons_self
    have hread : Directive.word.read (w ++ 32#8 :: (s ++ args.flatMap (fun s => 32#8 :: s) ++
        [10#8])) = .next (some (.word w)) (32#8 :: (s ++ args.flatMap (fun s => 32#8 :: s) ++
          [10#8])) :=
      read_word hw fun c hc => by
        rw [← Option.some.inj hc]
        decide
    have hskip : Directive.read (.plain 32#8) (32#8 :: (s ++ args.flatMap (fun s => 32#8 :: s) ++
        [10#8])) = .next none (s ++ args.flatMap (fun s => 32#8 :: s) ++ [10#8]) := by
      apply read_plain
      intro _ c hc
      obtain ⟨hne, hspace⟩ := hs
      cases s with
      | nil => exact absurd rfl hne
      | cons b s =>
        rw [← Option.some.inj hc]
        exact hspace b List.mem_cons_self
    have hassoc : w ++ (s :: args).flatMap (fun s => 32#8 :: s) ++ [10#8] =
        w ++ 32#8 :: (s ++ args.flatMap (fun s => 32#8 :: s) ++ [10#8]) := by simp
    rw [hassoc, wordsFormat, scan, hread]
    dsimp only
    rw [scan, hskip]
    dsimp only
    rw [ih m (by rw [List.length_cons] at hlen; omega)
      (fun s hs => hargs s (List.mem_cons_of_mem _ hs)) hs]
    rfl

theorem sscanf_words {comm text : List Byte} {args : List (List Byte)}
    (h : (scan (wordsFormat 2) text).1 = (comm :: args).map .word) :
    sscanf text "%s %s %s" = ((args.length + 1 : ℤ), (comm :: args).map Value.word) := by
  rw [sscanf, format_words]
  generalize scan (wordsFormat 2) text = p at h ⊢
  obtain ⟨values, ended⟩ := p
  simp only at h
  simp [h]

theorem argument_eq {s : List Byte} (h : Argument s) :
    ∃ a : Name, argument s = some a ∧ a.bytes = s :=
  ⟨⟨s, h.fits.trans (by decide), h.string⟩, dif_pos ⟨h.fits, h.string⟩, rfl⟩

/-- A variable that nothing is stored in holds the empty string. -/
theorem argument_getD {args : List (List Byte)} (hargs : ∀ s ∈ args, Argument s) (i : ℕ) :
    ∃ a : Name, argument (args[i]?.getD []) = some a ∧ a.bytes = args[i]?.getD [] := by
  cases hi : args[i]? with
  | none => exact ⟨⟨[], by decide, by decide⟩, rfl, rfl⟩
  | some s => exact argument_eq (hargs s (List.mem_of_getElem? hi))

section

variable {comm : List Byte} (hcomm : Argument comm) {args : List (List Byte)}
  (hargs : ∀ s ∈ args, Argument s)

include hcomm hargs

theorem zero_notMem_line : 0 ∉ comm ++ args.flatMap (fun s => 32#8 :: s) ++ [10#8] := by
  simp only [List.mem_append, List.mem_flatMap, List.mem_cons, not_or]
  refine ⟨⟨hcomm.string, ?_⟩, by decide⟩
  rintro ⟨s, hs, h0 | h0⟩
  · exact absurd h0 (by decide)
  · exact (hargs s hs).string h0

theorem length_line_lt (hlen : args.length ≤ 2) :
    (comm ++ args.flatMap (fun s => 32#8 :: s) ++ [10#8]).length < 112 := by
  have hparts : (args.flatMap fun s => 32#8 :: s).length ≤ args.length * 16 := by
    rw [List.length_flatMap]
    apply (List.sum_le_card_nsmul _ 16 _).trans
    · rw [List.length_map, nsmul_eq_mul, Nat.cast_id]
    · intro k hk
      obtain ⟨s, hs, rfl⟩ := List.mem_map.mp hk
      exact (hargs s hs).fits
  have hfits := hcomm.fits
  rw [List.length_append, List.length_append, List.length_singleton]
  omega

/-- A line of a command and at most two arguments. -/
theorem scanWords_line (hlen : args.length ≤ 2) : ∃ arg1 arg2 : Name,
    scanWords (comm ++ args.flatMap (fun s => 32#8 :: s) ++ [10#8]) =
      some ⟨comm, arg1, arg2, args.length⟩ ∧
    arg1.bytes = args[0]?.getD [] ∧ arg2.bytes = args[1]?.getD [] := by
  obtain ⟨arg1, harg1, hbytes1⟩ := argument_getD hargs 0
  obtain ⟨arg2, harg2, hbytes2⟩ := argument_getD hargs 1
  have hscan := scan_words 2 args hlen (fun s hs => (hargs s hs).isWord) hcomm.isWord
  have hvalue (i : ℕ) : wordAt ((comm :: args).map .word) (i+1) = args[i]?.getD [] := by
    rw [wordAt, List.map_cons, List.getElem?_cons_succ, List.getElem?_map]
    cases args[i]? <;> rfl
  have hfirst : wordAt ((comm :: args).map .word) 0 = comm := rfl
  refine ⟨arg1, arg2, ?_, hbytes1, hbytes2⟩
  rw [scanWords, if_pos (length_line_lt hcomm hargs hlen),
    cString_of_notMem (zero_notMem_line hcomm hargs), sscanf_words hscan]
  dsimp only
  rw [hvalue 0, hvalue 1, harg1, harg2, hfirst, if_pos (hcomm.fits.trans (by decide)),
    Option.bind_some, Option.map_some, add_sub_cancel_right]

end

/-! ### From the text to the requests -/

namespace Request

variable {q : Request}

/-- The commands are words, and none of them ends the program. -/
theorem Typable.comm (h : q.Typable) : Argument q.comm ∧
    ¬(command q.comm (ascii "quit") = true ∨ command q.comm (ascii "exit") = true) := by
  have hall : ∀ c ∈ ["create", "cat", "rm", "mkdir", "rmdir", "cd", "ln", "cp", "ls", "stat",
      "df"].map ascii, isArgument c = true ∧
        ¬(command c (ascii "quit") = true ∨ command c (ascii "exit") = true) := by decide +kernel
  apply And.imp_left argument_of_test
  apply hall
  cases q with
  | call c => cases c <;> simp [Request.comm]
  | ls => simp [Request.comm]
  | stat name => simp [Request.comm]
  | df => simp [Request.comm]
  | usage text => exact h.isCall.elim
  | unknown comm => exact h.isCall.elim

/-- The comparisons find the command, and the arguments are there. -/
theorem Typable.dispatch (h : q.Typable) {arg1 arg2 : Name}
    (h1 : arg1.bytes = q.arguments[0]?.getD []) (h2 : arg2.bytes = q.arguments[1]?.getD []) :
    FS.dispatch q.comm arg1 arg2 q.arguments.length = q := by
  cases q with
  | call c =>
    cases c with
    | create name size =>
      obtain rfl : arg1 = name := Name.ext_bytes h1
      have hsize : Int32.ofBitVec (atoi arg2.bytes) = size := by
        rw [h2]
        exact atoi_decimal size
      change Request.call (.create arg1 (Int32.ofBitVec (atoi arg2.bytes))) = _
      rw [hsize]
    | cat name =>
      obtain rfl : arg1 = name := Name.ext_bytes h1
      rfl
    | rm name =>
      obtain rfl : arg1 = name := Name.ext_bytes h1
      rfl
    | mkdir name =>
      obtain rfl : arg1 = name := Name.ext_bytes h1
      rfl
    | rmdir name =>
      obtain rfl : arg1 = name := Name.ext_bytes h1
      rfl
    | cd name =>
      obtain rfl : arg1 = name := Name.ext_bytes h1
      rfl
    | ln src dest =>
      obtain rfl : arg1 = src := Name.ext_bytes h1
      obtain rfl : arg2 = dest := Name.ext_bytes h2
      rfl
    | cp src dest =>
      obtain rfl : arg1 = src := Name.ext_bytes h1
      obtain rfl : arg2 = dest := Name.ext_bytes h2
      rfl
  | ls => rfl
  | stat name =>
    obtain rfl : arg1 = name := Name.ext_bytes h1
    rfl
  | df => rfl
  | usage text => exact h.isCall.elim
  | unknown comm => exact h.isCall.elim

theorem length_arguments (q : Request) : q.arguments.length ≤ 2 := by
  cases q with
  | call c => cases c <;> simp [Request.arguments]
  | _ => simp [Request.arguments]

theorem Typable.scanWords (h : q.Typable) : ∃ words, FS.scanWords q.typed = some words ∧
    words.comm = q.comm ∧ FS.dispatch words.comm words.arg1 words.arg2 words.numArg = q := by
  obtain ⟨arg1, arg2, hscan, h1, h2⟩ := scanWords_line h.comm.1 h.arguments q.length_arguments
  exact ⟨_, hscan, rfl, h.dispatch h1 h2⟩

theorem Typable.newline (h : q.Typable) : 10#8 ∉ q.line := by
  have hword {s : List Byte} (hs : Argument s) : 10#8 ∉ s := by
    intro hmem
    exact absurd (hs.isWord.2 _ hmem) (by decide)
  rw [Request.line, List.mem_append, List.mem_flatMap, not_or]
  refine ⟨hword h.comm.1, ?_⟩
  rintro ⟨s, hs, hmem⟩
  rcases List.mem_cons.mp hmem with hmem | hmem
  · exact absurd hmem (by decide)
  · exact hword (h.arguments s hs) hmem

end Request

/-- What `main` prints for a request that is answered with `r`. -/
def answer (q : Request) (r : Reply) : List (String × List Arg) :=
  ("command: %s", [.s q.typed]) :: r.printed ++ [("\n%% ", [])]

variable {σ : Type*} (step : σ → Context × Request → Option (Reply × σ)) (context : ℕ → Context)

theorem commandLoop_typed (requests : List Request) (h : ∀ q ∈ requests, q.Typable) (i : ℕ)
    (s : σ) : commandLoop step context i s (requests.map Request.typed) =
      (Mealy.run step s ((requests.zipIdx i).map fun e => (context e.2, e.1))).map fun p =>
        ((List.zipWith answer requests p.1).flatten, p.2) := by
  induction requests generalizing i s with
  | nil => rfl
  | cons q requests ih =>
    have hq := h q List.mem_cons_self
    obtain ⟨words, hwords, hcomm, hdispatch⟩ := hq.scanWords
    have hzero : CStrings.cString q.typed = q.typed :=
      cString_of_notMem (zero_notMem_line hq.comm.1 hq.arguments)
    rw [List.map_cons, commandLoop, hwords, Option.bind_some, hcomm, if_neg hq.comm.2, ← hcomm,
      executeCommand, hdispatch, hzero, List.zipIdx_cons, List.map_cons, Mealy.run]
    cases hstep : step s (context i, q) with
    | none => rfl
    | some p =>
      rw [Option.bind_some, Option.bind_some, ih (fun q hq => h q (List.mem_cons_of_mem _ hq)),
        Option.map_map, Option.map_map]
      congr 1
      funext r
      simp [answer]

theorem inputs_nil (n : ℕ) : inputs n [] = [] := by cases n <;> rfl

/-- The lines of a text are read one by one. -/
theorem inputs_typed (requests : List Request) (h : ∀ q ∈ requests, q.Typable) (n : ℕ)
    (hn : requests.length ≤ n) :
    inputs n (requests.flatMap Request.typed) = requests.map Request.typed := by
  induction requests generalizing n with
  | nil => exact inputs_nil n
  | cons q requests ih =>
    have hq := h q List.mem_cons_self
    obtain ⟨m, rfl⟩ : ∃ m, n = m + 1 := ⟨n - 1, by rw [List.length_cons] at hn; omega⟩
    obtain ⟨text, htext⟩ : ∃ text, text = requests.flatMap Request.typed := ⟨_, rfl⟩
    have hshort := length_line_lt hq.comm.1 hq.arguments q.length_arguments
    obtain ⟨k, hk⟩ : ∃ k, 255 = q.line.length + (k + 1) := by
      refine ⟨254 - q.line.length, ?_⟩
      rw [List.length_append, List.length_singleton] at hshort
      change q.line.length + 1 < 112 at hshort
      omega
    have happend : q.typed ++ text = q.line ++ 10#8 :: text := by
      rw [Request.typed, List.append_assoc]
      rfl
    have hline : CStrings.line 10#8 ((q.typed ++ text).take 255) = q.typed := by
      rw [happend, hk, List.take_length_add_append, List.take_succ_cons,
        line_append hq.newline, CStrings.line, if_pos rfl]
      rfl
    have hrest : fgetsRest 256 (q.typed ++ text) = text := by
      rw [fgetsRest, hline, List.drop_left]
    have hne : q.typed ++ text ≠ [] := by simp [Request.typed]
    rw [List.flatMap_cons, ← htext, inputs, if_neg hne, hline, hrest, htext,
      ih (fun q hq => h q (List.mem_cons_of_mem _ hq)) m (by rw [List.length_cons] at hn; omega),
      List.map_cons]

def typedText (requests : List Request) : List Byte := requests.flatMap Request.typed

/-- Whatever `execute_command` works on: a text in which requests are typed line by line is taken
for exactly these requests, in their order, sizes and names as they were meant. -/
theorem typed_requests (requests : List Request) (h : ∀ q ∈ requests, q.Typable) (s : σ) :
    commandLoop step context 0 s (inputs (typedText requests).length (typedText requests)) =
      (Mealy.run step s (requests.zipIdx.map fun e => (context e.2, e.1))).map fun p =>
        ((List.zipWith answer requests p.1).flatten, p.2) := by
  have hlen : requests.length ≤ (typedText requests).length := by
    rw [typedText, List.length_flatMap]
    apply (List.length_le_sum_of_one_le _ _).trans' (List.length_map ..).ge
    intro k hk
    obtain ⟨q, -, rfl⟩ := List.mem_map.mp hk
    simp [Request.typed]
  rw [typedText] at hlen ⊢
  rw [inputs_typed requests h _ hlen, commandLoop_typed step context requests h]

/-- A file made under the root's own name, which is refused. -/
def threeTyped : List Request := [.call (.create dot 9000), .ls, .call (.rm dot)]

theorem typed_requests_threeTyped :
    typedText threeTyped = ascii "create . 9000\nls\nrm .\n" ∧
      commandLoop perform (fun _ => ⟨Env.zeroed, 0⟩) 0 format
        (inputs (typedText threeTyped).length (typedText threeTyped)) =
      (Mealy.run perform format (threeTyped.zipIdx.map fun e => (⟨Env.zeroed, 0⟩, e.1))).map
        fun p => ((List.zipWith answer threeTyped p.1).flatten, p.2) := by
  have htypable : ∀ q ∈ threeTyped, q.Typable := by
    intro q hmem
    have hq := hmem
    simp only [threeTyped, List.mem_cons, List.not_mem_nil, or_false] at hq
    have htest : ∀ q ∈ threeTyped, ∀ s ∈ q.arguments, isArgument s = true := by decide +kernel
    refine ⟨?_, fun s hs => argument_of_test (htest q hmem s hs)⟩
    rcases hq with rfl | rfl | rfl <;> trivial
  exact ⟨by decide +kernel, typed_requests perform _ threeTyped htypable format⟩

end OperatingSystems.FS
