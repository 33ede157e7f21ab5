import OperatingSystems.Formats
import OperatingSystems.VMFilter

/-! `vm.c`: `main` from its arguments and the text of the input file on. -/
namespace OperatingSystems.VM
open CStrings Formats

/-- The variables that a line is scanned into. -/
structure Variables where
  pid : BitVec 32
  type : Byte
  addr : BitVec 32
  byte : Byte

def toChar (b : Byte) : Char := Char.ofNat b.toNat

def toByte (c : Char) : Byte := BitVec.ofNat 8 c.toNat

/-- A variable whose conversion was not reached keeps what it holds. -/
def Variables.store (vars : Variables) : List Value → Variables
  | [.int pid] => { vars with pid }
  | [.int pid, .char type] => { vars with pid, type }
  | [.int pid, .char type, .int addr] => { vars with pid, type, addr }
  | [.int pid, .char type, .int addr, .char byte] => ⟨pid, type, addr, byte⟩
  | _ => vars

def Variables.scan (vars : Variables) (input : List Byte) : ℤ × Variables :=
  let (ret, values) := sscanf input "%d %c 0x%x %c"
  (ret, vars.store values)

def Variables.request (vars : Variables) (ret : ℤ) : Request :=
  ⟨ret, vars.pid.toInt, toChar vars.type, vars.addr.toInt, toChar vars.byte⟩

/-- `READ_PHYSICAL_MEM` reads into `byte`. -/
def Variables.afterReply (vars : Variables) : Reply → Variables
  | .access _ _ byte => { vars with byte := toByte byte }
  | _ => vars

def isComment (input : List Byte) : Bool := input.head? = some 35#8 ∨ input.head? = some 37#8

/-- The loop body. -/
def serveInput (cfg : Config) (heap : Heap) (vars : Variables) (s : Machine) (input : List Byte) :
    Option (Reply × Variables × Machine) :=
  if isComment input then some (.skip, vars, s)
  else do
    let (ret, vars) := vars.scan input
    let (reply, s) ← serveRequest cfg heap s (vars.request ret)
    return (reply, vars.afterReply reply, s)

def inputLoop (cfg : Config) (heap : Heap) :
    Variables → Machine → List (List Byte) → Option (List Reply × Machine)
  | _, s, [] => some ([], s)
  | vars, s, input :: inputs => do
    let (reply, vars, s) ← serveInput cfg heap vars s input
    match reply with
    | .exit message => return ([.exit message], s)
    | reply =>
      let (replies, s) ← inputLoop cfg heap vars s inputs
      return (reply :: replies, s)

/-- The globals `MAX_VPN` and `MAX_PID` after the first line; they are 0 at the start. -/
def scanHeader (input : List Byte) : BitVec 32 × BitVec 32 :=
  match (sscanf input "# PAGES: %d, # PROCS: %d").2 with
  | [.int MAX_VPN] => (MAX_VPN, 0)
  | [.int MAX_VPN, .int MAX_PID] => (MAX_VPN, MAX_PID)
  | _ => (0, 0)

def replacementPolicy (n : BitVec 32) : Option Policy :=
  if n = 0 then some .ZERO
  else if n = 1 then some .FIFO
  else if n = 2 then some .LRU
  else if n = 3 then some .CLOCK
  else none

instance (cfg : Config) : Decidable cfg.Accepted :=
  decidable_of_iff ((1 ≤ cfg.MAX_VPN ∧ cfg.MAX_VPN ≤ 256) ∧ (1 ≤ cfg.MAX_PFN ∧ cfg.MAX_PFN ≤ 256) ∧
      1 ≤ cfg.MAX_PID ∧ cfg.MAX_PID ≤ 256)
    ⟨fun h => ⟨h.1, h.2.1, h.2.2⟩, fun h => ⟨h.MAX_VPN, h.MAX_PFN, h.MAX_PID⟩⟩

/-- The end of `main`: the code and the text of a check, or the loop's. -/
inductive Exit
  | quit (code : ℤ) (message : String)
  | served (replies : List Reply) (s : Machine)

def main (fopen : List Byte → Option (List Byte)) (heap : Heap) (vars : Variables) :
    List (List Byte) → Option Exit
  | _ :: frames :: policy :: name :: _ =>
    match fopen name with
    | none => some (.quit 0 "File open error: %s\n")
    | some file =>
      match allBuffers 256 file with
      | [] => some (.quit 0 "")
      | header :: inputs =>
        match replacementPolicy (atoi policy) with
        | none => some (.quit (-1) "UNKNOWN!\n")
        | some policy =>
          let (MAX_VPN, MAX_PID) := scanHeader header
          let cfg : Config := ⟨(atoi frames).toInt, MAX_VPN.toInt, MAX_PID.toInt, policy⟩
          if cfg.Accepted then
            (inputLoop cfg heap vars (init cfg heap) inputs).map fun q => .served q.1 q.2
          else some (.quit (-1)
            "ERROR:  # PAGE, # FRAME, and # PROCESS should be between 1 and 256\n")
  | _ => some (.quit (-1) "usage: ./vm [# of FRAMES] [REPLACEMENT_POLICY] [INPUT]\n")

/-! ### The lines of a file as requests -/

/-- The lines, scanned one after the other. -/
def scanLines : Variables → List (List Byte) → List Line
  | _, [] => []
  | vars, input :: inputs =>
    if isComment input then .comment :: scanLines vars inputs
    else
      .request ((vars.scan input).2.request (vars.scan input).1) ::
        scanLines (vars.scan input).2 inputs

/-- Only a complete W looks at the byte. -/
theorem serveRequest_byte (cfg : Config) (heap : Heap) (s : Machine) (r : Request) (b : Char)
    (h : r.type = 'W' → r.ret < 4) :
    serveRequest cfg heap s { r with byte := b } = serveRequest cfg heap s r := by
  have hsame : ({ r with byte := b } : Request).filter cfg = r.filter cfg := rfl
  rw [serveRequest_filter, serveRequest_filter, hsame]
  cases hfilter : r.filter cfg with
  | error message => rfl
  | ok call =>
    obtain ⟨-, hscan, -⟩ := (filter_ok_iff cfg r call).mp hfilter
    have htype : r.type ≠ 'W' := fun hw => hscan (Or.inr ⟨hw, h hw⟩)
    dsimp only
    congr 1
    funext p
    simp only [accessMemory, if_neg htype, Request.offset, Request.VPN]

/-- Variables that agree but for `byte`. -/
def Variables.Agrees (v w : Variables) : Prop := v = { w with byte := v.byte }

theorem Variables.Agrees.afterReply {v w : Variables} (h : v.Agrees w) (reply : Reply) :
    (v.afterReply reply).Agrees w := by
  rw [Variables.Agrees] at h ⊢
  cases reply with
  | access hit physicalAddr byte => rw [h]; rfl
  | _ => exact h

/-- What a line can store: the first of the four conversions, as far as it matches. -/
inductive Scanned : List Value → Prop
  | none : Scanned []
  | pid (pid) : Scanned [.int pid]
  | type (pid type) : Scanned [.int pid, .char type]
  | addr (pid type addr) : Scanned [.int pid, .char type, .int addr]
  | byte (pid type addr byte) : Scanned [.int pid, .char type, .int addr, .char byte]

theorem format_line : format "%d %c 0x%x %c".toList =
    [.decimal, .plain 32#8, .char, .plain 32#8, .plain 48#8, .plain 120#8, .hex 0, .plain 32#8,
      .char] := by decide

theorem scanned_line (input : List Byte) : Scanned (sscanf input "%d %c 0x%x %c").2 := by
  have h := scan_stored (format "%d %c 0x%x %c".toList) input
  change Scanned (scan (format "%d %c 0x%x %c".toList) input).1
  generalize (scan (format "%d %c 0x%x %c".toList) input).1 = values at h ⊢
  rw [format_line] at h
  rcases values with _ | ⟨pid, values⟩
  · exact .none
  obtain ⟨hpid, h⟩ := h
  cases pid with
  | char _ => exact False.elim hpid
  | word _ => exact False.elim hpid
  | int pid =>
  rcases values with _ | ⟨type, values⟩
  · exact .pid pid
  obtain ⟨htype, h⟩ := h
  cases type with
  | int _ => exact False.elim htype
  | word _ => exact False.elim htype
  | char type =>
  rcases values with _ | ⟨addr, values⟩
  · exact .type pid type
  obtain ⟨haddr, h⟩ := h
  cases addr with
  | char _ => exact False.elim haddr
  | word _ => exact False.elim haddr
  | int addr =>
  rcases values with _ | ⟨byte, values⟩
  · exact .addr pid type addr
  obtain ⟨hbyte, h⟩ := h
  cases byte with
  | int _ => exact False.elim hbyte
  | word _ => exact False.elim hbyte
  | char byte =>
  cases values with
  | nil => exact .byte pid type addr byte
  | cons v values => exact False.elim h

theorem Scanned.store {values : List Value} (h : Scanned values) (w : Variables) (b : Byte) :
    (Variables.store { w with byte := b } values).Agrees (w.store values) ∧
      (values.length < 4 ∨ Variables.store { w with byte := b } values = w.store values) := by
  cases h with
  | none => exact ⟨rfl, Or.inl (by simp)⟩
  | pid pid => exact ⟨rfl, Or.inl (by simp)⟩
  | type pid type => exact ⟨rfl, Or.inl (by simp)⟩
  | addr pid type addr => exact ⟨rfl, Or.inl (by simp)⟩
  | byte pid type addr byte => exact ⟨rfl, Or.inr rfl⟩

/-- A line scanned into either gives the same, but for a byte that was not converted. -/
theorem Variables.Agrees.scan {v w : Variables} (h : v.Agrees w) (input : List Byte) :
    (v.scan input).1 = (w.scan input).1 ∧ (v.scan input).2.Agrees (w.scan input).2 ∧
      ((v.scan input).1 < 4 ∨ (v.scan input).2 = (w.scan input).2) := by
  obtain ⟨hagrees, hbyte⟩ := (scanned_line input).store w v.byte
  rw [← h] at hagrees hbyte
  refine ⟨rfl, hagrees, hbyte.imp_left fun hlen => ?_⟩
  change (if _ then (-1 : ℤ) else ((sscanf input "%d %c 0x%x %c").2.length : ℤ)) < 4
  split_ifs <;> omega

/-- The loop over the text is the loop over the lines scanned from it: what a read leaves in `byte`
is never looked at. -/
theorem inputLoop_eq (cfg : Config) (heap : Heap) (v w : Variables) (h : v.Agrees w) (s : Machine)
    (inputs : List (List Byte)) :
    inputLoop cfg heap v s inputs = mainLoop cfg heap s (scanLines w inputs) := by
  induction inputs generalizing v w s with
  | nil => rfl
  | cons input inputs ih =>
    rw [inputLoop, serveInput, scanLines]
    by_cases hcomment : isComment input = true
    · rw [if_pos hcomment, if_pos hcomment]
      simp only [mainLoop, serveLine, Option.bind_eq_bind, Option.bind_some, ih v w h s]
    · obtain ⟨hret, hvars, hbyte⟩ := h.scan input
      have hserve : serveRequest cfg heap s ((v.scan input).2.request (v.scan input).1) =
          serveRequest cfg heap s ((w.scan input).2.request (w.scan input).1) := by
        rcases hbyte with hlt | heq
        · rw [hvars, hret]
          exact serveRequest_byte cfg heap s ((w.scan input).2.request (w.scan input).1) _
            fun _ => hret ▸ hlt
        · rw [heq, hret]
      rw [if_neg hcomment, if_neg hcomment]
      simp only [mainLoop, serveLine, Option.bind_eq_bind, hserve]
      cases serveRequest cfg heap s ((w.scan input).2.request (w.scan input).1) with
      | none => rfl
      | some p =>
        obtain ⟨reply, t⟩ := p
        have hrest := ih _ _ (hvars.afterReply reply) t
        cases reply <;> simp [hrest]

end OperatingSystems.VM
