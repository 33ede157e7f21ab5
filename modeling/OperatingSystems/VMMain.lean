import OperatingSystems.VMPageTable
import Mathlib.Tactic.Ring
import Mathlib.Algebra.Order.Ring.Int

/-! `vm.c`: the request loop of `main` over lines already scanned. -/
namespace OperatingSystems.VM

/-- `main`'s variables after `sscanf`: `ret` conversions succeeded, a variable that was not
converted keeps whatever it held. -/
structure Request where
  ret : ℤ
  pid : ℤ
  type : Char
  addr : ℤ
  byte : Char
  deriving DecidableEq, Repr

/-- A line of the input file: one that starts with `#` or `%`, or one that is scanned. -/
inductive Line
  | comment
  | request (r : Request)
  deriving DecidableEq, Repr

/-- What the loop body does about a line; the texts are `printf`'s formats. -/
inductive Reply
  | skip
  | refuse (message : String)
  | access (hit : Bool) (physicalAddr : ℤ) (byte : Char)
  | fail (message : String)
  | exit (message : String)
  deriving DecidableEq, Repr

/-- The byte shown in the line of a completed access. -/
def Reply.byte? : Reply → Option Char
  | .access _ _ byte => some byte
  | _ => none

/-- The frame's access line says `[hit]`. -/
def Reply.isHit : Reply → Bool
  | .access hit _ _ => hit
  | _ => false

/-- The accesses that found their page in memory, and those that did not. -/
def hits (replies : List Reply) : ℕ := replies.countP Reply.isHit

def misses (replies : List Reply) : ℕ := replies.countP fun reply => !reply.isHit

theorem hits_add_misses (replies : List Reply) :
    hits replies + misses replies = replies.length := by
  rw [hits, misses, List.length_eq_countP_add_countP Reply.isHit]
  congr 1
  apply List.countP_congr
  intro reply _
  simp

def Request.VPN (r : Request) : ℤ := r.addr >>> (8 : ℕ)

def Request.offset (r : Request) : ℤ := r.addr - r.VPN * 256

/-- The frame number if the address is inside physical memory (`ret = 1`), else `none` (-1). -/
def physicalFrame (cfg : Config) (addr : ℤ) : Option ℤ :=
  let frameNo := addr >>> (8 : ℕ)
  if frameNo < 0 ∨ frameNo ≥ cfg.MAX_PFN then none else some frameNo

def READ_PHYSICAL_MEM (cfg : Config) (addr : ℤ) (s : Machine) : Option Char :=
  (physicalFrame cfg addr).map s.PHYSICAL_MEM

def WRITE_PHYSICAL_MEM (cfg : Config) (addr : ℤ) (byte : Char) (s : Machine) : Option Machine :=
  (physicalFrame cfg addr).map fun frameNo =>
    { s with PHYSICAL_MEM := Function.update s.PHYSICAL_MEM frameNo byte }

/-- The end of the loop body, once the MMU has returned a frame. -/
def accessMemory (cfg : Config) (r : Request) (PFN : ℤ) (hit : Bool) (s : Machine) :
    Reply × Machine :=
  let physicalAddr := PFN * 256 + r.offset
  if PFN ≥ cfg.MAX_PFN ∨ PFN < 0 ∨ physicalAddr < 0 then
    (.exit "[pid %d, %c] 0x%x --> 0x%x: Invalid Physical Address.\n", s)
  else if r.type = 'R' then
    match READ_PHYSICAL_MEM cfg physicalAddr s with
    | none => (.fail "[pid %d, %c] 0x%04x --> 0x%04x: Memory Read Failed.\n", s)
    | some byte => (.access hit physicalAddr byte, s)
  else if r.type = 'W' then
    match WRITE_PHYSICAL_MEM cfg physicalAddr r.byte s with
    | none => (.fail "[pid %d, %c] 0x%04x --> 0x%04x: %c Memory Write Failed.\n", s)
    | some s => (.access hit physicalAddr r.byte, s)
  else (.exit "Error: invalid request type: %c\n", s)

def serveRequest (cfg : Config) (heap : Heap) (s : Machine) (r : Request) :
    Option (Reply × Machine) :=
  if r.type = 'R' ∧ r.ret < 3 ∨ r.type = 'W' ∧ r.ret < 4 then
    some (.refuse "Error: invalid input: %s\n", s)
  else if r.pid > cfg.MAX_PID - 1 then
    some (.refuse "[pid %d, %c] 0x%x: Invalid PID.\n", s)
  else if (r.type = 'R' ∨ r.type = 'W') ∧ r.VPN ≥ cfg.MAX_VPN then
    some (.refuse "[pid %d, %c] 0x%x: Invalid VPN.\n", s)
  else do
    let (PFN, hit, s) ← MMU cfg heap r.pid r.VPN r.type s
    return accessMemory cfg r PFN hit s

def serveLine (cfg : Config) (heap : Heap) (s : Machine) : Line → Option (Reply × Machine)
  | .comment => some (.skip, s)
  | .request r => serveRequest cfg heap s r

/-- The loop over the file; `return 0` inside the body ends it. -/
def mainLoop (cfg : Config) (heap : Heap) : Machine → List Line → Option (List Reply × Machine)
  | s, [] => some ([], s)
  | s, line :: lines => do
    let (reply, s) ← serveLine cfg heap s line
    match reply with
    | .exit message => return ([.exit message], s)
    | reply =>
      let (replies, s) ← mainLoop cfg heap s lines
      return (reply :: replies, s)

def Request.page (r : Request) : IPTE := ⟨r.pid, r.VPN⟩

/-- A complete R or W request for a page of the configuration. -/
structure Request.InRange (cfg : Config) (r : Request) : Prop where
  type : r.type = 'R' ∨ r.type = 'W'
  scanned : if r.type = 'R' then 3 ≤ r.ret else 4 ≤ r.ret
  addr : 0 ≤ r.addr
  page : cfg.InRange r.page

instance (cfg : Config) (r : Request) : Decidable (r.InRange cfg) :=
  decidable_of_iff ((r.type = 'R' ∨ r.type = 'W') ∧
    (if r.type = 'R' then 3 ≤ r.ret else 4 ≤ r.ret) ∧ 0 ≤ r.addr ∧ cfg.InRange r.page)
    ⟨fun h => ⟨h.1, h.2.1, h.2.2.1, h.2.2.2⟩, fun h => ⟨h.type, h.scanned, h.addr, h.page⟩⟩

/-- The requests of `example_inputs/belady_input.txt`. -/
def beladyTrace : List Request :=
  [⟨4, 0, 'W', 0x100, 'a'⟩, ⟨4, 0, 'W', 0x200, 'b'⟩, ⟨4, 0, 'W', 0x300, 'c'⟩,
    ⟨4, 0, 'W', 0x400, 'd'⟩, ⟨3, 0, 'R', 0x100, 'd'⟩, ⟨3, 0, 'R', 0x200, 'd'⟩,
    ⟨4, 0, 'W', 0x500, 'e'⟩, ⟨3, 0, 'R', 0x100, 'e'⟩, ⟨3, 0, 'R', 0x200, 'e'⟩,
    ⟨3, 0, 'R', 0x300, 'e'⟩, ⟨3, 0, 'R', 0x400, 'e'⟩, ⟨3, 0, 'R', 0x500, 'e'⟩]

/-- The trace is for 6 pages of one process. -/
def beladyConfig (MAX_PFN : ℤ) (policy : Policy) : Config := ⟨MAX_PFN, 6, 1, policy⟩

/-- Memory in which `malloc` left page table entries that look valid and dirty. -/
def staleHeap : Heap := ⟨fun _ => ⟨0, 0⟩, fun _ _ => ⟨0, true, true⟩, fun _ => 'x'⟩

theorem Request.offset_bounds (r : Request) : 0 ≤ r.offset ∧ r.offset < 256 := by
  have h := Int.shiftRight_eq_div_pow r.addr 8
  unfold Request.offset Request.VPN
  omega

/-- Adding the offset back to a frame keeps the frame number. -/
theorem physicalFrame_of_frame (cfg : Config) (r : Request) (PFN : ℤ) (h0 : 0 ≤ PFN)
    (h1 : PFN < cfg.MAX_PFN) : physicalFrame cfg (PFN * 256 + r.offset) = some PFN := by
  have ho := r.offset_bounds
  have hf : (PFN * 256 + r.offset) >>> (8 : ℕ) = PFN := by
    rw [Int.shiftRight_eq_div_pow]
    omega
  simp only [physicalFrame, hf]
  rw [if_neg (by omega)]

/-- The frame's byte after the access: a W stores its own. -/
def storeByte (r : Request) (PFN : ℤ) (s : Machine) : Machine :=
  if r.type = 'W' then { s with PHYSICAL_MEM := Function.update s.PHYSICAL_MEM PFN r.byte } else s

theorem accessMemory_eq (cfg : Config) (r : Request) (PFN : ℤ) (hit : Bool) (s : Machine)
    (hr : r.type = 'R' ∨ r.type = 'W') (h0 : 0 ≤ PFN) (h1 : PFN < cfg.MAX_PFN) :
    accessMemory cfg r PFN hit s =
      (.access hit (PFN * 256 + r.offset) ((storeByte r PFN s).PHYSICAL_MEM PFN),
        storeByte r PFN s) := by
  have ho := r.offset_bounds
  have hf := physicalFrame_of_frame cfg r PFN h0 h1
  have hguard : ¬(PFN ≥ cfg.MAX_PFN ∨ PFN < 0 ∨ PFN * 256 + r.offset < 0) := by omega
  simp only [accessMemory]
  rw [if_neg hguard]
  rcases hr with hr | hr
  · simp [hr, READ_PHYSICAL_MEM, hf, storeByte]
  · simp [hr, WRITE_PHYSICAL_MEM, hf, storeByte]

/-- A complete in-range request passes every check of the loop body. -/
theorem serveRequest_eq (cfg : Config) (heap : Heap) (s : Machine) (r : Request)
    (hr : r.InRange cfg) :
    serveRequest cfg heap s r = (MMU cfg heap r.pid r.VPN r.type s).map
      fun p => accessMemory cfg r p.1 p.2.1 p.2.2 := by
  obtain ⟨htype, hret, _, hpage⟩ := hr
  have hp : r.pid < cfg.MAX_PID := hpage.2.1
  have hv : r.VPN < cfg.MAX_VPN := hpage.2.2.2
  have hscan : ¬(r.type = 'R' ∧ r.ret < 3 ∨ r.type = 'W' ∧ r.ret < 4) := by
    rcases htype with ht | ht <;> simp [ht] at hret ⊢ <;> omega
  unfold serveRequest
  rw [if_neg hscan, if_neg (by omega), if_neg (by omega)]
  cases MMU cfg heap r.pid r.VPN r.type s <;> rfl

/-- Where no reply ends the loop, it is the plain run over the lines. -/
theorem mainLoop_cons (cfg : Config) (heap : Heap) {s t : Machine} {line : Line} {reply : Reply}
    (lines : List Line) (hserve : serveLine cfg heap s line = some (reply, t))
    (hreply : ∀ message, reply ≠ .exit message) : mainLoop cfg heap s (line :: lines) =
      (mainLoop cfg heap t lines).map fun q => (reply :: q.1, q.2) := by
  simp only [mainLoop, hserve, Option.bind_eq_bind, Option.bind_some]
  cases reply with
  | exit message => exact absurd rfl (hreply message)
  | _ => cases mainLoop cfg heap t lines <;> rfl

end OperatingSystems.VM
