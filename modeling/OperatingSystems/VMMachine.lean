import Mathlib.Data.Int.Notation
import Mathlib.Data.Nat.Notation
import Mathlib.Data.List.Basic
import Mathlib.Logic.Function.Basic
import Mathlib.Tactic.SplitIfs

/-! The data of the virtual memory simulator: page tables, replacement lists,
physical memory and swap disk, with the accessors of `pt_core.c`, `disk.c`,
`list.c` and `clock_list.c`. -/
namespace OperatingSystems.VM

/-- The replacement policies that `main` lets through. -/
inductive Policy
  | ZERO
  | FIFO
  | LRU
  | CLOCK
  deriving DecidableEq, Repr

@[ext] structure IPTE where
  pid : ℤ
  VPN : ℤ
  deriving DecidableEq, Repr

structure PTE where
  PFN : ℤ
  valid : Bool
  dirty : Bool
  deriving DecidableEq, Repr

structure ClockNode where
  data : ℤ
  ref : ℤ
  deriving DecidableEq, Repr

/-- The counters are `int`s: like `i` of `fifo` they wrap. -/
structure STATS where
  hitCount : BitVec 32
  missCount : BitVec 32
  swapRead : BitVec 32
  swapWrite : BitVec 32
  deriving DecidableEq, Repr

structure Config where
  MAX_PFN : ℤ
  MAX_VPN : ℤ
  MAX_PID : ℤ
  replacementPolicy : Policy
  deriving DecidableEq, Repr

/-- What `malloc` left in the tables and in the memory before the program stores there,
and what a read outside the page table finds. -/
structure Heap where
  ipte : ℤ → IPTE
  pte : ℤ → ℤ → PTE
  byte : ℤ → Char

/-- The globals. An inverted entry is `none` until `write_IPTE` has stored one; the two
lists are the forward traversals from `head` and `clockHead`; `i` is the `int` of `fifo`. The
tables, the memory and the disk have values at all indices here, but the program's only at those of
pages and frames of the configuration: beyond them it reads and writes what is not its own. -/
structure Machine where
  pageTable : ℤ → ℤ → PTE
  invertedPageTable : ℤ → Option IPTE
  nextFreeFrame : ℤ
  PHYSICAL_MEM : ℤ → Char
  SWAP_DISK : ℤ → ℤ → Char
  i : BitVec 32
  head : List ℤ
  clockHead : List ClockNode
  stats : STATS

/-- Page numbers that index the page table and the swap disk. -/
def Config.InRange (cfg : Config) (p : IPTE) : Prop :=
  0 ≤ p.pid ∧ p.pid < cfg.MAX_PID ∧ 0 ≤ p.VPN ∧ p.VPN < cfg.MAX_VPN

instance (cfg : Config) (p : IPTE) : Decidable (cfg.InRange p) :=
  inferInstanceAs (Decidable (_ ∧ _ ∧ _ ∧ _))

/-- The state after `init_pagetable` and `init_swap_disk`. -/
def init (cfg : Config) (heap : Heap) : Machine where
  pageTable pid VPN :=
    if cfg.InRange ⟨pid, VPN⟩ then { heap.pte pid VPN with valid := false } else heap.pte pid VPN
  invertedPageTable _ := none
  nextFreeFrame := 0
  PHYSICAL_MEM := heap.byte
  SWAP_DISK _ _ := 'A'
  i := -1
  head := []
  clockHead := []
  stats := ⟨0, 0, 0, 0⟩

def Machine.readPTE (s : Machine) (pid VPN : ℤ) : PTE := s.pageTable pid VPN

def Machine.writePTE (s : Machine) (pid VPN : ℤ) (pte : PTE) : Machine :=
  { s with pageTable := Function.update s.pageTable pid (Function.update (s.pageTable pid) VPN pte) }

def Machine.readIPTE (s : Machine) (heap : Heap) (PFN : ℤ) : IPTE :=
  (s.invertedPageTable PFN).getD (heap.ipte PFN)

def Machine.writeIPTE (s : Machine) (PFN : ℤ) (ipte : IPTE) : Machine :=
  { s with invertedPageTable := Function.update s.invertedPageTable PFN (some ipte) }

def getFreeframe (cfg : Config) (s : Machine) : ℤ × Machine :=
  if s.nextFreeFrame ≥ cfg.MAX_PFN then (-1, s)
  else (s.nextFreeFrame, { s with nextFreeFrame := s.nextFreeFrame + 1 })

def swapIn (pid VPN PFN : ℤ) (s : Machine) : Machine :=
  { s with
    stats := { s.stats with swapRead := s.stats.swapRead + 1 }
    PHYSICAL_MEM := Function.update s.PHYSICAL_MEM PFN (s.SWAP_DISK pid VPN) }

def swapOut (pid VPN PFN : ℤ) (s : Machine) : Machine :=
  { s with
    stats := { s.stats with swapWrite := s.stats.swapWrite + 1 }
    SWAP_DISK := Function.update s.SWAP_DISK pid
      (Function.update (s.SWAP_DISK pid) VPN (s.PHYSICAL_MEM PFN)) }

def listRemoveHead (head : List ℤ) : List ℤ := head.tail

def listRemove (head : List ℤ) (data : ℤ) : List ℤ := head.erase data

def listInsertTail (head : List ℤ) (x : ℤ) : List ℤ := head ++ [x]

def clockListRemoveHead (head : List ClockNode) : List ClockNode := head.tail

def clockListInsertTail (head : List ClockNode) (x ref : ℤ) : List ClockNode := head ++ [⟨x, ref⟩]

/-- Set `ref` of the first node that holds `data`. -/
def clockListUpdateRef : List ClockNode → ℤ → ℤ → List ClockNode
  | [], _, _ => []
  | n :: rest, data, ref =>
    if n.data = data then { n with ref := ref } :: rest
    else n :: clockListUpdateRef rest data ref

section accessors
variable (s : Machine) (heap : Heap) (pid VPN PFN p v f : ℤ) (pte : PTE) (ipte : IPTE)

@[simp] theorem readPTE_writePTE :
    (s.writePTE pid VPN pte).readPTE p v = if p = pid ∧ v = VPN then pte else s.readPTE p v := by
  by_cases hp : p = pid
  · subst hp
    by_cases hv : v = VPN <;> simp [Machine.readPTE, Machine.writePTE, Function.update, hv]
  · simp [Machine.readPTE, Machine.writePTE, Function.update, hp]

@[simp] theorem readPTE_writeIPTE : (s.writeIPTE PFN ipte).readPTE p v = s.readPTE p v := rfl

@[simp] theorem readPTE_swapIn : (swapIn pid VPN PFN s).readPTE p v = s.readPTE p v := rfl

@[simp] theorem readPTE_swapOut : (swapOut pid VPN PFN s).readPTE p v = s.readPTE p v := rfl

@[simp] theorem inverted_writeIPTE :
    (s.writeIPTE PFN ipte).invertedPageTable f =
      if f = PFN then some ipte else s.invertedPageTable f := by
  simp [Machine.writeIPTE, Function.update_apply]

@[simp] theorem memory_swapIn :
    (swapIn pid VPN PFN s).PHYSICAL_MEM f =
      if f = PFN then s.SWAP_DISK pid VPN else s.PHYSICAL_MEM f := by
  simp [swapIn, Function.update_apply]

@[simp] theorem disk_swapOut :
    (swapOut pid VPN PFN s).SWAP_DISK p v =
      if p = pid ∧ v = VPN then s.PHYSICAL_MEM PFN else s.SWAP_DISK p v := by
  by_cases hp : p = pid
  · subst hp
    by_cases hv : v = VPN <;> simp [swapOut, Function.update, hv]
  · simp [swapOut, Function.update, hp]

/-- A frame that holds a page is read back as that page, whatever `malloc` left. -/
theorem readIPTE_of_stored (h : s.invertedPageTable PFN = some ipte) :
    s.readIPTE heap PFN = ipte := by
  simp [Machine.readIPTE, h]

end accessors

theorem clockListUpdateRef_data (head : List ClockNode) (data ref : ℤ) :
    (clockListUpdateRef head data ref).map ClockNode.data = head.map ClockNode.data := by
  induction head with
  | nil => rfl
  | cons n rest ih =>
    unfold clockListUpdateRef
    split_ifs with h
    · simp
    · simp [ih]

end OperatingSystems.VM
