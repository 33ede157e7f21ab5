import OperatingSystems.VMMachine
import Mathlib.Data.Int.Basic

/-! `pagetable.c`: victim selection, the page-fault handler and the MMU. `none` is a
dereference of a NULL list head. -/
namespace OperatingSystems.VM

/-- `i++; return i % MAX_PFN`, with the wrap of a 32-bit `int` and C's remainder. -/
def fifo (cfg : Config) (s : Machine) : ℤ × Machine :=
  let i := s.i + 1
  (i.toInt.tmod cfg.MAX_PFN, { s with i := i })

def lru (s : Machine) : Option ℤ := s.head.head?

/-- The loop of `clock`: nodes with `ref` 1 go to the tail with `ref` 0, so their number drops. -/
def clockLoop : List ClockNode → Option (List ClockNode)
  | [] => none
  | n :: rest =>
    if n.ref = 1 then
      clockLoop (clockListInsertTail (clockListRemoveHead (n :: rest)) n.data 0)
    else some (n :: rest)
termination_by l => l.countP (fun n => n.ref = 1)
decreasing_by
  rename_i h
  simp [clockListInsertTail, clockListRemoveHead, h]

def clock (s : Machine) : Option (ℤ × Machine) := do
  let clockHead ← clockLoop s.clockHead
  let n ← clockHead.head?
  return (n.data, { s with clockHead := clockHead })

def findReplacement (cfg : Config) (s : Machine) : Option (ℤ × Machine) :=
  match cfg.replacementPolicy with
  | .ZERO => some (0, s)
  | .FIFO => some (fifo cfg s)
  | .LRU => (lru s).map fun PFN => (PFN, s)
  | .CLOCK => clock s

/-- The victim's node leaves the replacement list. -/
def removeVictimNode (cfg : Config) (s : Machine) : Machine :=
  match cfg.replacementPolicy with
  | .LRU => { s with head := listRemoveHead s.head }
  | .CLOCK => { s with clockHead := clockListRemoveHead s.clockHead }
  | _ => s

/-- The frame just filled enters the replacement list. -/
def insertFrameNode (cfg : Config) (PFN : ℤ) (s : Machine) : Machine :=
  match cfg.replacementPolicy with
  | .LRU => { s with head := listInsertTail s.head PFN }
  | .CLOCK => { s with clockHead := clockListInsertTail s.clockHead PFN 0 }
  | _ => s

/-- The page recorded for frame `PFN` is written to the swap disk and made invalid. -/
def evictPage (heap : Heap) (PFN : ℤ) (s : Machine) : Machine :=
  let ipte := s.readIPTE heap PFN
  let pte := s.readPTE ipte.pid ipte.VPN
  let s := swapOut ipte.pid ipte.VPN pte.PFN s
  s.writePTE ipte.pid ipte.VPN { pte with valid := false }

/-- The page comes in from the swap disk; its PTE is built on the one of the page that the
inverted table records for the frame. -/
def loadPage (heap : Heap) (pid VPN : ℤ) (type : Char) (PFN : ℤ) (s : Machine) : Machine :=
  let ipte := s.readIPTE heap PFN
  let pte := s.readPTE ipte.pid ipte.VPN
  let pte := if type = 'W' then { pte with dirty := true }
    else if type = 'R' then { pte with dirty := false } else pte
  let s := swapIn pid VPN PFN s
  let s := s.writeIPTE PFN ⟨pid, VPN⟩
  s.writePTE pid VPN { pte with valid := true, PFN := PFN }

def pagefaultHandler (cfg : Config) (heap : Heap) (pid VPN : ℤ) (type : Char) (s : Machine) :
    Option (ℤ × Machine) := do
  let (PFN, s) := getFreeframe cfg s
  let (PFN, s) ←
    if PFN < 0 then do
      let (PFN, s) ← findReplacement cfg s
      pure (PFN, evictPage heap PFN (removeVictimNode cfg s))
    else pure (PFN, s)
  return (PFN, loadPage heap pid VPN type PFN (insertFrameNode cfg PFN s))

/-- A hit moves the frame to the tail of the LRU list, or sets its CLOCK reference bit. -/
def touchFrame (cfg : Config) (PFN : ℤ) (s : Machine) : Machine :=
  match cfg.replacementPolicy with
  | .LRU => { s with head := listInsertTail (listRemove s.head PFN) PFN }
  | .CLOCK => { s with clockHead := clockListUpdateRef s.clockHead PFN 1 }
  | _ => s

def isPageHit (cfg : Config) (pid VPN : ℤ) (type : Char) (s : Machine) : ℤ × Machine :=
  let pte := s.readPTE pid VPN
  if pte.valid then
    let s := if type = 'W' then s.writePTE pid VPN { pte with dirty := true } else s
    (pte.PFN, touchFrame cfg pte.PFN s)
  else (-1, s)

/-- The frame, whether it was a hit, and the state after the access. -/
def MMU (cfg : Config) (heap : Heap) (pid VPN : ℤ) (type : Char) (s : Machine) :
    Option (ℤ × Bool × Machine) :=
  let (PFN, s) := isPageHit cfg pid VPN type s
  if PFN ≥ 0 then
    some (PFN, true, { s with stats := { s.stats with hitCount := s.stats.hitCount + 1 } })
  else do
    let s := { s with stats := { s.stats with missCount := s.stats.missCount + 1 } }
    let (PFN, s) ← pagefaultHandler cfg heap pid VPN type s
    return (PFN, false, s)

/-- `clock` stops: it fails only on an empty list. -/
theorem clockLoop_isSome (l : List ClockNode) (h : l ≠ []) :
    ∃ n rest, clockLoop l = some (n :: rest) := by
  induction l using clockLoop.induct with
  | case1 => exact absurd rfl h
  | case2 n rest href ih =>
    unfold clockLoop
    rw [if_pos href]
    exact ih (by simp [clockListInsertTail])
  | case3 n rest href =>
    exact ⟨n, rest, by unfold clockLoop; rw [if_neg href]⟩

/-- `clock` only rotates the list and clears reference bits. -/
theorem clockLoop_perm (l m : List ClockNode) (h : clockLoop l = some m) :
    (m.map ClockNode.data).Perm (l.map ClockNode.data) := by
  induction l using clockLoop.induct with
  | case1 => simp [clockLoop] at h
  | case2 n rest href ih =>
    unfold clockLoop at h
    rw [if_pos href] at h
    refine (ih h).trans ?_
    simp only [clockListInsertTail, clockListRemoveHead, List.tail_cons, List.map_append,
      List.map_cons, List.map_nil]
    exact List.perm_append_singleton n.data (rest.map ClockNode.data)
  | case3 n rest href =>
    unfold clockLoop at h
    rw [if_neg href] at h
    cases h
    rfl

end OperatingSystems.VM
