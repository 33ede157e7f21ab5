import OperatingSystems.VMMain
import Mathlib.Tactic.Cases

/-! What one call of the MMU does, said once: a hit, or a fault that fills a frame.
Every invariant of the simulator is derived from `mmu_cases`. -/
namespace OperatingSystems.VM

def Machine.pte (s : Machine) (p : IPTE) : PTE := s.readPTE p.pid p.VPN

def Machine.swap (s : Machine) (p : IPTE) : Char := s.SWAP_DISK p.pid p.VPN

/-- The page table and the inverted page table are mutually inverse on the frames handed
out so far, and no later frame has an inverted entry. -/
structure Inverse (cfg : Config) (s : Machine) : Prop where
  frames : 0 ≤ s.nextFreeFrame ∧ s.nextFreeFrame ≤ cfg.MAX_PFN
  valid : ∀ p, cfg.InRange p → (s.pte p).valid = true →
    0 ≤ (s.pte p).PFN ∧ (s.pte p).PFN < s.nextFreeFrame ∧
      s.invertedPageTable (s.pte p).PFN = some p
  stored : ∀ f, 0 ≤ f → f < s.nextFreeFrame →
    ∃ p, cfg.InRange p ∧ s.invertedPageTable f = some p ∧ (s.pte p).valid = true ∧
      (s.pte p).PFN = f
  fresh : ∀ f, s.nextFreeFrame ≤ f → s.invertedPageTable f = none

/-- The replacement data of the policy in use: a list holds each frame handed out once, and
the counter of `fifo` has not wrapped. -/
structure Queued (cfg : Config) (s : Machine) : Prop where
  fifo : cfg.replacementPolicy = .FIFO → -1 ≤ s.i.toInt
  lru : cfg.replacementPolicy = .LRU → s.head.Nodup ∧
    ∀ f, f ∈ s.head ↔ 0 ≤ f ∧ f < s.nextFreeFrame
  clock : cfg.replacementPolicy = .CLOCK → (s.clockHead.map ClockNode.data).Nodup ∧
    ∀ f, f ∈ s.clockHead.map ClockNode.data ↔ 0 ≤ f ∧ f < s.nextFreeFrame

/-- The frame each policy gives up, and the state once its node has left the list. -/
inductive Victim (cfg : Config) (s : Machine) : ℤ → Machine → Prop
  | zero : cfg.replacementPolicy = .ZERO → Victim cfg s 0 s
  | fifo : cfg.replacementPolicy = .FIFO →
      Victim cfg s ((s.i + 1).toInt.tmod cfg.MAX_PFN) { s with i := s.i + 1 }
  | lru (f : ℤ) (rest : List ℤ) : cfg.replacementPolicy = .LRU → s.head = f :: rest →
      Victim cfg s f { s with head := rest }
  | clock (n : ClockNode) (rest : List ClockNode) : cfg.replacementPolicy = .CLOCK →
      clockLoop s.clockHead = some (n :: rest) →
      Victim cfg s n.data { s with clockHead := rest }

/-- The next call of `fifo` does not wrap its counter. -/
def FifoSafe (cfg : Config) (s : Machine) : Prop :=
  cfg.replacementPolicy = .FIFO → s.i.toInt + 1 < 2^31

/-- A frame was filled with page `p`: what the tables, the memory and the swap disk hold
after it, and which frame it was. -/
structure Fault (cfg : Config) (s : Machine) (p : IPTE) (dirty : Bool) (f : ℤ) (t : Machine) :
    Prop where
  pte : ∀ q, t.pte q = if q = p then ⟨f, true, dirty⟩
    else if s.invertedPageTable f = some q then { s.pte q with valid := false } else s.pte q
  inverted : ∀ g, t.invertedPageTable g = if g = f then some p else s.invertedPageTable g
  memory : ∀ g, t.PHYSICAL_MEM g = if g = f then s.swap p else s.PHYSICAL_MEM g
  swap : ∀ q, t.swap q = if s.invertedPageTable f = some q then s.PHYSICAL_MEM f else s.swap q
  hitCount : t.stats.hitCount = s.stats.hitCount
  missCount : t.stats.missCount = s.stats.missCount + 1
  swapRead : t.stats.swapRead = s.stats.swapRead + 1
  frame : (f = s.nextFreeFrame ∧ f < cfg.MAX_PFN ∧ t.nextFreeFrame = f + 1 ∧
        t.stats.swapWrite = s.stats.swapWrite ∧ t.i = s.i ∧
        t.head = (insertFrameNode cfg f s).head ∧
        t.clockHead = (insertFrameNode cfg f s).clockHead) ∨
      ∃ u, Victim cfg s f u ∧ 0 ≤ f ∧ f < s.nextFreeFrame ∧ s.nextFreeFrame = cfg.MAX_PFN ∧
        t.nextFreeFrame = s.nextFreeFrame ∧ t.stats.swapWrite = s.stats.swapWrite + 1 ∧
        t.i = u.i ∧ t.head = (insertFrameNode cfg f u).head ∧
        t.clockHead = (insertFrameNode cfg f u).clockHead

/-- The page was resident: only its dirty bit, the order of the replacement list and the hit
count change. -/
structure Hit (cfg : Config) (s : Machine) (p : IPTE) (write : Bool) (t : Machine) : Prop where
  pte : ∀ q, t.pte q = if q = p ∧ write = true then { s.pte p with dirty := true } else s.pte q
  inverted : t.invertedPageTable = s.invertedPageTable
  memory : t.PHYSICAL_MEM = s.PHYSICAL_MEM
  swap : ∀ q, t.swap q = s.swap q
  nextFreeFrame : t.nextFreeFrame = s.nextFreeFrame
  i : t.i = s.i
  head : t.head = (touchFrame cfg (s.pte p).PFN s).head
  clockHead : t.clockHead = (touchFrame cfg (s.pte p).PFN s).clockHead
  stats : t.stats = { s.stats with hitCount := s.stats.hitCount + 1 }

section lists
variable (cfg : Config) (f : ℤ) (s : Machine)

/-- The list updates leave everything but the two lists alone. -/
theorem insertFrameNode_rest : insertFrameNode cfg f s =
    { s with head := (insertFrameNode cfg f s).head
             clockHead := (insertFrameNode cfg f s).clockHead } := by
  unfold insertFrameNode
  split <;> rfl

theorem touchFrame_rest : touchFrame cfg f s =
    { s with head := (touchFrame cfg f s).head
             clockHead := (touchFrame cfg f s).clockHead } := by
  unfold touchFrame
  split <;> rfl

theorem insertFrameNode_head :
    (insertFrameNode cfg f s).head =
      if cfg.replacementPolicy = .LRU then s.head ++ [f] else s.head := by
  unfold insertFrameNode
  split <;> simp_all [listInsertTail]

theorem insertFrameNode_clockHead :
    (insertFrameNode cfg f s).clockHead =
      if cfg.replacementPolicy = .CLOCK then s.clockHead ++ [⟨f, 0⟩] else s.clockHead := by
  unfold insertFrameNode
  split <;> simp_all [clockListInsertTail]

theorem touchFrame_head :
    (touchFrame cfg f s).head =
      if cfg.replacementPolicy = .LRU then s.head.erase f ++ [f] else s.head := by
  unfold touchFrame
  split <;> simp_all [listInsertTail, listRemove]

theorem touchFrame_clockHead :
    (touchFrame cfg f s).clockHead =
      if cfg.replacementPolicy = .CLOCK then clockListUpdateRef s.clockHead f 1
      else s.clockHead := by
  unfold touchFrame
  split <;> simp_all

end lists

theorem Victim.rest {cfg : Config} {s u : Machine} {f : ℤ} (h : Victim cfg s f u) :
    u = { s with i := u.i, head := u.head, clockHead := u.clockHead } := by
  cases h <;> rfl

namespace Victim

variable {cfg : Config} {s u : Machine} {f : ℤ}

theorem fifo_eq (h : Victim cfg s f u) (hpol : cfg.replacementPolicy = .FIFO) :
    f = (s.i + 1).toInt.tmod cfg.MAX_PFN ∧ u = { s with i := s.i + 1 } := by
  cases h with
  | fifo hp => exact ⟨rfl, rfl⟩
  | zero hp => simp [hpol] at hp
  | lru f rest hp => simp [hpol] at hp
  | clock n rest hp => simp [hpol] at hp

theorem lru_eq (h : Victim cfg s f u) (hpol : cfg.replacementPolicy = .LRU) :
    ∃ rest, s.head = f :: rest ∧ u = { s with head := rest } := by
  cases h with
  | lru f rest hp hhead => exact ⟨rest, hhead, rfl⟩
  | zero hp => simp [hpol] at hp
  | fifo hp => simp [hpol] at hp
  | clock n rest hp => simp [hpol] at hp

theorem clock_eq (h : Victim cfg s f u) (hpol : cfg.replacementPolicy = .CLOCK) :
    ∃ n rest, clockLoop s.clockHead = some (n :: rest) ∧ f = n.data ∧
      u = { s with clockHead := rest } := by
  cases h with
  | clock n rest hp hloop => exact ⟨n, rest, hloop, rfl, rfl⟩
  | zero hp => simp [hpol] at hp
  | fifo hp => simp [hpol] at hp
  | lru f rest hp => simp [hpol] at hp

end Victim

/-- A counter that does not wrap goes up by one. -/
theorem Queued.toInt_succ {cfg : Config} {s : Machine} (h : Queued cfg s)
    (hpol : cfg.replacementPolicy = .FIFO) (hsafe : FifoSafe cfg s) :
    (s.i + 1).toInt = s.i.toInt + 1 := by
  have hlo := h.fifo hpol
  have hhi := hsafe hpol
  have hone : (1 : BitVec 32).toInt = 1 := rfl
  rw [BitVec.toInt_add, hone, Int.bmod_eq_of_le (by omega) (by omega)]

/-- The tail of the handler, for a frame whose recorded page is not the one coming in. -/
theorem loadPage_effect (heap : Heap) (p : IPTE) (type : Char) (f : ℤ) (s t : Machine)
    (htype : type = 'R' ∨ type = 'W') (ht : t = loadPage heap p.pid p.VPN type f s) :
    (∀ q, t.pte q = if q = p then ⟨f, true, type = 'W'⟩ else s.pte q) ∧
    (∀ g, t.invertedPageTable g = if g = f then some p else s.invertedPageTable g) ∧
    (∀ g, t.PHYSICAL_MEM g = if g = f then s.swap p else s.PHYSICAL_MEM g) ∧
    t = { s with
      pageTable := t.pageTable, invertedPageTable := t.invertedPageTable
      PHYSICAL_MEM := t.PHYSICAL_MEM
      stats := { s.stats with swapRead := s.stats.swapRead + 1 } } := by
  subst ht
  refine ⟨?_, ?_, ?_, rfl⟩
  · intro q
    rcases htype with rfl | rfl <;> simp [loadPage, Machine.pte, ← IPTE.ext_iff]
  · intro g
    simp [loadPage, Machine.writePTE, swapIn]
  · intro g
    simp [loadPage, Machine.writePTE, Machine.writeIPTE, Machine.swap]

/-- The eviction of a frame that records page `v`, valid in that frame. -/
theorem evictPage_effect (heap : Heap) (v : IPTE) (f : ℤ) (s t : Machine)
    (hv : s.invertedPageTable f = some v) (hf : (s.pte v).PFN = f)
    (ht : t = evictPage heap f s) :
    (∀ q, t.pte q = if q = v then { s.pte v with valid := false } else s.pte q) ∧
    (∀ q, t.swap q = if q = v then s.PHYSICAL_MEM f else s.swap q) ∧
    t = { s with
      pageTable := t.pageTable, SWAP_DISK := t.SWAP_DISK
      stats := { s.stats with swapWrite := s.stats.swapWrite + 1 } } := by
  have hread := readIPTE_of_stored s heap f v hv
  subst ht
  refine ⟨?_, ?_, rfl⟩
  · intro q
    simp [evictPage, hread, Machine.pte, ← IPTE.ext_iff]
  · intro q
    change (s.readPTE v.pid v.VPN).PFN = f at hf
    simp [evictPage, hread, Machine.swap, Machine.writePTE, ← IPTE.ext_iff, hf]

/-- With every frame in use, each policy picks a frame that holds a page. -/
theorem victim_exists (cfg : Config) (s : Machine) (hmax : 1 ≤ cfg.MAX_PFN)
    (hq : Queued cfg s) (hfull : s.nextFreeFrame = cfg.MAX_PFN) (hfifo : FifoSafe cfg s) :
    ∃ f u, (findReplacement cfg s).map (fun r => (r.1, removeVictimNode cfg r.2)) = some (f, u) ∧
      Victim cfg s f u ∧ 0 ≤ f ∧ f < s.nextFreeFrame := by
  cases hpol : cfg.replacementPolicy with
  | ZERO =>
    exact ⟨0, s, by simp [findReplacement, removeVictimNode, hpol], .zero hpol, le_rfl, by omega⟩
  | FIFO =>
    -- The counter is not negative after the step, so C's remainder is a frame.
    have hi := hq.toInt_succ hpol hfifo
    have h0 := hq.fifo hpol
    refine ⟨_, _, by simp [findReplacement, removeVictimNode, hpol, fifo],
      .fifo hpol, ?_, ?_⟩
    · rw [hi, Int.tmod_eq_emod_of_nonneg (by omega)]
      exact Int.emod_nonneg _ (by omega)
    · rw [hi, Int.tmod_eq_emod_of_nonneg (by omega), hfull]
      exact Int.emod_lt_of_pos _ (by omega)
  | LRU =>
    obtain ⟨_, hmem⟩ := hq.lru hpol
    cases hhead : s.head with
    | nil =>
      have h0 := (hmem 0).mpr ⟨le_rfl, by omega⟩
      simp [hhead] at h0
    | cons f rest =>
      have hf := (hmem f).mp (by simp [hhead])
      exact ⟨f, _, by simp [findReplacement, removeVictimNode, hpol, lru, hhead, listRemoveHead],
        .lru f rest hpol hhead, hf.1, hf.2⟩
  | CLOCK =>
    -- The list is not empty, so the sweep finds a node, and the node is one of the list.
    obtain ⟨_, hmem⟩ := hq.clock hpol
    have hne : s.clockHead ≠ [] := by
      intro h
      have h0 := (hmem 0).mpr ⟨le_rfl, by omega⟩
      simp [h] at h0
    obtain ⟨n, rest, hloop⟩ := clockLoop_isSome s.clockHead hne
    have hperm := clockLoop_perm _ _ hloop
    have hf := (hmem n.data).mp (hperm.mem_iff.mp (by simp))
    exact ⟨n.data, _, by simp [findReplacement, removeVictimNode, hpol, clock, hloop,
      clockListRemoveHead], .clock n rest hpol hloop, hf.1, hf.2⟩

theorem mmu_hit (cfg : Config) (heap : Heap) (s : Machine) (p : IPTE) (type : Char)
    (hinv : Inverse cfg s) (hp : cfg.InRange p) (hv : (s.pte p).valid = true) :
    ∃ t, MMU cfg heap p.pid p.VPN type s = some ((s.pte p).PFN, true, t) ∧
      Hit cfg s p (type = 'W') t := by
  obtain ⟨h0, _, _⟩ := hinv.valid p hp hv
  let u := if type = 'W' then s.writePTE p.pid p.VPN { s.pte p with dirty := true } else s
  have hhit : isPageHit cfg p.pid p.VPN type s =
      ((s.pte p).PFN, touchFrame cfg (s.pte p).PFN u) := by
    exact if_pos hv
  have hu : u = { s with pageTable := u.pageTable } := by
    dsimp only [u]
    split_ifs <;> rfl
  have hpte (q : IPTE) : u.pte q =
      if q = p ∧ decide (type = 'W') = true then { s.pte p with dirty := true } else s.pte q := by
    by_cases hw : type = 'W' <;> simp [u, hw, Machine.pte, ← IPTE.ext_iff]
  refine ⟨_, by simp only [MMU, hhit]; rw [if_pos h0], ?_⟩
  rw [touchFrame_rest]
  constructor
  · exact hpte
  · rw [hu]
  · rw [hu]
  · intro q
    rw [hu]
    rfl
  · rw [hu]
  · rw [hu]
  · rw [touchFrame_head, touchFrame_head, hu]
  · rw [touchFrame_clockHead, touchFrame_clockHead, hu]
  · rw [hu]

theorem mmu_miss (cfg : Config) (heap : Heap) (s : Machine) (p : IPTE) (type : Char)
    (hv : (s.pte p).valid = false) :
    MMU cfg heap p.pid p.VPN type s =
      (pagefaultHandler cfg heap p.pid p.VPN type
        { s with stats := { s.stats with missCount := s.stats.missCount + 1 } }).map
          fun r => (r.1, false, r.2) := by
  change (s.readPTE p.pid p.VPN).valid = false at hv
  simp only [MMU, isPageHit, hv, Bool.false_eq_true, if_false]
  rw [if_neg (by decide)]
  cases pagefaultHandler cfg heap p.pid p.VPN type
    { s with stats := { s.stats with missCount := s.stats.missCount + 1 } } <;> rfl

/-- A fault while a frame is free: the page goes to the next free frame. -/
theorem handler_free (cfg : Config) (heap : Heap) (s : Machine) (p : IPTE) (type : Char)
    (htype : type = 'R' ∨ type = 'W') (hinv : Inverse cfg s)
    (hfree : s.nextFreeFrame < cfg.MAX_PFN) :
    ∃ f t, pagefaultHandler cfg heap p.pid p.VPN type
        { s with stats := { s.stats with missCount := s.stats.missCount + 1 } } = some (f, t) ∧
      Fault cfg s p (type = 'W') f t := by
  set s₁ : Machine := { s with stats := { s.stats with missCount := s.stats.missCount + 1 } }
    with hs₁
  let s₂ : Machine := { s₁ with nextFreeFrame := s.nextFreeFrame + 1 }
  let f := s.nextFreeFrame
  let t := loadPage heap p.pid p.VPN type f (insertFrameNode cfg f s₂)
  have hget : getFreeframe cfg s₁ = (f, s₂) := by
    simp only [getFreeframe]
    rw [if_neg (by simp only [s₁]; omega)]
  have hhandler : pagefaultHandler cfg heap p.pid p.VPN type s₁ = some (f, t) := by
    simp only [pagefaultHandler, hget]
    rw [if_neg (by have := hinv.frames.1; omega)]
    rfl
  refine ⟨f, t, hhandler, ?_⟩
  -- Queueing the frame touches the replacement lists only, so the page is loaded as from `s`.
  obtain ⟨hpte, hinvt, hmem, hrest⟩ :=
    loadPage_effect heap p type f (insertFrameNode cfg f s₂) t htype rfl
  rw [insertFrameNode_rest] at hpte hinvt hmem hrest
  have hnone : s.invertedPageTable f = none := hinv.fresh f le_rfl
  constructor
  · intro q
    rw [hpte q, hnone]
    simp only [reduceCtorEq, if_false]
    rfl
  · exact hinvt
  · exact hmem
  · intro q
    rw [hnone, hrest]
    simp only [reduceCtorEq, if_false]
    rfl
  · rw [hrest]
  · rw [hrest]
  · rw [hrest]
  · left
    rw [hrest, insertFrameNode_head, insertFrameNode_head, insertFrameNode_clockHead,
      insertFrameNode_clockHead]
    exact ⟨rfl, hfree, rfl, rfl, rfl, rfl, rfl⟩

/-- A fault with every frame in use: the page takes the frame of a victim. -/
theorem handler_evict (cfg : Config) (heap : Heap) (s : Machine) (p : IPTE) (type : Char)
    (hmax : 1 ≤ cfg.MAX_PFN) (htype : type = 'R' ∨ type = 'W') (hinv : Inverse cfg s)
    (hq : Queued cfg s) (hfull : s.nextFreeFrame = cfg.MAX_PFN) (hfifo : FifoSafe cfg s)
    (hv : (s.pte p).valid = false) :
    ∃ f t, pagefaultHandler cfg heap p.pid p.VPN type
        { s with stats := { s.stats with missCount := s.stats.missCount + 1 } } = some (f, t) ∧
      Fault cfg s p (type = 'W') f t := by
  set s₁ : Machine := { s with stats := { s.stats with missCount := s.stats.missCount + 1 } }
    with hs₁
  have hget : getFreeframe cfg s₁ = (-1, s₁) := by
    simp only [getFreeframe]
    rw [if_pos (by simp only [s₁]; omega)]
  obtain ⟨f, u, hfind, hvic, h0, h1⟩ := victim_exists cfg s₁ hmax
    ⟨hq.fifo, hq.lru, hq.clock⟩ hfull hfifo
  obtain ⟨v, _, hstored, hvalid, hframe⟩ := hinv.stored f h0 h1
  -- The victim's page is resident and the page coming in is not, so the two writes do not meet.
  have hpv : p ≠ v := by
    rintro rfl
    rw [hv] at hvalid
    exact Bool.noConfusion hvalid
  have hu := hvic.rest
  let w := evictPage heap f u
  let t := loadPage heap p.pid p.VPN type f (insertFrameNode cfg f w)
  have hhandler : pagefaultHandler cfg heap p.pid p.VPN type s₁ = some (f, t) := by
    obtain ⟨r, hr, he⟩ := Option.map_eq_some_iff.mp hfind
    cases he
    simp only [pagefaultHandler, hget, hr]
    rfl
  refine ⟨f, t, hhandler, ?_⟩
  have hus : u.invertedPageTable f = some v := by rw [hu]; exact hstored
  -- First the eviction (`u` to `w`), then the load (`w` to `t`).
  obtain ⟨hptew, hswapw, hrestw⟩ := evictPage_effect heap v f u w hus
    (by rw [hu]; exact hframe) rfl
  obtain ⟨hpte, hinvt, hmem, hrest⟩ :=
    loadPage_effect heap p type f (insertFrameNode cfg f w) t htype rfl
  rw [insertFrameNode_rest] at hpte hinvt hmem hrest
  have hpteu (q : IPTE) : u.pte q = s.pte q := by rw [hu]; rfl
  have hswapu (q : IPTE) : u.swap q = s.swap q := by rw [hu]; rfl
  have hmemu : u.PHYSICAL_MEM = s.PHYSICAL_MEM := by rw [hu]
  have hsome (q : IPTE) : some v = some q ↔ q = v := by
    rw [Option.some_inj]
    exact eq_comm
  constructor
  · intro q
    refine (hpte q).trans ?_
    simp only [hstored, hsome]
    by_cases hqv : q = v
    · subst hqv
      have hw := hptew q
      rw [if_pos rfl, hpteu] at hw
      rw [if_pos rfl]
      exact congrArg _ hw
    · have hw := hptew q
      rw [if_neg hqv, hpteu] at hw
      rw [if_neg hqv]
      exact congrArg _ hw
  · intro g
    rw [hinvt g, hrestw, hu]
  · intro g
    rw [hmem g]
    have hw := hswapw p
    rw [if_neg hpv, hswapu] at hw
    change (if g = f then w.swap p else w.PHYSICAL_MEM g) = _
    rw [hw, hrestw, hmemu]
  · intro q
    have ht : t.swap q = w.swap q := by rw [hrest]; rfl
    rw [ht, hswapw q, hswapu, hmemu]
    simp only [hstored, hsome]
  · rw [hrest, hrestw, hu]
  · rw [hrest, hrestw, hu]
  · rw [hrest, hrestw, hu]
  · right
    -- The policies do not look at the statistics, so `u` serves for `s` as for `s₁`.
    refine ⟨{ u with stats := s.stats }, ?_, h0, h1, hfull, ?_, ?_, ?_, ?_, ?_⟩
    · cases hvic with
      | zero hp => exact .zero hp
      | fifo hp => exact .fifo hp
      | lru f rest hp hh => exact .lru f rest hp hh
      | clock n rest hp hh => exact .clock n rest hp hh
    · rw [hrest, hrestw, hu]
    · rw [hrest, hrestw, hu]
    · rw [hrest, hrestw]
    · rw [hrest, insertFrameNode_head, insertFrameNode_head, hrestw]
    · rw [hrest, insertFrameNode_clockHead, insertFrameNode_clockHead, hrestw]

theorem mmu_fault (cfg : Config) (heap : Heap) (s : Machine) (p : IPTE) (type : Char)
    (hmax : 1 ≤ cfg.MAX_PFN) (htype : type = 'R' ∨ type = 'W') (hinv : Inverse cfg s)
    (hq : Queued cfg s) (hfifo : s.nextFreeFrame = cfg.MAX_PFN → FifoSafe cfg s)
    (hv : (s.pte p).valid = false) :
    ∃ f t, MMU cfg heap p.pid p.VPN type s = some (f, false, t) ∧
      Fault cfg s p (type = 'W') f t := by
  have hhandler : ∃ f t, pagefaultHandler cfg heap p.pid p.VPN type
        { s with stats := { s.stats with missCount := s.stats.missCount + 1 } } = some (f, t) ∧
      Fault cfg s p (type = 'W') f t := by
    by_cases hfree : s.nextFreeFrame < cfg.MAX_PFN
    · exact handler_free cfg heap s p type htype hinv hfree
    · have hfull : s.nextFreeFrame = cfg.MAX_PFN := by
        have hle := hinv.frames.2
        omega
      exact handler_evict cfg heap s p type hmax htype hinv hq hfull (hfifo hfull) hv
  obtain ⟨f, t, he, hf⟩ := hhandler
  exact ⟨f, t, by rw [mmu_miss cfg heap s p type hv, he]; rfl, hf⟩

/-- One request to the MMU, for a page in range: a hit on a resident page, else a fault. -/
theorem mmu_cases (cfg : Config) (heap : Heap) (s : Machine) (p : IPTE) (type : Char)
    (hmax : 1 ≤ cfg.MAX_PFN) (htype : type = 'R' ∨ type = 'W') (hp : cfg.InRange p)
    (hinv : Inverse cfg s) (hq : Queued cfg s)
    (hfifo : (s.pte p).valid = false → s.nextFreeFrame = cfg.MAX_PFN → FifoSafe cfg s) :
    ((s.pte p).valid = true ∧ ∃ t,
        MMU cfg heap p.pid p.VPN type s = some ((s.pte p).PFN, true, t) ∧
          Hit cfg s p (type = 'W') t) ∨
      ((s.pte p).valid = false ∧ ∃ f t,
        MMU cfg heap p.pid p.VPN type s = some (f, false, t) ∧
          Fault cfg s p (type = 'W') f t) := by
  cases hv : (s.pte p).valid with
  | true => exact Or.inl ⟨rfl, mmu_hit cfg heap s p type hinv hp hv⟩
  | false => exact Or.inr ⟨rfl, mmu_fault cfg heap s p type hmax htype hinv hq (hfifo hv) hv⟩

end OperatingSystems.VM
