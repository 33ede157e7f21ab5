import OperatingSystems.Lists
import OperatingSystems.VMInput
import OperatingSystems.VMInverse

/-! The simulator with its two lists as `list.c` and `clock_list.c` keep them, on heaps of nodes,
and with the bounds of its tables. On files whose requests are for pages of the configuration it
does what the simulator on sequences does, and no call leaves the tables or dereferences NULL. -/
namespace OperatingSystems.VM
open CStrings Formats
open Links (Ptr IsList Agrees)

/-- The globals. The two lists of `rest` are not used: `head` and `clockHead` point to nodes. -/
structure Linked where
  rest : Machine
  nodes : Links.Heap ℤ
  head : Ptr
  clockNodes : Links.Heap ClockNode
  clockHead : Ptr

/-- The globals beside the two lists. -/
def Machine.bare (s : Machine) : Machine := { s with head := [], clockHead := [] }

namespace Linked

section functions
variable (fuel : ℕ) (cfg : Config) (heap : Heap) (u : Linked)

/-- The page table and the swap disk have an entry for each page of the configuration; any other
index is a wild address. -/
def checkPage (p : IPTE) : Except Links.Fault Unit :=
  if cfg.InRange p then .ok () else .error .wild

/-- So have the inverted page table and the memory for each frame. -/
def checkFrame (PFN : ℤ) : Except Links.Fault Unit :=
  if 0 ≤ PFN ∧ PFN < cfg.MAX_PFN then .ok () else .error .wild

def init : Linked := ⟨VM.init cfg heap, [], none, [], none⟩

def lru : Except Links.Fault ℤ := do
  let n ← Links.read u.nodes u.head
  return n.value

/-- The loop of `clock`. -/
def clockLoop :
    ℕ → Links.Heap ClockNode → Ptr → Except Links.Fault (Links.Heap ClockNode × Ptr)
  | 0, _, _ => .error .fuel
  | turns + 1, h, clockHead => do
    let n ← Links.read h clockHead
    if n.value.ref = 1 then
      let p := n.value.data
      let (h, clockHead) ← Lists.clockListRemoveHead h clockHead
      let (h, clockHead) ← Lists.clockListInsertTail fuel h clockHead p 0
      clockLoop turns h clockHead
    else return (h, clockHead)

def clock : Except Links.Fault (ℤ × Linked) := do
  let (clockNodes, clockHead) ← clockLoop fuel fuel u.clockNodes u.clockHead
  let n ← Links.read clockNodes clockHead
  return (n.value.data, { u with clockNodes, clockHead })

def findReplacement : Except Links.Fault (ℤ × Linked) :=
  match cfg.replacementPolicy with
  | .ZERO => .ok (0, u)
  | .FIFO => .ok ((fifo cfg u.rest).1, { u with rest := (fifo cfg u.rest).2 })
  | .LRU => do
    let PFN ← lru u
    return (PFN, u)
  | .CLOCK => clock fuel u

def removeVictimNode : Except Links.Fault Linked :=
  match cfg.replacementPolicy with
  | .LRU => do
    let (nodes, head) ← Lists.listRemoveHead u.nodes u.head
    return { u with nodes, head }
  | .CLOCK => do
    let (clockNodes, clockHead) ← Lists.clockListRemoveHead u.clockNodes u.clockHead
    return { u with clockNodes, clockHead }
  | _ => .ok u

def insertFrameNode (PFN : ℤ) : Except Links.Fault Linked :=
  match cfg.replacementPolicy with
  | .LRU => do
    let (nodes, head) ← Lists.listInsertTail fuel u.nodes u.head PFN
    return { u with nodes, head }
  | .CLOCK => do
    let (clockNodes, clockHead) ← Lists.clockListInsertTail fuel u.clockNodes u.clockHead PFN 0
    return { u with clockNodes, clockHead }
  | _ => .ok u

def touchFrame (PFN : ℤ) : Except Links.Fault Linked :=
  match cfg.replacementPolicy with
  | .LRU => do
    let (nodes, head) ← Lists.listRemove fuel u.nodes u.head PFN
    let (nodes, head) ← Lists.listInsertTail fuel nodes head PFN
    return { u with nodes, head }
  | .CLOCK => do
    let (clockNodes, clockHead) ← Lists.clockListUpdateRef fuel u.clockNodes u.clockHead PFN 1
    return { u with clockNodes, clockHead }
  | _ => .ok u

def evictPage (PFN : ℤ) : Except Links.Fault Linked := do
  checkFrame cfg PFN
  let ipte := u.rest.readIPTE heap PFN
  checkPage cfg ipte
  checkFrame cfg (u.rest.readPTE ipte.pid ipte.VPN).PFN
  return { u with rest := VM.evictPage heap PFN u.rest }

def loadPage (pid VPN : ℤ) (type : Char) (PFN : ℤ) : Except Links.Fault Linked := do
  checkFrame cfg PFN
  checkPage cfg (u.rest.readIPTE heap PFN)
  checkPage cfg ⟨pid, VPN⟩
  return { u with rest := VM.loadPage heap pid VPN type PFN u.rest }

def pagefaultHandler (pid VPN : ℤ) (type : Char) : Except Links.Fault (ℤ × Linked) := do
  let (PFN, rest) := getFreeframe cfg u.rest
  let u := { u with rest }
  let (PFN, u) ←
    if PFN < 0 then do
      let (PFN, u) ← findReplacement fuel cfg u
      let u ← removeVictimNode cfg u
      let u ← evictPage cfg heap u PFN
      pure (PFN, u)
    else pure (PFN, u)
  let u ← insertFrameNode fuel cfg u PFN
  let u ← loadPage cfg heap u pid VPN type PFN
  return (PFN, u)

def isPageHit (pid VPN : ℤ) (type : Char) : Except Links.Fault (ℤ × Linked) := do
  checkPage cfg ⟨pid, VPN⟩
  let pte := u.rest.readPTE pid VPN
  if pte.valid then
    let rest := if type = 'W' then u.rest.writePTE pid VPN { pte with dirty := true } else u.rest
    let u ← touchFrame fuel cfg { u with rest } pte.PFN
    return (pte.PFN, u)
  else return (-1, u)

def MMU (pid VPN : ℤ) (type : Char) : Except Links.Fault (ℤ × Bool × Linked) := do
  let (PFN, u) ← isPageHit fuel cfg u pid VPN type
  if PFN ≥ 0 then
    let rest := { u.rest with stats := { u.rest.stats with hitCount := u.rest.stats.hitCount + 1 } }
    return (PFN, true, { u with rest })
  else
    let rest :=
      { u.rest with stats := { u.rest.stats with missCount := u.rest.stats.missCount + 1 } }
    let (PFN, u) ← pagefaultHandler fuel cfg heap { u with rest } pid VPN type
    return (PFN, false, u)

def serveRequest (r : Request) : Except Links.Fault (Reply × Linked) :=
  if r.type = 'R' ∧ r.ret < 3 ∨ r.type = 'W' ∧ r.ret < 4 then
    .ok (.refuse "Error: invalid input: %s\n", u)
  else if r.pid > cfg.MAX_PID - 1 then
    .ok (.refuse "[pid %d, %c] 0x%x: Invalid PID.\n", u)
  else if (r.type = 'R' ∨ r.type = 'W') ∧ r.VPN ≥ cfg.MAX_VPN then
    .ok (.refuse "[pid %d, %c] 0x%x: Invalid VPN.\n", u)
  else do
    let (PFN, hit, u) ← MMU fuel cfg heap u r.pid r.VPN r.type
    let (reply, rest) := accessMemory cfg r PFN hit u.rest
    return (reply, { u with rest })

def serveInput (vars : Variables) (input : List Byte) :
    Except Links.Fault (Reply × Variables × Linked) :=
  if isComment input then .ok (.skip, vars, u)
  else do
    let (ret, vars) := vars.scan input
    let (reply, u) ← serveRequest fuel cfg heap u (vars.request ret)
    return (reply, vars.afterReply reply, u)

end functions

def inputLoop (fuel : ℕ) (cfg : Config) (heap : Heap) :
    Variables → Linked → List (List Byte) → Except Links.Fault (List Reply × Linked)
  | _, u, [] => .ok ([], u)
  | vars, u, input :: inputs => do
    let (reply, vars, u) ← serveInput fuel cfg heap u vars input
    match reply with
    | .exit message => return ([.exit message], u)
    | reply =>
      let (replies, u) ← inputLoop fuel cfg heap vars u inputs
      return (reply :: replies, u)

/-- The end of `main`. -/
inductive Exit
  | quit (code : ℤ) (message : String)
  | served (replies : List Reply) (u : Linked)

def main (fuel : ℕ) (fopen : List Byte → Option (List Byte)) (heap : Heap) (vars : Variables) :
    List (List Byte) → Except Links.Fault Exit
  | _ :: frames :: policy :: name :: _ =>
    match fopen name with
    | none => .ok (.quit 0 "File open error: %s\n")
    | some file =>
      match allBuffers 256 file with
      | [] => .ok (.quit 0 "")
      | header :: inputs =>
        match replacementPolicy (atoi policy) with
        | none => .ok (.quit (-1) "UNKNOWN!\n")
        | some policy =>
          let (MAX_VPN, MAX_PID) := scanHeader header
          let cfg : Config := ⟨(atoi frames).toInt, MAX_VPN.toInt, MAX_PID.toInt, policy⟩
          if cfg.Accepted then do
            let (replies, u) ← inputLoop fuel cfg heap vars (init cfg heap) inputs
            return .served replies u
          else .ok (.quit (-1)
            "ERROR:  # PAGE, # FRAME, and # PROCESS should be between 1 and 256\n")
  | _ => .ok (.quit (-1) "usage: ./vm [# of FRAMES] [REPLACEMENT_POLICY] [INPUT]\n")

/-! ### Nodes and sequences -/

/-- Two nodes lists that hold the two sequences, at most `n` nodes each, and the same globals
beside them. -/
structure Represents (u : Linked) (n : ℕ) (s : Machine) : Prop where
  rest : u.rest = s.bare
  list : IsList u.nodes u.head s.head
  clockList : IsList u.clockNodes u.clockHead s.clockHead
  length : s.head.length ≤ n
  clockLength : s.clockHead.length ≤ n

/-- The two calls give the same answer and leave matching globals. -/
def Same {ρ : Type} (n : ℕ) (p : ρ × Linked) (q : ρ × Machine) : Prop :=
  p.1 = q.1 ∧ p.2.Represents n q.2

section agreement
variable {fuel n : ℕ} {cfg : Config} {heap : Heap} {u : Linked} {s : Machine}

theorem Represents.mono {m : ℕ} (h : u.Represents n s) (hm : n ≤ m) : u.Represents m s :=
  ⟨h.rest, h.list, h.clockList, h.length.trans hm, h.clockLength.trans hm⟩

/-- A step that neither reads nor writes the lists. -/
theorem Represents.frame {f : Machine → Machine} (h : u.Represents n s)
    (hbare : f s.bare = (f s).bare) (hhead : (f s).head = s.head)
    (hclockHead : (f s).clockHead = s.clockHead) :
    Represents { u with rest := f u.rest } n (f s) := by
  refine ⟨?_, ?_, ?_, ?_, ?_⟩
  · dsimp only
    rw [h.rest, hbare]
  · rw [hhead]
    exact h.list
  · rw [hclockHead]
    exact h.clockList
  · rw [hhead]
    exact h.length
  · rw [hclockHead]
    exact h.clockLength

theorem Represents.setList (h : u.Represents n s) {m : ℕ} (hm : n ≤ m) {nodes : Links.Heap ℤ}
    {head : Ptr} {xs : List ℤ} (hl : IsList nodes head xs) (hlen : xs.length ≤ m) :
    Represents { u with nodes, head } m { s with head := xs } :=
  ⟨h.rest, hl, h.clockList, hlen, h.clockLength.trans hm⟩

theorem Represents.setClockList (h : u.Represents n s) {m : ℕ} (hm : n ≤ m)
    {clockNodes : Links.Heap ClockNode} {clockHead : Ptr} {xs : List ClockNode}
    (hl : IsList clockNodes clockHead xs) (hlen : xs.length ≤ m) :
    Represents { u with clockNodes, clockHead } m { s with clockHead := xs } :=
  ⟨h.rest, h.list, hl, h.length.trans hm, hlen⟩

/-- The sweep takes a node to the tail for each reference bit that is set. -/
theorem clockLoop_agrees (l : List ClockNode) {turns : ℕ} {h : Links.Heap ClockNode} {head : Ptr}
    (hl : IsList h head l) (hfuel : l.length ≤ fuel)
    (hturns : l.countP (fun v => v.ref = 1) < turns) :
    Agrees (fun p m => IsList p.1 p.2 m ∧ m.length = l.length) (clockLoop fuel turns h head)
      (VM.clockLoop l) := by
  obtain ⟨k, hk⟩ : ∃ k, turns = k + 1 := ⟨turns - 1, by omega⟩
  induction l using VM.clockLoop.induct generalizing turns k h head with
  | case1 =>
    rw [hk, clockLoop, hl.read_agrees.null, VM.clockLoop]
    trivial
  | case2 v rest href ih =>
    obtain ⟨node, hread, hvalue⟩ := hl.read_agrees.returns rfl
    obtain ⟨h₁, head₁, hremove, hl₁⟩ := Lists.removeHead_returns hl
    rw [List.tail_cons] at hl₁
    rw [List.length_cons] at hfuel
    obtain ⟨h₂, head₂, hinsert, hl₂⟩ :=
      Lists.insertTail_returns hl₁ (Nat.le_of_succ_le hfuel) (⟨v.data, 0⟩ : ClockNode)
    have hlen : (clockListInsertTail rest v.data 0).length = rest.length + 1 :=
      List.length_append
    have hcount : (v :: rest).countP (fun v => v.ref = 1) =
        (clockListInsertTail rest v.data 0).countP (fun v => v.ref = 1) + 1 := by
      simp [clockListInsertTail, href]
    rw [hcount, hk] at hturns
    obtain ⟨j, rfl⟩ : ∃ j, k = j + 1 := ⟨k - 1, by omega⟩
    have hrest := ih hl₂ (hlen.trans_le hfuel) (Nat.lt_of_succ_lt_succ hturns) j rfl
    rw [hk, clockLoop, hread, Links.ok_bind, hvalue, if_pos href, VM.clockLoop, if_pos href]
    simp only [Lists.clockListRemoveHead, hremove, Links.ok_bind, Lists.clockListInsertTail,
      hinsert]
    exact hrest.imp fun p m hm => ⟨hm.1, hm.2.trans hlen⟩
  | case3 v rest href =>
    obtain ⟨node, hread, hvalue⟩ := hl.read_agrees.returns rfl
    rw [hk, clockLoop, hread, Links.ok_bind, hvalue, if_neg href, VM.clockLoop, if_neg href]
    exact ⟨hl, rfl⟩

theorem clock_agrees (h : u.Represents n s) (hfuel : n < fuel) :
    Agrees (Same n) (clock fuel u) (VM.clock s) := by
  have hcount : s.clockHead.countP (fun v => v.ref = 1) < fuel :=
    (List.countP_le_length.trans h.clockLength).trans_lt hfuel
  have hloop := clockLoop_agrees s.clockHead h.clockList (h.clockLength.trans hfuel.le) hcount
  apply hloop.bind
  rintro ⟨clockNodes, clockHead⟩ m ⟨hl, hlen⟩
  apply hl.read_agrees.bind
  rintro node v rfl
  exact ⟨rfl, h.setClockList le_rfl hl (hlen ▸ h.clockLength)⟩

theorem lru_agrees (h : u.Represents n s) : Agrees (· = ·) (lru u) (VM.lru s) := by
  have hbind : (s.head.head?.bind fun PFN => some PFN) = s.head.head? := Option.bind_fun_some _
  rw [VM.lru, ← hbind]
  exact h.list.read_agrees.bind fun node PFN hvalue => hvalue

theorem findReplacement_agrees (h : u.Represents n s) (hfuel : n < fuel) :
    Agrees (Same n) (findReplacement fuel cfg u) (VM.findReplacement cfg s) := by
  unfold findReplacement VM.findReplacement
  cases cfg.replacementPolicy with
  | ZERO => exact ⟨rfl, h⟩
  | FIFO =>
    have hsame : fifo cfg u.rest = ((fifo cfg s).1, (fifo cfg s).2.bare) := by
      rw [h.rest]
      rfl
    refine ⟨congrArg Prod.fst hsame, ?_⟩
    exact h.frame (f := fun s => (fifo cfg s).2) rfl rfl rfl
  | LRU =>
    dsimp only
    rw [Option.map_eq_bind]
    exact (lru_agrees h).bind fun PFN PFN' hsame => ⟨hsame, h⟩
  | CLOCK => exact clock_agrees h hfuel

theorem removeVictimNode_agrees (cfg : Config) (h : u.Represents n s) :
    ∃ v, removeVictimNode cfg u = .ok v ∧ v.Represents n (VM.removeVictimNode cfg s) := by
  unfold removeVictimNode VM.removeVictimNode
  cases cfg.replacementPolicy with
  | LRU =>
    obtain ⟨nodes, head, hremove, hl⟩ := Lists.removeHead_returns h.list
    refine ⟨{ u with nodes, head }, ?_, h.setList le_rfl hl ?_⟩
    · simp only [Lists.listRemoveHead, hremove, Links.ok_bind]
      rfl
    · exact (List.tail_sublist s.head).length_le.trans h.length
  | CLOCK =>
    obtain ⟨clockNodes, clockHead, hremove, hl⟩ := Lists.removeHead_returns h.clockList
    refine ⟨{ u with clockNodes, clockHead }, ?_, h.setClockList le_rfl hl ?_⟩
    · simp only [Lists.clockListRemoveHead, hremove, Links.ok_bind]
      rfl
    · exact (List.tail_sublist s.clockHead).length_le.trans h.clockLength
  | _ => exact ⟨u, rfl, h⟩

theorem insertFrameNode_agrees (cfg : Config) (h : u.Represents n s) (hfuel : n ≤ fuel) (PFN : ℤ) :
    ∃ v, insertFrameNode fuel cfg u PFN = .ok v ∧
      v.Represents (n + 1) (VM.insertFrameNode cfg PFN s) := by
  unfold insertFrameNode VM.insertFrameNode
  cases cfg.replacementPolicy with
  | LRU =>
    obtain ⟨nodes, head, hinsert, hl⟩ :=
      Lists.insertTail_returns h.list (h.length.trans hfuel) PFN
    refine ⟨{ u with nodes, head }, ?_, h.setList (Nat.le_succ n) hl ?_⟩
    · simp only [Lists.listInsertTail, hinsert, Links.ok_bind]
      rfl
    · exact List.length_append.trans_le (Nat.succ_le_succ h.length)
  | CLOCK =>
    obtain ⟨clockNodes, clockHead, hinsert, hl⟩ :=
      Lists.insertTail_returns h.clockList (h.clockLength.trans hfuel) (⟨PFN, 0⟩ : ClockNode)
    refine ⟨{ u with clockNodes, clockHead }, ?_, h.setClockList (Nat.le_succ n) hl ?_⟩
    · simp only [Lists.clockListInsertTail, hinsert, Links.ok_bind]
      rfl
    · exact List.length_append.trans_le (Nat.succ_le_succ h.clockLength)
  | _ => exact ⟨u, rfl, h.mono (Nat.le_succ n)⟩

theorem touchFrame_agrees (cfg : Config) (h : u.Represents n s) (hfuel : n ≤ fuel) (PFN : ℤ) :
    ∃ v, touchFrame fuel cfg u PFN = .ok v ∧
      v.Represents (n + 1) (VM.touchFrame cfg PFN s) := by
  unfold touchFrame VM.touchFrame
  cases cfg.replacementPolicy with
  | LRU =>
    have hlen : (VM.listRemove s.head PFN).length ≤ n :=
      (List.erase_sublist ..).length_le.trans h.length
    obtain ⟨nodes₁, head₁, hremove, hl₁⟩ :=
      Lists.remove_returns id PFN h.list (h.length.trans hfuel)
    have herase : s.head.eraseP (fun v => PFN = id v) = VM.listRemove s.head PFN := by
      rw [VM.listRemove, List.erase_eq_eraseP]
      rfl
    rw [herase] at hl₁
    obtain ⟨nodes, head, hinsert, hl⟩ := Lists.insertTail_returns hl₁ (hlen.trans hfuel) PFN
    refine ⟨{ u with nodes, head }, ?_, h.setList (Nat.le_succ n) hl ?_⟩
    · simp only [Lists.listRemove, hremove, Lists.listInsertTail, hinsert, Links.ok_bind]
      rfl
    · exact List.length_append.trans_le (Nat.succ_le_succ hlen)
  | CLOCK =>
    obtain ⟨clockNodes, clockHead, hupdate, hl⟩ :=
      Lists.clockListUpdateRef_returns PFN 1 h.clockList (h.clockLength.trans hfuel)
    refine ⟨{ u with clockNodes, clockHead }, ?_, h.setClockList (Nat.le_succ n) hl ?_⟩
    · simp only [hupdate, Links.ok_bind]
      rfl
    · have hlen := congrArg List.length (clockListUpdateRef_data s.clockHead PFN 1)
      rw [List.length_map, List.length_map] at hlen
      exact hlen.trans_le (h.clockLength.trans (Nat.le_succ n))
  | _ => exact ⟨u, rfl, h.mono (Nat.le_succ n)⟩

theorem getFreeframe_bare (cfg : Config) (s : Machine) :
    getFreeframe cfg s.bare = ((getFreeframe cfg s).1, (getFreeframe cfg s).2.bare) := by
  unfold getFreeframe
  by_cases hfull : s.nextFreeFrame ≥ cfg.MAX_PFN
  · have hbare : s.bare.nextFreeFrame ≥ cfg.MAX_PFN := hfull
    rw [if_pos hfull, if_pos hbare]
  · have hbare : ¬s.bare.nextFreeFrame ≥ cfg.MAX_PFN := hfull
    rw [if_neg hfull, if_neg hbare]
    rfl

theorem getFreeframe_agrees (cfg : Config) (h : u.Represents n s) :
    (getFreeframe cfg u.rest).1 = (getFreeframe cfg s).1 ∧
      Represents { u with rest := (getFreeframe cfg u.rest).2 } n (getFreeframe cfg s).2 := by
  have hbare := getFreeframe_bare cfg s
  refine ⟨?_, h.frame (f := fun s => (getFreeframe cfg s).2) (congrArg Prod.snd hbare) ?_ ?_⟩
  · rw [h.rest, hbare]
  all_goals
    unfold getFreeframe
    split_ifs <;> rfl

theorem checkPage_ok {p : IPTE} (hp : cfg.InRange p) : checkPage cfg p = .ok () := if_pos hp

theorem checkFrame_ok {f : ℤ} (h0 : 0 ≤ f) (h1 : f < cfg.MAX_PFN) : checkFrame cfg f = .ok () :=
  if_pos ⟨h0, h1⟩

/-- A frame that holds a page of the configuration. -/
theorem evictPage_returns (heap : Heap) (h : u.Represents n s) {p : IPTE} {f : ℤ} (h0 : 0 ≤ f)
    (h1 : f < cfg.MAX_PFN) (hstored : s.invertedPageTable f = some p) (hp : cfg.InRange p)
    (hf : (s.pte p).PFN = f) :
    ∃ v, evictPage cfg heap u f = .ok v ∧ v.Represents n (VM.evictPage heap f s) := by
  have hread : u.rest.readIPTE heap f = p := by
    rw [h.rest]
    exact readIPTE_of_stored s heap f p hstored
  have hpte : (u.rest.readPTE p.pid p.VPN).PFN = f := by
    rw [h.rest]
    exact hf
  refine ⟨{ u with rest := VM.evictPage heap f u.rest }, ?_,
    h.frame (f := VM.evictPage heap f) rfl rfl rfl⟩
  simp only [evictPage, hread, hpte, checkFrame_ok h0 h1, checkPage_ok hp, Links.ok_bind]
  rfl

theorem loadPage_returns (h : u.Represents n s) {p : IPTE} {f : ℤ} (type : Char) (h0 : 0 ≤ f)
    (h1 : f < cfg.MAX_PFN) (hread : cfg.InRange (s.readIPTE heap f)) (hp : cfg.InRange p) :
    ∃ v, loadPage cfg heap u p.pid p.VPN type f = .ok v ∧
      v.Represents n (VM.loadPage heap p.pid p.VPN type f s) := by
  have hsame : u.rest.readIPTE heap f = s.readIPTE heap f := by
    rw [h.rest]
    rfl
  refine ⟨{ u with rest := VM.loadPage heap p.pid p.VPN type f u.rest }, ?_,
    h.frame (f := VM.loadPage heap p.pid p.VPN type f) rfl rfl rfl⟩
  simp only [loadPage, hsame, checkFrame_ok h0 h1, checkPage_ok hread, Links.ok_bind]
  rw [checkPage_ok (show cfg.InRange ⟨p.pid, p.VPN⟩ from hp)]
  rfl

/-- What the handler goes by for a frame never used: an entry as `malloc` left it. -/
def Fresh (cfg : Config) (heap : Heap) : Prop :=
  ∀ f, 0 ≤ f → f < cfg.MAX_PFN → cfg.InRange (heap.ipte f)

/-- A regular state: the frame given up holds a page of the configuration, and so does, once it is
loaded, the one taken. -/
theorem pagefaultHandler_returns (h : u.Represents n s) (hfuel : n < fuel)
    (hmax : 1 ≤ cfg.MAX_PFN) (hfresh : Fresh cfg heap) (hs : Inverse cfg s) (hq : Queued cfg s)
    (hsafe : FifoSafe cfg s) {p : IPTE} (hp : cfg.InRange p) (type : Char) :
    ∃ f t v, pagefaultHandler fuel cfg heap u p.pid p.VPN type = .ok (f, v) ∧
      VM.pagefaultHandler cfg heap p.pid p.VPN type s = some (f, t) ∧ v.Represents (n + 1) t := by
  -- Both branches go on to queue the frame and load the page.
  have hload (f : ℤ) (v : Linked) (t : Machine) (hv : v.Represents n t) (h0 : 0 ≤ f)
      (h1 : f < cfg.MAX_PFN) (hread : cfg.InRange (t.readIPTE heap f)) :
      ∃ w, (do
          let v ← insertFrameNode fuel cfg v f
          let v ← loadPage cfg heap v p.pid p.VPN type f
          return (f, v)) = Except.ok (f, w) ∧
        w.Represents (n + 1) (VM.loadPage heap p.pid p.VPN type f (VM.insertFrameNode cfg f t)) := by
    obtain ⟨w, hinsert, hw⟩ := insertFrameNode_agrees cfg hv hfuel.le f
    have hread' : cfg.InRange ((VM.insertFrameNode cfg f t).readIPTE heap f) := by
      rw [insertFrameNode_rest]
      exact hread
    obtain ⟨x, hx, hx'⟩ := loadPage_returns hw type h0 h1 hread' hp
    refine ⟨x, ?_, hx'⟩
    rw [hinsert, Links.ok_bind, hx]
    rfl
  obtain ⟨hframe, hu⟩ := getFreeframe_agrees cfg h
  have hframes := hs.frames
  unfold pagefaultHandler VM.pagefaultHandler
  by_cases hfree : s.nextFreeFrame < cfg.MAX_PFN
  · have hget : getFreeframe cfg s =
        (s.nextFreeFrame, { s with nextFreeFrame := s.nextFreeFrame + 1 }) :=
      if_neg (by omega)
    rw [hget] at hframe hu
    have hread : cfg.InRange
        (Machine.readIPTE { s with nextFreeFrame := s.nextFreeFrame + 1 } heap s.nextFreeFrame) := by
      rw [Machine.readIPTE, hs.fresh s.nextFreeFrame le_rfl]
      exact hfresh _ hframes.1 hfree
    obtain ⟨w, hw, hw'⟩ := hload s.nextFreeFrame _ _ hu hframes.1 hfree hread
    refine ⟨s.nextFreeFrame, _, w, ?_, ?_, hw'⟩
    · dsimp only
      rw [hframe, if_neg (by omega)]
      exact hw
    · rw [hget]
      dsimp only
      rw [if_neg (by omega)]
      rfl
  · have hfull : s.nextFreeFrame = cfg.MAX_PFN := by omega
    have hget : getFreeframe cfg s = (-1, s) := if_pos hfull.ge
    rw [hget] at hframe hu
    obtain ⟨f, t, hvictim, hvic, h0, h1⟩ := victim_exists cfg s hmax hq hfull hsafe
    obtain ⟨⟨_, t'⟩, hfind, he⟩ := Option.map_eq_some_iff.mp hvictim
    obtain ⟨rfl, rfl⟩ := Prod.mk.inj he
    have hagree : Agrees (Same n) _ (VM.findReplacement cfg s) := findReplacement_agrees hu hfuel
    obtain ⟨⟨g, v⟩, hfound, rfl, hv⟩ := hagree.returns hfind
    obtain ⟨w, hremove, hw⟩ := removeVictimNode_agrees cfg hv
    dsimp only at hvic h0 h1 hw hfound
    obtain ⟨q, hqin, hstored, -, hqf⟩ := hs.stored g h0 h1
    -- Neither the choice of the victim nor its eviction touches the inverted page table.
    have hstored' : (VM.removeVictimNode cfg t').invertedPageTable g = some q := by
      rw [hvic.rest]
      exact hstored
    have hqf' : ((VM.removeVictimNode cfg t').pte q).PFN = g := by
      rw [hvic.rest]
      exact hqf
    obtain ⟨x, hevict, hx⟩ := evictPage_returns heap hw h0 (by omega) hstored' hqin hqf'
    have hread : cfg.InRange
        ((VM.evictPage heap g (VM.removeVictimNode cfg t')).readIPTE heap g) := by
      rw [readIPTE_of_stored (VM.evictPage heap g _) heap g q hstored']
      exact hqin
    obtain ⟨y, hy, hy'⟩ := hload g x _ hx h0 (by omega) hread
    refine ⟨g, _, y, ?_, ?_, hy'⟩
    · dsimp only
      rw [hframe, if_pos neg_one_lt_zero, hfound, Links.ok_bind]
      dsimp only
      rw [hremove, Links.ok_bind, hevict, Links.ok_bind]
      exact hy
    · rw [hget]
      dsimp only
      rw [if_pos neg_one_lt_zero, hfind]
      rfl

theorem isPageHit_returns (h : u.Represents n s) (hfuel : n < fuel) {p : IPTE}
    (hp : cfg.InRange p) (type : Char) :
    ∃ v, isPageHit fuel cfg u p.pid p.VPN type = .ok ((VM.isPageHit cfg p.pid p.VPN type s).1, v) ∧
      v.Represents (n + 1) (VM.isPageHit cfg p.pid p.VPN type s).2 := by
  have hread : u.rest.readPTE p.pid p.VPN = s.readPTE p.pid p.VPN := by
    rw [h.rest]
    rfl
  unfold isPageHit VM.isPageHit
  rw [checkPage_ok (show cfg.InRange ⟨p.pid, p.VPN⟩ from hp), Links.ok_bind, hread]
  by_cases hvalid : (s.readPTE p.pid p.VPN).valid
  · let mark (t : Machine) : Machine :=
      if type = 'W' then t.writePTE p.pid p.VPN { s.readPTE p.pid p.VPN with dirty := true } else t
    have hmark : Represents { u with rest := mark u.rest } n (mark s) := by
      apply h.frame
      all_goals
        dsimp only [mark]
        split_ifs <;> rfl
    obtain ⟨v, htouch, hv⟩ :=
      touchFrame_agrees cfg hmark hfuel.le (s.readPTE p.pid p.VPN).PFN
    refine ⟨v, ?_, ?_⟩
    · dsimp only
      rw [if_pos hvalid, if_pos hvalid, htouch]
      rfl
    · dsimp only
      rw [if_pos hvalid]
      exact hv
  · refine ⟨u, ?_, ?_⟩
    · dsimp only
      rw [if_neg hvalid, if_neg hvalid]
      rfl
    · dsimp only
      rw [if_neg hvalid]
      exact h.mono (Nat.le_succ n)

theorem MMU_returns (h : u.Represents n s) (hfuel : n + 1 < fuel) (hmax : 1 ≤ cfg.MAX_PFN)
    (hfresh : Fresh cfg heap) (hs : Regular cfg s) (hsafe : FifoSafe cfg s) {p : IPTE}
    (hp : cfg.InRange p) (type : Char) :
    ∃ f hit t v, MMU fuel cfg heap u p.pid p.VPN type = .ok (f, hit, v) ∧
      VM.MMU cfg heap p.pid p.VPN type s = some (f, hit, t) ∧ v.Represents (n + 2) t := by
  obtain ⟨v, hhit, hv⟩ := isPageHit_returns h (Nat.lt_of_succ_lt hfuel) hp type
  unfold MMU VM.MMU
  rw [hhit, Links.ok_bind]
  dsimp only
  by_cases hvalid : (s.pte p).valid = true
  · obtain ⟨h0, -⟩ := hs.inverse.valid p hp hvalid
    have hframe : (VM.isPageHit cfg p.pid p.VPN type s).1 ≥ 0 := by
      change (if (s.pte p).valid then _ else _ : ℤ × Machine).1 ≥ 0
      rw [if_pos hvalid]
      exact h0
    rw [if_pos hframe, if_pos hframe]
    have hcount := hv.frame (f := fun s =>
      { s with stats := { s.stats with hitCount := s.stats.hitCount + 1 } }) rfl rfl rfl
    exact ⟨_, _, _, _, rfl, rfl, hcount.mono (Nat.le_succ _)⟩
  · have hmiss : VM.isPageHit cfg p.pid p.VPN type s = (-1, s) := if_neg hvalid
    rw [hmiss] at hv ⊢
    dsimp only at hv ⊢
    have hcount := hv.frame (f := fun s =>
      { s with stats := { s.stats with missCount := s.stats.missCount + 1 } }) rfl rfl rfl
    have hinv := hs.inverse
    have hqueued := hs.queued
    obtain ⟨f, t, w, hlinked, hseq, hw⟩ := pagefaultHandler_returns hcount hfuel hmax hfresh
      ⟨hinv.frames, hinv.valid, hinv.stored, hinv.fresh⟩
      ⟨hqueued.fifo, hqueued.lru, hqueued.clock⟩ hsafe hp type
    refine ⟨f, false, t, w, ?_, ?_, hw⟩
    · rw [if_neg (by decide), hlinked]
      rfl
    · rw [if_neg (by decide), hseq]
      rfl

theorem accessMemory_rest (cfg : Config) (r : Request) (PFN : ℤ) (hit : Bool) (s : Machine) :
    (accessMemory cfg r PFN hit s).2 =
      { s with PHYSICAL_MEM := (accessMemory cfg r PFN hit s).2.PHYSICAL_MEM } := by
  simp only [accessMemory, READ_PHYSICAL_MEM, WRITE_PHYSICAL_MEM]
  cases physicalFrame cfg (PFN * 256 + r.offset) with
  | none => split_ifs <;> rfl
  | some frameNo => split_ifs <;> rfl

theorem accessMemory_bare (cfg : Config) (r : Request) (PFN : ℤ) (hit : Bool) (s : Machine) :
    accessMemory cfg r PFN hit s.bare =
      ((accessMemory cfg r PFN hit s).1, (accessMemory cfg r PFN hit s).2.bare) := by
  simp only [accessMemory, READ_PHYSICAL_MEM, WRITE_PHYSICAL_MEM]
  cases physicalFrame cfg (PFN * 256 + r.offset) with
  | none => split_ifs <;> rfl
  | some frameNo => split_ifs <;> rfl

/-- What a line makes the MMU do. -/
def call? (cfg : Config) (r : Request) : Option IPTE :=
  (r.filter cfg).toOption.map fun call => ⟨call.1, call.2.1⟩

/-- A request that is refused or for a page of the configuration. If it is not the last, it leaves a
regular state, and the counter of `fifo` goes up by one at most. -/
theorem serveRequest_returns (h : u.Represents n s) (hfuel : n + 1 < fuel) (hmax : 1 ≤ cfg.MAX_PFN)
    (hfresh : Fresh cfg heap) (hs : Regular cfg s) (hsafe : FifoSafe cfg s) (r : Request)
    (hr : ∀ p ∈ call? cfg r, cfg.InRange p) :
    ∃ reply t v, serveRequest fuel cfg heap u r = .ok (reply, v) ∧
      VM.serveRequest cfg heap s r = some (reply, t) ∧ v.Represents (n + 2) t ∧
      ((∀ message, reply ≠ .exit message) → Regular cfg t ∧
        (cfg.replacementPolicy = .FIFO → t.i.toInt ≤ s.i.toInt + 1)) := by
  have hkeep : u.Represents (n + 2) s := h.mono (Nat.le_add_right n 2)
  have hsame : Regular cfg s ∧ (cfg.replacementPolicy = .FIFO → s.i.toInt ≤ s.i.toInt + 1) :=
    ⟨hs, fun _ => by omega⟩
  unfold call? Request.filter at hr
  unfold serveRequest
  by_cases hscan : r.type = 'R' ∧ r.ret < 3 ∨ r.type = 'W' ∧ r.ret < 4
  · exact ⟨_, s, u, if_pos hscan, if_pos hscan, hkeep, fun _ => hsame⟩
  rw [if_neg hscan] at hr ⊢
  by_cases hpid : r.pid > cfg.MAX_PID - 1
  · exact ⟨_, s, u, if_pos hpid, (if_neg hscan).trans (if_pos hpid), hkeep, fun _ => hsame⟩
  rw [if_neg hpid] at hr ⊢
  by_cases hvpn : (r.type = 'R' ∨ r.type = 'W') ∧ r.VPN ≥ cfg.MAX_VPN
  · exact ⟨_, s, u, if_pos hvpn, (if_neg hscan).trans ((if_neg hpid).trans (if_pos hvpn)), hkeep,
      fun _ => hsame⟩
  rw [if_neg hvpn] at hr ⊢
  have hp : cfg.InRange r.page := hr _ rfl
  obtain ⟨f, hit, t, v, hlinked, hseq, hv⟩ := MMU_returns h hfuel hmax hfresh hs hsafe hp r.type
  change MMU fuel cfg heap u r.pid r.VPN r.type = _ at hlinked
  change VM.MMU cfg heap r.pid r.VPN r.type s = _ at hseq
  have hbare := accessMemory_bare cfg r f hit t
  have hhead : (accessMemory cfg r f hit t).2.head = t.head := by rw [accessMemory_rest]
  have hclockHead : (accessMemory cfg r f hit t).2.clockHead = t.clockHead := by
    rw [accessMemory_rest]
  have haccess := hv.frame (f := fun t => (accessMemory cfg r f hit t).2)
    (congrArg Prod.snd hbare) hhead hclockHead
  have hserve : VM.serveRequest cfg heap s r =
      some ((accessMemory cfg r f hit t).1, (accessMemory cfg r f hit t).2) := by
    rw [VM.serveRequest, if_neg hscan, if_neg hpid, if_neg hvpn, hseq]
    rfl
  have hreply : (accessMemory cfg r f hit v.rest).1 = (accessMemory cfg r f hit t).1 := by
    rw [hv.rest, hbare]
  refine ⟨_, _, { v with rest := (accessMemory cfg r f hit v.rest).2 }, ?_, hserve, haccess, ?_⟩
  · rw [hlinked, Links.ok_bind, ← hreply]
    rfl
  · intro hgoes
    by_cases htype : r.type = 'R' ∨ r.type = 'W'
    · -- The request is complete and in range, so the step is one of those of the run lemmas.
      have hin : r.InRange cfg := by
        refine ⟨htype, ?_, ?_, hp⟩
        · split_ifs with hread
          · by_contra hlt
            exact hscan (Or.inl ⟨hread, by omega⟩)
          · by_contra hlt
            exact hscan (Or.inr ⟨htype.resolve_left hread, by omega⟩)
        · have hshift := Int.shiftRight_eq_div_pow r.addr 8
          have hpos : 0 ≤ r.addr >>> (8 : ℕ) := hp.2.2.1
          omega
      have hadm : Admissible cfg s r := ⟨hin, fun _ => hsafe⟩
      obtain ⟨reply, t', hserve', hserved⟩ := served_exists cfg heap s r hmax hs hadm
      rw [hserve, Option.some_inj] at hserve'
      cases hserve'
      refine ⟨hs.of_served hadm hserved, fun hpol => ?_⟩
      have hle := hserved.counter_le hs hadm hpol
      split_ifs at hle <;> omega
    · exfalso
      rw [not_or] at htype
      have hexit : ∃ message, (accessMemory cfg r f hit t).1 = .exit message := by
        simp only [accessMemory, if_neg htype.1, if_neg htype.2]
        split_ifs
        · exact ⟨_, rfl⟩
        · exact ⟨_, rfl⟩
      obtain ⟨message, hexit⟩ := hexit
      exact hgoes message hexit

/-- The lines left, each refused or for a page of the configuration, and few enough for the counter
of `fifo`. -/
theorem inputLoop_returns (h : u.Represents n s) (hmax : 1 ≤ cfg.MAX_PFN)
    (hfresh : Fresh cfg heap) (hs : Regular cfg s) {vars w : Variables} (hvars : vars.Agrees w)
    (inputs : List (List Byte)) (hfuel : n + 2 * inputs.length < fuel)
    (hcalls : ∀ r, .request r ∈ scanLines w inputs → ∀ p ∈ call? cfg r, cfg.InRange p)
    (hfew : cfg.replacementPolicy = .FIFO → s.i.toInt + 1 + inputs.length < 2^31) :
    ∃ replies t v, inputLoop fuel cfg heap vars u inputs = .ok (replies, v) ∧
      VM.inputLoop cfg heap vars s inputs = some (replies, t) ∧
      v.Represents (n + 2 * inputs.length) t := by
  induction inputs generalizing n vars w u s with
  | nil => exact ⟨[], s, u, rfl, rfl, h⟩
  | cons input inputs ih =>
    rw [List.length_cons] at hfuel hfew ⊢
    have hn : n + 2 + 2 * inputs.length = n + 2 * (inputs.length + 1) := by omega
    rw [scanLines] at hcalls
    simp only [inputLoop, VM.inputLoop, serveInput, VM.serveInput]
    by_cases hcomment : isComment input = true
    · rw [if_pos hcomment] at hcalls
      obtain ⟨replies, t, v, hlinked, hseq, hv⟩ := ih (h.mono (Nat.le_add_right n 2)) hs hvars
        (by omega) (fun r hr => hcalls r (List.mem_cons_of_mem _ hr)) (fun hpol => by
          have := hfew hpol
          omega)
      rw [hn] at hv
      refine ⟨.skip :: replies, t, v, ?_, ?_, hv⟩
      · rw [if_pos hcomment, Links.ok_bind]
        dsimp only
        rw [hlinked]
        rfl
      · rw [if_pos hcomment, Option.bind_eq_bind, Option.bind_some]
        dsimp only
        rw [hseq]
        rfl
    · rw [if_neg hcomment] at hcalls
      obtain ⟨hret, hscan, -⟩ := hvars.scan input
      -- The checks do not look at the byte, in which the two variables may differ.
      have hfilter : call? cfg ((vars.scan input).2.request (vars.scan input).1) =
          call? cfg ((w.scan input).2.request (w.scan input).1) := by
        rw [hscan, hret]
        rfl
      have hturn : n + 1 < fuel := by omega
      obtain ⟨reply, t, v, hlinked, hseq, hv, hnext⟩ := serveRequest_returns h hturn hmax hfresh
        hs (fun hpol => by have := hfew hpol; omega)
        ((vars.scan input).2.request (vars.scan input).1) (by
          rw [hfilter]
          exact hcalls _ List.mem_cons_self)
      simp only [if_neg hcomment, hlinked, hseq, Links.ok_bind, Option.bind_eq_bind,
        Option.bind_some, pure_bind]
      by_cases hexit : ∃ message, reply = .exit message
      · obtain ⟨message, rfl⟩ := hexit
        exact ⟨_, t, v, rfl, rfl, hv.mono (by omega)⟩
      · rw [not_exists] at hexit
        obtain ⟨ht, hi⟩ := hnext hexit
        obtain ⟨replies, t', v', hlinked', hseq', hv'⟩ := ih hv ht (hscan.afterReply reply)
          (by omega) (fun r hr => hcalls r (List.mem_cons_of_mem _ hr)) (fun hpol => by
            have h1 := hfew hpol
            have h2 := hi hpol
            omega)
        rw [hn] at hv'
        refine ⟨reply :: replies, t', v', ?_, ?_, hv'⟩
        · cases reply with
          | exit message => exact absurd rfl (hexit message)
          | _ => rw [hlinked']; rfl
        · cases reply with
          | exit message => exact absurd rfl (hexit message)
          | _ => rw [hseq']; rfl

end agreement

end Linked

/-! ### The program -/

/-- The two ends of `main` show the same. -/
inductive Linked.Exit.Shows : Linked.Exit → VM.Exit → Prop
  | quit (code : ℤ) (message : String) : Shows (.quit code message) (.quit code message)
  | served (replies : List Reply) {u : Linked} {n : ℕ} {s : Machine} (h : u.Represents n s) :
      Shows (.served replies u) (.served replies s)

theorem Linked.represents_init (cfg : Config) (heap : Heap) :
    (Linked.init cfg heap).Represents 0 (VM.init cfg heap) :=
  ⟨rfl, Lists.isList_nil [], Lists.isList_nil [], le_rfl, le_rfl⟩

/-- A file, behind its first line, in the bounds of the tables: each line that the checks of `main`
let through is for a page of the configuration, and under FIFO there are fewer than 2^31 lines. -/
structure Config.Bounds (cfg : Config) (heap : Heap) (vars : Variables)
    (inputs : List (List Byte)) : Prop where
  calls : ∀ r, .request r ∈ scanLines vars inputs → ∀ p ∈ Linked.call? cfg r, cfg.InRange p
  few : cfg.replacementPolicy = .FIFO → inputs.length < 2^31
  fresh : Linked.Fresh cfg heap

/-- What `main` goes on with once its checks are passed, if it does. -/
def opened (fopen : List Byte → Option (List Byte)) :
    List (List Byte) → Option (Config × List (List Byte))
  | _ :: frames :: policy :: name :: _ => do
    let file ← fopen name
    let (header, inputs) ←
      match allBuffers 256 file with
      | [] => none
      | header :: inputs => some (header, inputs)
    let policy ← replacementPolicy (atoi policy)
    let cfg : Config :=
      ⟨(atoi frames).toInt, (scanHeader header).1.toInt, (scanHeader header).2.toInt, policy⟩
    if cfg.Accepted then some (cfg, inputs) else none
  | _ => none

/-- On a file in the bounds of the tables all loops of `list.c` and `clock_list.c` end, no call
leaves the tables or dereferences NULL, and `main` on nodes ends as `main` on sequences does. -/
theorem linked_main (fopen : List Byte → Option (List Byte)) (heap : Heap) (vars : Variables)
    (argv : List (List Byte))
    (hfile : ∀ q ∈ opened fopen argv, q.1.Bounds heap vars q.2) :
    ∃ n, ∀ fuel, n ≤ fuel → ∃ exit shown, Linked.main fuel fopen heap vars argv = .ok exit ∧
      main fopen heap vars argv = some shown ∧ Linked.Exit.Shows exit shown := by
  -- An early end takes no turn of any loop.
  have hquit (code : ℤ) (message : String) (x : Except Links.Fault Linked.Exit) (y : Option Exit)
      (hx : x = .ok (.quit code message)) (hy : y = some (.quit code message)) :
      ∃ exit shown, x = .ok exit ∧ y = some shown ∧ Linked.Exit.Shows exit shown :=
    ⟨_, _, hx, hy, .quit code message⟩
  rcases argv with _ | ⟨program, _ | ⟨frames, _ | ⟨policy, _ | ⟨name, rest⟩⟩⟩⟩
  iterate 4 exact ⟨0, fun fuel _ => hquit _ _ _ _ rfl rfl⟩
  simp only [Linked.main, main]
  cases hopen : fopen name with
  | none => exact ⟨0, fun fuel _ => hquit _ _ _ _ rfl rfl⟩
  | some file =>
    dsimp only
    cases hbuffers : allBuffers 256 file with
    | nil => exact ⟨0, fun fuel _ => hquit _ _ _ _ rfl rfl⟩
    | cons header inputs =>
      dsimp only
      cases hpol : replacementPolicy (atoi policy) with
      | none => exact ⟨0, fun fuel _ => hquit _ _ _ _ rfl rfl⟩
      | some p =>
        let cfg : Config :=
          ⟨(atoi frames).toInt, (scanHeader header).1.toInt, (scanHeader header).2.toInt, p⟩
        refine ⟨2 * inputs.length + 1, fun fuel hfuel => ?_⟩
        by_cases hcfg : cfg.Accepted
        · have hbounds : cfg.Bounds heap vars inputs := by
            refine hfile (cfg, inputs) ?_
            simp only [opened, hopen, hbuffers, hpol, Option.bind_eq_bind, Option.bind_some]
            exact if_pos hcfg
          have hvars : vars.Agrees vars := rfl
          have hturns : 0 + 2 * inputs.length < fuel := by omega
          obtain ⟨replies, s, u, hlinked, hseq, hu⟩ := Linked.inputLoop_returns
            (Linked.represents_init cfg heap) hcfg.MAX_PFN.1 hbounds.fresh
            (regular_init cfg heap hcfg.MAX_PFN.1) hvars inputs hturns hbounds.calls (fun hp => by
              have hfew := hbounds.few hp
              change (-1 : BitVec 32).toInt + 1 + (inputs.length : ℤ) < 2^31
              rw [show (-1 : BitVec 32).toInt = -1 from by decide]
              omega)
          refine ⟨.served replies u, .served replies s, ?_, ?_, .served replies hu⟩
          · refine (if_pos hcfg).trans ?_
            rw [hlinked]
            rfl
          · refine (if_pos hcfg).trans ?_
            rw [hseq]
            rfl
        · exact hquit _ _ _ _ (if_neg hcfg) (if_neg hcfg)

/-- A write and a read for two pages. -/
def twoRequests : List Byte := ascii "# PAGES: 2, # PROCS: 1\n0 W 0x0 a\n0 R 0x100\n"

/-- Under LRU with one frame, where the second request evicts the page of the first. -/
theorem linked_main_twoRequests : ∃ n, ∀ fuel, n ≤ fuel → ∃ exit shown,
    Linked.main fuel (fun _ => some twoRequests) staleHeap ⟨0, 0, 0, 0⟩
      [ascii "vm", ascii "1", ascii "2", ascii "in"] = .ok exit ∧
    main (fun _ => some twoRequests) staleHeap ⟨0, 0, 0, 0⟩
      [ascii "vm", ascii "1", ascii "2", ascii "in"] = some shown ∧
    Linked.Exit.Shows exit shown := by
  apply linked_main
  have hopened : opened (fun _ => some twoRequests)
      [ascii "vm", ascii "1", ascii "2", ascii "in"] =
        some (⟨1, 2, 1, .LRU⟩, [ascii "0 W 0x0 a\n", ascii "0 R 0x100\n"]) := by decide +kernel
  have hscan : scanLines ⟨0, 0, 0, 0⟩ [ascii "0 W 0x0 a\n", ascii "0 R 0x100\n"] =
      [.request ⟨4, 0, 'W', 0, 'a'⟩, .request ⟨3, 0, 'R', 0x100, 'a'⟩] := by decide +kernel
  have hpage : (⟨1, 2, 1, .LRU⟩ : Config).InRange ⟨0, 0⟩ := by decide
  intro q hq
  rw [hopened, Option.mem_some_iff] at hq
  subst hq
  refine ⟨fun r hr => ?_, fun hpol => Policy.noConfusion hpol, fun _ _ _ => hpage⟩
  rw [hscan] at hr
  simp only [List.mem_cons, List.not_mem_nil, or_false, Line.request.injEq] at hr
  rcases hr with rfl | rfl
  · decide
  · decide

end OperatingSystems.VM
