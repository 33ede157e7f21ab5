import OperatingSystems.VMFilter
import OperatingSystems.VMInverse
import Mathlib.Tactic.NormNum

/-! The frames that `find_replacement` returns over whole runs under FIFO, past the wrap of the
counter of `fifo`. -/
namespace OperatingSystems.VM

/-- What `find_replacement` returns to the page-fault handler, if it is called. -/
def handlerVictim (cfg : Config) (s : Machine) : Option ℤ :=
  let (PFN, s) := getFreeframe cfg s
  if PFN < 0 then (findReplacement cfg s).map Prod.fst else none

/-- The same for a call of the MMU. -/
def mmuVictim (cfg : Config) (pid VPN : ℤ) (type : Char) (s : Machine) : Option ℤ :=
  let (PFN, s) := isPageHit cfg pid VPN type s
  if PFN ≥ 0 then none
  else handlerVictim cfg { s with stats := { s.stats with missCount := s.stats.missCount + 1 } }

/-- The same for a line of the input, which may not get through the checks of `main`. -/
def Line.victim (cfg : Config) (s : Machine) : Line → Option ℤ
  | .comment => none
  | .request r =>
    match r.filter cfg with
    | .error _ => none
    | .ok (pid, VPN, type) => mmuVictim cfg pid VPN type s

/-- The line gets through the checks of `main`, its page is no hit and no frame is free. -/
def Line.evicts (cfg : Config) (s : Machine) : Line → Bool
  | .comment => false
  | .request r =>
    match r.filter cfg with
    | .error _ => false
    | .ok (pid, VPN, type) => (isPageHit cfg pid VPN type s).1 < 0 ∧ (getFreeframe cfg s).1 < 0

/-- The lines that the loop of `main` comes to, each with the state it meets; an exit is the end. -/
def visits (cfg : Config) (heap : Heap) : Machine → List Line → List (Machine × Line)
  | _, [] => []
  | s, line :: lines => (s, line) ::
    match serveLine cfg heap s line with
    | none => []
    | some (.exit _, _) => []
    | some (_, t) => visits cfg heap t lines

/-- All frames that `find_replacement` returns in a run, in order. -/
def victims (cfg : Config) (heap : Heap) (s : Machine) (lines : List Line) : List ℤ :=
  (visits cfg heap s lines).filterMap fun v => v.2.victim cfg v.1

/-- How many lines of a run fault with no free frame. -/
def replacements (cfg : Config) (heap : Heap) (s : Machine) (lines : List Line) : ℕ :=
  (visits cfg heap s lines).countP fun v => v.2.evicts cfg v.1

/-- A run comes to an end at its first line, or goes on with the lines behind it. -/
theorem visits_cons (cfg : Config) (heap : Heap) (s : Machine) (line : Line) (lines : List Line) :
    (visits cfg heap s (line :: lines) = [(s, line)] ∧
      ∀ reply t, serveLine cfg heap s line = some (reply, t) → ∃ message, reply = .exit message) ∨
    ∃ reply t, serveLine cfg heap s line = some (reply, t) ∧
      (∀ message, reply ≠ .exit message) ∧
      visits cfg heap s (line :: lines) = (s, line) :: visits cfg heap t lines := by
  rw [visits]
  cases hserve : serveLine cfg heap s line with
  | none => exact Or.inl ⟨rfl, fun _ _ h => absurd h (by simp)⟩
  | some p =>
    obtain ⟨reply, t⟩ := p
    cases reply with
    | exit message =>
      refine Or.inl ⟨rfl, fun reply u h => ⟨message, ?_⟩⟩
      cases h
      rfl
    | _ => exact Or.inr ⟨_, t, rfl, fun message h => Reply.noConfusion h, rfl⟩

theorem replacements_cons {cfg : Config} (heap : Heap) {s t : Machine} {line : Line}
    {reply : Reply} (lines : List Line) (hserve : serveLine cfg heap s line = some (reply, t))
    (hreply : ∀ message, reply ≠ .exit message) : replacements cfg heap s (line :: lines) =
      replacements cfg heap t lines + if line.evicts cfg s then 1 else 0 := by
  rcases visits_cons cfg heap s line lines with ⟨-, hexit⟩ | ⟨reply', u, hserve', -, hvisits⟩
  · obtain ⟨message, hmessage⟩ := hexit reply t hserve
    exact absurd hmessage (hreply message)
  · rw [hserve, Option.some_inj, Prod.mk.injEq] at hserve'
    rw [replacements, hvisits, List.countP_cons, ← hserve'.2]
    rfl

theorem replacements_pos {cfg : Config} (heap : Heap) {s : Machine} {line : Line}
    (lines : List Line) (he : line.evicts cfg s) :
    1 ≤ replacements cfg heap s (line :: lines) := by
  apply List.countP_pos_iff.mpr
  rw [visits]
  exact ⟨(s, line), List.mem_cons_self, he⟩

/-- A line is visited in the state that the loop reaches over the lines before it, none of which
ends it. -/
theorem visits_getElem?_iff (cfg : Config) (heap : Heap) (s t : Machine) (lines : List Line)
    (line : Line) (k : ℕ) : (visits cfg heap s lines)[k]? = some (t, line) ↔
      lines[k]? = some line ∧ ∃ replies,
        mainLoop cfg heap s (lines.take k) = some (replies, t) ∧
          ∀ message, Reply.exit message ∉ replies := by
  induction lines generalizing s k with
  | nil => simp [visits]
  | cons first lines ih =>
    cases k with
    | zero =>
      have hfirst : (visits cfg heap s (first :: lines))[0]? = some (s, first) := by
        rw [visits]
        rfl
      rw [hfirst]
      simp [mainLoop, and_comm]
    | succ k =>
      rw [List.getElem?_cons_succ, List.take_succ_cons]
      rcases visits_cons cfg heap s first lines with ⟨hvisits, hexit⟩ |
        ⟨reply, u, hserve, hreply, hvisits⟩
      · -- The run ended at the line before.
        rw [hvisits, List.getElem?_cons_succ, List.getElem?_nil]
        constructor
        · intro h
          cases h
        · rintro ⟨-, replies, hmain, hnone⟩
          rw [mainLoop] at hmain
          obtain ⟨⟨reply, u⟩, hserve, hmain⟩ := Option.bind_eq_some_iff.mp hmain
          obtain ⟨message, rfl⟩ := hexit reply u hserve
          cases hmain
          exact absurd (List.mem_singleton_self _) (hnone message)
      · rw [hvisits, List.getElem?_cons_succ, ih, mainLoop_cons cfg heap _ hserve hreply]
        apply and_congr_right
        intro _
        constructor
        · rintro ⟨replies, hmain, hnone⟩
          refine ⟨reply :: replies, by rw [hmain]; rfl, fun message hmem => ?_⟩
          rcases List.mem_cons.mp hmem with heq | hmem
          · exact hreply message heq.symm
          · exact hnone message hmem
        · rintro ⟨replies, hmain, hnone⟩
          obtain ⟨⟨qs, v⟩, hrest, heq⟩ := Option.map_eq_some_iff.mp hmain
          cases heq
          exact ⟨qs, hrest, fun message hmem => hnone message (List.mem_cons_of_mem reply hmem)⟩

/-- The handler returns the frame that it gets from `find_replacement`. -/
theorem handlerVictim_eq {cfg : Config} {heap : Heap} {pid VPN f g : ℤ} {type : Char}
    {s t : Machine} (hvictim : handlerVictim cfg s = some g)
    (hhandler : pagefaultHandler cfg heap pid VPN type s = some (f, t)) : f = g := by
  cases hget : getFreeframe cfg s with
  | mk p u =>
    simp only [handlerVictim, pagefaultHandler, hget] at hvictim hhandler
    by_cases hp : p < 0
    · rw [if_pos hp] at hvictim hhandler
      obtain ⟨q, hfind, hg⟩ := Option.map_eq_some_iff.mp hvictim
      rw [hfind] at hhandler
      cases hhandler
      exact hg
    · rw [if_neg hp] at hvictim
      cases hvictim

/-- So does the MMU, with no hit. -/
theorem mmuVictim_eq {cfg : Config} {heap : Heap} {pid VPN f g : ℤ} {type : Char} {hit : Bool}
    {s t : Machine} (hvictim : mmuVictim cfg pid VPN type s = some g)
    (hmmu : MMU cfg heap pid VPN type s = some (f, hit, t)) : f = g ∧ hit = false := by
  cases hpage : isPageHit cfg pid VPN type s with
  | mk p u =>
    simp only [mmuVictim, MMU, hpage] at hvictim hmmu
    by_cases hp : p ≥ 0
    · rw [if_pos hp] at hvictim
      cases hvictim
    · rw [if_neg hp] at hvictim hmmu
      obtain ⟨⟨q, v⟩, hhandler, hsame⟩ := Option.bind_eq_some_iff.mp hmmu
      cases hsame
      exact ⟨handlerVictim_eq hvictim hhandler, rfl⟩

/-! ### The counter -/

/-- The look-up of a page does not concern the free frames or the counter. -/
theorem isPageHit_rest (cfg : Config) (pid VPN : ℤ) (type : Char) (s : Machine) :
    (isPageHit cfg pid VPN type s).2.i = s.i ∧
      (isPageHit cfg pid VPN type s).2.nextFreeFrame = s.nextFreeFrame := by
  simp only [isPageHit]
  split_ifs
  · rw [touchFrame_rest]
    exact ⟨rfl, rfl⟩
  · rw [touchFrame_rest]
    exact ⟨rfl, rfl⟩
  · exact ⟨rfl, rfl⟩

theorem getFreeframe_rest (cfg : Config) (s : Machine) : (getFreeframe cfg s).2.i = s.i := by
  unfold getFreeframe
  split_ifs <;> rfl

theorem getFreeframe_fst {cfg : Config} {s t : Machine} (h : t.nextFreeFrame = s.nextFreeFrame) :
    (getFreeframe cfg t).1 = (getFreeframe cfg s).1 := by
  unfold getFreeframe
  rw [h]
  split_ifs <;> rfl

theorem accessMemory_i (cfg : Config) (r : Request) (PFN : ℤ) (hit : Bool) (s : Machine) :
    (accessMemory cfg r PFN hit s).2.i = s.i := by
  simp only [accessMemory]
  split_ifs
  · rfl
  · cases READ_PHYSICAL_MEM cfg (PFN * 256 + r.offset) s <;> rfl
  · unfold WRITE_PHYSICAL_MEM
    cases physicalFrame cfg (PFN * 256 + r.offset) <;> rfl
  · rfl

variable {cfg : Config} {s t : Machine}

theorem handlerVictim_fifo (hpol : cfg.replacementPolicy = .FIFO) :
    handlerVictim cfg s = if (getFreeframe cfg s).1 < 0 then
      some ((s.i + 1).toInt.tmod cfg.MAX_PFN) else none := by
  rw [← getFreeframe_rest cfg s]
  simp only [handlerVictim, findReplacement, hpol, fifo]
  rfl

/-- The counter goes on exactly if no frame is free. -/
theorem pagefaultHandler_fifo (hpol : cfg.replacementPolicy = .FIFO) {heap : Heap}
    {pid VPN f : ℤ} {type : Char}
    (hhandler : pagefaultHandler cfg heap pid VPN type s = some (f, t)) :
    t.i = if (getFreeframe cfg s).1 < 0 then s.i + 1 else s.i := by
  have hrest := getFreeframe_rest cfg s
  have hload (f : ℤ) (u : Machine) :
      (loadPage heap pid VPN type f (insertFrameNode cfg f u)).i = u.i := by
    rw [insertFrameNode_rest]
    rfl
  cases hget : getFreeframe cfg s with
  | mk p u =>
    rw [hget] at hrest
    dsimp only at hrest ⊢
    simp only [pagefaultHandler, hget, findReplacement, removeVictimNode, hpol] at hhandler
    by_cases hp : p < 0
    · rw [if_pos hp] at hhandler ⊢
      cases hhandler
      rw [hload]
      change u.i + 1 = s.i + 1
      rw [hrest]
    · rw [if_neg hp] at hhandler ⊢
      cases hhandler
      rw [hload, hrest]

/-- A miss hands the counter and the free frames on to the handler as they are. -/
theorem missed_rest {pid VPN p : ℤ} {type : Char} {u : Machine}
    (hpage : isPageHit cfg pid VPN type s = (p, u)) :
    u.i = s.i ∧ (getFreeframe cfg
      { u with stats := { u.stats with missCount := u.stats.missCount + 1 } }).1 =
        (getFreeframe cfg s).1 := by
  obtain ⟨hi, hnext⟩ := isPageHit_rest cfg pid VPN type s
  rw [hpage] at hi hnext
  exact ⟨hi, getFreeframe_fst hnext⟩

theorem mmuVictim_fifo (hpol : cfg.replacementPolicy = .FIFO) (pid VPN : ℤ) (type : Char) :
    mmuVictim cfg pid VPN type s =
      if (isPageHit cfg pid VPN type s).1 < 0 ∧ (getFreeframe cfg s).1 < 0 then
        some ((s.i + 1).toInt.tmod cfg.MAX_PFN) else none := by
  cases hpage : isPageHit cfg pid VPN type s with
  | mk p u =>
    obtain ⟨hi, hfree⟩ := missed_rest hpage
    simp only [mmuVictim, hpage]
    by_cases hp : p ≥ 0
    · rw [if_pos hp, if_neg (by omega)]
    · rw [if_neg hp, handlerVictim_fifo hpol, hfree]
      simp only [hi, lt_of_not_ge hp, true_and]

theorem mmu_fifo (hpol : cfg.replacementPolicy = .FIFO) {heap : Heap} {pid VPN f : ℤ}
    {type : Char} {hit : Bool} (hmmu : MMU cfg heap pid VPN type s = some (f, hit, t)) :
    t.i = if (isPageHit cfg pid VPN type s).1 < 0 ∧ (getFreeframe cfg s).1 < 0 then s.i + 1
      else s.i := by
  cases hpage : isPageHit cfg pid VPN type s with
  | mk p u =>
    obtain ⟨hi, hfree⟩ := missed_rest hpage
    simp only [MMU, hpage] at hmmu
    by_cases hp : p ≥ 0
    · rw [if_pos hp] at hmmu
      cases hmmu
      rw [if_neg (by omega)]
      exact hi
    · rw [if_neg hp] at hmmu
      obtain ⟨⟨g, v⟩, hhandler, hsame⟩ := Option.bind_eq_some_iff.mp hmmu
      cases hsame
      rw [pagefaultHandler_fifo hpol hhandler, hfree]
      simp only [hi, lt_of_not_ge hp, true_and]

theorem Line.victim_fifo (hpol : cfg.replacementPolicy = .FIFO) (line : Line) :
    line.victim cfg s =
      if line.evicts cfg s then some ((s.i + 1).toInt.tmod cfg.MAX_PFN) else none := by
  cases line with
  | comment => rfl
  | request r =>
    cases hfilter : r.filter cfg with
    | error message => simp only [Line.victim, Line.evicts, hfilter, Bool.false_eq_true, if_false]
    | ok call =>
      obtain ⟨pid, VPN, type⟩ := call
      simp only [Line.victim, Line.evicts, hfilter, mmuVictim_fifo hpol, decide_eq_true_eq]

/-- Only a line that evicts moves the counter. -/
theorem serveLine_fifo (hpol : cfg.replacementPolicy = .FIFO) {heap : Heap} {line : Line}
    {reply : Reply} (hserve : serveLine cfg heap s line = some (reply, t)) :
    t.i = if line.evicts cfg s then s.i + 1 else s.i := by
  cases line with
  | comment =>
    cases hserve
    rfl
  | request r =>
    rw [serveLine, serveRequest_filter] at hserve
    cases hfilter : r.filter cfg with
    | error message =>
      rw [hfilter] at hserve
      cases hserve
      simp only [Line.evicts, hfilter, Bool.false_eq_true, if_false]
    | ok call =>
      obtain ⟨pid, VPN, type⟩ := call
      rw [hfilter] at hserve
      obtain ⟨⟨f, hit, u⟩, hmmu, haccess⟩ := Option.map_eq_some_iff.mp hserve
      have hi := accessMemory_i cfg r f hit u
      rw [haccess] at hi
      simp only [Line.evicts, hfilter, decide_eq_true_eq]
      rw [← mmu_fifo hpol hmmu, ← hi]

/-- The frames returned in a run are what the counter says from one call to the next. -/
theorem victims_fifo (hpol : cfg.replacementPolicy = .FIFO) (heap : Heap) (s : Machine)
    (lines : List Line) : victims cfg heap s lines =
      (List.range (replacements cfg heap s lines)).map fun k =>
        (s.i + 1 + BitVec.ofNat 32 k).toInt.tmod cfg.MAX_PFN := by
  induction lines generalizing s with
  | nil => rfl
  | cons line lines ih =>
    have hvictim := Line.victim_fifo hpol (s := s) line
    simp only [victims, replacements]
    rcases visits_cons cfg heap s line lines with ⟨hvisits, -⟩ | ⟨reply, t, hserve, -, hvisits⟩
    · rw [hvisits]
      cases he : line.evicts cfg s with
      | false => simp [hvictim, he]
      | true => simp [hvictim, he]
    · -- The rest of the run counts on from where this line leaves the counter.
      have hi := serveLine_fifo hpol hserve
      have hrest := ih t
      simp only [victims, replacements] at hrest
      rw [hvisits]
      cases he : line.evicts cfg s with
      | false =>
        rw [he, if_neg Bool.false_ne_true] at hvictim hi
        simp only [List.filterMap_cons, List.countP_cons, hvictim, hrest, hi, he,
          Bool.false_eq_true, if_false, Nat.add_zero]
      | true =>
        rw [he, if_pos rfl] at hvictim hi
        have hsucc (k : ℕ) : s.i + 1 + 1 + BitVec.ofNat 32 k = s.i + 1 + BitVec.ofNat 32 (k+1) := by
          calc s.i + 1 + 1 + BitVec.ofNat 32 k = s.i + 1 + (1 + BitVec.ofNat 32 k) :=
                BitVec.add_assoc _ _ _
            _ = s.i + 1 + BitVec.ofNat 32 (k+1) := by rw [Nat.add_comm k 1, BitVec.ofNat_add]; rfl
        simp only [List.filterMap_cons, List.countP_cons, hvictim, hrest, hi, he, if_true, hsucc,
          List.range_succ_eq_map, List.map_cons, List.map_map, Function.comp_def]
        rw [BitVec.add_zero]

/-! ### C's remainder -/

/-- The remainder takes the sign of the dividend: it is negative unless it is 0. -/
theorem tmod_nonneg_iff (x m : ℤ) : 0 ≤ x.tmod m ↔ 0 ≤ x ∨ m ∣ x := by
  constructor
  · intro h
    by_contra hno
    rw [not_or, not_le] at hno
    have hneg := Int.tmod_nonneg m (show 0 ≤ -x by omega)
    rw [Int.neg_tmod] at hneg
    exact hno.2 (Int.dvd_of_tmod_eq_zero (by omega))
  · rintro (h | h)
    · exact Int.tmod_nonneg m h
    · rw [Int.tmod_eq_zero_of_dvd h]

theorem toInt_ofNat_of_lt {k : ℕ} (hk : k < 2^31) : (BitVec.ofNat 32 k).toInt = k := by
  rw [BitVec.toInt_eq_toNat_cond, BitVec.toNat_ofNat, Nat.mod_eq_of_lt (by omega),
    if_pos (by omega)]

/-- Past the wrap the counter is as far above -2^31 as it has gone on since. -/
theorem toInt_ofNat_wrapped {k : ℕ} (hk : k < 2^31) :
    (BitVec.ofNat 32 (2^31 + k)).toInt = k - 2^31 := by
  rw [BitVec.toInt_eq_toNat_cond, BitVec.toNat_ofNat, Nat.mod_eq_of_lt (by omega),
    if_neg (by omega)]
  push_cast
  omega

/-- Counting from 0, the first values to leave the frames are those after the wrap, the second of
them with a remainder of its own. -/
theorem counter_in_range_iff {m : ℤ} (hm : 1 ≤ m) (n : ℕ) :
    (∀ k < n, 0 ≤ (BitVec.ofNat 32 k).toInt.tmod m ∧ (BitVec.ofNat 32 k).toInt.tmod m < m) ↔
      m = 1 ∨ n ≤ 2^31 ∨ m ∣ 2^31 ∧ n ≤ 2^31 + 1 := by
  have hrange (x : ℤ) : (0 ≤ x.tmod m ∧ x.tmod m < m) ↔ 0 ≤ x ∨ m ∣ x := by
    rw [tmod_nonneg_iff]
    exact and_iff_left (Int.tmod_lt_of_pos x (by omega))
  have hwrap := toInt_ofNat_wrapped (show 0 < 2^31 by decide)
  have hnext := toInt_ofNat_wrapped (show 1 < 2^31 by decide)
  simp only [hrange]
  constructor
  · intro h
    by_contra hno
    push Not at hno
    obtain ⟨hone, hlong, hlonger⟩ := hno
    have hdvd : m ∣ 2^31 := by
      rcases h (2^31 + 0) hlong with hsign | hfirst
      · omega
      · rw [hwrap, Nat.cast_zero, zero_sub, Int.dvd_neg] at hfirst
        exact hfirst
    rcases h (2^31 + 1) (hlonger hdvd) with hsign | hsecond
    · omega
    · -- `m` divides two numbers next to each other.
      rw [hnext] at hsecond
      have hunit := Int.dvd_add hsecond hdvd
      rw [Nat.cast_one, sub_add_cancel] at hunit
      exact hone (Int.eq_one_of_dvd_one (by omega) hunit)
  · rintro (rfl | hshort | ⟨hdvd, hlong⟩) k hk
    · exact Or.inr (one_dvd _)
    · left
      rw [toInt_ofNat_of_lt (by omega)]
      omega
    · rcases Nat.lt_or_ge k (2^31) with hlt | hge
      · left
        rw [toInt_ofNat_of_lt hlt]
        omega
      · right
        obtain rfl : k = 2^31 + 0 := by omega
        rw [hwrap, Nat.cast_zero, zero_sub, Int.dvd_neg]
        exact hdvd

/-- Under FIFO every frame number that `find_replacement` returns in a run is one of the frames
exactly if there is one frame only, or the counter does not wrap, or it wraps at the last call and
the frames divide 2^31. -/
theorem fifo_victims_in_range_iff (cfg : Config) (heap : Heap)
    (hpol : cfg.replacementPolicy = .FIFO) (hmax : 1 ≤ cfg.MAX_PFN ∧ cfg.MAX_PFN ≤ 256)
    (lines : List Line) :
    (∀ f ∈ victims cfg heap (init cfg heap) lines, 0 ≤ f ∧ f < cfg.MAX_PFN) ↔
      cfg.MAX_PFN = 1 ∨ replacements cfg heap (init cfg heap) lines ≤ 2^31 ∨
        cfg.MAX_PFN ∣ 2^31 ∧ replacements cfg heap (init cfg heap) lines ≤ 2^31 + 1 := by
  have hstart (k : ℕ) : (init cfg heap).i + 1 + BitVec.ofNat 32 k = BitVec.ofNat 32 k := by
    change (-1 : BitVec 32) + 1 + BitVec.ofNat 32 k = _
    rw [show (-1 : BitVec 32) + 1 = 0 from by decide]
    exact BitVec.zero_add _
  rw [victims_fifo hpol, ← counter_in_range_iff hmax.1]
  simp only [hstart, List.forall_mem_map, List.mem_range]

/-- The Belady trace with three frames. -/
theorem fifo_victims_in_range_iff_belady :
    replacements (beladyConfig 3 .FIFO) staleHeap (init (beladyConfig 3 .FIFO) staleHeap)
      (beladyTrace.map .request) = 6 ∧
    ∀ f ∈ victims (beladyConfig 3 .FIFO) staleHeap (init (beladyConfig 3 .FIFO) staleHeap)
      (beladyTrace.map .request), 0 ≤ f ∧ f < 3 := by
  have hsix : replacements (beladyConfig 3 .FIFO) staleHeap (init (beladyConfig 3 .FIFO) staleHeap)
      (beladyTrace.map .request) = 6 := by decide +kernel
  refine ⟨hsix, (fifo_victims_in_range_iff (beladyConfig 3 .FIFO) staleHeap rfl (by decide)
    (beladyTrace.map .request)).mpr (Or.inr (Or.inl ?_))⟩
  rw [hsix]
  decide

/-! ### A run past the wrap -/

theorem Request.InRange.filter {r : Request} (hr : r.InRange cfg) :
    r.filter cfg = .ok (r.pid, r.VPN, r.type) := by
  obtain ⟨htype, hret, -, hpage⟩ := hr
  rw [filter_ok_iff]
  refine ⟨rfl, ?_, hpage.2.1, fun _ => hpage.2.2.2⟩
  rcases htype with ht | ht <;> simp [ht] at hret ⊢ <;> omega

/-- For a line in range, to evict is to fault with no free frame. -/
theorem Line.evicts_iff {r : Request} (hs : Inverse cfg s) (hr : r.InRange cfg) :
    (Line.request r).evicts cfg s ↔ VM.evicts cfg s r := by
  have hmiss : (isPageHit cfg r.pid r.VPN r.type s).1 < 0 ↔ (s.pte r.page).valid = false := by
    change (if (s.pte r.page).valid then _ else _ : ℤ × Machine).1 < 0 ↔ _
    cases hv : (s.pte r.page).valid with
    | true =>
      obtain ⟨h0, -⟩ := hs.valid r.page hr.page hv
      rw [if_pos rfl]
      exact iff_of_false (not_lt.mpr h0) Bool.true_eq_false.mp
    | false => exact iff_of_true (show (-1 : ℤ) < 0 by decide) rfl
  have hfull : (getFreeframe cfg s).1 < 0 ↔ cfg.MAX_PFN ≤ s.nextFreeFrame := by
    have h0 := hs.frames.1
    unfold getFreeframe
    split_ifs with hge
    · exact iff_of_true (show (-1 : ℤ) < 0 by decide) hge
    · exact iff_of_false (not_lt.mpr h0) hge
  simp only [Line.evicts, hr.filter, decide_eq_true_eq]
  exact and_congr hmiss hfull

/-- A read of page `k` modulo 4. -/
def cycleRequest (k : ℕ) : Request := ⟨3, 0, 'R', (k % 4 : ℕ) * 256, 'x'⟩

/-- `n` reads that go round the four pages, from the `m`-th on. -/
def cycle (m n : ℕ) : List Line := (List.range' m n).map fun k => .request (cycleRequest k)

/-- Three frames, four pages. -/
def cycleConfig : Config := ⟨3, 4, 1, .FIFO⟩

/-- After `m` reads of the cycle the frames hold the pages of the last three, and the counter has
gone on once for each read but the first three. -/
structure Cycled (m : ℕ) (s : Machine) : Prop where
  regular : Regular cycleConfig s
  used : s.nextFreeFrame = min (m : ℤ) 3
  counter : s.i.toInt + 1 = (m - 3 : ℕ)
  pages : ∀ k, k < m → m ≤ k + 3 →
    s.invertedPageTable (k % 3 : ℕ) = some ⟨0, (k % 4 : ℕ)⟩

theorem cycleRequest_page (k : ℕ) : (cycleRequest k).page = ⟨0, (k % 4 : ℕ)⟩ := by
  have hshift : (((k % 4 : ℕ) : ℤ) * 256) >>> (8 : ℕ) = (k % 4 : ℕ) := by
    rw [Int.shiftRight_eq_div_pow]
    omega
  exact congrArg (IPTE.mk 0) hshift

theorem cycleRequest_inRange (k : ℕ) : (cycleRequest k).InRange cycleConfig := by
  refine ⟨Or.inl rfl, (if_pos rfl).mpr le_rfl, ?_, ?_⟩
  · exact Int.mul_nonneg (Int.natCast_nonneg _) (by decide)
  · rw [cycleRequest_page]
    refine ⟨le_rfl, show (0 : ℤ) < 1 by decide, Int.natCast_nonneg _, ?_⟩
    change ((k % 4 : ℕ) : ℤ) < 4
    omega

theorem cycled_init (heap : Heap) : Cycled 0 (init cycleConfig heap) := by
  refine ⟨regular_init cycleConfig heap (by decide), rfl, rfl, fun k hk => ?_⟩
  exact absurd hk (Nat.not_lt_zero k)

/-- The next page of the cycle is the one that no frame holds. -/
theorem Cycled.not_resident {m : ℕ} (h : Cycled m s) :
    (s.pte (cycleRequest m).page).valid = false := by
  rw [cycleRequest_page]
  by_contra hv
  rw [Bool.not_eq_false] at hv
  have hin := (cycleRequest_inRange m).page
  rw [cycleRequest_page] at hin
  obtain ⟨h0, h1, h2⟩ := h.regular.inverse.valid _ hin hv
  generalize (s.pte ⟨0, (m % 4 : ℕ)⟩).PFN = f at h0 h1 h2
  rw [h.used] at h1
  -- The frame was filled by one of the last three reads, of another page.
  obtain ⟨k, hkm, hmk, hk⟩ : ∃ k, k < m ∧ m ≤ k + 3 ∧ f = (k % 3 : ℕ) := by
    rcases Nat.lt_or_ge m 3 with hlt | hge
    · exact ⟨f.toNat, by omega, by omega, by omega⟩
    · exact ⟨m - 3 + (f.toNat + 3 - m % 3) % 3, by omega, by omega, by omega⟩
  rw [hk, h.pages k hkm hmk, Option.some_inj, IPTE.mk.injEq] at h2
  omega

theorem Cycled.succ {m : ℕ} (h : Cycled m s) (heap : Heap) (hm : m < 2^31 + 3) :
    ∃ reply t, serveLine cycleConfig heap s (.request (cycleRequest m)) = some (reply, t) ∧
      (∀ message, reply ≠ .exit message) ∧ Cycled (m+1) t := by
  have hv := h.not_resident
  have hin := cycleRequest_inRange m
  have hsafe : FifoSafe cycleConfig s := by
    intro _
    rw [h.counter]
    omega
  obtain ⟨reply, t, hserve, hserved⟩ := served_exists cycleConfig heap s (cycleRequest m)
    (by decide) h.regular ⟨hin, fun _ => hsafe⟩
  have hregular := h.regular.of_served ⟨hin, fun _ => hsafe⟩ hserved
  cases hserved with
  | hit u hvalid hu => exact Bool.noConfusion (hv.symm.trans hvalid)
  | fault f u _ hu =>
    obtain ⟨hf, hused, hcounter⟩ : f = (m % 3 : ℕ) ∧ u.nextFreeFrame = min ((m+1 : ℕ) : ℤ) 3 ∧
        u.i.toInt + 1 = (m + 1 - 3 : ℕ) := by
      have hmused := h.used
      have hmcounter := h.counter
      -- The first three frames are handed out in order; later victims go round with the counter.
      rcases hu.frame with ⟨hf, hlt, hn, -, hi, -⟩ | ⟨v, hvic, h0, h1, hfull, hn, -, hi, -⟩
      · change f < 3 at hlt
        rw [hi, hn]
        omega
      · change s.nextFreeFrame = 3 at hfull
        obtain ⟨hvictim, hv⟩ := hvic.fifo_eq rfl
        have hnext := h.regular.queued.toInt_succ rfl hsafe
        change f = (s.i + 1).toInt.tmod 3 at hvictim
        rw [hnext, Int.tmod_eq_emod_of_nonneg (by omega)] at hvictim
        have hui : u.i.toInt = s.i.toInt + 1 := by rw [hi, hv, ← hnext]
        rw [hn, hui]
        omega
    refine ⟨_, _, hserve, fun _ => Reply.noConfusion, hregular, ?_, ?_, ?_⟩
    · rw [storeByte_rest]
      exact hused
    · rw [storeByte_rest]
      exact hcounter
    · intro k hk hmk
      rw [storeByte_rest]
      change u.invertedPageTable _ = _
      rw [hu.inverted, cycleRequest_page, hf]
      by_cases hkm : k = m
      · rw [hkm, if_pos rfl]
      · rw [if_neg (by omega)]
        exact h.pages k (by omega) (by omega)

theorem Cycled.evicts {m : ℕ} (h : Cycled m s) (hm : 3 ≤ m) :
    (Line.request (cycleRequest m)).evicts cycleConfig s := by
  rw [Line.evicts_iff h.regular.inverse (cycleRequest_inRange m)]
  refine ⟨h.not_resident, ?_⟩
  have hused := h.used
  change (3 : ℤ) ≤ s.nextFreeFrame
  omega

/-- Each read of the cycle but the first three evicts, as long as the counter has not wrapped. -/
theorem cycle_replacements (heap : Heap) {m : ℕ} (h : Cycled m s) (n : ℕ)
    (hn : m + n ≤ 2^31 + 3) :
    n + 1 ≤ replacements cycleConfig heap s (cycle m (n+1)) + (3 - m) := by
  induction n generalizing m s with
  | zero =>
    rcases Nat.lt_or_ge m 3 with hlt | hge
    · omega
    · have hpos := replacements_pos heap (cycle (m+1) 0) (h.evicts hge)
      exact Nat.le_trans hpos (Nat.le_add_right _ _)
  | succ n ih =>
    obtain ⟨reply, t, hserve, hreply, ht⟩ := h.succ heap (by omega)
    have hrest := ih ht (by omega)
    have hcons := replacements_cons heap (cycle (m+1) (n+1)) hserve hreply
    change replacements cycleConfig heap s (cycle m (n+1+1)) = _ at hcons
    rw [hcons]
    rcases Nat.lt_or_ge m 3 with hlt | hge
    · omega
    · rw [if_pos (h.evicts hge)]
      omega

/-- The call of `find_replacement` that comes after 2^31 others returns -2. -/
theorem cycle_victim (heap : Heap) :
    -2 ∈ victims cycleConfig heap (init cycleConfig heap) (cycle 0 (2^31 + 4)) := by
  have hmany : 2^31 + 3 + 1 ≤
      replacements cycleConfig heap (init cycleConfig heap) (cycle 0 (2^31 + 4)) + (3 - 0) :=
    cycle_replacements heap (cycled_init heap) (2^31 + 3) (by omega)
  have hwrapped : ((-1 : BitVec 32) + 1 + BitVec.ofNat 32 (2^31)).toInt.tmod 3 = -2 := by decide
  rw [victims_fifo rfl, ← hwrapped]
  exact List.mem_map.mpr ⟨2^31, List.mem_range.mpr (by omega), rfl⟩

/-- Reads that go round four pages on three frames, 2^31 + 4 of them. -/
theorem fifo_victims_out_of_range :
    ¬ ∀ f ∈ victims cycleConfig staleHeap (init cycleConfig staleHeap) (cycle 0 (2^31 + 4)),
      0 ≤ f ∧ f < cycleConfig.MAX_PFN :=
  fun h => absurd (h (-2) (cycle_victim _)).1 (by decide)

end OperatingSystems.VM
