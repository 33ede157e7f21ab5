import OperatingSystems.VMAccess

/-! The list of `clock_list.c` under CLOCK is the ring of frames from the hand of a circular clock. -/
namespace OperatingSystems.VM

open Frames

/-- The frames of a ring in order from the hand, with their reference bits. -/
def clockNodes (n : ℤ) (ref : ℤ → Bool) (h : ℤ) : List ClockNode :=
  (ring n h).map fun f => ⟨f, if ref f then 1 else 0⟩

/-- The list at the hand, and the list once that frame has gone to the tail with bit `b`. -/
theorem clockNodes_turn {n h : ℤ} (h0 : 0 ≤ h) (hn : h < n) (ref : ℤ → Bool) (b : Bool) :
    ∃ rest, clockNodes n ref h = ⟨h, if ref h then 1 else 0⟩ :: rest ∧
      clockNodes n (Function.update ref h b) ((h+1)%n) = rest ++ [⟨h, if b then 1 else 0⟩] := by
  obtain ⟨rest, hring, hturn⟩ := ring_turn h0 hn
  have hnd := nodup_ring n h
  rw [hring, List.nodup_cons] at hnd
  refine ⟨rest.map fun f => ⟨f, if ref f then 1 else 0⟩, ?_, ?_⟩
  · rw [clockNodes, hring, List.map_cons]
  · rw [clockNodes, hturn, List.map_append, List.map_singleton, Function.update_self]
    congr 1
    apply List.map_congr_left
    intro f hf
    rw [Function.update_of_ne (ne_of_mem_of_not_mem hf hnd.1)]

/-- Each turn of the sweep is a turn of the loop in `clock`. -/
theorem clockLoop_sweep {n : ℤ} (k : ℕ) (ref : ℤ → Bool) {h : ℤ} (h0 : 0 ≤ h) (hn : h < n) :
    clockLoop (clockNodes n ref h) =
      clockLoop (clockNodes n (sweep n k ref h).1 (sweep n k ref h).2) := by
  induction k generalizing ref h with
  | zero => rfl
  | succ k ih =>
    rw [sweep]
    split
    · rename_i href
      obtain ⟨rest, hnodes, hturn⟩ := clockNodes_turn h0 hn ref false
      rw [← ih _ (Int.emod_nonneg _ (by omega)) (Int.emod_lt_of_pos _ (by omega)), hturn, hnodes,
        clockLoop, href]
      simp only [if_true, clockListInsertTail, clockListRemoveHead, List.tail_cons,
        Bool.false_eq_true, if_false]
    · rfl

/-- `clock` stops where the sweep does. -/
theorem clockLoop_nodes {n : ℤ} (ref : ℤ → Bool) {h : ℤ} (h0 : 0 ≤ h) (hn : h < n) :
    clockLoop (clockNodes n ref h) =
      some (clockNodes n (sweep n n.toNat ref h).1 (sweep n n.toNat ref h).2) := by
  have hlen : (ring n h).countP ref ≤ n.toNat := by
    refine List.countP_le_length.trans ?_
    rw [ring, List.length_map, List.length_range]
  have hstop := sweep_stops n.toNat ref h0 hn hlen
  obtain ⟨hs0, hsn⟩ := sweep_range n.toNat ref h0 hn
  rw [clockLoop_sweep n.toNat ref h0 hn]
  obtain ⟨rest, hnodes, -⟩ := clockNodes_turn hs0 hsn (sweep n n.toNat ref h).1 false
  rw [hnodes, hstop, clockLoop]
  simp only [Bool.false_eq_true, if_false]
  rw [if_neg (by decide)]

/-- A hit sets the bit of its frame. -/
theorem clockListUpdateRef_nodes {l : List ℤ} (hl : l.Nodup) (ref : ℤ → Bool) (f : ℤ) :
    clockListUpdateRef (l.map fun g => ⟨g, if ref g then 1 else 0⟩) f 1 =
      l.map fun g => ⟨g, if Function.update ref f true g then 1 else 0⟩ := by
  induction l with
  | nil => rfl
  | cons g l ih =>
    obtain ⟨hg, hl⟩ := List.nodup_cons.mp hl
    rw [List.map_cons, List.map_cons, clockListUpdateRef]
    by_cases hgf : g = f
    · subst hgf
      rw [if_pos rfl, Function.update_self]
      congr 1
      apply List.map_congr_left
      intro x hx
      rw [Function.update_of_ne (ne_of_mem_of_not_mem hx hg)]
    · rw [if_neg hgf, ih hl, Function.update_of_ne hgf]

/-- The list, the hand and the pages of the simulator are those of the circular clock `c`. -/
structure Clocked (cfg : Config) (s : Machine) (c : Clock IPTE) : Prop where
  page : s.invertedPageTable = c.page
  used : s.nextFreeFrame = c.used
  nodes : s.clockHead = clockNodes c.used c.ref c.hand
  hand : 0 ≤ c.hand ∧ c.hand < cfg.MAX_PFN
  first : c.used < cfg.MAX_PFN → c.hand = 0

theorem clocked_init (cfg : Config) (heap : Heap) (hmax : 1 ≤ cfg.MAX_PFN) :
    Clocked cfg (init cfg heap) Clock.empty :=
  ⟨rfl, rfl, rfl, ⟨le_rfl, by change (0 : ℤ) < _; omega⟩, fun _ => rfl⟩

variable {cfg : Config} {s : Machine} {c : Clock IPTE} {r : Request}

/-- A resident page is found in its frame, a page that is not resident in none. -/
theorem Clocked.find (h : Clocked cfg s c) (hs : Regular cfg s) (p : IPTE) (hp : cfg.InRange p) :
    ((ring c.used 0).find? fun f => c.page f = some p) =
      if (s.pte p).valid then some (s.pte p).PFN else none := by
  have hmem (f : ℤ) : f ∈ ring c.used 0 ↔ 0 ≤ f ∧ f < s.nextFreeFrame := by
    rw [h.used]
    exact mem_ring
  cases hfind : (ring c.used 0).find? fun f => c.page f = some p with
  | some f =>
    have hpage := List.find?_some hfind
    rw [decide_eq_true_eq, ← h.page] at hpage
    obtain ⟨h0, h1⟩ := (hmem f).mp (List.mem_of_find?_eq_some hfind)
    obtain ⟨q, -, hq, hv, hf⟩ := hs.inverse.stored f h0 h1
    rw [hpage, Option.some_inj] at hq
    subst hq
    rw [if_pos hv, hf]
  | none =>
    rw [if_neg]
    intro hv
    obtain ⟨h0, h1, h2⟩ := hs.inverse.valid p hp hv
    have hnone := List.find?_eq_none.mp hfind _ ((hmem _).mpr ⟨h0, h1⟩)
    rw [decide_eq_true_eq, ← h.page] at hnone
    exact hnone h2

/-- A hit sets the reference bit of the frame and moves nothing. -/
theorem Clocked.of_hit (h : Clocked cfg s c) {u : Machine} {w : Bool}
    (hpol : cfg.replacementPolicy = .CLOCK) (hu : Hit cfg s r.page w u)
    (hfind : ((ring c.used 0).find? fun f => c.page f = some r.page) = some (s.pte r.page).PFN) :
    (c.use cfg.MAX_PFN r.page).1 = ⟨(s.pte r.page).PFN, true, none⟩ ∧
      Clocked cfg u (c.use cfg.MAX_PFN r.page).2 := by
  have huse : c.use cfg.MAX_PFN r.page = (⟨(s.pte r.page).PFN, true, none⟩,
      { c with ref := Function.update c.ref (s.pte r.page).PFN true }) := by
    rw [Clock.use, hfind]
  rw [huse]
  refine ⟨rfl, hu.inverted.trans h.page, hu.nextFreeFrame.trans h.used, ?_, h.hand, h.first⟩
  rw [hu.clockHead, touchFrame_clockHead, if_pos hpol, h.nodes, clockNodes,
    clockListUpdateRef_nodes (nodup_ring _ _)]
  rfl

/-- A fault while a frame is free: the hand stays, and the new frame is the last it will reach. -/
theorem Clocked.of_free (h : Clocked cfg s c) (hs : Regular cfg s) {u : Machine} {f : ℤ}
    (hpol : cfg.replacementPolicy = .CLOCK) (hf : f = s.nextFreeFrame) (hlt : f < cfg.MAX_PFN)
    (hpage : u.invertedPageTable = Function.update c.page f (some r.page))
    (hn : u.nextFreeFrame = f + 1) (hclock : u.clockHead = (insertFrameNode cfg f s).clockHead)
    (hfind : ((ring c.used 0).find? fun f => c.page f = some r.page) = none) :
    (c.use cfg.MAX_PFN r.page).1 = ⟨f, false, none⟩ ∧
      Clocked cfg u (c.use cfg.MAX_PFN r.page).2 := by
  have hused : c.used = f := h.used.symm.trans hf.symm
  have hfree : c.used < cfg.MAX_PFN := by omega
  have hhand := h.first hfree
  have h0 := hs.inverse.frames.1
  have huse : c.use cfg.MAX_PFN r.page = (⟨f, false, none⟩, { c with
      page := Function.update c.page f (some r.page)
      used := f + 1
      ref := Function.update c.ref f false }) := by
    rw [Clock.use, hfind]
    simp only [hused, hlt, if_true]
  rw [huse]
  refine ⟨rfl, hpage, hn, ?_, h.hand, fun _ => hhand⟩
  -- The list gets the frame at its tail, which is where the ring from hand 0 grows.
  have hnot (g : ℤ) (hg : g ∈ ring f 0) : g ≠ f := (mem_ring.mp hg).2.ne
  rw [hclock, insertFrameNode_clockHead, if_pos hpol, h.nodes, hused, hhand]
  dsimp only
  unfold clockNodes
  rw [ring_zero_succ (show 0 ≤ f by omega), List.map_append, List.map_singleton,
    Function.update_self]
  congr 1
  apply List.map_congr_left
  intro g hg
  rw [Function.update_of_ne (hnot g hg)]

/-- A fault with every frame in use: the loop turns the list to the frame where the sweep stops. -/
theorem Clocked.of_evict (h : Clocked cfg s c) {u v : Machine} {f : ℤ}
    (hpol : cfg.replacementPolicy = .CLOCK) (hvic : Victim cfg s f v)
    (hfull : s.nextFreeFrame = cfg.MAX_PFN) (hmax : 1 ≤ cfg.MAX_PFN)
    (hpage : u.invertedPageTable = Function.update c.page f (some r.page))
    (hn : u.nextFreeFrame = s.nextFreeFrame)
    (hclock : u.clockHead = (insertFrameNode cfg f v).clockHead)
    (hfind : ((ring c.used 0).find? fun f => c.page f = some r.page) = none) :
    (c.use cfg.MAX_PFN r.page).1 = ⟨f, false, c.page f⟩ ∧
      Clocked cfg u (c.use cfg.MAX_PFN r.page).2 := by
  have hused : c.used = cfg.MAX_PFN := h.used.symm.trans hfull
  have hnodes := h.nodes
  rw [hused] at hnodes
  have hloop := clockLoop_nodes c.ref h.hand.1 h.hand.2
  obtain ⟨hs0, hsn⟩ := sweep_range cfg.MAX_PFN.toNat c.ref h.hand.1 h.hand.2
  generalize hsweep : sweep cfg.MAX_PFN cfg.MAX_PFN.toNat c.ref c.hand = swept at hloop hs0 hsn
  obtain ⟨ref, g⟩ := swept
  obtain ⟨rest, hhead, hturn⟩ := clockNodes_turn hs0 hsn ref false
  rw [← hnodes] at hloop
  -- The head of the turned list is the victim, so the frame of the fault is the sweep's.
  obtain ⟨n, rest', hl, hf, hv⟩ := hvic.clock_eq hpol
  rw [hloop, Option.some_inj, hhead] at hl
  obtain ⟨rfl, rfl⟩ := List.cons.inj hl
  have hrest : v.clockHead = rest := by rw [hv]
  obtain rfl : f = g := hf
  have huse : c.use cfg.MAX_PFN r.page = (⟨f, false, c.page f⟩, { c with
      page := Function.update c.page f (some r.page)
      ref := Function.update ref f false
      hand := (f+1)%cfg.MAX_PFN }) := by
    rw [Clock.use, hfind]
    simp only [hused, lt_irrefl, if_false, hsweep]
  rw [huse]
  refine ⟨rfl, hpage, hn.trans h.used, ?_, ?_, fun hlt => ?_⟩
  · rw [hclock, insertFrameNode_clockHead, if_pos hpol, hrest]
    dsimp only
    rw [hused, hturn]
    rfl
  · exact ⟨Int.emod_nonneg _ (by omega), Int.emod_lt_of_pos _ (by omega)⟩
  · exact absurd hlt (by dsimp only; omega)

/-- The byte is stored in the memory, of which the clock sees nothing. -/
theorem Clocked.storeByte (h : Clocked cfg s c) (f : ℤ) : Clocked cfg (storeByte r f s) c := by
  rw [storeByte_rest]
  exact ⟨h.page, h.used, h.nodes, h.hand, h.first⟩

/-- One request: the simulator and the clock do the same. -/
theorem Clocked.of_request (h : Clocked cfg s c) (heap : Heap) (hmax : 1 ≤ cfg.MAX_PFN)
    (hpol : cfg.replacementPolicy = .CLOCK) (hs : Regular cfg s) (hr : Admissible cfg s r) :
    ∃ t, observe cfg heap s r = some ((c.use cfg.MAX_PFN r.page).1, t) ∧
      Clocked cfg t (c.use cfg.MAX_PFN r.page).2 := by
  have hfind := h.find hs r.page hr.1.page
  rcases observe_cases heap hmax hs hr with ⟨hv, u, hu, hx⟩ | ⟨hv, f, u, hu, hx⟩
  · rw [if_pos hv] at hfind
    obtain ⟨hreply, hc⟩ := h.of_hit hpol hu hfind
    rw [hreply]
    exact ⟨_, hx, hc.storeByte _⟩
  · rw [hv, if_neg (by decide)] at hfind
    have hpage : u.invertedPageTable = Function.update c.page f (some r.page) := by
      funext g
      rw [hu.inverted, Function.update_apply, h.page]
    rcases hu.frame with ⟨hf, hlt, hn, -, -, -, hclock⟩ |
      ⟨v, hvic, hf0, hf1, hfull, hn, -, -, -, hclock⟩
    · obtain ⟨hreply, hc⟩ := h.of_free hs hpol hf hlt hpage hn hclock hfind
      rw [if_neg (by omega)] at hx
      rw [hreply]
      exact ⟨_, hx, hc.storeByte _⟩
    · obtain ⟨hreply, hc⟩ := h.of_evict hpol hvic hfull hmax hpage hn hclock hfind
      rw [if_pos hfull.ge, h.page] at hx
      rw [hreply]
      exact ⟨_, hx, hc.storeByte _⟩

/-- Under CLOCK every request ends, and the frames, the hits and the victims are those of the
circular clock with a hand and one reference bit for each frame. -/
theorem clock_is_circular (cfg : Config) (heap : Heap) (hpol : cfg.replacementPolicy = .CLOCK)
    (hmax : 1 ≤ cfg.MAX_PFN) (rs : List Request) (hrs : ∀ r ∈ rs, r.InRange cfg) :
    ∃ replies accesses s, mainLoop cfg heap (init cfg heap) (rs.map .request) = some (replies, s) ∧
      Mealy.run (observe cfg heap) (init cfg heap) rs = some (accesses, s) ∧
      accesses = Mealy.outputs (fun c (r : Request) => c.use cfg.MAX_PFN r.page) Clock.empty rs := by
  have hadm (s : Machine) (r : Request) (hr : r.InRange cfg) : Admissible cfg s r :=
    ⟨hr, fun _ hp => by simp [hpol] at hp⟩
  obtain ⟨replies, s, hrun, hmain, -⟩ := requests_history cfg heap hmax rs
    (Mealy.meets_of_forall _ _ _ _ fun s r hr => hadm s r (hrs r hr)) (fun _ _ => True) trivial
    (fun _ _ _ _ _ _ _ _ _ => trivial)
  obtain ⟨accesses, t, hobs, hout, -⟩ := Mealy.refines
    (fun c (r : Request) => Clock.use cfg.MAX_PFN c r.page) (· = ·) (fun _ r => r.InRange cfg)
    (fun s c => Regular cfg s ∧ Clocked cfg s c)
    (fun s c r hs hr => by
      obtain ⟨t, hx, ht⟩ := hs.2.of_request heap hmax hpol hs.1 (hadm s r hr)
      obtain ⟨reply, t', hserve, hserved⟩ := served_exists cfg heap s r hmax hs.1 (hadm s r hr)
      have hsame := observe_served (s := s) heap hr
      rw [hserve, hx, Option.map_some, Option.map_some, Option.some_inj] at hsame
      obtain rfl : t' = t := hsame
      exact ⟨_, t', hx, rfl, hs.1.of_served (hadm s r hr) hserved, ht⟩)
    ⟨regular_init cfg heap hmax, clocked_init cfg heap hmax⟩
    (Mealy.meets_of_forall (observe cfg heap) _ (init cfg heap) rs fun _ r hr => hrs r hr)
  have hsame := Mealy.run_states (observe cfg heap)
    (fun _ r => r.InRange cfg) (fun _ _ hr => observe_served heap hr)
    (Mealy.meets_of_forall _ _ (init cfg heap) rs fun _ r hr => hrs r hr)
  rw [hrun, hobs, Option.map_some, Option.map_some, Option.some_inj] at hsame
  obtain rfl : s = t := hsame
  rw [List.forall₂_eq_eq_eq] at hout
  exact ⟨replies, accesses, s, hmain, hobs, hout⟩

/-- The Belady trace with four frames: the hand passes the frames of the two hits. -/
theorem clock_is_circular_belady :
    ∃ replies accesses s,
      mainLoop (beladyConfig 4 .CLOCK) staleHeap (init (beladyConfig 4 .CLOCK) staleHeap)
        (beladyTrace.map .request) = some (replies, s) ∧
      Mealy.run (observe (beladyConfig 4 .CLOCK) staleHeap) (init (beladyConfig 4 .CLOCK) staleHeap)
        beladyTrace = some (accesses, s) ∧
      accesses.map (·.frame) = [0, 1, 2, 3, 0, 1, 2, 0, 1, 3, 2, 3] := by
  obtain ⟨replies, accesses, s, hmain, hobs, hout⟩ := clock_is_circular
    (beladyConfig 4 .CLOCK) staleHeap rfl (by decide) beladyTrace (by decide)
  refine ⟨replies, accesses, s, hmain, hobs, ?_⟩
  rw [hout]
  decide +kernel

end OperatingSystems.VM
