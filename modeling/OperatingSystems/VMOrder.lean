import OperatingSystems.VMAccess
import OperatingSystems.VMInclusion

/-! The pages that LRU and FIFO evict: the least recently used, and the first loaded. -/
namespace OperatingSystems.VM

open Recency Frames

variable {cfg : Config} {s t u : Machine} {r : Request}

/-- The pages loaded so far. -/
def loads (past : List (Request × Reply)) : List IPTE :=
  (past.filter fun a => !a.2.isHit).map (·.1.page)

theorem loads_concat (past : List (Request × Reply)) (r : Request) (reply : Reply) :
    loads (past ++ [(r, reply)]) =
      if reply.isHit then loads past else loads past ++ [r.page] := by
  cases h : reply.isHit <;> simp [loads, h]

/-- Where the frames of a list hold the pages `L`, a resident page is one of these. -/
theorem mem_of_frames {frames : List ℤ} {L : List IPTE} (hs : Inverse cfg s)
    (hall : ∀ f, 0 ≤ f → f < s.nextFreeFrame → f ∈ frames)
    (hL : frames.map s.invertedPageTable = L.map some) {p : IPTE} (hp : cfg.InRange p)
    (hv : (s.pte p).valid = true) : p ∈ L := by
  obtain ⟨h0, h1, h2⟩ := hs.valid p hp hv
  have hmem : some p ∈ L.map some := by
    rw [← hL, ← h2]
    exact List.mem_map_of_mem (hall _ h0 h1)
  obtain ⟨q, hq, he⟩ := List.mem_map.mp hmem
  rwa [← Option.some_inj.mp he]

/-- If the frame taken away heads a list of all frames in use, ordered by the latest use of their
pages, then its page is the one used least recently. -/
theorem oldest_evicted {past : List IPTE} {d : Bool} {f : ℤ} {rest : List ℤ} {L : List IPTE}
    (hs : Inverse cfg s) (hv : (s.pte r.page).valid = false)
    (hfull : cfg.MAX_PFN ≤ s.nextFreeFrame) (hu : Fault cfg s r.page d f u)
    (hall : ∀ g, 0 ≤ g → g < s.nextFreeFrame → g ∈ f :: rest)
    (hL : (f :: rest).map s.invertedPageTable = L.map some) (ho : Oldest past L) :
    ∃ v, s.invertedPageTable f = some v ∧ cfg.InRange v ∧ (s.pte v).valid = true ∧
      (u.pte v).valid = false ∧ ∀ q, cfg.InRange q → (s.pte q).valid = true → q ≠ v →
        lastUse past v < lastUse past q := by
  obtain ⟨v, hstored, hvr, hvalid, -, hgone⟩ := hu.evicted hs hv hfull
  refine ⟨v, hstored, hvr, hvalid, hgone, fun q hq hqv hne => ?_⟩
  have hqL := mem_of_frames hs hall hL hq hqv
  cases L with
  | nil => exact absurd hqL List.not_mem_nil
  | cons w L =>
    rw [List.map_cons, List.map_cons] at hL
    have hw := (List.cons.inj hL).1
    rw [hstored, Option.some_inj] at hw
    subst hw
    exact ho.head hqL hne

/-! ### LRU -/

/-- The list of frames is the end of a list of all pages asked for, ordered by the latest use. -/
def Recent (cfg : Config) (past : List (Request × Reply)) (s : Machine) : Prop :=
  ∃ order, Oldest (asked past) order ∧ Ordered cfg s order

theorem Recent.of_served {past : List (Request × Reply)} {reply : Reply}
    (h : Recent cfg past s) (hmax : 1 ≤ cfg.MAX_PFN) (hpol : cfg.replacementPolicy = .LRU)
    (hs : Regular cfg s) (hr : r.InRange cfg) (ht : Served cfg s r reply t) :
    Recent cfg (past ++ [(r, reply)]) t := by
  obtain ⟨order, ho, hord⟩ := h
  refine ⟨touch order r.page, ?_, hord.of_served hmax hpol ho.nodup hs hr ht⟩
  rw [asked_concat]
  exact ho.touch r.page

/-- Read through the inverted table the list is the recent end of the order of last requests. -/
theorem Ordered.read (heap : Heap) {order : List IPTE} (hord : Ordered cfg s order)
    (hs : Regular cfg s) (hpol : cfg.replacementPolicy = .LRU) :
    s.head.map (s.readIPTE heap) = order.rtake cfg.MAX_PFN.toNat := by
  have hstored : ∀ f ∈ s.head, some (s.readIPTE heap f) = s.invertedPageTable f := by
    intro f hf
    obtain ⟨h0, h1⟩ := ((hs.queued.lru hpol).2 f).mp hf
    obtain ⟨p, -, hstored, -⟩ := hs.inverse.stored f h0 h1
    rw [readIPTE_of_stored s heap f p hstored, hstored]
  apply List.map_injective_iff.mpr (Option.some_injective IPTE)
  calc (s.head.map (s.readIPTE heap)).map some = s.head.map s.invertedPageTable := by
        rw [List.map_map]
        exact List.map_congr_left hstored
    _ = (order.rtake cfg.MAX_PFN.toNat).map some := hord

/-- Under LRU the list holds each frame in use once, ordered by the last request to its page, the
oldest first; and a fault with no free frame evicts the resident page whose last request is the
earliest. -/
theorem lru_evicts_oldest (cfg : Config) (heap : Heap) (hpol : cfg.replacementPolicy = .LRU)
    (hmax : 1 ≤ cfg.MAX_PFN) (rs : List Request) (hrs : ∀ r ∈ rs, r.InRange cfg) :
    ∃ replies s, mainLoop cfg heap (init cfg heap) (rs.map .request) = some (replies, s) ∧
      s.head.Nodup ∧ (∀ f, f ∈ s.head ↔ 0 ≤ f ∧ f < s.nextFreeFrame) ∧
      s.head.Pairwise (fun f g => lastUse (rs.map Request.page) (s.readIPTE heap f) <
        lastUse (rs.map Request.page) (s.readIPTE heap g)) ∧
      ∀ r, r.InRange cfg → evicts cfg s r → ∃ a t v, observe cfg heap s r = some (a, t) ∧
        a.victim = some v ∧ cfg.InRange v ∧ (s.readPTE v.pid v.VPN).valid = true ∧
        (t.readPTE v.pid v.VPN).valid = false ∧
        ∀ q, cfg.InRange q → (s.readPTE q.pid q.VPN).valid = true → q ≠ v →
          lastUse (rs.map Request.page) v < lastUse (rs.map Request.page) q := by
  have hadm (s : Machine) (r : Request) (hr : r.InRange cfg) : Admissible cfg s r :=
    ⟨hr, fun _ hp => by simp [hpol] at hp⟩
  obtain ⟨replies, s, -, hmain, hlen, hs, order, ho, hord⟩ := requests_history cfg heap hmax rs
    (Mealy.meets_of_forall _ _ _ _ fun s r hr => hadm s r (hrs r hr)) (Recent cfg)
    ⟨[], List.Pairwise.nil, by simp [Ordered, init]⟩
    (fun past s r reply t hs h hr ht => h.of_served hmax hpol hs hr.1 ht)
  rw [asked_zip hlen] at ho
  obtain ⟨hnd, hmem⟩ := hs.queued.lru hpol
  have hL : s.head.map s.invertedPageTable = (order.rtake cfg.MAX_PFN.toNat).map some := hord
  have hrecent := ho.sublist (List.drop_sublist (order.length - cfg.MAX_PFN.toNat) order)
  refine ⟨replies, s, hmain, hnd, hmem, ?_, ?_⟩
  · have hpages : Oldest (rs.map Request.page) (s.head.map (s.readIPTE heap)) := by
      rw [hord.read heap hs hpol]
      exact hrecent
    rwa [Oldest, List.pairwise_map] at hpages
  · intro r hr he
    rcases observe_cases heap hmax hs (hadm s r hr) with ⟨hv, -⟩ | ⟨hv, f, u, hu, hx⟩
    · exact Bool.noConfusion (hv.symm.trans he.1)
    · -- The victim is the head of the list, so its page comes first in that order.
      have hhead : ∃ rest, s.head = f :: rest := by
        rcases hu.frame with ⟨hf, hlt, -⟩ | ⟨w, hvic, -⟩
        · have := he.2
          omega
        · obtain ⟨rest, hcons, -⟩ := hvic.lru_eq hpol
          exact ⟨rest, hcons⟩
      obtain ⟨rest, hhead⟩ := hhead
      obtain ⟨v, hstored, hvr, hvalid, hgone, hold⟩ := oldest_evicted hs.inverse hv he.2 hu
        (fun g h0 h1 => hhead ▸ (hmem g).mpr ⟨h0, h1⟩) (hhead ▸ hL) hrecent
      rw [if_pos he.2] at hx
      refine ⟨_, _, v, hx, hstored, hvr, hvalid, ?_, hold⟩
      rw [storeByte_rest]
      exact hgone

theorem lru_evicts_oldest_belady :
    ∃ replies s, mainLoop (beladyConfig 3 .LRU) staleHeap (init (beladyConfig 3 .LRU) staleHeap)
        (beladyTrace.map .request) = some (replies, s) ∧
      s.head.Nodup ∧ ∀ f, f ∈ s.head ↔ 0 ≤ f ∧ f < s.nextFreeFrame := by
  obtain ⟨replies, s, hmain, hnd, hmem, -⟩ := lru_evicts_oldest (beladyConfig 3 .LRU) staleHeap rfl
    (by decide) beladyTrace (by decide)
  exact ⟨replies, s, hmain, hnd, hmem⟩

/-! ### FIFO -/

/-- The frame that the next eviction takes: the counter, plus one, on the ring of frames. -/
def Machine.hand (cfg : Config) (s : Machine) : ℤ := (s.i.toInt + 1) % cfg.MAX_PFN

/-- Frames that record other pages do not hold the page that comes in. -/
theorem not_mem_loaded {frames : List ℤ} {L : List IPTE} (hs : Inverse cfg s)
    (hall : ∀ f ∈ frames, 0 ≤ f ∧ f < s.nextFreeFrame)
    (hL : frames.map s.invertedPageTable = L.map some) {p : IPTE}
    (hv : (s.pte p).valid = false) : p ∉ L := by
  intro hp
  have hmem : some p ∈ frames.map s.invertedPageTable := hL ▸ List.mem_map_of_mem hp
  obtain ⟨f, hf, he⟩ := List.mem_map.mp hmem
  obtain ⟨h0, h1⟩ := hall f hf
  obtain ⟨q, -, hq, hqv, -⟩ := hs.stored f h0 h1
  rw [he, Option.some_inj] at hq
  rw [← hq, hv] at hqv
  exact Bool.noConfusion hqv

/-- The counter is on the ring: what `fifo` returns is the frame at the hand. -/
theorem fifo_hand (hs : Regular cfg s) (hpol : cfg.replacementPolicy = .FIFO)
    (hsafe : FifoSafe cfg s) : (s.i + 1).toInt = s.i.toInt + 1 ∧
      (s.i + 1).toInt.tmod cfg.MAX_PFN = s.hand cfg := by
  have hlo := hs.queued.fifo hpol
  have hi := hs.queued.toInt_succ hpol hsafe
  refine ⟨hi, ?_⟩
  rw [hi, Int.tmod_eq_emod_of_nonneg (by omega)]
  rfl

/-- The frames from the hand on hold the pages of `L`. -/
structure InTurn (cfg : Config) (s : Machine) (L : List IPTE) : Prop where
  pages : (ring s.nextFreeFrame (s.hand cfg)).map s.invertedPageTable = L.map some
  first : s.nextFreeFrame < cfg.MAX_PFN → s.i.toInt = -1

theorem InTurn.length_eq {L : List IPTE} (h : InTurn cfg s L) :
    L.length = s.nextFreeFrame.toNat := by
  have hlen := congrArg List.length h.pages
  rw [List.length_map, List.length_map, ring, List.length_map, List.length_range] at hlen
  exact hlen.symm

theorem InTurn.mem_iff {L : List IPTE} (h : InTurn cfg s L) (hs : Inverse cfg s) {p : IPTE}
    (hp : cfg.InRange p) : p ∈ L ↔ (s.pte p).valid = true := by
  constructor
  · intro hmem
    by_contra hv
    rw [Bool.not_eq_true] at hv
    exact not_mem_loaded hs (fun f hf => mem_ring.mp hf) h.pages hv hmem
  · exact mem_of_frames hs (fun f h0 h1 => mem_ring.mpr ⟨h0, h1⟩) h.pages hp

/-- A load puts the page at the end of the frames that come before its own. -/
theorem pages_loaded {frames : List ℤ} {L : List IPTE} {d : Bool} {f : ℤ}
    (hu : Fault cfg s r.page d f u) (hf : f ∉ frames)
    (hL : frames.map s.invertedPageTable = L.map some) :
    (frames ++ [f]).map u.invertedPageTable = (L ++ [r.page]).map some := by
  rw [List.map_append, List.map_append, List.map_singleton, List.map_singleton, ← hL,
    hu.inverted f, if_pos rfl]
  congr 1
  apply List.map_congr_left
  intro g hg
  rw [hu.inverted, if_neg (ne_of_mem_of_not_mem hg hf)]

theorem InTurn.of_free {L : List IPTE} (h : InTurn cfg s L) (hs : Regular cfg s) {d : Bool} {f : ℤ}
    (hu : Fault cfg s r.page d f u) (hf : f = s.nextFreeFrame) (hlt : f < cfg.MAX_PFN)
    (hn : u.nextFreeFrame = f + 1) (hi : u.i = s.i) : InTurn cfg u (L ++ [r.page]) := by
  have hframes := hs.inverse.frames
  have hi0 := h.first (by omega)
  have hpages := h.pages
  have hhand : s.hand cfg = 0 := by
    rw [Machine.hand, hi0]
    exact Int.zero_emod _
  have hhand' : u.hand cfg = 0 := by rw [Machine.hand, hi, ← Machine.hand, hhand]
  rw [hhand, ← hf] at hpages
  have hnew : f ∉ ring f 0 := fun hmem => lt_irrefl f (mem_ring.mp hmem).2
  refine ⟨?_, fun _ => ?_⟩
  · rw [hhand', hn, ring_zero_succ (by omega)]
    exact pages_loaded hu hnew hpages
  · rw [hi]
    exact hi0

theorem InTurn.of_evict {L : List IPTE} (h : InTurn cfg s L) (hpol : cfg.replacementPolicy = .FIFO)
    (hs : Regular cfg s) (hr : Admissible cfg s r) (hv : (s.pte r.page).valid = false) {d : Bool}
    {f : ℤ} {w : Machine} (hu : Fault cfg s r.page d f u) (hvic : Victim cfg s f w) (h0 : 0 ≤ f)
    (h1 : f < s.nextFreeFrame) (hfull : s.nextFreeFrame = cfg.MAX_PFN)
    (hn : u.nextFreeFrame = s.nextFreeFrame) (hi : u.i = w.i) :
    InTurn cfg u (L.tail ++ [r.page]) := by
  have hpages := h.pages
  obtain ⟨hnext, hfifo⟩ := fifo_hand hs hpol (hr.2 ⟨hv, hfull.ge⟩)
  obtain ⟨hf, hw⟩ := hvic.fifo_eq hpol
  rw [hfifo] at hf
  have hui : u.i = s.i + 1 := by rw [hi, hw]
  -- The hand is on the frame of the victim, and goes on to the next.
  have hhand : u.hand cfg = (f + 1) % cfg.MAX_PFN := by
    rw [Machine.hand, hui, hnext, hf, Machine.hand, Int.emod_add_emod]
  obtain ⟨rest, hring, hturn⟩ := ring_turn h0 (hfull ▸ h1)
  have hnd := nodup_ring cfg.MAX_PFN f
  rw [hring, List.nodup_cons] at hnd
  rw [hfull, ← hf, hring, List.map_cons] at hpages
  have hrest : rest.map s.invertedPageTable = L.tail.map some := by
    rw [List.map_tail, ← hpages, List.tail_cons]
  refine ⟨?_, fun hlt => absurd hlt (by rw [hn, hfull]; exact lt_irrefl _)⟩
  rw [hhand, hn, hfull, hturn]
  exact pages_loaded hu hnd.1 hrest

/-- The store that follows an access does not move the queue. -/
theorem InTurn.of_same {L : List IPTE} (h : InTurn cfg s L)
    (hinverted : t.invertedPageTable = s.invertedPageTable)
    (hn : t.nextFreeFrame = s.nextFreeFrame) (hi : t.i = s.i) : InTurn cfg t L := by
  refine ⟨?_, fun hlt => ?_⟩
  · rw [Machine.hand, hi, hn, hinverted]
    exact h.pages
  · rw [hi]
    exact h.first (hn ▸ hlt)

/-- One request: the queue stands still on a hit, and a load takes its turn. -/
theorem InTurn.of_served {L : List IPTE} {reply : Reply} (h : InTurn cfg s L)
    (hpol : cfg.replacementPolicy = .FIFO) (hs : Regular cfg s) (hr : Admissible cfg s r)
    (ht : Served cfg s r reply t) : InTurn cfg t (fifoStep cfg.MAX_PFN.toNat L r.page) := by
  have hmem := h.mem_iff hs.inverse hr.1.page
  have hlen := h.length_eq
  have hframes := hs.inverse.frames
  unfold fifoStep
  cases ht with
  | hit u hv hu =>
    have hsame := h.of_same hu.inverted hu.nextFreeFrame hu.i
    rw [if_pos (hmem.mpr hv), storeByte_rest]
    exact hsame.of_same rfl rfl rfl
  | fault f u hv hu =>
    have hout : r.page ∉ L := fun hin => Bool.noConfusion (hv.symm.trans (hmem.mp hin))
    rw [if_neg hout, storeByte_rest]
    rcases hu.frame with ⟨hf, hlt, hn, -, hi, -⟩ | ⟨w, hvic, h0, h1, hfull, hn, -, hi, -⟩
    · rw [if_pos (by omega)]
      exact (h.of_free hs hu hf hlt hn hi).of_same rfl rfl rfl
    · rw [if_neg (by omega)]
      exact (h.of_evict hpol hs hr hv hu hvic h0 h1 hfull hn hi).of_same rfl rfl rfl

/-- The frames from the hand on hold pages ordered by the latest load. -/
def Loaded (cfg : Config) (past : List (Request × Reply)) (s : Machine) : Prop :=
  ∃ L, Oldest (loads past) L ∧ InTurn cfg s L

theorem inTurn_init (cfg : Config) (heap : Heap) : InTurn cfg (init cfg heap) [] :=
  ⟨rfl, fun _ => rfl⟩

theorem Loaded.of_served {past : List (Request × Reply)} {reply : Reply}
    (h : Loaded cfg past s) (hpol : cfg.replacementPolicy = .FIFO) (hs : Regular cfg s)
    (hr : Admissible cfg s r) (ht : Served cfg s r reply t) :
    Loaded cfg (past ++ [(r, reply)]) t := by
  obtain ⟨L, ho, hL⟩ := h
  refine ⟨_, ?_, hL.of_served hpol hs hr ht⟩
  have hhit : reply.isHit = true ↔ r.page ∈ L := by
    rw [ht.isHit, hL.mem_iff hs.inverse hr.1.page]
  rw [loads_concat]
  simp only [hhit]
  exact ho.fifoStep _ r.page

/-- Under FIFO a fault with no free frame evicts the resident page that was loaded the earliest,
whatever hits came in between. -/
theorem fifo_evicts_first_loaded (cfg : Config) (heap : Heap)
    (hpol : cfg.replacementPolicy = .FIFO) (hmax : 1 ≤ cfg.MAX_PFN) (rs : List Request)
    (r : Request) (hrs : ∀ q ∈ rs ++ [r], q.InRange cfg)
    (hfifo : evictions cfg heap (init cfg heap) (rs ++ [r]) < 2^31) :
    ∃ replies s, mainLoop cfg heap (init cfg heap) (rs.map .request) = some (replies, s) ∧
      (evicts cfg s r → ∃ a t v, observe cfg heap s r = some (a, t) ∧ a.victim = some v ∧
        cfg.InRange v ∧ (s.readPTE v.pid v.VPN).valid = true ∧
        (t.readPTE v.pid v.VPN).valid = false ∧
        ∀ q, cfg.InRange q → (s.readPTE q.pid q.VPN).valid = true → q ≠ v →
          lastUse (loads (rs.zip replies)) v < lastUse (loads (rs.zip replies)) q) := by
  obtain ⟨hbefore, hafter⟩ := (Mealy.meets_append_iff _ _ _ _ _).mp
    (requests_admissible cfg heap hmax (rs ++ [r]) hrs fun _ => hfifo)
  obtain ⟨replies, s, hrun, hmain, -, hs, hload⟩ := requests_history cfg heap hmax rs hbefore
    (Loaded cfg) ⟨[], List.Pairwise.nil, inTurn_init cfg heap⟩
    (fun past s r reply t hs h hr ht => h.of_served hpol hs hr ht)
  refine ⟨replies, s, hmain, fun he => ?_⟩
  have hr : Admissible cfg s r := (hafter replies s hrun).1
  obtain ⟨L, ho, hturn⟩ := hload
  have hL := hturn.pages
  -- The victim is the frame at the hand, where the ring of frames begins.
  rcases observe_cases heap hmax hs hr with ⟨hv, -⟩ | ⟨hv, f, u, hu, hx⟩
  · exact Bool.noConfusion (hv.symm.trans he.1)
  · obtain ⟨hnext, hhand⟩ := fifo_hand hs hpol (hr.2 he)
    obtain ⟨hf, h0, h1, hfull⟩ : f = s.hand cfg ∧ 0 ≤ f ∧ f < s.nextFreeFrame ∧
        s.nextFreeFrame = cfg.MAX_PFN := by
      rcases hu.frame with ⟨hf, hlt, -⟩ | ⟨w, hvic, h0, h1, hfull, -⟩
      · have := he.2
        omega
      · exact ⟨(hvic.fifo_eq hpol).1.trans hhand, h0, h1, hfull⟩
    obtain ⟨rest, hring, -⟩ := ring_turn h0 h1
    rw [← hf, hring] at hL
    obtain ⟨v, hstored, hvr, hvalid, hgone, hold⟩ := oldest_evicted hs.inverse hv he.2 hu
      (fun g hg0 hg1 => hring ▸ mem_ring.mpr ⟨hg0, hg1⟩) hL ho
    rw [if_pos he.2] at hx
    refine ⟨_, _, v, hx, hstored, hvr, hvalid, ?_, hold⟩
    rw [storeByte_rest]
    exact hgone

/-- The Belady trace with three frames, and the first request of it once more. -/
theorem fifo_evicts_first_loaded_belady :
    ∃ replies s, mainLoop (beladyConfig 3 .FIFO) staleHeap (init (beladyConfig 3 .FIFO) staleHeap)
        (beladyTrace.map .request) = some (replies, s) ∧
      (evicts (beladyConfig 3 .FIFO) s ⟨4, 0, 'W', 0x100, 'a'⟩ → ∃ a t v,
        observe (beladyConfig 3 .FIFO) staleHeap s ⟨4, 0, 'W', 0x100, 'a'⟩ = some (a, t) ∧
          a.victim = some v) := by
  obtain ⟨replies, s, hmain, hev⟩ := fifo_evicts_first_loaded (beladyConfig 3 .FIFO) staleHeap rfl
    (by decide) beladyTrace ⟨4, 0, 'W', 0x100, 'a'⟩ (by decide) (by decide +kernel)
  refine ⟨replies, s, hmain, fun he => ?_⟩
  obtain ⟨a, t, v, hx, hvic, -⟩ := hev he
  exact ⟨a, t, v, hx, hvic⟩

end OperatingSystems.VM
