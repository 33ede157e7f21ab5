import OperatingSystems.VMOrder

/-! LRU and FIFO as queues, compared with any replacement of the same pages. -/
namespace OperatingSystems.VM

open Recency

variable {cfg : Config} {s t : Machine} {r : Request} {reply : Reply}
  {past : List (Request × Reply)}

/-- The requests and the misses so far are those of a queue that holds `L` now. -/
def QueueRun (cfg : Config) (past : List (Request × Reply)) (L : List IPTE) : Prop :=
  Paging.Queue cfg.MAX_PFN.toNat [] (asked past) (misses (answered past)) L

/-- The queue takes the next request as the simulator does. -/
theorem QueueRun.concat {L M : List IPTE} (hq : QueueRun cfg past L) (hr : r.InRange cfg)
    (hmem : r.page ∈ L ↔ r.page ∈ store cfg s) (ht : Served cfg s r reply t)
    (hturn : Paging.Turn cfg.MAX_PFN.toNat L r.page M (if r.page ∈ L then 0 else 1)) :
    QueueRun cfg (past ++ [(r, reply)]) M := by
  rw [QueueRun, asked_concat, answered_concat, ht.misses hr]
  simp only [← hmem]
  exact Paging.Queue.concat hq hturn

/-! ### LRU -/

/-- The recent end of the order is a queue that moves what is asked for to its end. -/
theorem lruStep_turn (k : ℕ) (L : List IPTE) (a : IPTE) (hlen : L.length ≤ k) :
    Paging.Turn k L a (lruStep k L a) (if a ∈ L then 0 else 1) := by
  unfold lruStep
  split_ifs with hmem hlt
  · exact .move hmem
  · exact .load hmem hlt
  · exact .evict hmem (Nat.le_antisymm hlen (Nat.le_of_not_lt hlt))

/-- The frames hold the pages of a queue. -/
def LruQueue (cfg : Config) (past : List (Request × Reply)) (s : Machine) : Prop :=
  ∃ order, order.Nodup ∧ Ordered cfg s order ∧ QueueRun cfg past (order.rtake cfg.MAX_PFN.toNat)

theorem lruQueue_init (cfg : Config) (heap : Heap) : LruQueue cfg [] (init cfg heap) := by
  refine ⟨[], List.nodup_nil, by simp [Ordered, init], ?_⟩
  rw [List.rtake_nil]
  exact .nil []

theorem LruQueue.of_served (h : LruQueue cfg past s) (hmax : 1 ≤ cfg.MAX_PFN)
    (hpol : cfg.replacementPolicy = .LRU) (hs : Regular cfg s) (hr : r.InRange cfg)
    (ht : Served cfg s r reply t) : LruQueue cfg (past ++ [(r, reply)]) t := by
  obtain ⟨order, hnd, hord, hq⟩ := h
  refine ⟨touch order r.page, nodup_touch order r.page hnd,
    hord.of_served hmax hpol hnd hs hr ht, hq.concat hr ?_ ht ?_⟩
  · rw [mem_store, hord.mem_iff hpol hs]
  · have hlen : (order.rtake cfg.MAX_PFN.toNat).length ≤ cfg.MAX_PFN.toNat := by
      rw [length_rtake]
      exact Nat.min_le_left _ _
    have hturn := lruStep_turn cfg.MAX_PFN.toNat _ r.page hlen
    rwa [lruStep_rtake _ _ _ (by omega) hnd] at hturn

/-! ### FIFO -/

/-- So is the list in the order of the loads, where a page that is there stays in its place. -/
theorem fifoStep_turn (k : ℕ) (L : List IPTE) (a : IPTE) (hlen : L.length ≤ k) :
    Paging.Turn k L a (fifoStep k L a) (if a ∈ L then 0 else 1) := by
  unfold fifoStep
  split_ifs with hmem hlt
  · exact .stay hmem
  · exact .load hmem hlt
  · exact .evict hmem (Nat.le_antisymm hlen (Nat.le_of_not_lt hlt))

def FifoQueue (cfg : Config) (past : List (Request × Reply)) (s : Machine) : Prop :=
  ∃ L, InTurn cfg s L ∧ QueueRun cfg past L

theorem FifoQueue.of_served (h : FifoQueue cfg past s) (hpol : cfg.replacementPolicy = .FIFO)
    (hs : Regular cfg s) (hr : Admissible cfg s r) (ht : Served cfg s r reply t) :
    FifoQueue cfg (past ++ [(r, reply)]) t := by
  obtain ⟨L, hL, hq⟩ := h
  have hlen := hL.length_eq
  have hframes := hs.inverse.frames
  refine ⟨_, hL.of_served hpol hs hr ht, hq.concat hr.1 ?_ ht (fifoStep_turn _ L r.page (by omega))⟩
  rw [mem_store, hL.mem_iff hs.inverse hr.1.page]
  exact (and_iff_right hr.1.page).symm

/-! ### Both -/

/-- Under LRU and FIFO a run is that of a queue of `MAX_PFN` places. -/
theorem requests_queue (cfg : Config) (heap : Heap)
    (hpol : cfg.replacementPolicy = .LRU ∨ cfg.replacementPolicy = .FIFO) (hmax : 1 ≤ cfg.MAX_PFN)
    (rs : List Request)
    (hok : Mealy.Meets (serveRequest cfg heap) (Admissible cfg) (init cfg heap) rs) :
    ∃ replies s, mainLoop cfg heap (init cfg heap) (rs.map .request) = some (replies, s) ∧
      ∃ L, Paging.Queue cfg.MAX_PFN.toNat [] (rs.map Request.page) (misses replies) L := by
  rcases hpol with hpol | hpol
  · obtain ⟨replies, s, -, hmain, hlen, -, order, -, -, hq⟩ := requests_history cfg heap hmax rs hok
      (LruQueue cfg) (lruQueue_init cfg heap)
      (fun past s r reply t hs h hr ht => h.of_served hmax hpol hs hr.1 ht)
    rw [QueueRun, asked_zip hlen, answered_zip hlen] at hq
    exact ⟨replies, s, hmain, _, hq⟩
  · obtain ⟨replies, s, -, hmain, hlen, -, L, -, hq⟩ := requests_history cfg heap hmax rs hok
      (FifoQueue cfg) ⟨[], inTurn_init cfg heap, .nil []⟩
      (fun past s r reply t hs h hr ht => h.of_served hpol hs hr ht)
    rw [QueueRun, asked_zip hlen, answered_zip hlen] at hq
    exact ⟨replies, s, hmain, L, hq⟩

/-- LRU and FIFO compete with every way to serve the same requests, even one that knows them all
in advance: with `k` frames their misses are at most `k / (k - h + 1)` times its faults with `h`
places, but for the constant `k`. The bound holds for `missCount` too, wrapped or not. -/
theorem queue_policies_competitive (cfg : Config) (heap : Heap)
    (hpol : cfg.replacementPolicy = .LRU ∨ cfg.replacementPolicy = .FIFO) (hmax : 1 ≤ cfg.MAX_PFN)
    (rs : List Request) (hrs : ∀ r ∈ rs, r.InRange cfg)
    (hfifo : cfg.replacementPolicy = .FIFO → evictions cfg heap (init cfg heap) rs < 2^31)
    (h n : ℕ) (E : Finset IPTE) (hh : h ≤ cfg.MAX_PFN.toNat)
    (hserves : Paging.Serves h ∅ (rs.map Request.page) n E) :
    ∃ replies s, mainLoop cfg heap (init cfg heap) (rs.map .request) = some (replies, s) ∧
      (cfg.MAX_PFN.toNat - h + 1) * misses replies ≤
        cfg.MAX_PFN.toNat * n + cfg.MAX_PFN.toNat * (cfg.MAX_PFN.toNat - h + 1) ∧
      (cfg.MAX_PFN - h + 1) * s.stats.missCount.toInt ≤
        cfg.MAX_PFN * n + cfg.MAX_PFN * (cfg.MAX_PFN - h + 1) := by
  have hok := requests_admissible cfg heap hmax rs hrs hfifo
  obtain ⟨replies, s, hmain, L, hq⟩ := requests_queue cfg heap hpol hmax rs hok
  obtain ⟨_, _, hmain', -, -, hb, -⟩ := requests_balanced cfg heap hmax rs hok
  cases Option.some_inj.mp (hmain.symm.trans hmain')
  have hle := hq.competitive hh List.nodup_nil hserves
  refine ⟨replies, s, hmain, hle, ?_⟩
  have hk : (cfg.MAX_PFN.toNat : ℤ) = cfg.MAX_PFN := Int.toNat_of_nonneg (by omega)
  have hcast : ((cfg.MAX_PFN.toNat - h : ℕ) : ℤ) = cfg.MAX_PFN - h := by omega
  have hint := Int.ofNat_le.mpr hle
  push_cast at hint
  rw [hcast, hk] at hint
  rw [hb.missCount]
  exact (Int.mul_le_mul_of_nonneg_left (toInt_count_le _) (by omega)).trans hint

/-- With three places the Belady trace can be served with 7 faults. -/
theorem beladyTrace_served : Paging.Serves 3 ∅ (beladyTrace.map Request.page) 7
    {⟨0, 3⟩, ⟨0, 4⟩, ⟨0, 5⟩} := by
  have hit {C E : Finset IPTE} {a : IPTE} {as : List IPTE} {n : ℕ} (D : Finset IPTE)
      (hD : a ∈ D ∧ D ⊆ insert a C ∧ D.card ≤ 3 ∧ a ∈ C) (hrest : Paging.Serves 3 D as n E) :
      Paging.Serves 3 C (a :: as) n E := by
    have h := Paging.Serves.cons hD.1 hD.2.1 hD.2.2.1 hrest
    rwa [if_pos hD.2.2.2, Nat.zero_add] at h
  have fault {C E : Finset IPTE} {a : IPTE} {as : List IPTE} {n : ℕ} (D : Finset IPTE)
      (hD : a ∈ D ∧ D ⊆ insert a C ∧ D.card ≤ 3 ∧ a ∉ C) (hrest : Paging.Serves 3 D as n E) :
      Paging.Serves 3 C (a :: as) (n+1) E := by
    have h := Paging.Serves.cons hD.1 hD.2.1 hD.2.2.1 hrest
    rwa [if_neg hD.2.2.2, Nat.add_comm] at h
  apply fault {⟨0, 1⟩} (by decide)
  apply fault {⟨0, 1⟩, ⟨0, 2⟩} (by decide)
  apply fault {⟨0, 1⟩, ⟨0, 2⟩, ⟨0, 3⟩} (by decide)
  apply fault {⟨0, 1⟩, ⟨0, 2⟩, ⟨0, 4⟩} (by decide)
  apply hit {⟨0, 1⟩, ⟨0, 2⟩, ⟨0, 4⟩} (by decide)
  apply hit {⟨0, 1⟩, ⟨0, 2⟩, ⟨0, 4⟩} (by decide)
  apply fault {⟨0, 1⟩, ⟨0, 2⟩, ⟨0, 5⟩} (by decide)
  apply hit {⟨0, 1⟩, ⟨0, 2⟩, ⟨0, 5⟩} (by decide)
  apply hit {⟨0, 1⟩, ⟨0, 2⟩, ⟨0, 5⟩} (by decide)
  apply fault {⟨0, 3⟩, ⟨0, 2⟩, ⟨0, 5⟩} (by decide)
  apply fault {⟨0, 3⟩, ⟨0, 4⟩, ⟨0, 5⟩} (by decide)
  apply hit {⟨0, 3⟩, ⟨0, 4⟩, ⟨0, 5⟩} (by decide)
  exact Paging.Serves.nil _

theorem queue_policies_competitive_belady :
    ∃ replies s, mainLoop (beladyConfig 3 .FIFO) staleHeap (init (beladyConfig 3 .FIFO) staleHeap)
        (beladyTrace.map .request) = some (replies, s) ∧
      (3 - 3 + 1) * misses replies ≤ 3 * 7 + 3 * (3 - 3 + 1) := by
  obtain ⟨replies, s, hmain, hle, -⟩ := queue_policies_competitive (beladyConfig 3 .FIFO) staleHeap
    (Or.inr rfl) (by decide) beladyTrace (by decide) (fun _ => by decide +kernel) 3 7 _ (by decide)
    beladyTrace_served
  exact ⟨replies, s, hmain, hle⟩

/-- No policy of the simulator is far better with fewer frames than LRU and FIFO are: what FIFO may
lose where frames are added is bounded. Over fewer than 2^31 requests `missCount` shows it. -/
theorem queue_policies_near_any (cfg small : Config) (heap heap' : Heap)
    (hpol : cfg.replacementPolicy = .LRU ∨ cfg.replacementPolicy = .FIFO)
    (hmax : 1 ≤ small.MAX_PFN) (hle : small.MAX_PFN ≤ cfg.MAX_PFN) (rs : List Request)
    (hrs : ∀ r ∈ rs, r.InRange cfg ∧ r.InRange small) (hfew : rs.length < 2^31) :
    ∃ replies s replies' t,
      mainLoop cfg heap (init cfg heap) (rs.map .request) = some (replies, s) ∧
      mainLoop small heap' (init small heap') (rs.map .request) = some (replies', t) ∧
      (cfg.MAX_PFN - small.MAX_PFN + 1) * s.stats.missCount.toInt ≤
        cfg.MAX_PFN * t.stats.missCount.toInt +
          cfg.MAX_PFN * (cfg.MAX_PFN - small.MAX_PFN + 1) := by
  have hmax' : 1 ≤ cfg.MAX_PFN := hmax.trans hle
  have hok := requests_admissible cfg heap hmax' rs (fun r hr => (hrs r hr).1)
    fun _ => (evictions_le cfg heap _ rs).trans_lt hfew
  have hok' := requests_admissible small heap' hmax rs (fun r hr => (hrs r hr).2)
    fun _ => (evictions_le small heap' _ rs).trans_lt hfew
  obtain ⟨replies', t, hmain', hlen', -, hb', hserves⟩ :=
    requests_balanced small heap' hmax rs hok'
  obtain ⟨replies, s, hmain, hlen, -, hb, -⟩ := requests_balanced cfg heap hmax' rs hok
  obtain ⟨_, _, hsame, L, hq⟩ := requests_queue cfg heap hpol hmax' rs hok
  cases Option.some_inj.mp (hmain.symm.trans hsame)
  have hcompetes := hq.competitive (Int.toNat_le_toNat hle) List.nodup_nil hserves
  refine ⟨replies, s, replies', t, hmain, hmain', ?_⟩
  have hsum := hits_add_misses replies
  have hsum' := hits_add_misses replies'
  rw [(hb.toInt hmax' (by omega)).1, (hb'.toInt hmax (by omega)).1]
  have hk : (cfg.MAX_PFN.toNat : ℤ) = cfg.MAX_PFN := Int.toNat_of_nonneg (by omega)
  have hcast : ((cfg.MAX_PFN.toNat - small.MAX_PFN.toNat : ℕ) : ℤ) =
      cfg.MAX_PFN - small.MAX_PFN := by omega
  have hint := Int.ofNat_le.mpr hcompetes
  push_cast at hint
  rwa [hcast, hk] at hint

/-- FIFO with four frames against FIFO with three, on the trace where it does worse. -/
theorem queue_policies_near_any_belady :
    ∃ replies s replies' t,
      mainLoop (beladyConfig 4 .FIFO) staleHeap (init (beladyConfig 4 .FIFO) staleHeap)
        (beladyTrace.map .request) = some (replies, s) ∧
      mainLoop (beladyConfig 3 .FIFO) staleHeap (init (beladyConfig 3 .FIFO) staleHeap)
        (beladyTrace.map .request) = some (replies', t) ∧
      (4 - 3 + 1) * s.stats.missCount.toInt ≤ 4 * t.stats.missCount.toInt + 4 * (4 - 3 + 1) :=
  queue_policies_near_any (beladyConfig 4 .FIFO) (beladyConfig 3 .FIFO) staleHeap staleHeap
    (Or.inr rfl) (by decide) (by decide) beladyTrace (by decide) (by decide)

end OperatingSystems.VM
