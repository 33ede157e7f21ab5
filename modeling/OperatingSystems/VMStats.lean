import OperatingSystems.Paging
import OperatingSystems.VMInverse

/-! The pages in memory, and the counters that `pt_print_stats` reports: what they say about the
requests, the lines printed and the frames handed out, over whole runs. -/
namespace OperatingSystems.VM

variable {cfg : Config} {s t : Machine} {r : Request} {reply : Reply} {replies : List Reply}
  {past : List (Request × Reply)}

/-- The pages asked for so far. -/
def asked (past : List (Request × Reply)) : List IPTE := past.map (·.1.page)

/-- The replies so far. -/
def answered (past : List (Request × Reply)) : List Reply := past.map Prod.snd

theorem asked_concat (past : List (Request × Reply)) (r : Request) (reply : Reply) :
    asked (past ++ [(r, reply)]) = asked past ++ [r.page] := by
  rw [asked, List.map_append]
  rfl

theorem answered_concat (past : List (Request × Reply)) (r : Request) (reply : Reply) :
    answered (past ++ [(r, reply)]) = answered past ++ [reply] := by
  rw [answered, List.map_append]
  rfl

theorem asked_zip {rs : List Request} {replies : List Reply} (hlen : replies.length = rs.length) :
    asked (rs.zip replies) = rs.map Request.page := by
  calc asked (rs.zip replies) = ((rs.zip replies).map Prod.fst).map Request.page := by
        rw [List.map_map]
        rfl
    _ = rs.map Request.page := by rw [List.map_fst_zip hlen.ge]

theorem answered_zip {rs : List Request} {replies : List Reply}
    (hlen : replies.length = rs.length) : answered (rs.zip replies) = replies :=
  List.map_snd_zip hlen.le

/-! ### The pages in memory -/

/-- The pages in memory. -/
def store (cfg : Config) (s : Machine) : Finset IPTE :=
  (resident cfg s).image fun p => ⟨p.1, p.2⟩

theorem mem_store {p : IPTE} : p ∈ store cfg s ↔ cfg.InRange p ∧ (s.pte p).valid = true := by
  rw [← mem_resident, store, Finset.mem_image]
  constructor
  · rintro ⟨q, hq, rfl⟩
    exact hq
  · intro hp
    exact ⟨_, hp, rfl⟩

theorem card_store_le (hs : Inverse cfg s) : (store cfg s).card ≤ cfg.MAX_PFN.toNat := by
  have himage : (store cfg s).card ≤ (resident cfg s).card := Finset.card_image_le
  have hcard := card_resident cfg s hs
  have hframes := hs.frames
  omega

theorem Served.isHit (h : Served cfg s r reply t) : reply.isHit = (s.pte r.page).valid := by
  cases h with
  | hit u hv hu => exact hv.symm
  | fault f u hv hu => exact hv.symm

/-- A request is a hit or a miss. -/
theorem Served.misses (h : Served cfg s r reply t) (hr : r.InRange cfg) :
    misses (replies ++ [reply]) = misses replies + if r.page ∈ store cfg s then 0 else 1 := by
  have hmem : r.page ∈ store cfg s ↔ reply.isHit = true := by
    rw [mem_store, h.isHit]
    exact and_iff_right hr.page
  rw [VM.misses, List.countP_append, List.countP_singleton, ← VM.misses]
  by_cases hhit : reply.isHit = true
  · rw [if_pos (hmem.mpr hhit), hhit]
    rfl
  · rw [if_neg (mt hmem.mp hhit), Bool.eq_false_iff.mpr hhit]
    rfl

/-- Whatever the policy, a request brings in the page asked for and no other. -/
theorem Served.store_step (h : Served cfg s r reply t) (hs : Regular cfg s) (hr : Admissible cfg s r) :
    r.page ∈ store cfg t ∧ store cfg t ⊆ insert r.page (store cfg s) ∧
      (store cfg t).card ≤ cfg.MAX_PFN.toNat := by
  refine ⟨?_, ?_, card_store_le (hs.of_served hr h).inverse⟩
  · rw [mem_store]
    refine ⟨hr.1.page, ?_⟩
    cases h with
    | hit u hv hu =>
      rw [storeByte_pte, hu.pte]
      split_ifs
      · exact hv
      · exact hv
    | fault f u hv hu => rw [storeByte_pte, hu.pte, if_pos rfl]
  · intro p hp
    rw [mem_store] at hp
    rw [Finset.mem_insert, mem_store]
    by_cases hpr : p = r.page
    · exact Or.inl hpr
    · right
      refine ⟨hp.1, ?_⟩
      have hv := hp.2
      cases h with
      | hit u _ hu => rwa [storeByte_pte, hu.pte, if_neg fun he => hpr he.1] at hv
      | fault f u _ hu =>
        rw [storeByte_pte, hu.pte, if_neg hpr] at hv
        by_cases hstored : s.invertedPageTable f = some p
        · rw [if_pos hstored] at hv
          exact Bool.noConfusion hv
        · rwa [if_neg hstored] at hv

theorem store_init (cfg : Config) (heap : Heap) : store cfg (init cfg heap) = ∅ := by
  apply Finset.eq_empty_of_forall_notMem
  intro p hp
  obtain ⟨hin, hv⟩ := mem_store.mp hp
  simp [Machine.pte, Machine.readPTE, init, hin] at hv

/-! ### The counters -/

/-- A counter shows a number as long as an `int` can. -/
theorem toInt_count {n : ℕ} (h : n < 2^31) : (BitVec.ofNat 32 n).toInt = n := by
  rw [BitVec.toInt_ofNat', Int.bmod_eq_of_le (by omega) (by omega)]

/-- Once it wraps, a counter shows less. -/
theorem toInt_count_lt {n : ℕ} (h : 2^31 ≤ n) : (BitVec.ofNat 32 n).toInt < n := by
  rw [BitVec.toInt_eq_toNat_cond, BitVec.toNat_ofNat]
  split_ifs <;> omega

theorem toInt_count_le (n : ℕ) : (BitVec.ofNat 32 n).toInt ≤ n := by
  rcases lt_or_ge n (2^31) with h | h
  · exact (toInt_count h).le
  · exact (toInt_count_lt h).le

/-- One more. -/
theorem count_succ (n : ℕ) : BitVec.ofNat 32 n + 1 = BitVec.ofNat 32 (n + 1) :=
  (BitVec.ofNat_add n 1).symm

/-- The counters against the replies so far and the state of the allocator. -/
structure Balanced (cfg : Config) (replies : List Reply) (s : Machine) : Prop where
  hitCount : s.stats.hitCount = BitVec.ofNat 32 (hits replies)
  missCount : s.stats.missCount = BitVec.ofNat 32 (misses replies)
  swapRead : s.stats.swapRead = BitVec.ofNat 32 (misses replies)
  swapWrite : s.stats.swapWrite = BitVec.ofNat 32 (misses replies - s.nextFreeFrame.toNat)
  frames : s.nextFreeFrame = min (misses replies : ℤ) cfg.MAX_PFN

theorem balanced_init (heap : Heap) (hmax : 1 ≤ cfg.MAX_PFN) : Balanced cfg [] (init cfg heap) := by
  refine ⟨rfl, rfl, rfl, rfl, ?_⟩
  change (0 : ℤ) = min ((0 : ℕ) : ℤ) cfg.MAX_PFN
  omega

/-- A hit moves one counter; a fault moves `missCount`, `swapRead`, and either the next free frame
or `swapWrite`. -/
theorem Balanced.of_served (h : Balanced cfg replies s) (ht : Served cfg s r reply t) :
    Balanced cfg (replies ++ [reply]) t := by
  have hhits := h.hitCount
  have hmisses := h.missCount
  have hread := h.swapRead
  have hwrite := h.swapWrite
  have hframes := h.frames
  cases ht with
  | hit u hv hu =>
    have hstats := hu.stats
    have hnext := hu.nextFreeFrame
    have hh (a b) : hits (replies ++ [.access true a b]) = hits replies + 1 := by
      simp [hits, Reply.isHit]
    have hm (a b) : misses (replies ++ [.access true a b]) = misses replies := by
      simp [misses, Reply.isHit]
    rw [storeByte_rest]
    constructor
    · rw [hh]
      simp only [hstats]
      rw [hhits, count_succ]
    · rw [hm]
      simpa only [hstats] using hmisses
    · rw [hm]
      simpa only [hstats] using hread
    · rw [hm]
      simpa only [hstats, hnext] using hwrite
    · rw [hm]
      simpa only [hnext] using hframes
  | fault f u hv hu =>
    have hh (a b) : hits (replies ++ [.access false a b]) = hits replies := by
      simp [hits, Reply.isHit]
    have hm (a b) : misses (replies ++ [.access false a b]) = misses replies + 1 := by
      simp [misses, Reply.isHit]
    rw [storeByte_rest]
    constructor
    · rw [hh]
      exact hu.hitCount.trans hhits
    · rw [hm, ← count_succ, ← hmisses]
      exact hu.missCount
    · rw [hm, ← count_succ, ← hread]
      exact hu.swapRead
    · rw [hm]
      dsimp only
      -- a free frame was handed out, or the victim's page went to the swap disk
      rcases hu.frame with ⟨hf, hlt, hnext, hsame, -⟩ | ⟨v, -, -, -, hfull, hnext, hone, -⟩
      · rw [hsame, hwrite, hnext]
        congr 1
        omega
      · rw [hone, hwrite, hnext, count_succ]
        congr 1
        omega
    · rw [hm]
      dsimp only
      rcases hu.frame with ⟨hf, hlt, hnext, -⟩ | ⟨v, -, -, -, hfull, hnext, -⟩
      · omega
      · omega

/-- As `int`s the counters are exact as long as there are fewer than 2^31 misses. -/
theorem Balanced.toInt (h : Balanced cfg replies s) (hmax : 1 ≤ cfg.MAX_PFN)
    (hfew : misses replies < 2^31) :
    s.stats.missCount.toInt = misses replies ∧
      s.stats.swapWrite.toInt = max 0 ((misses replies : ℤ) - cfg.MAX_PFN) := by
  have hframes := h.frames
  rw [h.missCount, h.swapWrite, toInt_count hfew, toInt_count (by omega)]
  exact ⟨rfl, by omega⟩

/-- Their sum is that of the hits and the misses until one of the two wraps. -/
theorem Balanced.sum_iff (h : Balanced cfg replies s) :
    s.stats.hitCount.toInt + s.stats.missCount.toInt = replies.length ↔
      hits replies < 2^31 ∧ misses replies < 2^31 := by
  have hsum := hits_add_misses replies
  rw [h.hitCount, h.missCount]
  constructor
  · intro hexact
    have hhits := toInt_count_le (hits replies)
    have hmisses := toInt_count_le (misses replies)
    constructor
    · by_contra hmany
      have hwrapped := toInt_count_lt (not_lt.mp hmany)
      omega
    · by_contra hmany
      have hwrapped := toInt_count_lt (not_lt.mp hmany)
      omega
  · rintro ⟨hhits, hmisses⟩
    rw [toInt_count hhits, toInt_count hmisses]
    omega

/-! ### Runs -/

/-- The counters after a run, which is one of the ways to serve its requests with `MAX_PFN`
places. -/
theorem requests_balanced (cfg : Config) (heap : Heap) (hmax : 1 ≤ cfg.MAX_PFN) (rs : List Request)
    (hok : Mealy.Meets (serveRequest cfg heap) (Admissible cfg) (init cfg heap) rs) :
    ∃ replies s, mainLoop cfg heap (init cfg heap) (rs.map .request) = some (replies, s) ∧
      replies.length = rs.length ∧ Regular cfg s ∧ Balanced cfg replies s ∧
      Paging.Serves cfg.MAX_PFN.toNat ∅ (rs.map Request.page) (misses replies) (store cfg s) := by
  obtain ⟨replies, s, -, hmain, hlen, hs, hb, hserves⟩ := requests_history cfg heap hmax rs hok
    (fun past s => Balanced cfg (answered past) s ∧
      Paging.Serves cfg.MAX_PFN.toNat ∅ (asked past) (misses (answered past)) (store cfg s))
    ⟨balanced_init heap hmax, by rw [store_init]; exact .nil ∅⟩
    (fun past s r reply t hs h hr ht => by
      obtain ⟨hmem, hsub, hcard⟩ := ht.store_step hs hr
      rw [answered_concat, asked_concat, ht.misses hr.1]
      exact ⟨h.1.of_served ht, h.2.concat hmem hsub hcard⟩)
  rw [answered_zip hlen] at hb hserves
  rw [asked_zip hlen] at hserves
  exact ⟨replies, s, hmain, hlen, hs, hb, hserves⟩

/-- Requests for two pages in turn. -/
def alternating (n : ℕ) : List Request :=
  (List.range n).map fun k => ⟨3, 0, 'R', if k % 2 = 0 then 0x100 else 0x200, ' '⟩

theorem alternating_inRange (n : ℕ) (MAX_PFN : ℤ) (policy : Policy) :
    ∀ r ∈ alternating n, r.InRange (beladyConfig MAX_PFN policy) := by
  intro r hr
  obtain ⟨k, -, rfl⟩ := List.mem_map.mp hr
  have hpage (VPN : ℤ) (h : 0 ≤ VPN ∧ VPN < 6) :
      (beladyConfig MAX_PFN policy).InRange ⟨0, VPN⟩ := ⟨le_rfl, zero_lt_one, h⟩
  split_ifs
  · exact ⟨Or.inl rfl, by decide, by decide, hpage 1 (by decide)⟩
  · exact ⟨Or.inl rfl, by decide, by decide, hpage 2 (by decide)⟩

/-- One frame is never enough for two pages in turn. -/
theorem misses_alternating (n : ℕ) :
    ∃ replies s, mainLoop (beladyConfig 1 .LRU) staleHeap (init (beladyConfig 1 .LRU) staleHeap)
        ((alternating n).map .request) = some (replies, s) ∧
      Regular (beladyConfig 1 .LRU) s ∧ Balanced (beladyConfig 1 .LRU) replies s ∧
      hits replies = 0 ∧ misses replies = n := by
  have hrs := alternating_inRange n 1 .LRU
  obtain ⟨replies, s, hmain, hlen, hs, hb, hserves⟩ := requests_balanced (beladyConfig 1 .LRU)
    staleHeap (by decide) (alternating n)
    (requests_admissible _ staleHeap (by decide) _ hrs fun hpol => Policy.noConfusion hpol)
  have hchain : ((alternating n).map Request.page).IsChain (· ≠ ·) := by
    rw [alternating, List.map_map, List.isChain_map, List.isChain_range]
    intro k _
    rcases Nat.mod_two_eq_zero_or_one k with hk | hk
    · rw [Function.comp, Function.comp, if_pos hk, if_neg (by omega)]
      decide
    · rw [Function.comp, Function.comp, if_neg (by omega), if_pos (by omega)]
      decide
  have hall := hserves.length_le (fun a _ => Finset.notMem_empty a) hchain
  have hsum := hits_add_misses replies
  have hn : (alternating n).length = n := by rw [alternating, List.length_map, List.length_range]
  rw [List.length_map] at hall
  exact ⟨replies, s, hmain, hs, hb, by omega, by omega⟩

/-- Every run of the request loop over in-range requests reaches the end of its input, in a
state whose page table and inverted page table are mutually inverse on the frames handed out;
so no two resident pages share a frame. As many pages are resident as have missed, up to
`MAX_PFN`; and `missCount` is the number of misses until it wraps. -/
theorem page_tables_mutually_inverse (cfg : Config) (heap : Heap) (hmax : 1 ≤ cfg.MAX_PFN)
    (rs : List Request) (hrs : ∀ r ∈ rs, r.InRange cfg)
    (hfifo : cfg.replacementPolicy = .FIFO → evictions cfg heap (init cfg heap) rs < 2^31) :
    ∃ replies s, mainLoop cfg heap (init cfg heap) (rs.map .request) = some (replies, s) ∧
      s.nextFreeFrame ≤ cfg.MAX_PFN ∧
      (∀ pid VPN, cfg.InRange ⟨pid, VPN⟩ → (s.readPTE pid VPN).valid = true →
        0 ≤ (s.readPTE pid VPN).PFN ∧ (s.readPTE pid VPN).PFN < s.nextFreeFrame ∧
          s.invertedPageTable (s.readPTE pid VPN).PFN = some ⟨pid, VPN⟩) ∧
      (∀ f, 0 ≤ f → f < s.nextFreeFrame → ∃ p, s.invertedPageTable f = some p ∧
        cfg.InRange p ∧ (s.readPTE p.pid p.VPN).valid = true ∧
          (s.readPTE p.pid p.VPN).PFN = f) ∧
      (∀ p q, cfg.InRange p → cfg.InRange q → (s.readPTE p.pid p.VPN).valid = true →
        (s.readPTE q.pid q.VPN).valid = true →
        (s.readPTE p.pid p.VPN).PFN = (s.readPTE q.pid q.VPN).PFN → p = q) ∧
      ((resident cfg s).card : ℤ) = min (misses replies : ℤ) cfg.MAX_PFN ∧
      s.stats.missCount = BitVec.ofNat 32 (misses replies) ∧
      (misses replies < 2^31 →
        ((resident cfg s).card : ℤ) = min s.stats.missCount.toInt cfg.MAX_PFN) := by
  obtain ⟨replies, s, hrun, -, hs, hb, -⟩ := requests_balanced cfg heap hmax rs
    (requests_admissible cfg heap hmax rs hrs hfifo)
  have hcard : ((resident cfg s).card : ℤ) = min (misses replies : ℤ) cfg.MAX_PFN := by
    rw [card_resident cfg s hs.inverse, hb.frames]
  refine ⟨replies, s, hrun, hs.inverse.frames.2, ?_, ?_, ?_, hcard, hb.missCount, ?_⟩
  · exact fun pid VPN hin hv => hs.inverse.valid ⟨pid, VPN⟩ hin hv
  · intro f h0 h1
    obtain ⟨p, hin, hstored, hv, hf⟩ := hs.inverse.stored f h0 h1
    exact ⟨p, hstored, hin, hv, hf⟩
  · intro p q hp hq hpv hqv he
    have h1 := (hs.inverse.valid p hp hpv).2.2
    have h2 := (hs.inverse.valid q hq hqv).2.2
    change (s.pte p).PFN = (s.pte q).PFN at he
    rw [he, h2, Option.some_inj] at h1
    exact h1.symm
  · intro hfew
    rw [hcard, hb.missCount, toInt_count hfew]

/-- The Belady trace under FIFO with three frames. -/
theorem page_tables_mutually_inverse_belady :
    ∃ replies s, mainLoop (beladyConfig 3 .FIFO) staleHeap (init (beladyConfig 3 .FIFO) staleHeap)
        (beladyTrace.map .request) = some (replies, s) ∧ s.nextFreeFrame ≤ 3 ∧
      ((resident (beladyConfig 3 .FIFO) s).card : ℤ) = min (misses replies : ℤ) 3 := by
  obtain ⟨replies, s, hrun, hframes, _, _, _, hcard, _⟩ := page_tables_mutually_inverse
    (beladyConfig 3 .FIFO) staleHeap (by decide) beladyTrace (by decide)
    (fun _ => by decide +kernel)
  exact ⟨replies, s, hrun, hframes, hcard⟩

/-- After 2^31 misses `missCount` is negative, with a page in the only frame. -/
theorem page_tables_missCount_wraps :
    (∀ r ∈ alternating (2^31), r.InRange (beladyConfig 1 .LRU)) ∧
    ∃ replies s, mainLoop (beladyConfig 1 .LRU) staleHeap (init (beladyConfig 1 .LRU) staleHeap)
        ((alternating (2^31)).map .request) = some (replies, s) ∧
      ((resident (beladyConfig 1 .LRU) s).card : ℤ) = 1 ∧ s.stats.missCount.toInt = -2^31 ∧
      ((resident (beladyConfig 1 .LRU) s).card : ℤ) ≠ min s.stats.missCount.toInt 1 := by
  obtain ⟨replies, s, hmain, hs, hb, -, hn⟩ := misses_alternating (2^31)
  have hcount : s.stats.missCount.toInt = -2^31 := by
    rw [hb.missCount, hn]
    decide
  have hcard : ((resident (beladyConfig 1 .LRU) s).card : ℤ) = 1 := by
    rw [card_resident _ s hs.inverse, hb.frames, hn]
    decide
  refine ⟨alternating_inRange (2^31) 1 .LRU, replies, s, hmain, hcard, hcount, ?_⟩
  rw [hcard, hcount]
  decide

/-- After each request `hitCount` and `missCount` are the numbers of hits and misses printed, and
every miss has read the swap disk once. They add up to the requests exactly until one of the two
`int`s wraps, and until `missCount` does, every miss without a free frame is one in `swapWrite`. -/
theorem statistics_balance (cfg : Config) (heap : Heap) (hmax : 1 ≤ cfg.MAX_PFN)
    (rs : List Request) (hrs : ∀ r ∈ rs, r.InRange cfg)
    (hfifo : cfg.replacementPolicy = .FIFO → evictions cfg heap (init cfg heap) rs < 2^31)
    (k : ℕ) (hk : k ≤ rs.length) :
    ∃ replies s, mainLoop cfg heap (init cfg heap) ((rs.take k).map .request) = some (replies, s) ∧
      hits replies + misses replies = k ∧
      s.stats.hitCount = BitVec.ofNat 32 (hits replies) ∧
      s.stats.missCount = BitVec.ofNat 32 (misses replies) ∧
      s.stats.swapRead = s.stats.missCount ∧
      (s.stats.hitCount.toInt + s.stats.missCount.toInt = k ↔
        hits replies < 2^31 ∧ misses replies < 2^31) ∧
      (misses replies < 2^31 →
        s.stats.swapWrite.toInt = max 0 (s.stats.missCount.toInt - cfg.MAX_PFN) ∧
        s.stats.swapWrite.toInt + s.nextFreeFrame = s.stats.missCount.toInt) := by
  have hok := requests_admissible cfg heap hmax rs hrs hfifo
  rw [← List.take_append_drop k rs, Mealy.meets_append_iff] at hok
  obtain ⟨replies, s, hmain, hlen, -, hb, -⟩ := requests_balanced cfg heap hmax (rs.take k) hok.1
  rw [List.length_take, min_eq_left hk] at hlen
  have hsum := hits_add_misses replies
  refine ⟨replies, s, hmain, hsum.trans hlen, hb.hitCount, hb.missCount,
    hb.swapRead.trans hb.missCount.symm, hlen ▸ hb.sum_iff, fun hfew => ?_⟩
  obtain ⟨hmiss, hwrite⟩ := hb.toInt hmax hfew
  have hframes := hb.frames
  exact ⟨by omega, by omega⟩

/-- The Belady trace under FIFO with three frames. -/
theorem statistics_balance_belady :
    ∃ replies s, mainLoop (beladyConfig 3 .FIFO) staleHeap (init (beladyConfig 3 .FIFO) staleHeap)
        ((beladyTrace.take 12).map .request) = some (replies, s) ∧
      s.stats.hitCount.toInt + s.stats.missCount.toInt = 12 ∧
      s.stats.swapRead = s.stats.missCount := by
  obtain ⟨replies, s, hmain, hsum, -, -, hread, hexact, -⟩ := statistics_balance
    (beladyConfig 3 .FIFO) staleHeap (by decide) beladyTrace (by decide)
    (fun _ => by decide +kernel) 12 (by decide)
  exact ⟨replies, s, hmain, hexact.mpr ⟨by omega, by omega⟩, hread⟩

/-- At 2^31 requests the sum is no longer theirs, and `swapWrite` is not what it should be. -/
theorem statistics_wrap :
    (∀ r ∈ alternating (2^31), r.InRange (beladyConfig 1 .LRU)) ∧
    (alternating (2^31)).length = 2^31 ∧
    ∃ replies s, mainLoop (beladyConfig 1 .LRU) staleHeap (init (beladyConfig 1 .LRU) staleHeap)
        ((alternating (2^31)).map .request) = some (replies, s) ∧
      s.stats.hitCount.toInt + s.stats.missCount.toInt = -2^31 ∧
      s.stats.swapWrite.toInt ≠ max 0 (s.stats.missCount.toInt - 1) := by
  obtain ⟨replies, s, hmain, -, hb, hhits, hn⟩ := misses_alternating (2^31)
  refine ⟨alternating_inRange (2^31) 1 .LRU, ?_, replies, s, hmain, ?_, ?_⟩
  · rw [alternating, List.length_map, List.length_range]
  · rw [hb.hitCount, hb.missCount, hhits, hn]
    decide
  · rw [hb.swapWrite, hb.missCount, hb.frames, hn]
    decide

end OperatingSystems.VM
