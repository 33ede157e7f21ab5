import OperatingSystems.VMStats

/-! Runs whose pages all fit into the frames, under every policy. -/
namespace OperatingSystems.VM

variable {cfg : Config} {s t : Machine} {r : Request} {reply : Reply}
  {past : List (Request × Reply)}

/-- Nothing goes while there is a free frame, nor on a hit. -/
theorem Served.store_eq (h : Served cfg s r reply t) (hr : r.InRange cfg)
    (hfree : r.page ∉ store cfg s → s.nextFreeFrame < cfg.MAX_PFN) (hs : Inverse cfg s) :
    store cfg t = insert r.page (store cfg s) := by
  have hmem := hr.page
  ext p
  rw [Finset.mem_insert, mem_store, mem_store]
  cases h with
  | hit u hv hu =>
    rw [storeByte_pte, hu.pte]
    by_cases hp : p = r.page
    · subst hp
      have hvalid : (if r.page = r.page ∧ decide (r.type = 'W') = true then
          { s.pte r.page with dirty := true } else s.pte r.page).valid = true := by
        split_ifs
        · exact hv
        · exact hv
      exact iff_of_true ⟨hmem, hvalid⟩ (Or.inl rfl)
    · rw [if_neg fun he => hp he.1]
      exact (or_iff_right hp).symm
  | fault f u hv hu =>
    have hout : r.page ∉ store cfg s := fun hin =>
      Bool.noConfusion (hv.symm.trans (mem_store.mp hin).2)
    have hlt := hfree hout
    rw [storeByte_pte, hu.pte]
    rcases hu.frame with ⟨hf, -⟩ | ⟨w, -, -, -, hfull, -⟩
    · rw [hs.fresh f hf.ge]
      by_cases hp : p = r.page
      · rw [if_pos hp]
        exact iff_of_true ⟨hp ▸ hmem, rfl⟩ (Or.inl hp)
      · rw [if_neg hp, if_neg (by simp)]
        exact (or_iff_right hp).symm
    · omega

/-- As long as the pages asked for fit, they are all in memory, and each has missed once. -/
def AllResident (cfg : Config) (past : List (Request × Reply)) (s : Machine) : Prop :=
  (asked past).toFinset.card ≤ cfg.MAX_PFN.toNat →
    store cfg s = (asked past).toFinset ∧ misses (answered past) = (asked past).toFinset.card

theorem AllResident.of_served (h : AllResident cfg past s) (hs : Regular cfg s)
    (hb : Balanced cfg (answered past) s) (hr : r.InRange cfg) (ht : Served cfg s r reply t) :
    AllResident cfg (past ++ [(r, reply)]) t := by
  intro hcard
  have hset : (asked (past ++ [(r, reply)])).toFinset = insert r.page (asked past).toFinset := by
    ext p
    simp [asked_concat, or_comm]
  rw [hset] at hcard ⊢
  obtain ⟨hstore, hmiss⟩ := h ((Finset.card_le_card (Finset.subset_insert _ _)).trans hcard)
  have hfree : r.page ∉ store cfg s → s.nextFreeFrame < cfg.MAX_PFN := by
    intro hout
    rw [hstore] at hout
    rw [Finset.card_insert_of_notMem hout, ← hmiss] at hcard
    have hframes := hb.frames
    omega
  refine ⟨by rw [ht.store_eq hr hfree hs.inverse, hstore], ?_⟩
  rw [answered_concat, ht.misses hr, hmiss, hstore, Finset.card_insert_eq_ite]
  split_ifs <;> rfl

/-- The misses of a run: every page misses, and if the frames suffice it does so just once. -/
theorem requests_misses (cfg : Config) (heap : Heap) (hmax : 1 ≤ cfg.MAX_PFN) (rs : List Request)
    (hok : Mealy.Meets (serveRequest cfg heap) (Admissible cfg) (init cfg heap) rs) :
    ∃ replies s, mainLoop cfg heap (init cfg heap) (rs.map .request) = some (replies, s) ∧
      replies.length = rs.length ∧ Balanced cfg replies s ∧
      (rs.map Request.page).toFinset.card ≤ misses replies ∧
      ((rs.map Request.page).toFinset.card ≤ cfg.MAX_PFN.toNat →
        misses replies = (rs.map Request.page).toFinset.card) := by
  obtain ⟨replies, s, hmain, -, -, -, hserves⟩ := requests_balanced cfg heap hmax rs hok
  obtain ⟨replies', s', -, hmain', hlen, -, hb, hall⟩ := requests_history cfg heap hmax rs hok
    (fun past s => Balanced cfg (answered past) s ∧ AllResident cfg past s)
    ⟨balanced_init heap hmax, fun _ => ⟨store_init cfg heap, rfl⟩⟩
    (fun past s r reply t hs h hr ht =>
      ⟨by rw [answered_concat]; exact h.1.of_served ht, h.2.of_served hs h.1 hr.1 ht⟩)
  rw [hmain, Option.some_inj] at hmain'
  cases hmain'
  have hcold := hserves.card_le
  rw [Finset.sdiff_empty] at hcold
  rw [answered_zip hlen] at hb
  rw [AllResident, asked_zip hlen, answered_zip hlen] at hall
  exact ⟨replies, s, hmain, hlen, hb, hcold, fun hfits => (hall hfits).2⟩

/-- With two frames two pages in turn miss once each. -/
theorem hits_alternating (n : ℕ) :
    ∃ replies s, mainLoop (beladyConfig 2 .LRU) staleHeap (init (beladyConfig 2 .LRU) staleHeap)
        ((alternating n).map .request) = some (replies, s) ∧
      Balanced (beladyConfig 2 .LRU) replies s ∧ n ≤ hits replies + 2 ∧ hits replies ≤ n := by
  have hrs := alternating_inRange n 2 .LRU
  obtain ⟨replies, s, hmain, hlen, hb, -, hall⟩ := requests_misses (beladyConfig 2 .LRU) staleHeap
    (by decide) (alternating n)
    (requests_admissible _ staleHeap (by decide) _ hrs fun hpol => Policy.noConfusion hpol)
  have hsub : ((alternating n).map Request.page).toFinset ⊆ {⟨0, 1⟩, ⟨0, 2⟩} := by
    intro p hp
    rw [List.mem_toFinset, alternating, List.map_map] at hp
    obtain ⟨k, -, rfl⟩ := List.mem_map.mp hp
    rw [Function.comp]
    split_ifs
    · exact Finset.mem_insert_self _ _
    · exact Finset.mem_insert_of_mem (Finset.mem_singleton_self _)
  have hcard := (Finset.card_le_card hsub).trans Finset.card_le_two
  have honce := hall hcard
  have hsum := hits_add_misses replies
  have hn : (alternating n).length = n := by rw [alternating, List.length_map, List.length_range]
  exact ⟨replies, s, hmain, hb, by omega, by omega⟩

/-- Under every policy, over fewer than 2^31 requests, a page misses at least once, and memory is
written to the swap disk exactly if the pages asked for are more than the frames; if they are not,
each misses just once. -/
theorem swap_unused_iff (cfg : Config) (heap : Heap) (hmax : 1 ≤ cfg.MAX_PFN) (rs : List Request)
    (hrs : ∀ r ∈ rs, r.InRange cfg) (hfew : rs.length < 2^31) :
    ∃ replies s, mainLoop cfg heap (init cfg heap) (rs.map .request) = some (replies, s) ∧
      ((rs.map Request.page).toFinset.card : ℤ) ≤ s.stats.missCount.toInt ∧
      (s.stats.swapWrite.toInt = 0 ↔
        (rs.map Request.page).toFinset.card ≤ cfg.MAX_PFN.toNat) ∧
      (s.stats.swapWrite.toInt = 0 →
        s.stats.missCount.toInt = (rs.map Request.page).toFinset.card) := by
  have hok := requests_admissible cfg heap hmax rs hrs
    fun _ => (evictions_le cfg heap _ rs).trans_lt hfew
  obtain ⟨replies, s, hmain, hlen, hb, hcold, hall⟩ := requests_misses cfg heap hmax rs hok
  have hsum := hits_add_misses replies
  obtain ⟨hmiss, hwrite⟩ := hb.toInt hmax (by omega)
  refine ⟨replies, s, hmain, by omega, ⟨fun hzero => by omega, fun hfits => ?_⟩, fun hzero => ?_⟩
  · have honce := hall hfits
    omega
  · have honce := hall (by omega)
    omega

/-- The Belady trace asks for five pages. -/
theorem swap_unused_iff_belady :
    ∃ replies s, mainLoop (beladyConfig 5 .CLOCK) staleHeap (init (beladyConfig 5 .CLOCK) staleHeap)
        (beladyTrace.map .request) = some (replies, s) ∧
      s.stats.swapWrite.toInt = 0 ∧ s.stats.missCount.toInt = 5 := by
  obtain ⟨replies, s, hmain, -, hiff, hmiss⟩ := swap_unused_iff (beladyConfig 5 .CLOCK) staleHeap
    (by decide) beladyTrace (by decide) (by decide)
  have hzero := hiff.mpr (by decide)
  exact ⟨replies, s, hmain, hzero, hmiss hzero⟩

end OperatingSystems.VM
