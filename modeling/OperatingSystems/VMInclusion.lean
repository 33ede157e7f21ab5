import OperatingSystems.Recency
import OperatingSystems.VMWorkingSet

/-! Two memories of different sizes that are served the same requests. Under LRU the resident pages
are the most recently used ones, so those of the smaller memory are contained in those of the
larger one. -/
namespace OperatingSystems.VM

theorem hits_mono {replies replies' : List Reply} (h : List.Forall₂
    (fun reply reply' : Reply => reply.isHit = true → reply'.isHit = true) replies replies') :
    hits replies ≤ hits replies' := by
  induction h with
  | nil => exact le_rfl
  | @cons reply reply' rest rest' hhit _ ih =>
    rw [hits, List.countP_cons, hits, List.countP_cons, ← hits, ← hits]
    by_cases hr : reply.isHit = true
    · rw [if_pos hr, if_pos (hhit hr)]
      omega
    · rw [if_neg hr]
      omega

/-- Two memories stay in a relation `R` that puts the pages of the one among those of the other:
then these are so after any requests, a hit in the one is a hit in the other, and the other has no
fewer hits; `hitCount` shows it until it wraps. -/
theorem inclusion (cfg : Config) (m : ℤ) (heap heap' : Heap)
    (hpol : cfg.replacementPolicy ≠ .FIFO) (hmax : 1 ≤ cfg.MAX_PFN) (hle : cfg.MAX_PFN ≤ m)
    (R : Machine → Machine → Prop)
    (hinit : R (init cfg heap) (init { cfg with MAX_PFN := m } heap'))
    (hmono : ∀ s t, Regular cfg s → Regular { cfg with MAX_PFN := m } t → R s t → ∀ p,
      cfg.InRange p → (s.pte p).valid = true → (t.pte p).valid = true)
    (hstep : ∀ s t r reply u reply' v, Regular cfg s → Regular { cfg with MAX_PFN := m } t →
      R s t → r.InRange cfg → Served cfg s r reply u →
      Served { cfg with MAX_PFN := m } t r reply' v → R u v)
    (rs : List Request) (hrs : ∀ r ∈ rs, r.InRange cfg) :
    ∃ replies s replies' t,
      mainLoop cfg heap (init cfg heap) (rs.map .request) = some (replies, s) ∧
      mainLoop { cfg with MAX_PFN := m } heap' (init { cfg with MAX_PFN := m } heap')
        (rs.map .request) = some (replies', t) ∧
      (∀ p, cfg.InRange p → (s.pte p).valid = true → (t.pte p).valid = true) ∧
      List.Forall₂ (fun reply reply' => reply.isHit = true → reply'.isHit = true)
        replies replies' ∧
      hits replies ≤ hits replies' ∧
      (hits replies' < 2^31 → s.stats.hitCount.toInt ≤ t.stats.hitCount.toInt) := by
  set big : Config := { cfg with MAX_PFN := m } with hbig
  have hmax' : 1 ≤ big.MAX_PFN := hmax.trans hle
  have hbigger (r : Request) (hr : r.InRange cfg) : r.InRange big :=
    ⟨hr.type, hr.scanned, hr.addr, hr.page⟩
  have hadm (s : Machine) (r : Request) (hr : r.InRange cfg) : Admissible cfg s r :=
    ⟨hr, fun _ hp => absurd hp hpol⟩
  have hadm' (s : Machine) (r : Request) (hr : r.InRange cfg) : Admissible big s r :=
    ⟨hbigger r hr, fun _ hp => absurd hp hpol⟩
  have hmeets : Mealy.Meets (serveRequest cfg heap) (Admissible cfg) (init cfg heap) rs :=
    Mealy.meets_of_forall _ _ _ _ fun s r hr => hadm s r (hrs r hr)
  have hmeets' : Mealy.Meets (serveRequest big heap') (Admissible big) (init big heap') rs :=
    Mealy.meets_of_forall _ _ _ _ fun s r hr => hadm' s r (hrs r hr)
  -- The two machines run in lockstep, both regular and in the relation.
  obtain ⟨replies, s, replies', t, hrun, hrun', hout, hs, ht, hst⟩ :=
    Mealy.lockstep (serveRequest big heap')
      (fun reply reply' => reply.byte?.isSome ∧ reply'.byte?.isSome ∧
        (reply.isHit = true → reply'.isHit = true))
      (Admissible cfg) (fun s t => Regular cfg s ∧ Regular big t ∧ R s t)
      (fun s t r ⟨hs, ht, hst⟩ hr => by
        have hr' := hadm' t r hr.1
        obtain ⟨reply, u, hserve, hserved⟩ := served_exists cfg heap s r hmax hs hr
        obtain ⟨reply', v, hserve', hserved'⟩ := served_exists big heap' t r hmax' ht hr'
        refine ⟨reply, u, reply', v, hserve, hserve', ⟨?_, ?_, ?_⟩, hs.of_served hr hserved,
          ht.of_served hr' hserved', hstep s t r reply u reply' v hs ht hst hr.1 hserved hserved'⟩
        · cases hserved <;> rfl
        · cases hserved' <;> rfl
        · rw [hserved.isHit, hserved'.isHit]
          exact hmono s t hs ht hst r.page hr.1.page)
      ⟨regular_init cfg heap hmax, regular_init big heap' hmax', hinit⟩ hmeets
  obtain ⟨hsome, hout⟩ := (List.forall₂_and_left _ _).mp hout
  have hback : List.Forall₂ (fun reply' reply : Reply => reply'.byte?.isSome ∧
      (reply.isHit = true → reply'.isHit = true)) replies' replies := List.Forall₂.flip hout
  have hhits := hout.imp fun _ _ h => h.2
  have hmain := mainLoop_requests cfg heap _ _ rs replies hrun hsome
  have hmain' := mainLoop_requests big heap' _ _ rs replies' hrun'
    ((List.forall₂_and_left _ _).mp hback).1
  have hle := hits_mono hhits
  refine ⟨replies, s, replies', t, hmain, hmain', hmono s t hs ht hst, hhits, hle, fun hfew => ?_⟩
  obtain ⟨_, _, hb, -, -, hcount, -⟩ := requests_balanced cfg heap hmax rs hmeets
  obtain ⟨_, _, hb', -, -, hcount', -⟩ := requests_balanced big heap' hmax' rs hmeets'
  cases Option.some_inj.mp (hmain.symm.trans hb)
  cases Option.some_inj.mp (hmain'.symm.trans hb')
  rw [hcount.hitCount, hcount'.hitCount, toInt_count (hle.trans_lt hfew), toInt_count hfew]
  exact Int.ofNat_le.mpr hle

/-! ### LRU -/

/-- The LRU list, read through the inverted page table, holds the last `MAX_PFN` pages of the
recency order `order`. -/
def Ordered (cfg : Config) (s : Machine) (order : List IPTE) : Prop :=
  s.head.map s.invertedPageTable = (order.rtake cfg.MAX_PFN.toNat).map some

/-- The list holds as many frames as have been handed out. -/
theorem length_head (cfg : Config) (s : Machine) (hpol : cfg.replacementPolicy = .LRU)
    (hs : Regular cfg s) : s.head.length = s.nextFreeFrame.toNat := by
  obtain ⟨hnd, hmem⟩ := hs.queued.lru hpol
  have hset : s.head.toFinset = Finset.Ico 0 s.nextFreeFrame := by
    ext f
    rw [List.mem_toFinset, hmem, Finset.mem_Ico]
  rw [← List.toFinset_card_of_nodup hnd, hset, Int.card_Ico, sub_zero]

/-- The resident pages are exactly the recent ones. -/
theorem Ordered.mem_iff {cfg : Config} {s : Machine} {order : List IPTE}
    (h : Ordered cfg s order) (hpol : cfg.replacementPolicy = .LRU) (hs : Regular cfg s)
    (p : IPTE) : p ∈ order.rtake cfg.MAX_PFN.toNat ↔ cfg.InRange p ∧ (s.pte p).valid = true := by
  obtain ⟨_, hmem⟩ := hs.queued.lru hpol
  have hsome : p ∈ order.rtake cfg.MAX_PFN.toNat ↔ some p ∈ s.head.map s.invertedPageTable := by
    rw [show s.head.map s.invertedPageTable = _ from h]
    simp
  rw [hsome, List.mem_map]
  constructor
  · rintro ⟨f, hf, hstored⟩
    obtain ⟨h0, h1⟩ := (hmem f).mp hf
    obtain ⟨q, hq, hqs, hv, _⟩ := hs.inverse.stored f h0 h1
    rw [hqs, Option.some_inj] at hstored
    subst hstored
    exact ⟨hq, hv⟩
  · rintro ⟨hp, hv⟩
    obtain ⟨h0, h1, h2⟩ := hs.inverse.valid p hp hv
    exact ⟨_, (hmem _).mpr ⟨h0, h1⟩, h2⟩

/-- The frames in the list record different pages, so erasing a frame erases its page. -/
theorem map_erase_frame (cfg : Config) (s : Machine) (hpol : cfg.replacementPolicy = .LRU)
    (hs : Regular cfg s) (f : ℤ) (hf : f ∈ s.head) :
    (s.head.erase f).map s.invertedPageTable =
      (s.head.map s.invertedPageTable).erase (s.invertedPageTable f) := by
  obtain ⟨hnd, hmem⟩ := hs.queued.lru hpol
  have hinj : Set.InjOn s.invertedPageTable {g | g ∈ s.head} := by
    intro g hg g' hg' he
    obtain ⟨p, _, hp, _, hpf⟩ := hs.inverse.stored g ((hmem g).mp hg).1 ((hmem g).mp hg).2
    obtain ⟨q, _, hq, _, hqf⟩ := hs.inverse.stored g' ((hmem g').mp hg').1 ((hmem g').mp hg').2
    rw [hp, hq, Option.some_inj] at he
    rw [← hpf, ← hqf, he]
  have hnd' : (s.head.map s.invertedPageTable).Nodup := hnd.map_on fun g hg g' hg' he =>
    hinj hg hg' he
  rw [hnd.erase_eq_filter, hnd'.erase_eq_filter, List.filter_map]
  congr 1
  apply List.filter_congr
  intro g hg
  by_cases hgf : g = f
  · simp [hgf]
  · have hne : s.invertedPageTable g ≠ s.invertedPageTable f := fun he => hgf (hinj hg hf he)
    rw [bne_iff_ne.mpr hgf]
    exact (bne_iff_ne.mpr hne).symm

/-- One request moves its page to the recent end of the order. -/
theorem Ordered.of_served {cfg : Config} {s t : Machine} {r : Request} {reply : Reply}
    {order : List IPTE} (h : Ordered cfg s order) (hmax : 1 ≤ cfg.MAX_PFN)
    (hpol : cfg.replacementPolicy = .LRU) (hnd : order.Nodup) (hs : Regular cfg s)
    (hr : r.InRange cfg) (ht : Served cfg s r reply t) :
    Ordered cfg t (Recency.touch order r.page) := by
  have hstep := Recency.lruStep_rtake cfg.MAX_PFN.toNat order r.page (by omega) hnd
  have hres := h.mem_iff hpol hs r.page
  have hlist : s.head.map s.invertedPageTable = (order.rtake cfg.MAX_PFN.toNat).map some := h
  obtain ⟨hnodup, hmem⟩ := hs.queued.lru hpol
  unfold Ordered
  rw [← hstep]
  cases ht with
  | hit t hv ht =>
    obtain ⟨h0, h1, h2⟩ := hs.inverse.valid r.page hr.page hv
    have hin : (s.pte r.page).PFN ∈ s.head := (hmem _).mpr ⟨h0, h1⟩
    rw [storeByte_rest]
    dsimp only
    rw [ht.head, touchFrame_head, if_pos hpol, ht.inverted, List.map_append,
      map_erase_frame cfg s hpol hs _ hin, h2, hlist, Recency.lruStep,
      if_pos (hres.mpr ⟨hr.page, hv⟩), Recency.touch, List.map_append,
      List.map_erase (Option.some_injective _), List.map_singleton, List.map_singleton, h2]
  | fault f t hv ht =>
    have hnot : r.page ∉ order.rtake cfg.MAX_PFN.toNat := fun hin => by
      rw [(hres.mp hin).2] at hv
      exact Bool.noConfusion hv
    have hlen : (order.rtake cfg.MAX_PFN.toNat).length = s.nextFreeFrame.toNat := by
      rw [← length_head cfg s hpol hs, ← List.length_map (f := s.invertedPageTable), hlist,
        List.length_map]
    -- the other frames of the list keep their pages
    have hother (l : List ℤ) (hf : f ∉ l) :
        l.map t.invertedPageTable = l.map s.invertedPageTable := by
      apply List.map_congr_left
      intro g hg
      rw [ht.inverted, if_neg (ne_of_mem_of_not_mem hg hf)]
    have hnew : t.invertedPageTable f = some r.page := by rw [ht.inverted, if_pos rfl]
    rw [storeByte_rest]
    dsimp only
    rw [Recency.lruStep, if_neg hnot]
    rcases ht.frame with ⟨hff, hlt, _, _, _, hhead, _⟩ |
      ⟨u, hvic, hf0, hf1, hfull, _, _, _, hhead, _⟩
    · have hfs : f ∉ s.head := fun hin => by
        have h1 := ((hmem f).mp hin).2
        omega
      rw [if_pos (by rw [hlen]; have := hs.inverse.frames.1; omega), hhead,
        insertFrameNode_head, if_pos hpol, List.map_append, hother _ hfs, hlist, List.map_append,
        List.map_singleton, List.map_singleton, hnew]
    · rw [if_neg (by rw [hlen]; omega), hhead, insertFrameNode_head, if_pos hpol]
      obtain ⟨rest, hcons, hu⟩ := hvic.lru_eq hpol
      rw [hcons] at hnodup hlist
      rw [hu]
      dsimp only
      rw [List.map_append, hother _ (List.nodup_cons.mp hnodup).1, List.map_singleton, hnew,
        List.map_append, List.map_singleton, List.map_tail, ← hlist]
      rfl

/-- Two LRU memories with the same recency order. -/
def Nested (cfg big : Config) (s t : Machine) : Prop :=
  ∃ order : List IPTE, order.Nodup ∧ Ordered cfg s order ∧ Ordered big t order

theorem Nested.resident_mono {cfg big : Config} {s t : Machine} (h : Nested cfg big s t)
    (hs : Regular cfg s) (ht : Regular big t) (hpol : cfg.replacementPolicy = .LRU)
    (hpol' : big.replacementPolicy = .LRU) (hle : cfg.MAX_PFN ≤ big.MAX_PFN) (p : IPTE)
    (hp : cfg.InRange p) (hv : (s.pte p).valid = true) : (t.pte p).valid = true := by
  obtain ⟨order, _, ho, ho'⟩ := h
  have hin := (ho.mem_iff hpol hs p).mpr ⟨hp, hv⟩
  exact ((ho'.mem_iff hpol' ht p).mp
    (Recency.mem_rtake_mono (Int.toNat_le_toNat hle) order p hin)).2

/-- LRU has the inclusion property: after any requests, the pages resident with `MAX_PFN`
frames are resident with `m ≥ MAX_PFN` frames too. Hence a hit with fewer frames is a hit with
more, and there are never fewer hits when frames are added; `hitCount` shows it until it wraps. -/
theorem lru_inclusion (cfg : Config) (m : ℤ) (heap heap' : Heap)
    (hpol : cfg.replacementPolicy = .LRU) (hmax : 1 ≤ cfg.MAX_PFN) (hle : cfg.MAX_PFN ≤ m)
    (rs : List Request) (hrs : ∀ r ∈ rs, r.InRange cfg) :
    ∃ replies s replies' t,
      mainLoop cfg heap (init cfg heap) (rs.map .request) = some (replies, s) ∧
      mainLoop { cfg with MAX_PFN := m } heap' (init { cfg with MAX_PFN := m } heap')
        (rs.map .request) = some (replies', t) ∧
      (∀ p, cfg.InRange p → (s.readPTE p.pid p.VPN).valid = true →
        (t.readPTE p.pid p.VPN).valid = true) ∧
      List.Forall₂ (fun reply reply' => reply.isHit = true → reply'.isHit = true)
        replies replies' ∧
      hits replies ≤ hits replies' ∧
      (hits replies' < 2^31 → s.stats.hitCount.toInt ≤ t.stats.hitCount.toInt) := by
  refine inclusion cfg m heap heap' (by rw [hpol]; decide) hmax hle (Nested cfg _)
    ⟨[], List.nodup_nil, by simp [Ordered, init], by simp [Ordered, init]⟩
    (fun s t hs ht h => h.resident_mono hs ht hpol hpol hle) ?_ rs hrs
  intro s t r reply u reply' v hs ht h hr hu hv
  obtain ⟨order, hnd, ho, ho'⟩ := h
  exact ⟨_, Recency.nodup_touch order r.page hnd, ho.of_served hmax hpol hnd hs hr hu,
    ho'.of_served (hmax.trans hle) hpol hnd ht ⟨hr.type, hr.scanned, hr.addr, hr.page⟩ hv⟩

/-- The Belady trace with three and with four frames. -/
theorem lru_inclusion_belady :
    ∃ replies s replies' t,
      mainLoop (beladyConfig 3 .LRU) staleHeap (init (beladyConfig 3 .LRU) staleHeap)
        (beladyTrace.map .request) = some (replies, s) ∧
      mainLoop (beladyConfig 4 .LRU) staleHeap (init (beladyConfig 4 .LRU) staleHeap)
        (beladyTrace.map .request) = some (replies', t) ∧
      hits replies ≤ hits replies' := by
  obtain ⟨replies, s, replies', t, hrun, hrun', _, _, hhits, _⟩ := lru_inclusion
    (beladyConfig 3 .LRU) 4 staleHeap staleHeap rfl (by decide) (by decide) beladyTrace (by decide)
  exact ⟨replies, s, replies', t, hrun, hrun', hhits⟩

/-- Over 2^31 + 2 requests for two pages in turn one frame gives no hit, and two frames give so many
that `hitCount` is negative. -/
theorem lru_hitCount_wraps :
    (∀ r ∈ alternating (2^31 + 2), r.InRange (beladyConfig 1 .LRU)) ∧
    ∃ replies s replies' t,
      mainLoop (beladyConfig 1 .LRU) staleHeap (init (beladyConfig 1 .LRU) staleHeap)
        ((alternating (2^31 + 2)).map .request) = some (replies, s) ∧
      mainLoop (beladyConfig 2 .LRU) staleHeap (init (beladyConfig 2 .LRU) staleHeap)
        ((alternating (2^31 + 2)).map .request) = some (replies', t) ∧
      t.stats.hitCount.toInt < s.stats.hitCount.toInt := by
  obtain ⟨replies, s, hmain, -, hb, hnone, -⟩ := misses_alternating (2^31 + 2)
  obtain ⟨replies', t, hmain', hb', hlow, hhigh⟩ := hits_alternating (2^31 + 2)
  refine ⟨alternating_inRange (2^31 + 2) 1 .LRU, replies, s, replies', t, hmain, hmain', ?_⟩
  rw [hb.hitCount, hb'.hitCount, hnone, BitVec.toInt_eq_toNat_cond, BitVec.toNat_ofNat]
  rw [if_neg (by omega)]
  change _ < (0 : ℤ)
  omega

end OperatingSystems.VM
