import OperatingSystems.VMInclusion

/-! The policy ZERO gives up frame 0 only, so the other frames keep the first pages that came. Like
LRU it has the inclusion property. -/
namespace OperatingSystems.VM

variable {cfg big : Config} {s t u v : Machine} {r : Request} {p : IPTE}

theorem Fault.zero_frame {d : Bool} {f : ℤ} (h : Fault cfg s p d f u)
    (hpol : cfg.replacementPolicy = .ZERO) :
    f = (if s.nextFreeFrame < cfg.MAX_PFN then s.nextFreeFrame else 0) ∧
      u.nextFreeFrame = min (s.nextFreeFrame + 1) cfg.MAX_PFN := by
  rcases h.frame with ⟨hf, hlt, hn, -⟩ | ⟨w, hvic, h0, h1, hfull, hn, -⟩
  · rw [← hf, if_pos hlt]
    omega
  · rw [if_neg (by omega)]
    cases hvic with
    | zero => omega
    | fifo hp => exact Policy.noConfusion (hpol.symm.trans hp)
    | lru _ _ hp => exact Policy.noConfusion (hpol.symm.trans hp)
    | clock _ _ hp => exact Policy.noConfusion (hpol.symm.trans hp)

/-- A page recorded for a frame in use is in memory. -/
theorem Inverse.valid_of_stored (h : Inverse cfg s) {f : ℤ} (h0 : 0 ≤ f)
    (h1 : f < s.nextFreeFrame) (hp : s.invertedPageTable f = some p) :
    (s.pte p).valid = true := by
  obtain ⟨q, -, hq, hv, -⟩ := h.stored f h0 h1
  rw [hp, Option.some_inj] at hq
  rwa [hq]

/-- Two memories under ZERO, the first no larger: the frames from 1 on of the smaller one hold the
same pages in both, and so does frame 0 until the smaller one is full. -/
structure Aligned (cfg : Config) (s t : Machine) : Prop where
  frames : s.nextFreeFrame = min t.nextFreeFrame cfg.MAX_PFN
  same : ∀ f, 0 ≤ f → f < s.nextFreeFrame → f ≠ 0 ∨ s.nextFreeFrame < cfg.MAX_PFN →
    s.invertedPageTable f = t.invertedPageTable f
  first : ∀ p, s.invertedPageTable 0 = some p → (t.pte p).valid = true

structure Pinned (cfg big : Config) (s t : Machine) : Prop extends Aligned cfg s t where
  small : Regular cfg s
  large : Regular big t

/-- The bytes do not matter. -/
theorem Aligned.stored (h : Aligned cfg s t) (f g : ℤ) :
    Aligned cfg (storeByte r f s) (storeByte r g t) := by
  rw [storeByte_rest r f s, storeByte_rest r g t]
  exact ⟨h.frames, h.same, h.first⟩

theorem Pinned.resident_mono (h : Pinned cfg big s t) (hp : cfg.InRange p)
    (hv : (s.pte p).valid = true) : (t.pte p).valid = true := by
  obtain ⟨h0, h1, hstored⟩ := h.small.inverse.valid p hp hv
  by_cases hf : (s.pte p).PFN = 0
  · rw [hf] at hstored
    exact h.first p hstored
  · have hframes := h.frames
    rw [h.same _ h0 h1 (Or.inl hf)] at hstored
    exact h.large.inverse.valid_of_stored h0 (by omega) hstored

/-- A page that only the larger memory holds came when the smaller one was full. -/
theorem Pinned.full (h : Pinned cfg big s t) (hp : big.InRange p) (hs : (s.pte p).valid = false)
    (ht : (t.pte p).valid = true) : s.nextFreeFrame = cfg.MAX_PFN := by
  by_contra hne
  have hframes := h.frames
  obtain ⟨h0, h1, hstored⟩ := h.large.inverse.valid p hp ht
  have hlt : s.nextFreeFrame < cfg.MAX_PFN := by omega
  rw [← h.same _ h0 (by omega) (Or.inr hlt)] at hstored
  have hv := h.small.inverse.valid_of_stored h0 (by omega) hstored
  exact Bool.noConfusion (hs.symm.trans hv)

section frames
variable {f g : ℤ} {d d' : Bool}

/-- The page comes into frame 0 of the smaller memory; the larger one has it already. -/
theorem Pinned.fault_hit (h : Pinned cfg big s t) (hpol : cfg.replacementPolicy = .ZERO)
    (hu : Fault cfg s r.page d f u) (hv : Hit big t r.page d' v)
    (hfull : s.nextFreeFrame = cfg.MAX_PFN) (hmem : (v.pte r.page).valid = true) :
    Aligned cfg u v := by
  obtain ⟨hf, hn⟩ := hu.zero_frame hpol
  rw [if_neg (by omega)] at hf
  have hframes := h.frames
  refine ⟨by rw [hn, hv.nextFreeFrame]; omega, fun k h0 h1 hk => ?_, fun p hp => ?_⟩
  · have hk0 : k ≠ 0 := hk.resolve_right (by omega)
    rw [hu.inverted, hf, if_neg hk0, hv.inverted]
    exact h.same k h0 (by omega) (Or.inl hk0)
  · rw [hu.inverted, hf, if_pos rfl, Option.some_inj] at hp
    rwa [← hp]

/-- The page comes into both memories. -/
theorem Pinned.fault_fault (h : Pinned cfg big s t) (hpol : cfg.replacementPolicy = .ZERO)
    (hpol' : big.replacementPolicy = .ZERO) (hmax : 1 ≤ cfg.MAX_PFN)
    (hle : cfg.MAX_PFN ≤ big.MAX_PFN) (hu : Fault cfg s r.page d f u)
    (hv : Fault big t r.page d' g v) (hlarge : Inverse big v) :
    Aligned cfg u v := by
  obtain ⟨hf, hn⟩ := hu.zero_frame hpol
  obtain ⟨hg, hm⟩ := hv.zero_frame hpol'
  have hframes := h.frames
  have hs := h.small.inverse.frames
  have ht := h.large.inverse.frames
  have hgin : 0 ≤ g ∧ g < v.nextFreeFrame := by
    split_ifs at hg with hlt
    · omega
    · omega
  have hnew : (v.pte r.page).valid = true :=
    hlarge.valid_of_stored hgin.1 hgin.2 (by rw [hv.inverted, if_pos rfl])
  by_cases hfree : s.nextFreeFrame < cfg.MAX_PFN
  · -- Both have the same frame free.
    rw [if_pos hfree] at hf
    rw [if_pos (by omega)] at hg
    have hfg : f = g := by omega
    have hsame (k : ℤ) (h0 : 0 ≤ k) (h1 : k < u.nextFreeFrame) :
        u.invertedPageTable k = v.invertedPageTable k := by
      rw [hu.inverted, hv.inverted, hfg]
      by_cases hk : k = g
      · rw [if_pos hk, if_pos hk]
      · rw [if_neg hk, if_neg hk]
        exact h.same k h0 (by omega) (Or.inr hfree)
    refine ⟨by omega, fun k h0 h1 _ => hsame k h0 h1, fun p hp => ?_⟩
    rw [hsame 0 le_rfl (by omega)] at hp
    exact hlarge.valid_of_stored le_rfl (by omega) hp
  · rw [if_neg hfree] at hf
    refine ⟨by omega, fun k h0 h1 hk => ?_, fun p hp => ?_⟩
    · have hk0 : k ≠ 0 := hk.resolve_right (by omega)
      have hkg : k ≠ g := by
        split_ifs at hg with hlt
        · omega
        · omega
      rw [hu.inverted, hf, if_neg hk0, hv.inverted, if_neg hkg]
      exact h.same k h0 (by omega) (Or.inl hk0)
    · rw [hu.inverted, hf, if_pos rfl, Option.some_inj] at hp
      rwa [← hp]

end frames

theorem Pinned.of_served {reply reply' : Reply} (h : Pinned cfg big s t)
    (hpol : cfg.replacementPolicy = .ZERO) (hpol' : big.replacementPolicy = .ZERO)
    (hmax : 1 ≤ cfg.MAX_PFN) (hle : cfg.MAX_PFN ≤ big.MAX_PFN) (hr : r.InRange cfg)
    (hr' : r.InRange big) (hu : Served cfg s r reply u) (hv : Served big t r reply' v) :
    Aligned cfg u v := by
  have hmono := h.resident_mono hr.page
  cases hu with
  | hit u' hin hu' =>
    cases hv with
    | hit v' hin' hv' =>
      apply Aligned.stored
      refine ⟨?_, ?_, fun p hp => ?_⟩
      · rw [hu'.nextFreeFrame, hv'.nextFreeFrame]
        exact h.frames
      · rw [hu'.nextFreeFrame, hu'.inverted, hv'.inverted]
        exact h.same
      · rw [hu'.inverted] at hp
        have hvalid := h.first p hp
        rw [hv'.pte]
        split_ifs with hpage
        · exact hin'
        · exact hvalid
    | fault g v' hout' hv' => exact Bool.noConfusion (hout'.symm.trans (hmono hin))
  | fault f u' hout hu' =>
    cases hv with
    | hit v' hin' hv' =>
      have hmem : (v'.pte r.page).valid = true := by
        rw [hv'.pte]
        split_ifs
        · exact hin'
        · exact hin'
      exact (h.fault_hit hpol hu' hv' (h.full hr'.page hout hin') hmem).stored f _
    | fault g v' hout' hv' =>
      have hinv : Inverse big v' := h.large.inverse.of_fault hr'.page hout' hv'
      exact (h.fault_fault hpol hpol' hmax hle hu' hv' hinv).stored f g

/-- ZERO has the inclusion property too: after any requests, the pages resident with `MAX_PFN`
frames are resident with `m ≥ MAX_PFN` frames, a hit with fewer frames is a hit with more, and there
are never fewer hits when frames are added; `hitCount` shows it until it wraps. -/
theorem zero_inclusion (cfg : Config) (m : ℤ) (heap heap' : Heap)
    (hpol : cfg.replacementPolicy = .ZERO) (hmax : 1 ≤ cfg.MAX_PFN) (hle : cfg.MAX_PFN ≤ m)
    (rs : List Request) (hrs : ∀ r ∈ rs, r.InRange cfg) :
    ∃ replies s replies' t,
      mainLoop cfg heap (init cfg heap) (rs.map .request) = some (replies, s) ∧
      mainLoop { cfg with MAX_PFN := m } heap' (init { cfg with MAX_PFN := m } heap')
        (rs.map .request) = some (replies', t) ∧
      (∀ p, cfg.InRange p → (s.readPTE p.pid p.VPN).valid = true →
        (t.readPTE p.pid p.VPN).valid = true) ∧
      List.Forall₂ (fun reply reply' => reply.isHit = true → reply'.isHit = true)
        replies replies' ∧
      hits replies ≤ hits replies' ∧
      (hits replies' < 2^31 → s.stats.hitCount.toInt ≤ t.stats.hitCount.toInt) := by
  have hinit : Aligned cfg (init cfg heap) (init { cfg with MAX_PFN := m } heap') := by
    refine ⟨?_, fun f _ _ _ => rfl, fun p hp => ?_⟩
    · change (0 : ℤ) = min 0 cfg.MAX_PFN
      omega
    · cases hp
  refine inclusion cfg m heap heap' (by rw [hpol]; decide) hmax hle (Aligned cfg) hinit
    (fun s t hs ht h p hp hv => Pinned.resident_mono ⟨h, hs, ht⟩ hp hv) ?_ rs hrs
  intro s t r reply u reply' v hs ht h hr hu hv
  exact Pinned.of_served ⟨h, hs, ht⟩ hpol hpol hmax hle hr
    ⟨hr.type, hr.scanned, hr.addr, hr.page⟩ hu hv

theorem zero_inclusion_belady :
    ∃ replies s replies' t,
      mainLoop (beladyConfig 3 .ZERO) staleHeap (init (beladyConfig 3 .ZERO) staleHeap)
        (beladyTrace.map .request) = some (replies, s) ∧
      mainLoop (beladyConfig 4 .ZERO) staleHeap (init (beladyConfig 4 .ZERO) staleHeap)
        (beladyTrace.map .request) = some (replies', t) ∧
      hits replies ≤ hits replies' := by
  obtain ⟨replies, s, replies', t, hrun, hrun', _, _, hhits, _⟩ := zero_inclusion
    (beladyConfig 3 .ZERO) 4 staleHeap staleHeap rfl (by decide) (by decide) beladyTrace (by decide)
  exact ⟨replies, s, replies', t, hrun, hrun', hhits⟩

end OperatingSystems.VM
