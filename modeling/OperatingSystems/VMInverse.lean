import OperatingSystems.Mealy
import OperatingSystems.VMFault
import Mathlib.Data.Finset.Card
import Mathlib.Data.Finset.Prod
import Mathlib.Data.Int.Interval
import Mathlib.Data.Int.Range
import Mathlib.Order.Interval.Finset.Basic

/-! The page table and the inverted page table stay mutually inverse over whole runs. -/
namespace OperatingSystems.VM

/-- The tables and the replacement data agree. -/
structure Regular (cfg : Config) (s : Machine) : Prop where
  inverse : Inverse cfg s
  queued : Queued cfg s

/-- A fault with no free frame: the requests that make the handler evict. -/
def evicts (cfg : Config) (s : Machine) (r : Request) : Prop :=
  (s.pte r.page).valid = false ∧ cfg.MAX_PFN ≤ s.nextFreeFrame

instance (cfg : Config) (s : Machine) (r : Request) : Decidable (evicts cfg s r) :=
  inferInstanceAs (Decidable (_ ∧ _))

/-- The number of evictions of a run. -/
def evictions (cfg : Config) (heap : Heap) : Machine → List Request → ℕ
  | _, [] => 0
  | s, r :: rs =>
    (if evicts cfg s r then 1 else 0) +
      match serveRequest cfg heap s r with
      | none => 0
      | some (_, t) => evictions cfg heap t rs

/-- No more pages are evicted than are asked for. -/
theorem evictions_le (cfg : Config) (heap : Heap) (s : Machine) (rs : List Request) :
    evictions cfg heap s rs ≤ rs.length := by
  induction rs generalizing s with
  | nil => exact le_rfl
  | cons r rs ih =>
    have hstep : (if evicts cfg s r then 1 else 0) ≤ 1 := by split_ifs <;> omega
    rw [evictions, List.length_cons]
    cases serveRequest cfg heap s r with
    | none =>
      dsimp only
      omega
    | some p =>
      have hrest := ih p.2
      dsimp only
      omega

/-- A request the loop is analysed for: in range, and not one more eviction than the `int`
counter of `fifo` can count. -/
def Admissible (cfg : Config) (s : Machine) (r : Request) : Prop :=
  r.InRange cfg ∧ (evicts cfg s r → FifoSafe cfg s)

/-- The effect of one request on a regular state. -/
inductive Served (cfg : Config) (s : Machine) (r : Request) : Reply → Machine → Prop
  | hit (t : Machine) : (s.pte r.page).valid = true → Hit cfg s r.page (r.type = 'W') t →
      Served cfg s r
        (.access true ((s.pte r.page).PFN * 256 + r.offset)
          ((storeByte r (s.pte r.page).PFN t).PHYSICAL_MEM (s.pte r.page).PFN))
        (storeByte r (s.pte r.page).PFN t)
  | fault (f : ℤ) (t : Machine) : (s.pte r.page).valid = false →
      Fault cfg s r.page (r.type = 'W') f t →
      Served cfg s r
        (.access false (f * 256 + r.offset) ((storeByte r f t).PHYSICAL_MEM f)) (storeByte r f t)

theorem storeByte_rest (r : Request) (f : ℤ) (s : Machine) :
    storeByte r f s = { s with PHYSICAL_MEM := (storeByte r f s).PHYSICAL_MEM } := by
  unfold storeByte
  split_ifs <;> rfl

theorem storeByte_memory (r : Request) (f g : ℤ) (s : Machine) :
    (storeByte r f s).PHYSICAL_MEM g =
      if r.type = 'W' ∧ g = f then r.byte else s.PHYSICAL_MEM g := by
  unfold storeByte
  by_cases hw : r.type = 'W' <;> simp [hw, Function.update_apply]

theorem storeByte_pte (r : Request) (f : ℤ) (s : Machine) (q : IPTE) :
    (storeByte r f s).pte q = s.pte q := by
  rw [storeByte_rest]
  rfl

theorem storeByte_swap (r : Request) (f : ℤ) (s : Machine) (q : IPTE) :
    (storeByte r f s).swap q = s.swap q := by
  rw [storeByte_rest]
  rfl

/-- Two resident pages never share a frame. -/
theorem Inverse.frame_ne {cfg : Config} {s : Machine} (h : Inverse cfg s) {p q : IPTE}
    (hp : cfg.InRange p) (hpv : (s.pte p).valid = true) (hq : cfg.InRange q)
    (hqv : (s.pte q).valid = true) (hne : q ≠ p) : (s.pte q).PFN ≠ (s.pte p).PFN := by
  intro he
  have h1 := (h.valid q hq hqv).2.2
  have h2 := (h.valid p hp hpv).2.2
  rw [he, h2, Option.some_inj] at h1
  exact hne h1.symm

theorem Fault.frame_bounds {cfg : Config} {s t : Machine} {p : IPTE} {d : Bool} {f : ℤ}
    (h : Fault cfg s p d f t) (hs : Inverse cfg s) :
    0 ≤ f ∧ f < cfg.MAX_PFN ∧ f < t.nextFreeFrame ∧ t.nextFreeFrame ≤ cfg.MAX_PFN := by
  have h0 := hs.frames
  rcases h.frame with ⟨hf, hmax, hn, _⟩ | ⟨u, _, hf0, hf1, hfull, hn, _⟩ <;> omega

/-- A regular state serves every admissible request. -/
theorem served_exists (cfg : Config) (heap : Heap) (s : Machine) (r : Request)
    (hmax : 1 ≤ cfg.MAX_PFN) (hs : Regular cfg s) (hr : Admissible cfg s r) :
    ∃ reply t, serveRequest cfg heap s r = some (reply, t) ∧ Served cfg s r reply t := by
  obtain ⟨hin, hsafe⟩ := hr
  rw [serveRequest_eq cfg heap s r hin]
  have hcases := mmu_cases cfg heap s r.page r.type hmax hin.type hin.page hs.inverse hs.queued
    (fun hv hfull => hsafe ⟨hv, hfull.ge⟩)
  rcases hcases with ⟨hv, t, hmmu, ht⟩ | ⟨hv, f, t, hmmu, ht⟩
  · change MMU cfg heap r.pid r.VPN r.type s = _ at hmmu
    obtain ⟨h0, h1, _⟩ := hs.inverse.valid r.page hin.page hv
    have h2 := hs.inverse.frames.2
    refine ⟨_, _, ?_, .hit t hv ht⟩
    rw [hmmu, Option.map_some, accessMemory_eq cfg r _ _ _ hin.type h0 (by omega)]
  · change MMU cfg heap r.pid r.VPN r.type s = _ at hmmu
    obtain ⟨h0, h1, _⟩ := ht.frame_bounds hs.inverse
    refine ⟨_, _, ?_, .fault f t hv ht⟩
    rw [hmmu, Option.map_some, accessMemory_eq cfg r _ _ _ hin.type h0 h1]

theorem Inverse.of_hit {cfg : Config} {s t : Machine} {p : IPTE} {w : Bool}
    (h : Inverse cfg s) (ht : Hit cfg s p w t) : Inverse cfg t := by
  have hpte (q : IPTE) : (t.pte q).valid = (s.pte q).valid ∧ (t.pte q).PFN = (s.pte q).PFN := by
    rw [ht.pte q]
    split_ifs with hq
    · rw [hq.1]
      exact ⟨rfl, rfl⟩
    · exact ⟨rfl, rfl⟩
  constructor
  · rw [ht.nextFreeFrame]
    exact h.frames
  · intro q hq hv
    rw [(hpte q).1] at hv
    rw [(hpte q).2, ht.nextFreeFrame, ht.inverted]
    exact h.valid q hq hv
  · intro f h0 h1
    rw [ht.nextFreeFrame] at h1
    obtain ⟨q, hq, hstored, hv, hf⟩ := h.stored f h0 h1
    exact ⟨q, hq, by rw [ht.inverted, hstored], by rw [(hpte q).1, hv], by rw [(hpte q).2, hf]⟩
  · intro f hf
    rw [ht.nextFreeFrame] at hf
    rw [ht.inverted]
    exact h.fresh f hf

/-- Filling a frame: the page it held loses its entry, the new page takes it. -/
theorem Inverse.of_fault {cfg : Config} {s t : Machine} {p : IPTE} {d : Bool} {f : ℤ}
    (h : Inverse cfg s) (hp : cfg.InRange p) (hpv : (s.pte p).valid = false)
    (ht : Fault cfg s p d f t) : Inverse cfg t := by
  have hb := ht.frame_bounds h
  have hn : t.nextFreeFrame = max s.nextFreeFrame (f + 1) := by
    rcases ht.frame with ⟨hf, _, hn, _⟩ | ⟨u, _, _, hf1, _, hn, _⟩ <;> omega
  constructor
  · exact ⟨by omega, hb.2.2.2⟩
  · intro q hq hv
    rw [ht.pte q] at hv ⊢
    by_cases hqp : q = p
    · subst hqp
      rw [if_pos rfl] at hv ⊢
      exact ⟨hb.1, hb.2.2.1, by rw [ht.inverted, if_pos rfl]⟩
    · -- Of the other pages only the one that held the frame is no longer valid.
      rw [if_neg hqp] at hv ⊢
      by_cases hstored : s.invertedPageTable f = some q
      · rw [if_pos hstored] at hv
        exact absurd hv (by simp)
      · rw [if_neg hstored] at hv ⊢
        obtain ⟨h0, h1, h2⟩ := h.valid q hq hv
        have hne : (s.pte q).PFN ≠ f := fun he => hstored (he ▸ h2)
        exact ⟨h0, by omega, by rw [ht.inverted, if_neg hne, h2]⟩
  · intro g h0 h1
    by_cases hg : g = f
    · subst hg
      exact ⟨p, hp, by rw [ht.inverted, if_pos rfl], by rw [ht.pte, if_pos rfl],
        by rw [ht.pte, if_pos rfl]⟩
    · have hgs : g < s.nextFreeFrame := by
        rcases ht.frame with ⟨hf, _, hn, _⟩ | ⟨u, _, _, hf1, _, hn, _⟩ <;> omega
      obtain ⟨q, hq, hstored, hv, hf⟩ := h.stored g h0 hgs
      -- A page in another frame is not the page that held this one.
      have hnot : s.invertedPageTable f ≠ some q := by
        intro he
        rcases ht.frame with ⟨hff, _⟩ | ⟨u, _, hf0, hf1, _⟩
        · rw [h.fresh f hff.ge] at he
          exact absurd he (by simp)
        · obtain ⟨q', _, hs', _, hf'⟩ := h.stored f hf0 hf1
          rw [hs', Option.some_inj] at he
          subst he
          omega
      have hqp : q ≠ p := by
        rintro rfl
        rw [hpv] at hv
        exact Bool.noConfusion hv
      exact ⟨q, hq, by rw [ht.inverted, if_neg hg, hstored],
        by rw [ht.pte, if_neg hqp, if_neg hnot, hv],
        by rw [ht.pte, if_neg hqp, if_neg hnot, hf]⟩
  · intro g hg
    rw [ht.inverted, if_neg (by omega)]
    exact h.fresh g (by omega)

theorem Queued.of_hit {cfg : Config} {s t : Machine} {p : IPTE} {w : Bool}
    (h : Queued cfg s) (hs : Inverse cfg s) (hp : cfg.InRange p)
    (hv : (s.pte p).valid = true) (ht : Hit cfg s p w t) : Queued cfg t := by
  constructor
  · intro hpol
    rw [ht.i]
    exact h.fifo hpol
  · intro hpol
    obtain ⟨hnd, hmem⟩ := h.lru hpol
    have hin : (s.pte p).PFN ∈ s.head :=
      (hmem _).mpr ⟨(hs.valid p hp hv).1, (hs.valid p hp hv).2.1⟩
    have hperm : t.head.Perm s.head := by
      rw [ht.head, touchFrame_head, if_pos hpol]
      exact (List.perm_append_singleton _ _).trans (List.perm_cons_erase hin).symm
    refine ⟨hperm.nodup_iff.mpr hnd, fun f => ?_⟩
    rw [hperm.mem_iff, hmem, ht.nextFreeFrame]
  · intro hpol
    have hdata : t.clockHead.map ClockNode.data = s.clockHead.map ClockNode.data := by
      rw [ht.clockHead, touchFrame_clockHead, if_pos hpol, clockListUpdateRef_data]
    rw [hdata, ht.nextFreeFrame]
    exact h.clock hpol

/-- A list that names each of the first `n` frames once, with the next frame behind. -/
theorem frames_concat {l : List ℤ} {n : ℤ} (hnd : l.Nodup) (hmem : ∀ g, g ∈ l ↔ 0 ≤ g ∧ g < n)
    (hn : 0 ≤ n) : (l ++ [n]).Nodup ∧ ∀ g, g ∈ l ++ [n] ↔ 0 ≤ g ∧ g < n + 1 := by
  constructor
  · apply hnd.append (List.nodup_singleton n)
    intro g hg hgn
    have hlt := ((hmem g).mp hg).2
    rw [List.mem_singleton.mp hgn] at hlt
    exact lt_irrefl n hlt
  · intro g
    rw [List.mem_append, hmem, List.mem_singleton]
    omega

/-- The lists after a fault: the frame filled is at the tail, the others are those left by
the victim's removal. -/
theorem Queued.of_fault {cfg : Config} {s t : Machine} {p : IPTE} {d : Bool} {f : ℤ}
    (h : Queued cfg s) (hs : Inverse cfg s)
    (hsafe : cfg.MAX_PFN ≤ s.nextFreeFrame → FifoSafe cfg s) (ht : Fault cfg s p d f t) :
    Queued cfg t := by
  have h0 := hs.frames
  rcases ht.frame with ⟨rfl, hlt, hn, _, hi, hhead, hclock⟩ |
    ⟨u, hvic, hf0, hf1, hfull, hn, _, hi, hhead, hclock⟩
  · constructor
    · intro hpol
      rw [hi]
      exact h.fifo hpol
    · intro hpol
      obtain ⟨hnd, hmem⟩ := h.lru hpol
      rw [hhead, insertFrameNode_head, if_pos hpol, hn]
      exact frames_concat hnd hmem h0.1
    · intro hpol
      obtain ⟨hnd, hmem⟩ := h.clock hpol
      rw [hclock, insertFrameNode_clockHead, if_pos hpol, hn, List.map_append, List.map_singleton]
      exact frames_concat hnd hmem h0.1
  · -- The victim leaves the head of its list and comes back at the tail.
    constructor
    · intro hpol
      have hlo := h.fifo hpol
      obtain ⟨-, hu⟩ := hvic.fifo_eq hpol
      have hsucc := h.toInt_succ hpol (hsafe hfull.ge)
      rw [hi, hu]
      dsimp only
      omega
    · intro hpol
      obtain ⟨hnd, hmem⟩ := h.lru hpol
      have hperm : t.head.Perm s.head := by
        rw [hhead, insertFrameNode_head, if_pos hpol]
        obtain ⟨rest, hcons, hu⟩ := hvic.lru_eq hpol
        rw [hcons, hu]
        exact List.perm_append_singleton _ _
      refine ⟨hperm.nodup_iff.mpr hnd, fun g => ?_⟩
      rw [hperm.mem_iff, hmem, hn]
    · intro hpol
      obtain ⟨hnd, hmem⟩ := h.clock hpol
      have hperm : (t.clockHead.map ClockNode.data).Perm (s.clockHead.map ClockNode.data) := by
        rw [hclock, insertFrameNode_clockHead, if_pos hpol]
        obtain ⟨n, rest, hloop, hf, hu⟩ := hvic.clock_eq hpol
        rw [List.map_append, List.map_singleton, hf, hu]
        exact (List.perm_append_singleton _ _).trans (clockLoop_perm _ _ hloop)
      refine ⟨hperm.nodup_iff.mpr hnd, fun g => ?_⟩
      rw [hperm.mem_iff, hmem, hn]

theorem Regular.of_served {cfg : Config} {s t : Machine} {r : Request} {reply : Reply}
    (h : Regular cfg s) (hr : Admissible cfg s r) (ht : Served cfg s r reply t) :
    Regular cfg t := by
  obtain ⟨hin, hsafe⟩ := hr
  cases ht with
  | hit t hv ht =>
    have h1 := h.inverse.of_hit ht
    have h2 := h.queued.of_hit h.inverse hin.page hv ht
    rw [storeByte_rest]
    exact ⟨⟨h1.frames, h1.valid, h1.stored, h1.fresh⟩, ⟨h2.fifo, h2.lru, h2.clock⟩⟩
  | fault f t hv ht =>
    have h1 := h.inverse.of_fault hin.page hv ht
    have h2 := h.queued.of_fault h.inverse (fun hfull => hsafe ⟨hv, hfull⟩) ht
    rw [storeByte_rest]
    exact ⟨⟨h1.frames, h1.valid, h1.stored, h1.fresh⟩, ⟨h2.fifo, h2.lru, h2.clock⟩⟩

theorem regular_init (cfg : Config) (heap : Heap) (hmax : 1 ≤ cfg.MAX_PFN) :
    Regular cfg (init cfg heap) := by
  refine ⟨⟨⟨le_rfl, by change (0 : ℤ) ≤ _; omega⟩, ?_, ?_, fun _ _ => rfl⟩, ⟨?_, ?_, ?_⟩⟩
  · intro p hp hv
    simp [Machine.pte, Machine.readPTE, init, hp] at hv
  · intro f h0 h1
    change f < 0 at h1
    omega
  · intro _
    change -1 ≤ (-1 : BitVec 32).toInt
    decide
  · intro _
    refine ⟨List.nodup_nil, fun f => ?_⟩
    change f ∈ [] ↔ 0 ≤ f ∧ f < 0
    simp
  · intro _
    refine ⟨List.nodup_nil, fun f => ?_⟩
    change f ∈ [] ↔ 0 ≤ f ∧ f < 0
    simp

/-- The counter moves only when a page is evicted. -/
theorem Served.counter_le {cfg : Config} {s t : Machine} {r : Request} {reply : Reply}
    (h : Served cfg s r reply t) (hs : Regular cfg s) (hr : Admissible cfg s r)
    (hpol : cfg.replacementPolicy = .FIFO) :
    t.i.toInt ≤ s.i.toInt + (if evicts cfg s r then 1 else 0) := by
  cases h with
  | hit t hv ht =>
    rw [storeByte_rest]
    dsimp only
    rw [ht.i]
    split_ifs <;> omega
  | fault f t hv ht =>
    rw [storeByte_rest]
    dsimp only
    rcases ht.frame with ⟨_, _, _, _, hi, _⟩ | ⟨u, hvic, _, _, hfull, _, _, hi, _⟩
    · rw [hi]
      split_ifs <;> omega
    · have he : evicts cfg s r := ⟨hv, hfull.ge⟩
      obtain ⟨-, hu⟩ := hvic.fifo_eq hpol
      rw [if_pos he, hi, hu]
      exact (hs.queued.toInt_succ hpol (hr.2 he)).le

/-- Fewer than 2^31 evictions keep the counter of `fifo` from wrapping at every step. -/
theorem admissible_of_evictions (cfg : Config) (heap : Heap) (hmax : 1 ≤ cfg.MAX_PFN)
    (s : Machine) (rs : List Request) (hs : Regular cfg s) (hrs : ∀ r ∈ rs, r.InRange cfg)
    (hfifo : cfg.replacementPolicy = .FIFO →
      s.i.toInt + 1 + evictions cfg heap s rs < 2^31) :
    Mealy.Meets (serveRequest cfg heap) (Admissible cfg) s rs := by
  induction rs generalizing s with
  | nil => trivial
  | cons r rs ih =>
    have hr : Admissible cfg s r := by
      refine ⟨hrs r List.mem_cons_self, fun he hpol => ?_⟩
      have h := hfifo hpol
      simp only [evictions, if_pos he] at h
      omega
    refine ⟨hr, fun reply t hst => ?_⟩
    obtain ⟨reply', t', hserve, hserved⟩ := served_exists cfg heap s r hmax hs hr
    rw [hst, Option.some_inj] at hserve
    cases hserve
    refine ih t (hs.of_served hr hserved) (fun q hq => hrs q (List.mem_cons_of_mem r hq)) ?_
    intro hpol
    have h := hfifo hpol
    simp only [evictions, hst] at h
    have hi := hserved.counter_le hs hr hpol
    push_cast at h
    split_ifs at h hi <;> omega

/-- The loop of `main` over complete in-range requests is the plain run of `serveRequest`. -/
theorem mainLoop_requests (cfg : Config) (heap : Heap) (s t : Machine) (rs : List Request)
    (replies : List Reply) (hrun : Mealy.run (serveRequest cfg heap) s rs = some (replies, t))
    (haccess : ∀ reply ∈ replies, reply.byte?.isSome) :
    mainLoop cfg heap s (rs.map .request) = some (replies, t) := by
  induction rs generalizing s replies with
  | nil => simpa [mainLoop] using hrun
  | cons r rs ih =>
    obtain ⟨reply, u, qs, hserve, hr, rfl⟩ := (Mealy.run_cons_iff _ _ _ _ _ _).mp hrun
    have hq := ih u qs hr fun q hq => haccess q (List.mem_cons_of_mem reply hq)
    cases reply with
    | access hit addr byte =>
      have hline : serveLine cfg heap s (.request r) = some (.access hit addr byte, u) := hserve
      rw [List.map_cons, mainLoop_cons cfg heap _ hline fun _ => Reply.noConfusion, hq]
      rfl
    | _ => simpa [Reply.byte?] using haccess _ List.mem_cons_self

theorem requests_admissible (cfg : Config) (heap : Heap) (hmax : 1 ≤ cfg.MAX_PFN)
    (rs : List Request) (hrs : ∀ r ∈ rs, r.InRange cfg)
    (hfifo : cfg.replacementPolicy = .FIFO → evictions cfg heap (init cfg heap) rs < 2^31) :
    Mealy.Meets (serveRequest cfg heap) (Admissible cfg) (init cfg heap) rs := by
  refine admissible_of_evictions cfg heap hmax _ rs (regular_init cfg heap hmax) hrs ?_
  intro hpol
  have h := hfifo hpol
  change (-1 : BitVec 32).toInt + 1 + _ < 2^31
  rw [show (-1 : BitVec 32).toInt = -1 from by decide]
  omega

/-- What holds at first and is kept by every request served holds at the end of the input; it may
speak of what has been asked and answered so far. -/
theorem requests_history (cfg : Config) (heap : Heap) (hmax : 1 ≤ cfg.MAX_PFN)
    (rs : List Request)
    (hok : Mealy.Meets (serveRequest cfg heap) (Admissible cfg) (init cfg heap) rs)
    (I : List (Request × Reply) → Machine → Prop) (hinit : I [] (init cfg heap))
    (hstep : ∀ past s r reply t, Regular cfg s → I past s → Admissible cfg s r →
      Served cfg s r reply t → I (past ++ [(r, reply)]) t) :
    ∃ replies s, Mealy.run (serveRequest cfg heap) (init cfg heap) rs = some (replies, s) ∧
      mainLoop cfg heap (init cfg heap) (rs.map .request) = some (replies, s) ∧
      replies.length = rs.length ∧ Regular cfg s ∧ I (rs.zip replies) s := by
  obtain ⟨replies, s, hrun, hlen, haccess, hs, hI⟩ := Mealy.history (Admissible cfg)
    (fun past s => (∀ a ∈ past, a.2.byte?.isSome) ∧ Regular cfg s ∧ I past s)
    (fun past s r hs hr => by
      obtain ⟨reply, t, hserve, hserved⟩ := served_exists cfg heap s r hmax hs.2.1 hr
      refine ⟨reply, t, hserve, ?_, hs.2.1.of_served hr hserved,
        hstep past s r reply t hs.2.1 hs.2.2 hr hserved⟩
      intro a ha
      rcases List.mem_append.mp ha with ha | ha
      · exact hs.1 a ha
      · rw [List.mem_singleton.mp ha]
        cases hserved <;> rfl)
    ⟨fun a ha => absurd ha List.not_mem_nil, regular_init cfg heap hmax, hinit⟩ hok
  rw [List.nil_append] at haccess hI
  refine ⟨replies, s, hrun, mainLoop_requests cfg heap _ _ rs replies hrun ?_, hlen, hs, hI⟩
  intro reply hreply
  have hzip : (rs.zip replies).map Prod.snd = replies := List.map_snd_zip hlen.le
  rw [← hzip] at hreply
  obtain ⟨a, ha, rfl⟩ := List.mem_map.mp hreply
  exact haccess a ha

/-- The resident pages. -/
def resident (cfg : Config) (s : Machine) : Finset (ℤ × ℤ) :=
  ((Int.range 0 cfg.MAX_PID).toFinset ×ˢ (Int.range 0 cfg.MAX_VPN).toFinset).filter
    fun p => (s.readPTE p.1 p.2).valid = true

theorem mem_resident (cfg : Config) (s : Machine) (p : IPTE) :
    (p.pid, p.VPN) ∈ resident cfg s ↔ cfg.InRange p ∧ (s.pte p).valid = true := by
  simp [resident, Config.InRange, Machine.pte, Int.mem_range_iff, and_assoc]

/-- Resident pages and frames handed out correspond one to one. -/
theorem card_resident (cfg : Config) (s : Machine) (h : Inverse cfg s) :
    ((resident cfg s).card : ℤ) = s.nextFreeFrame := by
  have himage : (resident cfg s).image (fun p => (s.readPTE p.1 p.2).PFN) =
      Finset.Ico 0 s.nextFreeFrame := by
    ext f
    simp only [Finset.mem_image, Finset.mem_Ico]
    constructor
    · rintro ⟨p, hp, rfl⟩
      obtain ⟨hin, hv⟩ := (mem_resident cfg s ⟨p.1, p.2⟩).mp hp
      exact ⟨(h.valid _ hin hv).1, (h.valid _ hin hv).2.1⟩
    · rintro ⟨h0, h1⟩
      obtain ⟨p, hin, _, hv, hf⟩ := h.stored f h0 h1
      exact ⟨(p.pid, p.VPN), (mem_resident cfg s p).mpr ⟨hin, hv⟩, hf⟩
  have hinj : Set.InjOn (fun p : ℤ × ℤ => (s.readPTE p.1 p.2).PFN) (resident cfg s) := by
    intro p hp q hq he
    obtain ⟨hpin, hpv⟩ := (mem_resident cfg s ⟨p.1, p.2⟩).mp hp
    obtain ⟨hqin, hqv⟩ := (mem_resident cfg s ⟨q.1, q.2⟩).mp hq
    have h1 := (h.valid _ hpin hpv).2.2
    have h2 := (h.valid _ hqin hqv).2.2
    change (s.pte ⟨p.1, p.2⟩).PFN = (s.pte ⟨q.1, q.2⟩).PFN at he
    rw [he, h2, Option.some_inj, IPTE.mk.injEq] at h1
    exact Prod.ext h1.1.symm h1.2.symm
  have h0 := h.frames.1
  rw [← Finset.card_image_of_injOn hinj, himage, Int.card_Ico]
  omega

end OperatingSystems.VM
