import OperatingSystems.VMAccess

/-! The dirty bit says whether a resident page was written since it was loaded; a clean page is as
on the swap disk. -/
namespace OperatingSystems.VM

/-- Page `p` was written by a request after which it was not loaded again. -/
def WrittenSinceLoad (past : List (Request × Reply)) (p : IPTE) : Prop :=
  ∃ before r reply after, past = before ++ (r, reply) :: after ∧ r.page = p ∧ r.type = 'W' ∧
    ∀ a ∈ after, a.1.page = p → a.2.isHit = true

/-- What one more request changes: a write counts, a load forgets the writes before it. -/
theorem writtenSinceLoad_concat (past : List (Request × Reply)) (r : Request) (reply : Reply)
    (p : IPTE) : WrittenSinceLoad (past ++ [(r, reply)]) p ↔
      (r.page = p ∧ r.type = 'W') ∨ (WrittenSinceLoad past p ∧ (r.page = p → reply.isHit = true)) := by
  constructor
  · rintro ⟨before, w, reply', after, heq, hp, hw, hafter⟩
    rcases List.eq_nil_or_concat after with rfl | ⟨after, a, rfl⟩
    · obtain ⟨-, he⟩ := List.append_inj' heq rfl
      obtain ⟨rfl, rfl⟩ := Prod.mk.inj (List.cons.inj he).1
      exact Or.inl ⟨hp, hw⟩
    · rw [List.concat_eq_append, ← List.cons_append, ← List.append_assoc] at heq
      obtain ⟨rfl, he⟩ := List.append_inj' heq rfl
      obtain rfl := (List.cons.inj he).1
      refine Or.inr ⟨⟨before, w, reply', after, rfl, hp, hw, fun a ha => ?_⟩, fun hr => ?_⟩
      · exact hafter a (by simp [ha])
      · exact hafter (r, reply) (by simp) hr
  · rintro (⟨hp, hw⟩ | ⟨⟨before, w, reply', after, rfl, hp, hw, hafter⟩, hr⟩)
    · exact ⟨past, r, reply, [], rfl, hp, hw, fun a ha => absurd ha List.not_mem_nil⟩
    · refine ⟨before, w, reply', after ++ [(r, reply)], by simp, hp, hw, fun a ha hap => ?_⟩
      rcases List.mem_append.mp ha with ha | ha
      · exact hafter a ha hap
      · obtain rfl := List.mem_singleton.mp ha
        exact hr hap

/-- The dirty bits are exact, and clean pages have their byte on the swap disk. -/
structure Dirty (cfg : Config) (past : List (Request × Reply)) (s : Machine) : Prop where
  exact : ∀ p, cfg.InRange p → (s.pte p).valid = true →
    ((s.pte p).dirty = true ↔ WrittenSinceLoad past p)
  clean : ∀ p, cfg.InRange p → (s.pte p).valid = true → (s.pte p).dirty = false →
    s.PHYSICAL_MEM (s.pte p).PFN = s.swap p

variable {cfg : Config} {s t u : Machine} {r : Request} {past : List (Request × Reply)}

/-- A store changes the byte of its own page only. -/
theorem storeByte_of_ne (hu : Inverse cfg u) {p q : IPTE} (hp : cfg.InRange p) (hq : cfg.InRange q)
    (hpv : (u.pte p).valid = true) (hqv : (u.pte q).valid = true) (hne : q ≠ p) :
    (storeByte r (u.pte p).PFN u).PHYSICAL_MEM (u.pte q).PFN = u.PHYSICAL_MEM (u.pte q).PFN := by
  have hframe := hu.frame_ne hp hpv hq hqv hne
  rw [storeByte_memory, if_neg fun h => hframe h.2]

/-- A write sets the dirty bit of its page; nothing else changes. -/
theorem Dirty.of_hit (h : Dirty cfg past s) (hs : Regular cfg s) (hr : r.InRange cfg)
    (hv : (s.pte r.page).valid = true) (hu : Hit cfg s r.page (r.type = 'W') u) (addr : ℤ)
    (byte : Char) : Dirty cfg (past ++ [(r, .access true addr byte)])
      (storeByte r (s.pte r.page).PFN u) := by
  have hinv := hs.inverse.of_hit hu
  have hself : u.pte r.page = { s.pte r.page with dirty := (s.pte r.page).dirty || r.type = 'W' } := by
    rw [hu.pte]
    by_cases hw : r.type = 'W' <;> simp [hw]
  have hother (q : IPTE) (hq : q ≠ r.page) : u.pte q = s.pte q := by
    rw [hu.pte, if_neg fun hqr => hq hqr.1]
  have hpfn : (u.pte r.page).PFN = (s.pte r.page).PFN := by rw [hself]
  have hvalid : (u.pte r.page).valid = true := by rw [hself]; exact hv
  rw [← hpfn]
  constructor
  · intro q hq hqv
    rw [storeByte_pte] at hqv ⊢
    rw [writtenSinceLoad_concat]
    by_cases hqr : q = r.page
    · subst hqr
      rw [hself, Bool.or_eq_true, h.exact r.page hq hv, decide_eq_true_eq]
      simp only [Reply.isHit, true_and, and_true, imp_true_iff]
      exact or_comm
    · rw [hother q hqr] at hqv ⊢
      rw [h.exact q hq hqv]
      simp only [Ne.symm hqr, false_and, false_or, false_imp_iff, and_true]
  · intro q hq hqv hd
    rw [storeByte_pte] at hqv hd ⊢
    rw [storeByte_swap, hu.swap]
    by_cases hqr : q = r.page
    · subst hqr
      rw [hself, Bool.or_eq_false_iff, decide_eq_false_iff_not] at hd
      rw [storeByte_memory, if_neg fun hw => hd.2 hw.1, hpfn, hu.memory]
      exact h.clean r.page hq hv hd.1
    · rw [storeByte_of_ne hinv hr.page hq hvalid hqv hqr, hu.memory]
      rw [hother q hqr] at hqv hd ⊢
      exact h.clean q hq hqv hd

/-- A page comes in clean unless it is written at once. -/
theorem Dirty.of_fault (h : Dirty cfg past s) (hs : Regular cfg s) (hr : r.InRange cfg)
    (hv : (s.pte r.page).valid = false) {f : ℤ} (hu : Fault cfg s r.page (r.type = 'W') f u)
    (addr : ℤ) (byte : Char) :
    Dirty cfg (past ++ [(r, .access false addr byte)]) (storeByte r f u) := by
  have hinv := hs.inverse.of_fault hr.page hv hu
  have hself : u.pte r.page = ⟨f, true, r.type = 'W'⟩ := by rw [hu.pte, if_pos rfl]
  have hpfn : (u.pte r.page).PFN = f := by rw [hself]
  have hvalid : (u.pte r.page).valid = true := by rw [hself]
  have hother (q : IPTE) (hq : q ≠ r.page) (hqv : (u.pte q).valid = true) :
      u.pte q = s.pte q ∧ s.invertedPageTable f ≠ some q := by
    rw [hu.pte, if_neg hq] at hqv ⊢
    by_cases hstored : s.invertedPageTable f = some q
    · rw [if_pos hstored] at hqv
      exact absurd hqv (by simp)
    · rw [if_neg hstored]
      exact ⟨rfl, hstored⟩
  constructor
  · intro q hq hqv
    rw [storeByte_pte] at hqv ⊢
    rw [writtenSinceLoad_concat]
    by_cases hqr : q = r.page
    · subst hqr
      simp [hself, Reply.isHit]
    · obtain ⟨he, -⟩ := hother q hqr hqv
      rw [he] at hqv ⊢
      rw [h.exact q hq hqv]
      simp only [Ne.symm hqr, false_and, false_or, false_imp_iff, and_true]
  · intro q hq hqv hd
    rw [storeByte_pte] at hqv hd ⊢
    rw [storeByte_swap]
    by_cases hqr : q = r.page
    · subst hqr
      rw [hself, decide_eq_false_iff_not] at hd
      -- the page just read in is a copy of the swap disk
      rw [storeByte_memory, if_neg fun hw => hd hw.1, hpfn, hu.memory, if_pos rfl, hu.swap,
        if_neg (hu.not_stored hs.inverse hv)]
    · obtain ⟨he, hstored⟩ := hother q hqr hqv
      have hmem := storeByte_of_ne (r := r) hinv hr.page hq hvalid hqv hqr
      rw [hpfn] at hmem
      rw [hmem, hu.swap, if_neg hstored, hu.memory]
      rw [he] at hqv hd ⊢
      have hne : (s.pte q).PFN ≠ f := by
        intro hf
        have h2 := (hs.inverse.valid q hq hqv).2.2
        rw [hf] at h2
        exact hstored h2
      rw [if_neg hne]
      exact h.clean q hq hqv hd

theorem Dirty.of_served {reply : Reply} (h : Dirty cfg past s) (hs : Regular cfg s)
    (hr : r.InRange cfg) (ht : Served cfg s r reply t) :
    Dirty cfg (past ++ [(r, reply)]) t := by
  cases ht with
  | hit u hv hu => exact h.of_hit hs hr hv hu _ _
  | fault f u hv hu => exact h.of_fault hs hr hv hu _ _

theorem dirty_init (cfg : Config) (heap : Heap) : Dirty cfg [] (init cfg heap) := by
  have hinvalid (p : IPTE) (hp : cfg.InRange p) : ((init cfg heap).pte p).valid = false := by
    simp [Machine.pte, Machine.readPTE, init, hp]
  constructor
  · intro p hp hv
    rw [hinvalid p hp] at hv
    exact Bool.noConfusion hv
  · intro p hp hv
    rw [hinvalid p hp] at hv
    exact Bool.noConfusion hv

/-- Under every policy a resident page is dirty exactly if it was written since it was loaded, the
load included, and the byte of a clean page is on the swap disk. -/
theorem dirty_bit_exact (cfg : Config) (heap : Heap) (hmax : 1 ≤ cfg.MAX_PFN)
    (rs : List Request) (hrs : ∀ r ∈ rs, r.InRange cfg)
    (hfifo : cfg.replacementPolicy = .FIFO → evictions cfg heap (init cfg heap) rs < 2^31) :
    ∃ replies s, mainLoop cfg heap (init cfg heap) (rs.map .request) = some (replies, s) ∧
      ∀ pid VPN, cfg.InRange ⟨pid, VPN⟩ → (s.readPTE pid VPN).valid = true →
        ((s.readPTE pid VPN).dirty = true ↔ WrittenSinceLoad (rs.zip replies) ⟨pid, VPN⟩) ∧
        ((s.readPTE pid VPN).dirty = false →
          s.PHYSICAL_MEM (s.readPTE pid VPN).PFN = s.SWAP_DISK pid VPN) := by
  obtain ⟨replies, s, -, hmain, -, -, hs⟩ := requests_history cfg heap hmax rs
    (requests_admissible cfg heap hmax rs hrs hfifo) (Dirty cfg) (dirty_init cfg heap)
    (fun past s r reply t hs hd hr ht => hd.of_served hs hr.1 ht)
  refine ⟨replies, s, hmain, fun pid VPN hp hv => ?_⟩
  exact ⟨hs.exact ⟨pid, VPN⟩ hp hv, hs.clean ⟨pid, VPN⟩ hp hv⟩

/-- The Belady trace under FIFO with three frames. -/
theorem dirty_bit_exact_belady :
    ∃ replies s, mainLoop (beladyConfig 3 .FIFO) staleHeap (init (beladyConfig 3 .FIFO) staleHeap)
        (beladyTrace.map .request) = some (replies, s) ∧
      ∀ pid VPN, (beladyConfig 3 .FIFO).InRange ⟨pid, VPN⟩ →
        (s.readPTE pid VPN).valid = true →
        ((s.readPTE pid VPN).dirty = true ↔
          WrittenSinceLoad (beladyTrace.zip replies) ⟨pid, VPN⟩) := by
  obtain ⟨replies, s, hmain, hs⟩ := dirty_bit_exact (beladyConfig 3 .FIFO) staleHeap (by decide)
    beladyTrace (by decide) (fun _ => by decide +kernel)
  exact ⟨replies, s, hmain, fun pid VPN hp hv => (hs pid VPN hp hv).1⟩

end OperatingSystems.VM
