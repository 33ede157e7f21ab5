import OperatingSystems.VMInverse

/-! Paged memory refines a flat memory with one byte per page, whatever the policy and
the number of frames. -/
namespace OperatingSystems.VM

/-- The flat memory: a W stores its byte, then the byte of the page is shown. -/
def flatStep (mem : IPTE → Char) (r : Request) : Char × (IPTE → Char) :=
  let mem := if r.type = 'W' then Function.update mem r.page r.byte else mem
  (mem r.page, mem)

/-- The byte of the last W to page `p` among past requests, or the swap disk's initial byte. -/
def latestWrite (past : List Request) (p : IPTE) : Char :=
  match (past.filter fun w => w.type = 'W' ∧ w.page = p).getLast? with
  | some w => w.byte
  | none => 'A'

/-- Where the byte of each page is kept: in its frame while it is resident, else on the swap
disk. -/
def Transparent (cfg : Config) (s : Machine) (mem : IPTE → Char) : Prop :=
  ∀ p, cfg.InRange p → mem p = if (s.pte p).valid then s.PHYSICAL_MEM (s.pte p).PFN else s.swap p

theorem transparent_init (cfg : Config) (heap : Heap) :
    Transparent cfg (init cfg heap) fun _ => 'A' := by
  intro p hp
  simp [Machine.pte, Machine.readPTE, Machine.swap, init, hp]

/-- Storing the request's byte in the frame of its page is the flat memory's store. -/
theorem Transparent.storeByte {cfg : Config} {s : Machine} {mem : IPTE → Char} {r : Request}
    {f : ℤ} (h : Transparent cfg s mem) (hs : Inverse cfg s) (hr : cfg.InRange r.page)
    (hv : (s.pte r.page).valid = true) (hf : (s.pte r.page).PFN = f) :
    Transparent cfg (storeByte r f s) (flatStep mem r).2 ∧
      (VM.storeByte r f s).PHYSICAL_MEM f = (flatStep mem r).1 := by
  have hpage := h r.page hr
  rw [if_pos hv, hf] at hpage
  by_cases hw : r.type = 'W'
  · refine ⟨fun q hq => ?_, by simp [flatStep, storeByte_memory, hw]⟩
    have hmem := h q hq
    simp only [flatStep, hw, if_true, storeByte_pte, storeByte_swap, storeByte_memory, true_and]
    by_cases hqr : q = r.page
    · rw [hqr, Function.update_self, if_pos hv, if_pos hf]
    · rw [Function.update_of_ne hqr, hmem]
      by_cases hqv : (s.pte q).valid = true
      · have hne : (s.pte q).PFN ≠ f := hf ▸ hs.frame_ne hr hv hq hqv hqr
        rw [if_pos hqv, if_pos hqv, if_neg hne]
      · rw [if_neg hqv, if_neg hqv]
  · refine ⟨fun q hq => ?_, by simp [flatStep, storeByte_memory, hw, hpage]⟩
    simp only [flatStep, hw, if_false, storeByte_pte, storeByte_swap, storeByte_memory, false_and]
    exact h q hq

theorem Transparent.of_hit {cfg : Config} {s t : Machine} {mem : IPTE → Char} {p : IPTE}
    {w : Bool} (h : Transparent cfg s mem) (ht : Hit cfg s p w t) : Transparent cfg t mem := by
  intro q hq
  rw [h q hq, ht.pte q, ht.memory, ht.swap]
  split_ifs with h1 <;> simp_all

/-- A fault brings in the page's byte and takes the victim's byte out. -/
theorem Transparent.of_fault {cfg : Config} {s t : Machine} {mem : IPTE → Char} {p : IPTE}
    {d : Bool} {f : ℤ} (h : Transparent cfg s mem) (hs : Inverse cfg s)
    (hpv : (s.pte p).valid = false) (ht : Fault cfg s p d f t) : Transparent cfg t mem := by
  intro q hq
  rw [h q hq, ht.pte q, ht.swap q]
  by_cases hqp : q = p
  · subst hqp
    rw [if_pos rfl, hpv]
    simp only [Bool.false_eq_true, if_false, if_true]
    rw [ht.memory, if_pos rfl]
  · rw [if_neg hqp]
    by_cases hstored : s.invertedPageTable f = some q
    · -- the victim's byte moves from frame `f` to the swap disk
      obtain ⟨hv, hframe⟩ : (s.pte q).valid = true ∧ (s.pte q).PFN = f := by
        rcases ht.frame with ⟨hff, _⟩ | ⟨u, _, hf0, hf1, _⟩
        · rw [hs.fresh f hff.ge] at hstored
          exact absurd hstored (by simp)
        · obtain ⟨q', _, hs', hv', hf'⟩ := hs.stored f hf0 hf1
          rw [hs', Option.some_inj] at hstored
          subst hstored
          exact ⟨hv', hf'⟩
      simp [hstored, hv, hframe]
    · rw [if_neg hstored, if_neg hstored]
      by_cases hv : (s.pte q).valid = true
      · have hne : (s.pte q).PFN ≠ f := fun he => hstored (he ▸ (hs.valid q hq hv).2.2)
        rw [if_pos hv, if_pos hv, ht.memory, if_neg hne]
      · rw [if_neg hv, if_neg hv]

theorem Transparent.of_served {cfg : Config} {s t : Machine} {mem : IPTE → Char} {r : Request}
    {reply : Reply} (h : Transparent cfg s mem) (hs : Regular cfg s) (hr : r.InRange cfg)
    (ht : Served cfg s r reply t) :
    Transparent cfg t (flatStep mem r).2 ∧ reply.byte? = some (flatStep mem r).1 := by
  cases ht with
  | hit t hv ht =>
    have hpte : (t.pte r.page).valid = true ∧ (t.pte r.page).PFN = (s.pte r.page).PFN := by
      rw [ht.pte]
      split_ifs <;> exact ⟨hv, rfl⟩
    obtain ⟨h1, h2⟩ := (h.of_hit ht).storeByte (hs.inverse.of_hit ht) hr.page hpte.1 hpte.2
    exact ⟨h1, congrArg some h2⟩
  | fault f t hv ht =>
    have hpte : t.pte r.page = ⟨f, true, r.type = 'W'⟩ := by rw [ht.pte, if_pos rfl]
    obtain ⟨h1, h2⟩ := (h.of_fault hs.inverse hv ht).storeByte
      (hs.inverse.of_fault hr.page hv ht) hr.page (by rw [hpte]) (by rw [hpte])
    exact ⟨h1, congrArg some h2⟩

/-- The flat memory holds, at each page, the byte of the latest write to it. -/
theorem flat_memory_latest (past : List Request) (p : IPTE) :
    Mealy.final flatStep (fun _ => 'A') past p = latestWrite past p := by
  have hsnoc (mem : IPTE → Char) (rs : List Request) (r : Request) :
      Mealy.final flatStep mem (rs ++ [r]) = (flatStep (Mealy.final flatStep mem rs) r).2 := by
    induction rs generalizing mem with
    | nil => rfl
    | cons a rs ih => exact ih (flatStep mem a).2
  induction past using List.reverseRecOn with
  | nil => rfl
  | append_singleton past r ih =>
    rw [hsnoc]
    by_cases hw : r.type = 'W' ∧ r.page = p
    · obtain ⟨hw, rfl⟩ := hw
      simp [flatStep, latestWrite, hw]
    · have hlatest : latestWrite (past ++ [r]) p = latestWrite past p := by
        simp [latestWrite, hw]
      rw [hlatest, ← ih]
      by_cases hw' : r.type = 'W'
      · have hne : p ≠ r.page := fun he => hw ⟨hw', he.symm⟩
        simp [flatStep, hw', Function.update_of_ne hne]
      · simp [flatStep, hw']

/-- Paged memory is transparent: under every policy and every number of frames, the requests
are answered as by a flat memory of one byte per page, so a read returns the byte of the latest
earlier write to its page, or the swap disk's initial byte. -/
theorem paged_memory_transparent (cfg : Config) (heap : Heap) (hmax : 1 ≤ cfg.MAX_PFN)
    (rs : List Request) (hrs : ∀ r ∈ rs, r.InRange cfg)
    (hfifo : cfg.replacementPolicy = .FIFO → evictions cfg heap (init cfg heap) rs < 2^31) :
    ∃ replies s, mainLoop cfg heap (init cfg heap) (rs.map .request) = some (replies, s) ∧
      replies.map Reply.byte? = (Mealy.outputs flatStep (fun _ => 'A') rs).map some ∧
      ∀ k r, rs[k]? = some r → r.type = 'R' → ∃ reply, replies[k]? = some reply ∧
        reply.byte? = some (latestWrite (rs.take k) r.page) := by
  obtain ⟨replies, s, hrun, hout, _⟩ := Mealy.refines flatStep
    (fun reply byte => reply.byte? = some byte) (Admissible cfg)
    (fun s mem => Regular cfg s ∧ Transparent cfg s mem)
    (fun s mem r hs hr => by
      obtain ⟨reply, t, hserve, hserved⟩ := served_exists cfg heap s r hmax hs.1 hr
      obtain ⟨h1, h2⟩ := hs.2.of_served hs.1 hr.1 hserved
      exact ⟨reply, t, hserve, h2, hs.1.of_served hr hserved, h1⟩)
    ⟨regular_init cfg heap hmax, transparent_init cfg heap⟩
    (requests_admissible cfg heap hmax rs hrs hfifo)
  have hbytes : replies.map Reply.byte? =
      (Mealy.outputs flatStep (fun _ => 'A') rs).map some :=
    List.forall₂_eq_eq_eq ▸ List.forall₂_map_left_iff.mpr (List.forall₂_map_right_iff.mpr hout)
  refine ⟨replies, s, mainLoop_requests cfg heap _ _ rs replies hrun ?_, hbytes, ?_⟩
  · intro reply hreply
    have hmem := List.mem_map_of_mem (f := Reply.byte?) hreply
    rw [hbytes] at hmem
    obtain ⟨c, _, hc⟩ := List.mem_map.mp hmem
    rw [← hc]
    rfl
  · intro k r hk htype
    have hget : (replies.map Reply.byte?)[k]? = some (some (latestWrite (rs.take k) r.page)) := by
      rw [hbytes, List.getElem?_map, Mealy.outputs_getElem?, hk, ← flat_memory_latest]
      simp [flatStep, htype]
    rw [List.getElem?_map] at hget
    exact Option.map_eq_some_iff.mp hget

/-- The Belady trace under FIFO with three frames, read back. -/
theorem paged_memory_transparent_belady :
    ∃ replies s, mainLoop (beladyConfig 3 .FIFO) staleHeap (init (beladyConfig 3 .FIFO) staleHeap)
        (beladyTrace.map .request) = some (replies, s) ∧
      replies.map Reply.byte? = "abcdabeabcde".toList.map some := by
  obtain ⟨replies, s, hrun, hbytes, _⟩ := paged_memory_transparent (beladyConfig 3 .FIFO) staleHeap
    (by decide) beladyTrace (by decide) (fun _ => by decide +kernel)
  refine ⟨replies, s, hrun, hbytes.trans ?_⟩
  decide

end OperatingSystems.VM
