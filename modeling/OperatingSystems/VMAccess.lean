import OperatingSystems.Frames
import OperatingSystems.VMInverse

/-! What the MMU does with each request of a run: the frame, hit or fault, and the page evicted. -/
namespace OperatingSystems.VM

/-- A request served, with what the MMU did in place of the line that is printed. The victim is
the page that the handler reads from the inverted table of the frame it takes away. -/
def observe (cfg : Config) (heap : Heap) (s : Machine) (r : Request) :
    Option (Frames.Access IPTE × Machine) :=
  (MMU cfg heap r.pid r.VPN r.type s).map fun p =>
    (⟨p.1, p.2.1, if evicts cfg s r then some (s.readIPTE heap p.1) else none⟩,
      (accessMemory cfg r p.1 p.2.1 p.2.2).2)

variable {cfg : Config} {s t : Machine} {r : Request}

/-- The frame a fault takes away holds a resident page, which loses it. -/
theorem Fault.evicted {p : IPTE} {d : Bool} {f : ℤ} (h : Fault cfg s p d f t)
    (hs : Inverse cfg s) (hpv : (s.pte p).valid = false) (hfull : cfg.MAX_PFN ≤ s.nextFreeFrame) :
    ∃ v, s.invertedPageTable f = some v ∧ cfg.InRange v ∧ (s.pte v).valid = true ∧
      (s.pte v).PFN = f ∧ (t.pte v).valid = false := by
  obtain ⟨h0, h1⟩ : 0 ≤ f ∧ f < s.nextFreeFrame := by
    rcases h.frame with ⟨hf, hlt, -⟩ | ⟨u, -, h0, h1, -⟩
    · omega
    · exact ⟨h0, h1⟩
  obtain ⟨v, hv, hstored, hvalid, hframe⟩ := hs.stored f h0 h1
  have hne : v ≠ p := by
    rintro rfl
    rw [hpv] at hvalid
    exact Bool.noConfusion hvalid
  refine ⟨v, hstored, hv, hvalid, hframe, ?_⟩
  rw [h.pte, if_neg hne, if_pos hstored]

/-- The page that comes in was in no frame before. -/
theorem Fault.not_stored {p : IPTE} {d : Bool} {f : ℤ} (h : Fault cfg s p d f t)
    (hs : Inverse cfg s) (hpv : (s.pte p).valid = false) : s.invertedPageTable f ≠ some p := by
  intro hstored
  rcases h.frame with ⟨hf, -⟩ | ⟨u, -, h0, h1, -⟩
  · rw [hs.fresh f hf.ge] at hstored
    cases hstored
  · obtain ⟨v, -, hv, hvalid, -⟩ := hs.stored f h0 h1
    rw [hstored, Option.some_inj] at hv
    rw [← hv, hpv] at hvalid
    exact Bool.noConfusion hvalid

/-- The two ways a request is served, with the access observed. -/
theorem observe_cases (heap : Heap) (hmax : 1 ≤ cfg.MAX_PFN) (hs : Regular cfg s)
    (hr : Admissible cfg s r) :
    ((s.pte r.page).valid = true ∧ ∃ u, Hit cfg s r.page (r.type = 'W') u ∧
        observe cfg heap s r =
          some (⟨(s.pte r.page).PFN, true, none⟩, storeByte r (s.pte r.page).PFN u)) ∨
      ((s.pte r.page).valid = false ∧ ∃ f u, Fault cfg s r.page (r.type = 'W') f u ∧
        observe cfg heap s r =
          some (⟨f, false, if cfg.MAX_PFN ≤ s.nextFreeFrame then s.invertedPageTable f else none⟩,
            storeByte r f u)) := by
  obtain ⟨hin, hsafe⟩ := hr
  rcases mmu_cases cfg heap s r.page r.type hmax hin.type hin.page hs.inverse hs.queued
    (fun hv hfull => hsafe ⟨hv, hfull.ge⟩) with ⟨hv, u, hmmu, hu⟩ | ⟨hv, f, u, hmmu, hu⟩
  · left
    change MMU cfg heap r.pid r.VPN r.type s = _ at hmmu
    obtain ⟨h0, h1, -⟩ := hs.inverse.valid r.page hin.page hv
    have h2 := hs.inverse.frames.2
    have hno : ¬evicts cfg s r := fun he => Bool.noConfusion (hv.symm.trans he.1)
    refine ⟨hv, u, hu, ?_⟩
    rw [observe, hmmu, Option.map_some, accessMemory_eq cfg r _ _ _ hin.type h0 (by omega),
      if_neg hno]
  · right
    change MMU cfg heap r.pid r.VPN r.type s = _ at hmmu
    obtain ⟨h0, h1, -⟩ := hu.frame_bounds hs.inverse
    refine ⟨hv, f, u, hu, ?_⟩
    rw [observe, hmmu, Option.map_some, accessMemory_eq cfg r _ _ _ hin.type h0 h1]
    by_cases hfull : cfg.MAX_PFN ≤ s.nextFreeFrame
    · obtain ⟨v, hstored, -⟩ := hu.evicted hs.inverse hv hfull
      rw [if_pos ⟨hv, hfull⟩, if_pos hfull, readIPTE_of_stored s heap f v hstored, hstored]
    · rw [if_neg fun he : evicts cfg s r => hfull he.2, if_neg hfull]

/-- To observe a request is to serve it. -/
theorem observe_served (heap : Heap) (hr : r.InRange cfg) :
    (serveRequest cfg heap s r).map Prod.snd = (observe cfg heap s r).map Prod.snd := by
  rw [serveRequest_eq cfg heap s r hr, observe, Option.map_map, Option.map_map]
  rfl

end OperatingSystems.VM
