import OperatingSystems.VMInverse

/-! Which entries of the inverted page table the page-fault handler goes by. The functions of
`pagetable.c` are written once more with a log of the calls that such an entry indexes. -/
namespace OperatingSystems.VM

/-- The calls of the handler that take their indices from an inverted entry. -/
inductive Call
  | readPTE
  | swapOut
  deriving DecidableEq, Repr

/-- A call with the entry that was read for it, and what had been stored in the frame's slot. -/
structure Consult where
  call : Call
  PFN : ℤ
  ipte : IPTE
  stored : Option IPTE
  deriving DecidableEq, Repr

/-- The entry is one that `write_IPTE` stored, and its page is one of the configuration. -/
def Consult.Exists (cfg : Config) (c : Consult) : Prop :=
  c.stored = some c.ipte ∧ cfg.InRange c.ipte

instance (cfg : Config) (c : Consult) : Decidable (c.Exists cfg) :=
  inferInstanceAs (Decidable (_ ∧ _))

def evictPageLogged (heap : Heap) (PFN : ℤ) (s : Machine) : List Consult × Machine :=
  let ipte := s.readIPTE heap PFN
  let stored := s.invertedPageTable PFN
  let pte := s.readPTE ipte.pid ipte.VPN
  let log := [⟨.readPTE, PFN, ipte, stored⟩]
  let s := swapOut ipte.pid ipte.VPN pte.PFN s
  let log := log ++ [⟨.swapOut, PFN, ipte, stored⟩]
  (log, s.writePTE ipte.pid ipte.VPN { pte with valid := false })

def loadPageLogged (heap : Heap) (pid VPN : ℤ) (type : Char) (PFN : ℤ) (s : Machine) :
    List Consult × Machine :=
  let ipte := s.readIPTE heap PFN
  let stored := s.invertedPageTable PFN
  let pte := s.readPTE ipte.pid ipte.VPN
  let log := [⟨.readPTE, PFN, ipte, stored⟩]
  let pte := if type = 'W' then { pte with dirty := true }
    else if type = 'R' then { pte with dirty := false } else pte
  let s := swapIn pid VPN PFN s
  let s := s.writeIPTE PFN ⟨pid, VPN⟩
  (log, s.writePTE pid VPN { pte with valid := true, PFN := PFN })

def pagefaultHandlerLogged (cfg : Config) (heap : Heap) (pid VPN : ℤ) (type : Char) (s : Machine) :
    Option (List Consult × ℤ × Machine) := do
  let (PFN, s) := getFreeframe cfg s
  let (log, PFN, s) ←
    if PFN < 0 then do
      let (PFN, s) ← findReplacement cfg s
      let (log, s) := evictPageLogged heap PFN (removeVictimNode cfg s)
      pure (log, PFN, s)
    else pure ([], PFN, s)
  let (log', s) := loadPageLogged heap pid VPN type PFN (insertFrameNode cfg PFN s)
  return (log ++ log', PFN, s)

def MMULogged (cfg : Config) (heap : Heap) (pid VPN : ℤ) (type : Char) (s : Machine) :
    Option (List Consult × ℤ × Bool × Machine) :=
  let (PFN, s) := isPageHit cfg pid VPN type s
  if PFN ≥ 0 then
    some ([], PFN, true, { s with stats := { s.stats with hitCount := s.stats.hitCount + 1 } })
  else do
    let s := { s with stats := { s.stats with missCount := s.stats.missCount + 1 } }
    let (log, PFN, s) ← pagefaultHandlerLogged cfg heap pid VPN type s
    return (log, PFN, false, s)

/-- The calls made while request `r` is served. -/
def consults (cfg : Config) (heap : Heap) (s : Machine) (r : Request) : List Consult :=
  ((MMULogged cfg heap r.pid r.VPN r.type s).map Prod.fst).getD []

/-- Every call of the handler, in every request of the run, goes by an entry that exists. -/
def ConsultsExist (cfg : Config) (heap : Heap) (rs : List Request) : Prop :=
  ∀ k (hk : k < rs.length) replies s,
    mainLoop cfg heap (init cfg heap) ((rs.take k).map .request) = some (replies, s) →
      ∀ c ∈ consults cfg heap s rs[k], c.Exists cfg

section erasure
variable (cfg : Config) (heap : Heap) (pid VPN PFN : ℤ) (type : Char) (s : Machine)

theorem evictPageLogged_snd : (evictPageLogged heap PFN s).2 = evictPage heap PFN s := rfl

theorem loadPageLogged_snd :
    (loadPageLogged heap pid VPN type PFN s).2 = loadPage heap pid VPN type PFN s := rfl

theorem pagefaultHandlerLogged_snd :
    (pagefaultHandlerLogged cfg heap pid VPN type s).map Prod.snd =
      pagefaultHandler cfg heap pid VPN type s := by
  unfold pagefaultHandlerLogged pagefaultHandler
  rcases getFreeframe cfg s with ⟨f, t⟩
  by_cases hf : f < 0
  · simp only [if_pos hf]
    cases findReplacement cfg t <;> rfl
  · simp only [if_neg hf]
    rfl

/-- The log takes no part in what the MMU does. -/
theorem mmuLogged_snd :
    (MMULogged cfg heap pid VPN type s).map Prod.snd = MMU cfg heap pid VPN type s := by
  unfold MMULogged MMU
  rcases isPageHit cfg pid VPN type s with ⟨f, t⟩
  by_cases hf : f ≥ 0
  · simp only [if_pos hf]
    rfl
  · simp only [if_neg hf]
    rw [← pagefaultHandlerLogged_snd]
    cases pagefaultHandlerLogged cfg heap pid VPN type _ <;> rfl

end erasure

/-- What the log says of an entry: the slot's value, or what `malloc` left. -/
def consulted (heap : Heap) (call : Call) (PFN : ℤ) (stored : Option IPTE) : Consult :=
  ⟨call, PFN, stored.getD (heap.ipte PFN), stored⟩

section logs
variable (heap : Heap) (pid VPN PFN : ℤ) (type : Char) (s : Machine)

theorem evictPageLogged_fst : (evictPageLogged heap PFN s).1 =
    [consulted heap .readPTE PFN (s.invertedPageTable PFN),
      consulted heap .swapOut PFN (s.invertedPageTable PFN)] := rfl

theorem loadPageLogged_fst : (loadPageLogged heap pid VPN type PFN s).1 =
    [consulted heap .readPTE PFN (s.invertedPageTable PFN)] := rfl

end logs

theorem consulted_exists_iff (cfg : Config) (heap : Heap) (call : Call) (PFN : ℤ)
    (stored : Option IPTE) : (consulted heap call PFN stored).Exists cfg ↔
      ∃ p, stored = some p ∧ cfg.InRange p := by
  cases stored with
  | none => simp [consulted, Consult.Exists]
  | some p => simp [consulted, Consult.Exists]

variable {cfg : Config} {s : Machine} {r : Request}

/-- A hit consults nothing. -/
theorem consults_hit (heap : Heap) (hs : Inverse cfg s) (hr : r.InRange cfg)
    (hv : (s.pte r.page).valid = true) : consults cfg heap s r = [] := by
  obtain ⟨h0, -⟩ := hs.valid r.page hr.page hv
  have hhit : (isPageHit cfg r.pid r.VPN r.type s).1 = (s.pte r.page).PFN := by
    change (if (s.pte r.page).valid then _ else _ : ℤ × Machine).1 = _
    rw [if_pos hv]
    rfl
  simp only [consults, MMULogged]
  rw [if_pos (by omega)]
  rfl

/-- A fault logs what the handler logs. -/
theorem consults_miss (heap : Heap) (hv : (s.pte r.page).valid = false) :
    consults cfg heap s r = ((pagefaultHandlerLogged cfg heap r.pid r.VPN r.type
      { s with stats := { s.stats with missCount := s.stats.missCount + 1 } }).map
        Prod.fst).getD [] := by
  change (s.readPTE r.pid r.VPN).valid = false at hv
  simp only [consults, MMULogged, isPageHit, hv, Bool.false_eq_true, if_false]
  rw [if_neg (by decide)]
  cases pagefaultHandlerLogged cfg heap r.pid r.VPN r.type
    { s with stats := { s.stats with missCount := s.stats.missCount + 1 } } <;> rfl

/-- A frame used for the first time: the handler reads its inverted entry, which nobody stored. -/
theorem consults_free (heap : Heap) (hs : Inverse cfg s) (hv : (s.pte r.page).valid = false)
    (hfree : s.nextFreeFrame < cfg.MAX_PFN) :
    consults cfg heap s r = [consulted heap .readPTE s.nextFreeFrame none] := by
  set s₁ : Machine := { s with stats := { s.stats with missCount := s.stats.missCount + 1 } }
    with hs₁
  let s₂ : Machine := { s₁ with nextFreeFrame := s.nextFreeFrame + 1 }
  let u := insertFrameNode cfg s.nextFreeFrame s₂
  have hget : getFreeframe cfg s₁ = (s.nextFreeFrame, s₂) := by
    simp only [getFreeframe]
    rw [if_neg (by simp only [s₁]; omega)]
  have hhandler : (pagefaultHandlerLogged cfg heap r.pid r.VPN r.type s₁).map Prod.fst =
      some ([] ++ (loadPageLogged heap r.pid r.VPN r.type s.nextFreeFrame u).1) := by
    simp only [pagefaultHandlerLogged, hget]
    rw [if_neg (by have := hs.frames.1; omega)]
    rfl
  have hnone : u.invertedPageTable s.nextFreeFrame = none := by
    simp only [u]
    rw [insertFrameNode_rest]
    exact hs.fresh s.nextFreeFrame le_rfl
  rw [consults_miss heap hv, hhandler, loadPageLogged_fst, hnone]
  rfl

/-- With every frame in use, the entry is the victim's, before and after the eviction. -/
theorem consults_evict (heap : Heap) (hmax : 1 ≤ cfg.MAX_PFN) (hs : Inverse cfg s)
    (hq : Queued cfg s) (hv : (s.pte r.page).valid = false)
    (hfull : s.nextFreeFrame = cfg.MAX_PFN) (hfifo : FifoSafe cfg s) :
    ∃ f p, s.invertedPageTable f = some p ∧ cfg.InRange p ∧ consults cfg heap s r =
      [consulted heap .readPTE f (some p), consulted heap .swapOut f (some p),
        consulted heap .readPTE f (some p)] := by
  set s₁ : Machine := { s with stats := { s.stats with missCount := s.stats.missCount + 1 } }
    with hs₁
  obtain ⟨f, u, hfind, hvic, h0, h1⟩ := victim_exists cfg s₁ hmax
    ⟨hq.fifo, hq.lru, hq.clock⟩ hfull hfifo
  obtain ⟨p, hp, hstored, -⟩ := hs.stored f h0 h1
  let w := insertFrameNode cfg f (evictPage heap f u)
  have hget : getFreeframe cfg s₁ = (-1, s₁) := by
    simp only [getFreeframe]
    rw [if_pos (by simp only [s₁]; omega)]
  have hhandler : (pagefaultHandlerLogged cfg heap r.pid r.VPN r.type s₁).map Prod.fst =
      some ((evictPageLogged heap f u).1 ++ (loadPageLogged heap r.pid r.VPN r.type f w).1) := by
    obtain ⟨q, hq, he⟩ := Option.map_eq_some_iff.mp hfind
    cases he
    simp only [pagefaultHandlerLogged, hget, hq]
    rfl
  -- neither the choice of the victim nor its eviction touches the inverted page table
  have hu : u.invertedPageTable f = some p := by
    rw [hvic.rest]
    exact hstored
  have hw : w.invertedPageTable f = some p := by
    simp only [w]
    rw [insertFrameNode_rest]
    exact hu
  refine ⟨f, p, hstored, hp, ?_⟩
  rw [consults_miss heap hv, hhandler, evictPageLogged_fst, loadPageLogged_fst, hu, hw]
  rfl

/-- One request: the entries consulted exist unless the page comes into a frame never used. -/
theorem consults_exist_iff (heap : Heap) (hmax : 1 ≤ cfg.MAX_PFN) (hs : Regular cfg s)
    (hr : Admissible cfg s r) :
    (∀ c ∈ consults cfg heap s r, c.Exists cfg) ↔
      (s.pte r.page).valid = true ∨ s.nextFreeFrame = cfg.MAX_PFN := by
  obtain ⟨hin, hsafe⟩ := hr
  have hframes := hs.inverse.frames.2
  cases hv : (s.pte r.page).valid with
  | true =>
    rw [consults_hit heap hs.inverse hin hv]
    simp
  | false =>
    by_cases hfull : s.nextFreeFrame = cfg.MAX_PFN
    · obtain ⟨f, p, -, hp, hlog⟩ :=
        consults_evict heap hmax hs.inverse hs.queued hv hfull (hsafe ⟨hv, hfull.ge⟩)
      have hexists (call : Call) : (consulted heap call f (some p)).Exists cfg :=
        (consulted_exists_iff cfg heap call f (some p)).mpr ⟨p, rfl, hp⟩
      rw [hlog]
      simp [hfull, hexists]
    · have hlog := consults_free heap hs.inverse hv (by omega)
      rw [hlog]
      simp [hfull, consulted_exists_iff]

/-- In every run each request is answered from a state in which the entries it consults exist
exactly if its page is resident or no frame is free; and as the first request of a run always
takes a frame never used, only the empty run consults nothing but entries that exist. -/
theorem handler_consults_iff (cfg : Config) (heap : Heap) (hmax : 1 ≤ cfg.MAX_PFN)
    (rs : List Request) (hrs : ∀ r ∈ rs, r.InRange cfg)
    (hfifo : cfg.replacementPolicy = .FIFO → evictions cfg heap (init cfg heap) rs < 2^31) :
    (∀ k (hk : k < rs.length), ∃ replies s,
      mainLoop cfg heap (init cfg heap) ((rs.take k).map .request) = some (replies, s) ∧
        ((∀ c ∈ consults cfg heap s rs[k], c.Exists cfg) ↔
          (s.pte rs[k].page).valid = true ∨ s.nextFreeFrame = cfg.MAX_PFN)) ∧
    (ConsultsExist cfg heap rs ↔ rs = []) := by
  have hok := requests_admissible cfg heap hmax rs hrs hfifo
  constructor
  · intro k hk
    rw [← List.take_append_drop k rs, Mealy.meets_append_iff, List.drop_eq_getElem_cons hk] at hok
    obtain ⟨hpre, hrest⟩ := hok
    obtain ⟨replies, s, hrun, hmain, -, hs, -⟩ := requests_history cfg heap hmax (rs.take k) hpre
      (fun _ _ => True) trivial fun _ _ _ _ _ _ _ _ _ => trivial
    exact ⟨replies, s, hmain, consults_exist_iff heap hmax hs (hrest _ s hrun).1⟩
  · constructor
    · intro h
      cases rs with
      | nil => rfl
      | cons r rs =>
        have hfirst := h 0 (Nat.zero_lt_succ _) [] (init cfg heap) rfl
        have hs := regular_init cfg heap hmax
        have hin := hok.1.1.page
        -- at the start no page is resident and no frame in use
        rcases (consults_exist_iff heap hmax hs hok.1).mp hfirst with hv | hfull
        · have hlt := (hs.inverse.valid r.page hin hv).2.1
          have hge := (hs.inverse.valid r.page hin hv).1
          change _ < (0 : ℤ) at hlt
          omega
        · change (0 : ℤ) = cfg.MAX_PFN at hfull
          omega
    · rintro rfl k hk
      exact absurd hk (Nat.not_lt_zero k)

/-- The Belady trace under FIFO with three frames: its ninth request hits, its tenth evicts. -/
theorem handler_consults_iff_belady :
    ∃ replies s, mainLoop (beladyConfig 3 .FIFO) staleHeap (init (beladyConfig 3 .FIFO) staleHeap)
        ((beladyTrace.take 9).map .request) = some (replies, s) ∧
      ((∀ c ∈ consults (beladyConfig 3 .FIFO) staleHeap s ⟨3, 0, 'R', 0x300, 'e'⟩,
          c.Exists (beladyConfig 3 .FIFO)) ↔
        (s.pte ⟨0, 3⟩).valid = true ∨ s.nextFreeFrame = 3) :=
  (handler_consults_iff (beladyConfig 3 .FIFO) staleHeap (by decide) beladyTrace (by decide)
    (fun _ => by decide +kernel)).1 9 (by decide)

/-- One frame, one page: the first read goes by what `malloc` left. -/
theorem handler_consults_unstored :
    (⟨3, 0, 'R', 0, 'x'⟩ : Request).InRange ⟨1, 1, 1, .ZERO⟩ ∧
      ¬ConsultsExist ⟨1, 1, 1, .ZERO⟩
        ⟨fun _ => ⟨7, 9⟩, fun _ _ => ⟨0, true, true⟩, fun _ => 'x'⟩ [⟨3, 0, 'R', 0, 'x'⟩] := by
  refine ⟨by decide, fun h => ?_⟩
  have hfirst := h 0 (by decide) [] _ rfl ⟨.readPTE, 0, ⟨7, 9⟩, none⟩ (by decide)
  exact absurd hfirst (by decide)

end OperatingSystems.VM
