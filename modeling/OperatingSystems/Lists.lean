import OperatingSystems.Links
import OperatingSystems.VMMachine

/-! `list.c` and `clock_list.c` on a heap of nodes. The two files are one text but for the fields
of a node beside its links, so each function is stated once, for values of any type. -/
namespace OperatingSystems.Lists

open Links
open VM (ClockNode)

section functions
variable {α : Type} (data : α → ℤ) (fuel : ℕ) (h : Heap α) (head : Ptr)

def removeTail : Except Fault (Heap α × Ptr) :=
  if head = none then .ok (h, none)
  else do
    let ret ← last h fuel head
    let n ← read h ret
    let h ← setNext h n.prev none
    return (h, head)

def removeHead : Except Fault (Heap α × Ptr) :=
  if head = none then .ok (h, none)
  else do
    let n ← read h head
    if n.next = none then return (h, n.next)
    else
      let h ← setPrev h n.next none
      return (h, n.next)

/-- The loop stops at the first node that holds `x`; what it does there depends on its place. -/
def remove (x : ℤ) : Except Fault (Heap α × Ptr) :=
  if head = none then .ok (h, none)
  else do
    let ret ← search h (fun v => x = data v) fuel head
    if ret = none then return (h, head)
    else if ret = head then removeHead h head
    else
      let n ← read h ret
      if n.next = none then removeTail fuel h head
      else
        -- In a well-formed list both neighbours are there.
        let h ← if n.prev = none then pure h else setNext h n.prev n.next
        let n ← read h ret
        let h ← if n.next = none then pure h else setPrev h n.next n.prev
        return (h, head)

def insertHead (v : α) : Except Fault (Heap α × Ptr) :=
  let (newNode, h) := malloc h v
  if head = none then .ok (h, newNode)
  else do
    let h ← setPrev h head newNode
    let h ← setNext h newNode head
    return (h, newNode)

def insertTail (v : α) : Except Fault (Heap α × Ptr) :=
  let (newNode, h) := malloc h v
  if head = none then .ok (h, newNode)
  else do
    let temp ← last h fuel head
    let h ← setNext h temp newNode
    let h ← setPrev h newNode temp
    return (h, head)

/-- The values that are printed. -/
def print : Except Fault (List α) := traverse h Node.next fuel head

def reversePrint : Except Fault (List α) :=
  if head = none then .ok []
  else do
    let temp ← last h fuel head
    traverse h Node.prev fuel temp

end functions

/-! ### `list.c` -/

def listRemoveTail (fuel : ℕ) (h : Heap ℤ) (head : Ptr) : Except Fault (Heap ℤ × Ptr) :=
  removeTail fuel h head

def listRemoveHead (h : Heap ℤ) (head : Ptr) : Except Fault (Heap ℤ × Ptr) := removeHead h head

def listRemove (fuel : ℕ) (h : Heap ℤ) (head : Ptr) (data : ℤ) : Except Fault (Heap ℤ × Ptr) :=
  remove id fuel h head data

def listInsertHead (h : Heap ℤ) (head : Ptr) (x : ℤ) : Except Fault (Heap ℤ × Ptr) :=
  insertHead h head x

def listInsertTail (fuel : ℕ) (h : Heap ℤ) (head : Ptr) (x : ℤ) : Except Fault (Heap ℤ × Ptr) :=
  insertTail fuel h head x

def listPrint (fuel : ℕ) (h : Heap ℤ) (head : Ptr) : Except Fault (List ℤ) := print fuel h head

def listReversePrint (fuel : ℕ) (h : Heap ℤ) (head : Ptr) : Except Fault (List ℤ) :=
  reversePrint fuel h head

/-! ### `clock_list.c` -/

def clockListRemoveTail (fuel : ℕ) (h : Heap ClockNode) (head : Ptr) :
    Except Fault (Heap ClockNode × Ptr) := removeTail fuel h head

def clockListRemoveHead (h : Heap ClockNode) (head : Ptr) : Except Fault (Heap ClockNode × Ptr) :=
  removeHead h head

def clockListRemove (fuel : ℕ) (h : Heap ClockNode) (head : Ptr) (data : ℤ) :
    Except Fault (Heap ClockNode × Ptr) := remove ClockNode.data fuel h head data

def clockListInsertHead (h : Heap ClockNode) (head : Ptr) (x ref : ℤ) :
    Except Fault (Heap ClockNode × Ptr) := insertHead h head ⟨x, ref⟩

def clockListInsertTail (fuel : ℕ) (h : Heap ClockNode) (head : Ptr) (x ref : ℤ) :
    Except Fault (Heap ClockNode × Ptr) := insertTail fuel h head ⟨x, ref⟩

def clockListUpdateRef (fuel : ℕ) (h : Heap ClockNode) (head : Ptr) (data ref : ℤ) :
    Except Fault (Heap ClockNode × Ptr) := do
  let temp ← search h (fun v => v.data = data) fuel head
  if temp = none then return (h, head)
  else
    let h ← setValue h temp fun v => { v with ref := ref }
    return (h, head)

def clockListPrint (fuel : ℕ) (h : Heap ClockNode) (head : Ptr) : Except Fault (List ClockNode) :=
  print fuel h head

def clockListReversePrint (fuel : ℕ) (h : Heap ClockNode) (head : Ptr) :
    Except Fault (List ClockNode) := reversePrint fuel h head

/-! ### What the functions do to a list -/

section effects
variable {α : Type} {fuel : ℕ} {h : Heap α} {head : Ptr} {xs : List α}

theorem isList_nil (h : Heap α) : IsList h none [] := ⟨[], trivial, rfl, rfl⟩

theorem removeHead_returns (hl : IsList h head xs) : Returns (removeHead h head) xs.tail := by
  obtain ⟨l, hl, rfl, rfl⟩ := hl
  cases l with
  | nil => exact ⟨h, none, rfl, isList_nil h⟩
  | cons c l =>
    rw [removeHead, first_cons, if_neg (Option.some_ne_none _), read_eq hl.1, ok_bind]
    cases l with
    | nil => exact ⟨h, none, rfl, isList_nil h⟩
    | cons d l =>
      have hd := (List.nodup_cons.mp hl.2.nodup).1
      obtain ⟨h', hset, hl', -⟩ := hl.2.setPrev_eq hd none
      refine ⟨h', some d.1, ?_, d :: l, hl', rfl, rfl⟩
      refine (if_neg (Option.some_ne_none _)).trans ?_
      dsimp only [first_cons]
      rw [hset]
      rfl

/-- With two or more nodes the node before the last becomes the last. -/
theorem removeTail_concat {l : List (ℕ × α)} {c d : ℕ × α}
    (hl : Chain h none (l ++ [c] ++ [d]) none) (hfuel : l.length + 1 < fuel) :
    Returns (removeTail fuel h (first (l ++ [c] ++ [d]) none)) ((l ++ [c]).map Prod.snd) := by
  have hlen : (l ++ [c]).length < fuel := by rwa [List.length_append]
  have hlast := hl.last_eq hlen
  have hc : c.1 ∉ l.map Prod.fst := by
    rw [List.append_assoc] at hl
    exact hl.notMem
  obtain ⟨hinit, hnode, -⟩ := (chain_append h none none (l ++ [c]) [d]).mp hl
  rw [final_concat] at hnode
  -- The link back from `d`, left there by earlier calls, is what leads to `c`.
  obtain ⟨h', hset, hl', -⟩ := hinit.setNext_eq hc none
  obtain ⟨e, -, hfirst⟩ := first_concat l c
  rw [first_append, hfirst] at hlast ⊢
  refine ⟨h', some e.1, ?_, l ++ [c], hl', (hfirst none).symm, rfl⟩
  rw [removeTail, if_neg (Option.some_ne_none _), hlast, ok_bind, read_eq hnode, ok_bind]
  dsimp only
  rw [hset]
  rfl

/-- The only node of a list has no node before it, whose link could be cut. -/
theorem removeTail_single {x : α} (hl : IsList h head [x]) (hfuel : 1 ≤ fuel) :
    removeTail fuel h head = .error .null := by
  obtain ⟨l, hl, rfl, hx⟩ := hl
  obtain ⟨c, rfl, -⟩ := List.map_eq_singleton_iff.mp hx
  have hlast : last h fuel (some c.1) = .ok (some c.1) := Chain.last_eq (l := []) hl hfuel
  rw [removeTail, first_cons, if_neg (Option.some_ne_none _), hlast, ok_bind, read_eq hl.1]
  rfl

theorem insertHead_returns (hl : IsList h head xs) (v : α) :
    Returns (insertHead h head v) (v :: xs) := by
  obtain ⟨l, hl, rfl, rfl⟩ := hl
  have hfresh := hl.fresh
  have hnew := chain_malloc h v
  cases l with
  | nil => exact ⟨_, some h.length, rfl, _, hnew, rfl, rfl⟩
  | cons c l =>
    rw [List.map_cons, List.mem_cons, not_or] at hfresh
    have hc := (List.nodup_cons.mp hl.nodup).1
    obtain ⟨h₁, hset₁, hl₁, hrest₁⟩ := (hl.of_malloc v).setPrev_eq hc (some h.length)
    -- The new node still stands alone, a chain of its own.
    have hnew₁ := hrest₁ _ _ _ (by simpa using Ne.symm hfresh.1) hnew
    obtain ⟨h₂, hset₂, hnew₂, hrest₂⟩ :=
      Chain.setNext_eq (l := []) hnew₁ List.not_mem_nil (some c.1)
    refine ⟨h₂, some h.length, ?_, (h.length, v) :: c :: l, ⟨hnew₂.1, hrest₂ _ _ _ ?_ hl₁⟩,
      rfl, rfl⟩
    · rw [insertHead, first_cons]
      dsimp only [malloc] at hset₁ hset₂ ⊢
      rw [if_neg (Option.some_ne_none _), hset₁, ok_bind, hset₂]
      rfl
    · rwa [List.map_cons, List.mem_cons, not_or]

theorem insertTail_returns (hl : IsList h head xs) (hfuel : xs.length ≤ fuel) (v : α) :
    Returns (insertTail fuel h head v) (xs ++ [v]) := by
  obtain ⟨l, hl, rfl, rfl⟩ := hl
  have hfresh := hl.fresh
  have hnew := chain_malloc h v
  rcases List.eq_nil_or_concat l with rfl | ⟨l, c, rfl⟩
  · exact ⟨_, some h.length, rfl, _, hnew, rfl, rfl⟩
  · rw [List.concat_eq_append] at *
    have hc := hl.notMem
    rw [List.length_map, List.length_append, List.length_singleton] at hfuel
    rw [List.map_append, List.mem_append, not_or] at hfresh
    have hlast := (hl.of_malloc v).last_eq hfuel
    -- The old last node is linked to the new one, then the new one back to it.
    obtain ⟨h₁, hset₁, hl₁, hrest₁⟩ := (hl.of_malloc v).setNext_eq hc (some h.length)
    have hnew₁ := hrest₁ _ _ _ (by simpa [eq_comm] using hfresh.2) hnew
    obtain ⟨h₂, hset₂, hnew₂, hrest₂⟩ := hnew₁.setPrev_eq List.not_mem_nil (some c.1)
    obtain ⟨e, -, hfirst⟩ := first_concat l c
    rw [hfirst] at hlast ⊢
    refine ⟨h₂, some e.1, ?_, l ++ [c] ++ [(h.length, v)], ?_, ?_, ?_⟩
    · rw [insertTail]
      dsimp only [malloc] at hlast hset₁ hset₂ ⊢
      rw [if_neg (Option.some_ne_none _), hlast, ok_bind, hset₁, ok_bind, hset₂]
      rfl
    · rw [chain_append, final_concat]
      refine ⟨hrest₂ _ _ _ ?_ hl₁, hnew₂⟩
      rwa [List.map_append, List.mem_append, not_or]
    · rw [first_append, hfirst]
    · rw [List.map_append, List.map_singleton]

/-- The loop of `remove` and `update_ref` on a list of cells: it passes those before the first
that has the value it looks for. -/
theorem split_first (test : α → Bool) (l : List (ℕ × α)) :
    (∀ c ∈ l, ¬test c.2) ∨ ∃ l₁ c l₂, l = l₁ ++ c :: l₂ ∧ (∀ d ∈ l₁, ¬test d.2) ∧ test c.2 := by
  induction l with
  | nil => exact Or.inl fun c hc => absurd hc List.not_mem_nil
  | cons c l ih =>
    by_cases hc : test c.2
    · exact Or.inr ⟨[], c, l, rfl, fun d hd => absurd hd List.not_mem_nil, hc⟩
    · rcases ih with hall | ⟨l₁, d, l₂, rfl, hall, hd⟩
      · exact Or.inl (List.forall_mem_cons.mpr ⟨hc, hall⟩)
      · exact Or.inr ⟨c :: l₁, d, l₂, rfl, List.forall_mem_cons.mpr ⟨hc, hall⟩, hd⟩

/-- A node between two others: the links of both neighbours pass over it. -/
theorem remove_middle {data : α → ℤ} {x : ℤ} {l m : List (ℕ × α)} {b c d : ℕ × α}
    (hl : Chain h none (l ++ [b] ++ c :: d :: m) none)
    (hfail : ∀ e ∈ l ++ [b], ¬decide (x = data e.2)) (hc : decide (x = data c.2))
    (hfuel : l.length + 1 < fuel) :
    Returns (remove data fuel h (first (l ++ [b] ++ c :: d :: m) none) x)
      ((l ++ [b] ++ d :: m).map Prod.snd) := by
  have hnd := hl.nodup
  simp only [List.map_append, List.map_cons, List.map_nil, List.nodup_append, List.nodup_cons,
    List.mem_append, List.mem_cons, List.not_mem_nil, or_false] at hnd
  have hsearch := hl.search_found (fun v => x = data v) hfail hc (by
    rwa [List.length_append])
  obtain ⟨hinit, hnode, hrest⟩ := (chain_append h none none (l ++ [b]) (c :: d :: m)).mp hl
  rw [final_concat] at hnode
  -- `ret->prev->next = ret->next`, then `ret->next->prev = ret->prev`.
  obtain ⟨h₁, hset₁, hinit₁, hkeep₁⟩ := hinit.setNext_eq (by grind) (some d.1)
  have hnode₁ : h₁[c.1]? = some ⟨c.2, some d.1, some b.1⟩ :=
    (hkeep₁ (some b.1) [c] (some d.1) (by grind) ⟨hnode, trivial⟩).1
  have hrest₁ := hkeep₁ _ _ _ (by grind) hrest
  obtain ⟨h₂, hset₂, hrest₂, hkeep₂⟩ := hrest₁.setPrev_eq (by grind) (some b.1)
  obtain ⟨e, he, hfirst⟩ := first_concat l b
  have hhead : some c.1 ≠ some e.1 := by grind
  rw [first_append, hfirst] at hsearch ⊢
  refine ⟨h₂, some e.1, ?_, l ++ [b] ++ d :: m, ?_, by rw [first_append, hfirst], rfl⟩
  · rw [remove, if_neg (Option.some_ne_none _), hsearch, ok_bind, if_neg (Option.some_ne_none _),
      if_neg hhead, read_eq hnode, ok_bind]
    simp only [first_cons, reduceCtorEq, if_false]
    rw [hset₁, ok_bind, read_eq hnode₁, ok_bind]
    simp only [reduceCtorEq, if_false]
    rw [hset₂]
    rfl
  · rw [chain_append, final_concat]
    exact ⟨hkeep₂ _ _ _ (by grind) hinit₁, hrest₂⟩

theorem remove_first {data : α → ℤ} {x : ℤ} {l : List (ℕ × α)} {c : ℕ × α}
    (hl : Chain h none (c :: l) none) (hc : decide (x = data c.2)) (hfuel : 0 < fuel) :
    Returns (remove data fuel h (some c.1) x) (l.map Prod.snd) := by
  have hsearch := Chain.search_found (l := []) (fun v => x = data v) hl
    (fun d hd => absurd hd List.not_mem_nil) hc hfuel
  rw [List.nil_append, first_cons] at hsearch
  rw [remove, if_neg (Option.some_ne_none _), hsearch, ok_bind, if_neg (Option.some_ne_none _),
    if_pos rfl]
  exact removeHead_returns ⟨c :: l, hl, rfl, rfl⟩

theorem remove_last {data : α → ℤ} {x : ℤ} {l : List (ℕ × α)} {b c : ℕ × α}
    (hl : Chain h none (l ++ [b] ++ [c]) none)
    (hfail : ∀ e ∈ l ++ [b], ¬decide (x = data e.2)) (hc : decide (x = data c.2))
    (hfuel : l.length + 1 < fuel) :
    Returns (remove data fuel h (first (l ++ [b] ++ [c]) none) x) ((l ++ [b]).map Prod.snd) := by
  have hsearch := hl.search_found (fun v => x = data v) hfail hc (by
    rwa [List.length_append])
  have htail := removeTail_concat hl hfuel
  obtain ⟨-, hnode, -⟩ := (chain_append h none none (l ++ [b]) [c]).mp hl
  obtain ⟨e, he, hfirst⟩ := first_concat l b
  have hhead : some c.1 ≠ some e.1 := fun heq =>
    hl.notMem (Option.some_inj.mp heq ▸ List.mem_map_of_mem he)
  rw [first_append, hfirst] at hsearch htail ⊢
  rw [remove, if_neg (Option.some_ne_none _), hsearch, ok_bind, if_neg (Option.some_ne_none _),
    if_neg hhead, read_eq hnode, ok_bind]
  exact htail

theorem remove_returns (data : α → ℤ) (x : ℤ) (hl : IsList h head xs) (hfuel : xs.length ≤ fuel) :
    Returns (remove data fuel h head x) (xs.eraseP fun v => x = data v) := by
  have hxs := hl
  obtain ⟨cells, hl, rfl, rfl⟩ := hl
  rw [List.length_map] at hfuel
  rcases split_first (fun v => x = data v) cells with hall | ⟨l, c, m, rfl, hfail, hc⟩
  · rw [List.eraseP_of_forall_not (List.forall_mem_map.mpr hall)]
    refine ⟨h, _, ?_, hxs⟩
    rw [remove, hl.search_none hall hfuel]
    cases cells <;> rfl
  · rw [List.length_append, List.length_cons] at hfuel
    have herase : ((l ++ c :: m).map Prod.snd).eraseP (fun v => x = data v) =
        (l ++ m).map Prod.snd := by
      rw [List.map_append, List.eraseP_append_right _ (List.forall_mem_map.mpr hfail),
        List.map_cons, List.eraseP_cons_of_pos (p := fun v => x = data v) hc, List.map_append]
    rw [herase]
    rcases List.eq_nil_or_concat l with rfl | ⟨l, b, rfl⟩
    · exact remove_first hl hc (by omega)
    · rw [List.concat_eq_append] at *
      rw [List.length_append, List.length_singleton] at hfuel
      cases m with
      | nil =>
        rw [List.append_nil]
        exact remove_last hl hfail hc (by omega)
      | cons d m => exact remove_middle hl hfail hc (by omega)

theorem print_eq (hl : IsList h head xs) (hfuel : xs.length ≤ fuel) :
    print fuel h head = .ok xs := by
  obtain ⟨l, hl, rfl, rfl⟩ := hl
  rw [List.length_map] at hfuel
  exact hl.forward hfuel

theorem reversePrint_eq (hl : IsList h head xs) (hfuel : xs.length ≤ fuel) :
    reversePrint fuel h head = .ok xs.reverse := by
  obtain ⟨l, hl, rfl, rfl⟩ := hl
  rw [List.length_map] at hfuel
  rcases List.eq_nil_or_concat l with rfl | ⟨l, c, rfl⟩
  · rfl
  · rw [List.concat_eq_append] at *
    have hback := hl.backward hfuel
    rw [List.length_append, List.length_singleton] at hfuel
    obtain ⟨e, -, hfirst⟩ := first_concat l c
    have hlast := hl.last_eq hfuel
    rw [hfirst] at hlast ⊢
    rw [reversePrint, if_neg (Option.some_ne_none _), hlast, ok_bind, ← hback, final_concat]

theorem prev_head {n : Node α} (hl : IsList h head xs) (hn : read h head = .ok n) :
    n.prev = none := by
  obtain ⟨l, hl, rfl, rfl⟩ := hl
  cases l with
  | nil => cases hn
  | cons c l =>
    rw [first_cons, read_eq hl.1, Except.ok.injEq] at hn
    rw [← hn]

end effects

theorem clockListUpdateRef_append {l m : List ClockNode} {v : ClockNode} {data ref : ℤ}
    (hfail : ∀ u ∈ l, ¬u.data = data) (hv : v.data = data) :
    VM.clockListUpdateRef (l ++ v :: m) data ref = l ++ { v with ref := ref } :: m := by
  induction l with
  | nil => exact if_pos hv
  | cons u l ih =>
    rw [List.cons_append, VM.clockListUpdateRef, if_neg (hfail u List.mem_cons_self),
      ih fun w hw => hfail w (List.mem_cons_of_mem u hw), List.cons_append]

theorem clockListUpdateRef_of_forall {l : List ClockNode} {data : ℤ} (ref : ℤ)
    (hfail : ∀ u ∈ l, ¬u.data = data) : VM.clockListUpdateRef l data ref = l := by
  induction l with
  | nil => rfl
  | cons u l ih =>
    rw [VM.clockListUpdateRef, if_neg (hfail u List.mem_cons_self),
      ih fun w hw => hfail w (List.mem_cons_of_mem u hw)]

theorem clockListUpdateRef_returns {fuel : ℕ} {h : Heap ClockNode} {head : Ptr}
    {xs : List ClockNode} (data ref : ℤ) (hl : IsList h head xs) (hfuel : xs.length ≤ fuel) :
    Returns (clockListUpdateRef fuel h head data ref) (VM.clockListUpdateRef xs data ref) := by
  have hxs := hl
  obtain ⟨cells, hl, rfl, rfl⟩ := hl
  rw [List.length_map] at hfuel
  rcases split_first (fun v => v.data = data) cells with hall | ⟨l, c, m, rfl, hfail, hc⟩
  · have hnone : ∀ v ∈ cells.map Prod.snd, ¬v.data = data :=
      List.forall_mem_map.mpr fun c hc => by simpa using hall c hc
    rw [clockListUpdateRef_of_forall ref hnone]
    refine ⟨h, _, ?_, hxs⟩
    rw [clockListUpdateRef, hl.search_none hall hfuel]
    rfl
  · rw [List.length_append, List.length_cons] at hfuel
    have hlt : l.length < fuel := by omega
    have hsearch := hl.search_found (fun v => v.data = data) hfail hc hlt
    have hbefore : ∀ v ∈ l.map Prod.snd, ¬v.data = data :=
      List.forall_mem_map.mpr fun d hd => by simpa using hfail d hd
    have hafter : c.1 ∉ m.map Prod.fst := by
      have hrest := ((chain_append h none none l (c :: m)).mp hl).2
      exact (List.nodup_cons.mp hrest.nodup).1
    obtain ⟨h₁, hset, hl₁⟩ := hl.setValue_eq hl.notMem hafter fun v => { v with ref := ref }
    refine ⟨h₁, first (l ++ c :: m) none, ?_, _, hl₁, ?_, ?_⟩
    · rw [clockListUpdateRef, hsearch, ok_bind, if_neg (Option.some_ne_none _), hset]
      rfl
    · cases l <;> rfl
    · rw [List.map_append, List.map_append, List.map_cons, List.map_cons,
        clockListUpdateRef_append hbefore (by simpa using hc)]

/-! ### Sequences of calls -/

inductive ListCall
  | insertHead (x : ℤ)
  | insertTail (x : ℤ)
  | removeHead
  | remove (data : ℤ)

def ListCall.exec (fuel : ℕ) (h : Heap ℤ) (head : Ptr) :
    ListCall → Except Fault (Heap ℤ × Ptr)
  | .insertHead x => listInsertHead h head x
  | .insertTail x => listInsertTail fuel h head x
  | .removeHead => listRemoveHead h head
  | .remove data => listRemove fuel h head data

/-- The sequence that the list stands for; the simulator's own model of `list.c` where it has one. -/
def ListCall.apply (xs : List ℤ) : ListCall → List ℤ
  | .insertHead x => x :: xs
  | .insertTail x => VM.listInsertTail xs x
  | .removeHead => VM.listRemoveHead xs
  | .remove data => VM.listRemove xs data

inductive ClockListCall
  | insertHead (x ref : ℤ)
  | insertTail (x ref : ℤ)
  | removeHead
  | remove (data : ℤ)
  | updateRef (data ref : ℤ)

def ClockListCall.exec (fuel : ℕ) (h : Heap ClockNode) (head : Ptr) :
    ClockListCall → Except Fault (Heap ClockNode × Ptr)
  | .insertHead x ref => clockListInsertHead h head x ref
  | .insertTail x ref => clockListInsertTail fuel h head x ref
  | .removeHead => clockListRemoveHead h head
  | .remove data => clockListRemove fuel h head data
  | .updateRef data ref => clockListUpdateRef fuel h head data ref

def ClockListCall.apply (xs : List ClockNode) : ClockListCall → List ClockNode
  | .insertHead x ref => ⟨x, ref⟩ :: xs
  | .insertTail x ref => VM.clockListInsertTail xs x ref
  | .removeHead => VM.clockListRemoveHead xs
  | .remove data => xs.eraseP fun v => data = v.data
  | .updateRef data ref => VM.clockListUpdateRef xs data ref

theorem ListCall.exec_returns {fuel : ℕ} (h : Heap ℤ) (head : Ptr) (xs : List ℤ) (k : ListCall)
    (hl : IsList h head xs) (hfuel : xs.length ≤ fuel) :
    Returns (k.exec fuel h head) (k.apply xs) := by
  cases k with
  | insertHead x => exact insertHead_returns hl x
  | insertTail x => exact insertTail_returns hl hfuel x
  | removeHead => exact removeHead_returns hl
  | remove data =>
    have hremove := remove_returns id data hl hfuel
    rwa [ListCall.apply, VM.listRemove, List.erase_eq_eraseP]

theorem ClockListCall.exec_returns {fuel : ℕ} (h : Heap ClockNode) (head : Ptr)
    (xs : List ClockNode) (k : ClockListCall) (hl : IsList h head xs)
    (hfuel : xs.length ≤ fuel) : Returns (k.exec fuel h head) (k.apply xs) := by
  cases k with
  | insertHead x ref => exact insertHead_returns hl ⟨x, ref⟩
  | insertTail x ref => exact insertTail_returns hl hfuel ⟨x, ref⟩
  | removeHead => exact removeHead_returns hl
  | remove data => exact remove_returns ClockNode.data data hl hfuel
  | updateRef data ref => exact clockListUpdateRef_returns data ref hl hfuel

/-! A call lengthens the list by one node at most. -/

theorem ListCall.length_apply_le (xs : List ℤ) (k : ListCall) :
    (k.apply xs).length ≤ xs.length + 1 := by
  cases k with
  | insertHead x => exact Nat.le_refl _
  | insertTail x => exact Nat.le_of_eq List.length_append
  | removeHead => exact Nat.le_trans xs.tail_sublist.length_le (Nat.le_succ _)
  | remove data => exact Nat.le_trans xs.erase_sublist.length_le (Nat.le_succ _)

theorem ClockListCall.length_apply_le (xs : List ClockNode) (k : ClockListCall) :
    (k.apply xs).length ≤ xs.length + 1 := by
  cases k with
  | insertHead x ref => exact Nat.le_refl _
  | insertTail x ref => exact Nat.le_of_eq List.length_append
  | removeHead => exact Nat.le_trans xs.tail_sublist.length_le (Nat.le_succ _)
  | remove data => exact Nat.le_trans xs.eraseP_sublist.length_le (Nat.le_succ _)
  | updateRef data ref =>
    have hdata := congrArg List.length (VM.clockListUpdateRef_data xs data ref)
    rw [List.length_map, List.length_map] at hdata
    exact Nat.le_trans (Nat.le_of_eq hdata) (Nat.le_succ _)

/-- A run from the empty list ends with a list that can be walked either way. -/
theorem run_prints {α κ : Type} {exec : Heap α → Ptr → κ → Except Fault (Heap α × Ptr)}
    {apply : List α → κ → List α} {fuel : ℕ}
    (hlength : ∀ xs k, (apply xs k).length ≤ xs.length + 1)
    (hstep : ∀ h head xs k, IsList h head xs → xs.length ≤ fuel →
      Returns (exec h head k) (apply xs k))
    (calls : List κ) (hfuel : calls.length ≤ fuel) : ∃ h head,
      run exec [] none calls = .ok (h, head) ∧
      print fuel h head = .ok (calls.foldl apply []) ∧
      reversePrint fuel h head = .ok (calls.foldl apply []).reverse ∧
      ∀ n, read h head = .ok n → n.prev = none := by
  have hsum : ([] : List α).length + calls.length ≤ fuel := by
    rwa [List.length_nil, Nat.zero_add]
  obtain ⟨hlen, h, head, hrun, hl⟩ := run_returns hlength hstep (isList_nil []) hsum
  exact ⟨h, head, hrun, print_eq hl hlen, reversePrint_eq hl hlen, fun n => prev_head hl⟩

/-- Both lists implement sequences: every run of calls from the empty list returns, without a
dereference of NULL, in a heap where the walk along `next` finds the sequence, the walk back along
`prev` from the last node finds its reverse, and nothing comes before the head. -/
theorem lists_implement_sequences :
    (∀ (calls : List ListCall) (fuel : ℕ), calls.length ≤ fuel → ∃ h head,
      run (ListCall.exec fuel) [] none calls = .ok (h, head) ∧
      listPrint fuel h head = .ok (calls.foldl ListCall.apply []) ∧
      listReversePrint fuel h head = .ok (calls.foldl ListCall.apply []).reverse ∧
      ∀ n, read h head = .ok n → n.prev = none) ∧
    (∀ (calls : List ClockListCall) (fuel : ℕ), calls.length ≤ fuel → ∃ h head,
      run (ClockListCall.exec fuel) [] none calls = .ok (h, head) ∧
      clockListPrint fuel h head = .ok (calls.foldl ClockListCall.apply []) ∧
      clockListReversePrint fuel h head = .ok (calls.foldl ClockListCall.apply []).reverse ∧
      ∀ n, read h head = .ok n → n.prev = none) := by
  constructor
  · intro calls fuel hfuel
    exact run_prints ListCall.length_apply_le ListCall.exec_returns calls hfuel
  · intro calls fuel hfuel
    exact run_prints ClockListCall.length_apply_le ClockListCall.exec_returns calls hfuel

/-- The calls of `list_test.c`. -/
theorem lists_implement_sequences_test : ∃ h head,
    run (ListCall.exec 5) [] none
      [.insertHead 2, .insertHead 4, .insertTail 6, .insertTail 8, .removeHead] = .ok (h, head) ∧
    listPrint 5 h head = .ok [2, 6, 8] ∧ listReversePrint 5 h head = .ok [8, 6, 2] := by
  obtain ⟨h, head, hrun, hprint, hback, -⟩ := lists_implement_sequences.1
    [.insertHead 2, .insertHead 4, .insertTail 6, .insertTail 8, .removeHead] 5 (Nat.le_refl 5)
  exact ⟨h, head, hrun, hprint, hback⟩

/-! ### `remove_tail` -/

theorem removeTail_returns_iff {α : Type} {fuel : ℕ} {h : Heap α} {head : Ptr} {xs : List α}
    (hl : IsList h head xs) (hne : xs ≠ []) (hfuel : xs.length ≤ fuel) :
    Returns (removeTail fuel h head) xs.dropLast ↔ 2 ≤ xs.length := by
  constructor
  · rintro ⟨h', head', hreturn, -⟩
    by_contra hlt
    have hone : xs.length = 1 := by
      have hpos := List.length_pos_iff.mpr hne
      omega
    obtain ⟨x, rfl⟩ := List.length_eq_one_iff.mp hone
    rw [removeTail_single hl hfuel] at hreturn
    cases hreturn
  · intro hlen
    obtain ⟨l, hl, rfl, rfl⟩ := hl
    rw [List.length_map] at hlen hfuel
    -- Two nodes are left to name once the cells end in `c` and `d`.
    rcases List.eq_nil_or_concat l with rfl | ⟨l, d, rfl⟩
    · exact absurd hlen (Nat.not_succ_le_zero 1)
    rcases List.eq_nil_or_concat l with rfl | ⟨l, c, rfl⟩
    · exact absurd hlen (Nat.lt_irrefl 1)
    simp only [List.concat_eq_append] at *
    rw [List.length_append, List.length_append, List.length_singleton, List.length_singleton]
      at hfuel
    have hdrop : ((l ++ [c] ++ [d]).map Prod.snd).dropLast = (l ++ [c]).map Prod.snd := by
      rw [← List.map_dropLast, List.dropLast_concat]
    rw [hdrop]
    exact removeTail_concat hl (by omega)

/-- `remove_tail` drops the last element of a well-formed list exactly if there are two; the only
node of a list has no `prev` to go through. -/
theorem remove_tail_drops_last_iff (head : Ptr) (fuel : ℕ) :
    (∀ (h : Heap ℤ) (xs : List ℤ), IsList h head xs → xs ≠ [] → xs.length ≤ fuel →
      (Returns (listRemoveTail fuel h head) xs.dropLast ↔ 2 ≤ xs.length)) ∧
    (∀ (h : Heap ClockNode) (xs : List ClockNode), IsList h head xs → xs ≠ [] →
      xs.length ≤ fuel → (Returns (clockListRemoveTail fuel h head) xs.dropLast ↔ 2 ≤ xs.length)) :=
  ⟨fun _ _ hl hne hfuel => removeTail_returns_iff hl hne hfuel,
    fun _ _ hl hne hfuel => removeTail_returns_iff hl hne hfuel⟩

/-- Two nodes at the addresses 0 and 1. -/
theorem remove_tail_drops_last_iff_two :
    Returns (listRemoveTail 2 [⟨2, some 1, none⟩, ⟨4, none, some 0⟩] (some 0)) [2] :=
  ((remove_tail_drops_last_iff (some 0) 2).1 [⟨2, some 1, none⟩, ⟨4, none, some 0⟩] [2, 4]
    ⟨[(0, 2), (1, 4)], ⟨rfl, rfl, trivial⟩, rfl, rfl⟩ (by decide) (by decide)).mpr (by decide)

/-- The list with the one node 7 at address 0. -/
theorem remove_tail_dereferences_null :
    IsList [⟨7, none, none⟩] (some 0) [(7 : ℤ)] ∧
    listRemoveTail 1 [⟨7, none, none⟩] (some 0) = .error .null ∧
    (∀ fuel, ¬Returns (listRemoveTail fuel [⟨7, none, none⟩] (some 0)) []) ∧
    IsList [⟨⟨7, 1⟩, none, none⟩] (some 0) [(⟨7, 1⟩ : ClockNode)] ∧
    clockListRemoveTail 1 [⟨⟨7, 1⟩, none, none⟩] (some 0) = .error .null ∧
    ∀ fuel, ¬Returns (clockListRemoveTail fuel [⟨⟨7, 1⟩, none, none⟩] (some 0)) [] := by
  refine ⟨⟨[(0, 7)], ⟨rfl, trivial⟩, rfl, rfl⟩, rfl, ?_, ⟨[(0, ⟨7, 1⟩)], ⟨rfl, trivial⟩, rfl, rfl⟩,
    rfl, ?_⟩
  · rintro fuel ⟨h, head, hreturn, -⟩
    cases fuel <;> cases hreturn
  · rintro fuel ⟨h, head, hreturn, -⟩
    cases fuel <;> cases hreturn

end OperatingSystems.Lists
