import Mathlib.Data.List.Induction
import Mathlib.Data.List.Nodup

/-! Doubly linked lists over an explicit heap of nodes: what a walk along either link reads, and
what a write to one link does to a chain of cells. -/
namespace OperatingSystems.Links

/-- An address, or NULL. -/
abbrev Ptr := Option ℕ

structure Node (α : Type) where
  value : α
  next : Ptr
  prev : Ptr
  deriving DecidableEq, Repr

/-- The nodes by address, in the order of their allocation; none is ever freed. -/
abbrev Heap (α : Type) := List (Node α)

/-- A dereference of NULL, one of an address that no node has, or a loop that still runs once its
fuel is spent. -/
inductive Fault
  | null
  | wild
  | fuel
  deriving DecidableEq, Repr

variable {α : Type}

/-- `*p`. -/
def read (h : Heap α) : Ptr → Except Fault (Node α)
  | none => .error .null
  | some a =>
    match h[a]? with
    | none => .error .wild
    | some n => .ok n

/-- An update of some fields of `*p`. -/
def write (h : Heap α) (p : Ptr) (f : Node α → Node α) : Except Fault (Heap α) :=
  match p with
  | none => .error .null
  | some a => if a < h.length then .ok (h.modify a f) else .error .wild

/-- `p->next = q`. -/
def setNext (h : Heap α) (p q : Ptr) : Except Fault (Heap α) :=
  write h p fun n => { n with next := q }

/-- `p->prev = q`. -/
def setPrev (h : Heap α) (p q : Ptr) : Except Fault (Heap α) :=
  write h p fun n => { n with prev := q }

/-- An update of the fields of `*p` beside the links. -/
def setValue (h : Heap α) (p : Ptr) (f : α → α) : Except Fault (Heap α) :=
  write h p fun n => { n with value := f n.value }

/-- A new node outside the list, at an address of its own; there is always room. -/
def malloc (h : Heap α) (x : α) : Ptr × Heap α := (some h.length, h ++ [⟨x, none, none⟩])

/-- `while (p->next != NULL) p = p->next`. -/
def last (h : Heap α) : ℕ → Ptr → Except Fault Ptr
  | 0, _ => .error .fuel
  | fuel + 1, p => do
    let n ← read h p
    if n.next = none then return p else last h fuel n.next

/-- The values found on the way along one of the links, up to NULL. -/
def traverse (h : Heap α) (link : Node α → Ptr) : ℕ → Ptr → Except Fault (List α)
  | _, none => .ok []
  | 0, some _ => .error .fuel
  | fuel + 1, some a => do
    let n ← read h (some a)
    let rest ← traverse h link fuel (link n)
    return n.value :: rest

/-- The first node along `next` whose value passes the test, else NULL. -/
def search (h : Heap α) (test : α → Bool) : ℕ → Ptr → Except Fault Ptr
  | _, none => .ok none
  | 0, some _ => .error .fuel
  | fuel + 1, some a => do
    let n ← read h (some a)
    if test n.value then return some a else search h test fuel n.next

@[simp] theorem ok_bind {β γ : Type} (b : β) (f : β → Except Fault γ) :
    (Except.ok b >>= f) = f b := rfl

theorem read_eq {h : Heap α} {a : ℕ} {n : Node α} (ha : h[a]? = some n) :
    read h (some a) = .ok n := by
  rw [read, ha]

theorem write_eq {h : Heap α} {a : ℕ} {n : Node α} (ha : h[a]? = some n)
    (f : Node α → Node α) : write h (some a) f = .ok (h.modify a f) :=
  if_pos (List.getElem?_eq_some_iff.mp ha).1

/-! ### Chains of cells -/

/-- Where a chain of cells begins, if `q` is what follows it. -/
def first : List (ℕ × α) → Ptr → Ptr
  | [], q => q
  | c :: _, _ => some c.1

/-- Where a chain of cells ends, if `p` is what comes before it. -/
def final : Ptr → List (ℕ × α) → Ptr
  | p, [] => p
  | _, c :: l => final (some c.1) l

/-- The cells of `l` are linked both ways, with `p` before the first and `q` behind the last. -/
def Chain (h : Heap α) : Ptr → List (ℕ × α) → Ptr → Prop
  | _, [], _ => True
  | p, c :: l, q => h[c.1]? = some ⟨c.2, first l q, p⟩ ∧ Chain h (some c.1) l q

/-- `head` points to a well-formed list that holds `xs`. -/
def IsList (h : Heap α) (head : Ptr) (xs : List α) : Prop :=
  ∃ l, Chain h none l none ∧ head = first l none ∧ l.map Prod.snd = xs

@[simp] theorem first_cons (c : ℕ × α) (l : List (ℕ × α)) (q : Ptr) :
    first (c :: l) q = some c.1 := rfl

/-- The call returns, with a list that holds `xs`. -/
def Returns (result : Except Fault (Heap α × Ptr)) (xs : List α) : Prop :=
  ∃ h head, result = .ok (h, head) ∧ IsList h head xs

/-- The calls `ks` one after the other, each on the list that the one before returned. -/
def run {κ : Type} (exec : Heap α → Ptr → κ → Except Fault (Heap α × Ptr)) :
    Heap α → Ptr → List κ → Except Fault (Heap α × Ptr)
  | h, head, [] => .ok (h, head)
  | h, head, k :: ks => do
    let (h, head) ← exec h head k
    run exec h head ks

theorem first_append (l m : List (ℕ × α)) (q : Ptr) : first (l ++ m) q = first l (first m q) := by
  cases l <;> rfl

/-- A chain that is not empty begins at a cell of its own. -/
theorem first_concat (l : List (ℕ × α)) (c : ℕ × α) :
    ∃ d ∈ l ++ [c], ∀ q, first (l ++ [c]) q = some d.1 := by
  cases l with
  | nil => exact ⟨c, List.mem_singleton_self c, fun _ => rfl⟩
  | cons d l => exact ⟨d, List.mem_cons_self, fun _ => rfl⟩

theorem final_concat (p : Ptr) (l : List (ℕ × α)) (c : ℕ × α) :
    final p (l ++ [c]) = some c.1 := by
  induction l generalizing p with
  | nil => rfl
  | cons d l ih => exact ih (some d.1)

theorem chain_append (h : Heap α) (p q : Ptr) (l m : List (ℕ × α)) :
    Chain h p (l ++ m) q ↔ Chain h p l (first m q) ∧ Chain h (final p l) m q := by
  induction l generalizing p with
  | nil => exact (and_iff_right trivial).symm
  | cons c l ih =>
    rw [List.cons_append, Chain, Chain, ih, first_append, and_assoc]
    rfl

/-- A chain depends on its own nodes only. -/
theorem Chain.congr {h h' : Heap α} {p q : Ptr} {l : List (ℕ × α)} (hl : Chain h p l q)
    (hsame : ∀ c ∈ l, h'[c.1]? = h[c.1]?) : Chain h' p l q := by
  induction l generalizing p with
  | nil => trivial
  | cons c l ih =>
    refine ⟨(hsame c List.mem_cons_self).trans hl.1, ih hl.2 fun d hd => ?_⟩
    exact hsame d (List.mem_cons_of_mem c hd)

theorem Chain.lt_length {h : Heap α} {p q : Ptr} {l : List (ℕ × α)} (hl : Chain h p l q) :
    ∀ a ∈ l.map Prod.fst, a < h.length := by
  induction l generalizing p with
  | nil => exact fun a ha => absurd ha List.not_mem_nil
  | cons c l ih =>
    intro a ha
    rcases List.mem_cons.mp ha with rfl | ha
    · exact (List.getElem?_eq_some_iff.mp hl.1).1
    · exact ih hl.2 a ha

/-- Two chains up to NULL from one address are the same: a node has one `next`. -/
theorem Chain.unique {h : Heap α} {p p' : Ptr} {l m : List (ℕ × α)} (hl : Chain h p l none)
    (hm : Chain h p' m none) (hfirst : first l none = first m none) : l = m := by
  induction l generalizing p p' m with
  | nil =>
    cases m with
    | nil => rfl
    | cons d m => cases hfirst
  | cons c l ih =>
    cases m with
    | nil => cases hfirst
    | cons d m =>
      have hcd : c.1 = d.1 := Option.some_inj.mp hfirst
      have hnode := hl.1
      rw [hcd, hm.1, Option.some_inj, Node.mk.injEq] at hnode
      obtain ⟨hvalue, hnext, -⟩ := hnode
      rw [ih hl.2 hm.2 hnext.symm, Prod.ext hcd hvalue.symm]

/-- No node occurs twice on the way to NULL: what follows it would be longer than itself. -/
theorem Chain.nodup {h : Heap α} {p : Ptr} {l : List (ℕ × α)} (hl : Chain h p l none) :
    (l.map Prod.fst).Nodup := by
  induction l generalizing p with
  | nil => exact List.nodup_nil
  | cons c l ih =>
    rw [List.map_cons, List.nodup_cons]
    refine ⟨fun hc => ?_, ih hl.2⟩
    -- A second occurrence `d` of the node would begin the same chain as the first.
    obtain ⟨d, hd, hdc⟩ := List.mem_map.mp hc
    obtain ⟨l₁, l₂, rfl⟩ := List.append_of_mem hd
    have htail := ((chain_append h (some c.1) none l₁ (d :: l₂)).mp hl.2).2
    have heq := hl.unique htail (congrArg some hdc.symm)
    have hlen := congrArg List.length heq
    rw [List.length_cons, List.length_append, List.length_cons] at hlen
    omega

/-- The node at which a list is split is none of those before it. -/
theorem Chain.notMem {h : Heap α} {p : Ptr} {l m : List (ℕ × α)} {c : ℕ × α}
    (hl : Chain h p (l ++ c :: m) none) : c.1 ∉ l.map Prod.fst := by
  have hnd := hl.nodup
  rw [List.map_append, List.nodup_append] at hnd
  intro hc
  exact hnd.2.2 c.1 hc c.1 List.mem_cons_self rfl

/-! ### Writes to a chain -/

theorem getElem?_modify_self {h : Heap α} {a : ℕ} {n : Node α} (ha : h[a]? = some n)
    (f : Node α → Node α) : (h.modify a f)[a]? = some (f n) := by
  rw [List.getElem?_modify, ha]
  exact congrArg some (if_pos rfl)

/-- A write outside a chain. -/
theorem Chain.of_modify {h : Heap α} {p q : Ptr} {l : List (ℕ × α)} (hl : Chain h p l q) {a : ℕ}
    (ha : a ∉ l.map Prod.fst) (f : Node α → Node α) : Chain (h.modify a f) p l q := by
  apply hl.congr
  intro c hc
  have hne : a ≠ c.1 := fun he => ha (he ▸ List.mem_map_of_mem hc)
  simp only [List.getElem?_modify, if_neg hne, id_map']

/-- A new node is a chain of its own. -/
theorem chain_malloc (h : Heap α) (x : α) : Chain (malloc h x).2 none [(h.length, x)] none :=
  ⟨List.getElem?_concat_length, trivial⟩

/-- A new node is outside every chain. -/
theorem Chain.fresh {h : Heap α} {p q : Ptr} {l : List (ℕ × α)} (hl : Chain h p l q) :
    h.length ∉ l.map Prod.fst :=
  fun hmem => Nat.lt_irrefl h.length (hl.lt_length h.length hmem)

theorem Chain.of_malloc {h : Heap α} {p q : Ptr} {l : List (ℕ × α)} (hl : Chain h p l q) (x : α) :
    Chain (malloc h x).2 p l q := by
  apply hl.congr
  intro c hc
  exact List.getElem?_append_left (hl.lt_length c.1 (List.mem_map_of_mem hc))

/-- A chain is moved to another successor by a write to the `next` of its last node. -/
theorem Chain.setNext_eq {h : Heap α} {p q : Ptr} {l : List (ℕ × α)} {c : ℕ × α}
    (hl : Chain h p (l ++ [c]) q) (hc : c.1 ∉ l.map Prod.fst) (q' : Ptr) :
    ∃ h', setNext h (some c.1) q' = .ok h' ∧ Chain h' p (l ++ [c]) q' ∧
      ∀ p₂ m q₂, c.1 ∉ m.map Prod.fst → Chain h p₂ m q₂ → Chain h' p₂ m q₂ := by
  obtain ⟨hinit, hlast, -⟩ := (chain_append h p q l [c]).mp hl
  refine ⟨_, write_eq hlast _, ?_, fun p₂ m q₂ hm hchain => hchain.of_modify hm _⟩
  rw [chain_append]
  exact ⟨hinit.of_modify hc _, getElem?_modify_self hlast _, trivial⟩

/-- A chain is moved to another predecessor by a write to the `prev` of its first node. -/
theorem Chain.setPrev_eq {h : Heap α} {p q : Ptr} {l : List (ℕ × α)} {c : ℕ × α}
    (hl : Chain h p (c :: l) q) (hc : c.1 ∉ l.map Prod.fst) (p' : Ptr) :
    ∃ h', setPrev h (some c.1) p' = .ok h' ∧ Chain h' p' (c :: l) q ∧
      ∀ p₂ m q₂, c.1 ∉ m.map Prod.fst → Chain h p₂ m q₂ → Chain h' p₂ m q₂ :=
  ⟨_, write_eq hl.1 _, ⟨getElem?_modify_self hl.1 _, hl.2.of_modify hc _⟩,
    fun _ _ _ hm hchain => hchain.of_modify hm _⟩

/-- A write to a value leaves all links as they are. -/
theorem Chain.setValue_eq {h : Heap α} {p q : Ptr} {l m : List (ℕ × α)} {c : ℕ × α}
    (hl : Chain h p (l ++ c :: m) q) (hbefore : c.1 ∉ l.map Prod.fst)
    (hafter : c.1 ∉ m.map Prod.fst) (f : α → α) :
    ∃ h', setValue h (some c.1) f = .ok h' ∧ Chain h' p (l ++ (c.1, f c.2) :: m) q := by
  obtain ⟨hinit, hnode, hrest⟩ := (chain_append h p q l (c :: m)).mp hl
  refine ⟨_, write_eq hnode _, ?_⟩
  rw [chain_append]
  exact ⟨hinit.of_modify hbefore _, getElem?_modify_self hnode _, hrest.of_modify hafter _⟩

/-! ### Walks along a chain -/

theorem Chain.last_eq {h : Heap α} {p : Ptr} {l : List (ℕ × α)} {c : ℕ × α} {fuel : ℕ}
    (hl : Chain h p (l ++ [c]) none) (hfuel : l.length < fuel) :
    last h fuel (first (l ++ [c]) none) = .ok (some c.1) := by
  induction l generalizing p fuel with
  | nil =>
    cases fuel with
    | zero => exact absurd hfuel (Nat.not_lt_zero 0)
    | succ fuel =>
      rw [last, List.nil_append, first_cons, read_eq hl.1]
      rfl
  | cons d l ih =>
    cases fuel with
    | zero => exact absurd hfuel (Nat.not_lt_zero _)
    | succ fuel =>
      obtain ⟨e, -, hnext⟩ := first_concat l c
      rw [last, List.cons_append, first_cons, read_eq hl.1, ok_bind]
      refine (if_neg (hnext none ▸ Option.some_ne_none e.1)).trans ?_
      exact ih hl.2 (Nat.lt_of_succ_lt_succ hfuel)

theorem Chain.forward {h : Heap α} {p : Ptr} {l : List (ℕ × α)} {fuel : ℕ}
    (hl : Chain h p l none) (hfuel : l.length ≤ fuel) :
    traverse h Node.next fuel (first l none) = .ok (l.map Prod.snd) := by
  induction l generalizing p fuel with
  | nil => cases fuel <;> rfl
  | cons c l ih =>
    cases fuel with
    | zero => exact absurd hfuel (Nat.not_succ_le_zero _)
    | succ fuel =>
      rw [first_cons, traverse, read_eq hl.1, ok_bind, ih hl.2 (Nat.le_of_succ_le_succ hfuel)]
      rfl

theorem Chain.backward {h : Heap α} {q : Ptr} {l : List (ℕ × α)} {fuel : ℕ}
    (hl : Chain h none l q) (hfuel : l.length ≤ fuel) :
    traverse h Node.prev fuel (final none l) = .ok (l.map Prod.snd).reverse := by
  -- By induction from the end, where the walk begins.
  induction l using List.reverseRecOn generalizing q fuel with
  | nil => cases fuel <;> rfl
  | append_singleton l c ih =>
    obtain ⟨hinit, hlast, -⟩ := (chain_append h none q l [c]).mp hl
    rw [List.length_append, List.length_singleton] at hfuel
    cases fuel with
    | zero => exact absurd hfuel (Nat.not_succ_le_zero _)
    | succ fuel =>
      rw [final_concat, traverse, read_eq hlast, ok_bind, ih hinit (Nat.le_of_succ_le_succ hfuel),
        List.map_append, List.reverse_append]
      rfl

/-- The search passes the cells that fail the test. -/
theorem Chain.search_append {h : Heap α} {p : Ptr} {l m : List (ℕ × α)} {fuel : ℕ} {test : α → Bool}
    (hl : Chain h p (l ++ m) none) (hfail : ∀ c ∈ l, ¬test c.2) (hfuel : l.length ≤ fuel) :
    search h test fuel (first (l ++ m) none) =
      search h test (fuel - l.length) (first m none) := by
  induction l generalizing p fuel with
  | nil => rfl
  | cons c l ih =>
    cases fuel with
    | zero => exact absurd hfuel (Nat.not_succ_le_zero _)
    | succ fuel =>
      rw [List.cons_append, first_cons, search, read_eq hl.1, ok_bind,
        if_neg (hfail c List.mem_cons_self), List.length_cons, Nat.add_sub_add_right]
      exact ih hl.2 (fun d hd => hfail d (List.mem_cons_of_mem c hd))
        (Nat.le_of_succ_le_succ hfuel)

theorem Chain.search_found {h : Heap α} {p : Ptr} {l m : List (ℕ × α)} {c : ℕ × α} {fuel : ℕ}
    (test : α → Bool) (hl : Chain h p (l ++ c :: m) none) (hfail : ∀ d ∈ l, ¬test d.2)
    (hc : test c.2) (hfuel : l.length < fuel) :
    search h test fuel (first (l ++ c :: m) none) = .ok (some c.1) := by
  have hnode := ((chain_append h p none l (c :: m)).mp hl).2.1
  obtain ⟨k, hk⟩ : ∃ k, fuel - l.length = k + 1 := ⟨fuel - l.length - 1, by omega⟩
  rw [hl.search_append hfail (Nat.le_of_lt hfuel), hk, first_cons, search, read_eq hnode, ok_bind,
    if_pos hc]
  rfl

theorem Chain.search_none {h : Heap α} {p : Ptr} {l : List (ℕ × α)} {fuel : ℕ} {test : α → Bool}
    (hl : Chain h p l none) (hfail : ∀ c ∈ l, ¬test c.2) (hfuel : l.length ≤ fuel) :
    search h test fuel (first l none) = .ok none := by
  rw [← List.append_nil l] at hl ⊢
  rw [hl.search_append hfail hfuel]
  cases fuel - l.length <;> rfl

/-! ### Runs -/

/-- What one call does to the sequence, a run of calls does; each call may lengthen the list by
one node, so the walks take no more turns than there have been calls. -/
theorem run_returns {κ : Type} {exec : Heap α → Ptr → κ → Except Fault (Heap α × Ptr)}
    {apply : List α → κ → List α} {fuel : ℕ}
    (hlength : ∀ xs k, (apply xs k).length ≤ xs.length + 1)
    (hstep : ∀ h head xs k, IsList h head xs → xs.length ≤ fuel →
      Returns (exec h head k) (apply xs k))
    {h : Heap α} {head : Ptr} {xs : List α} {ks : List κ} (hl : IsList h head xs)
    (hfuel : xs.length + ks.length ≤ fuel) :
    (ks.foldl apply xs).length ≤ fuel ∧ Returns (run exec h head ks) (ks.foldl apply xs) := by
  induction ks generalizing h head xs with
  | nil => exact ⟨hfuel, h, head, rfl, hl⟩
  | cons k ks ih =>
    rw [List.length_cons] at hfuel
    obtain ⟨h₁, head₁, hexec, hl₁⟩ := hstep h head xs k hl (by omega)
    have hlen := hlength xs k
    rw [run, hexec, ok_bind, List.foldl_cons]
    exact ih hl₁ (by omega)

/-! ### Programs on nodes and programs on sequences -/

section agreement
variable {β γ δ ε : Type} {R : β → γ → Prop} {S : δ → ε → Prop}

/-- The call returns where the program on sequences has a result, with `R` between the two, and
dereferences NULL where it has none. -/
def Agrees (R : β → γ → Prop) : Except Fault β → Option γ → Prop
  | .ok b, some c => R b c
  | .error .null, none => True
  | _, _ => False

theorem Agrees.bind {x : Except Fault β} {y : Option γ} {f : β → Except Fault δ} {g : γ → Option ε}
    (hxy : Agrees R x y) (hfg : ∀ b c, R b c → Agrees S (f b) (g c)) :
    Agrees S (x >>= f) (y >>= g) := by
  cases x with
  | ok b =>
    cases y with
    | some c => exact hfg b c hxy
    | none => exact False.elim hxy
  | error e =>
    cases y with
    | some c => cases e <;> exact False.elim hxy
    | none =>
      cases e with
      | null => trivial
      | _ => exact False.elim hxy

theorem Agrees.imp {R' : β → γ → Prop} {x : Except Fault β} {y : Option γ} (hxy : Agrees R x y)
    (himp : ∀ b c, R b c → R' b c) : Agrees R' x y := by
  cases x with
  | ok b =>
    cases y with
    | some c => exact himp b c hxy
    | none => exact hxy
  | error e =>
    cases y with
    | some c => cases e <;> exact hxy
    | none => cases e <;> exact hxy

theorem Agrees.returns {x : Except Fault β} {y : Option γ} {c : γ} (hxy : Agrees R x y)
    (hy : y = some c) : ∃ b, x = .ok b ∧ R b c := by
  subst hy
  cases x with
  | ok b => exact ⟨b, rfl, hxy⟩
  | error e => cases e <;> exact False.elim hxy

theorem Agrees.null {x : Except Fault β} (hx : Agrees R x none) : x = .error .null := by
  cases x with
  | ok b => exact False.elim hx
  | error e => cases e <;> first | rfl | exact False.elim hx

/-- The head of an empty list is NULL. -/
theorem IsList.read_agrees {h : Heap α} {head : Ptr} {xs : List α} (hl : IsList h head xs) :
    Agrees (fun n x => n.value = x) (read h head) xs.head? := by
  obtain ⟨l, hl, rfl, rfl⟩ := hl
  cases l with
  | nil => trivial
  | cons c l =>
    rw [first_cons, read_eq hl.1]
    exact rfl

end agreement

end OperatingSystems.Links
