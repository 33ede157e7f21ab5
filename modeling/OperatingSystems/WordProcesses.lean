import OperatingSystems.WordCount
import OperatingSystems.Mealy
import Mathlib.Algebra.BigOperators.Group.Finset.Piecewise

/-! `main` of `wc_multi.c` as processes: the parent and its children take their steps in any order.
An action that its process cannot take, such as a wait for a child that still runs, is `none`. -/
namespace OperatingSystems.WC

/-- How far a child has come; `gone` is one that has been waited for. -/
inductive Status
  | unborn
  | counting
  | written
  | exited
  | signalled
  | gone
  deriving DecidableEq, Repr

/-- `pids[i]`, how many times it has been forked, and what its pipe holds. -/
structure Child where
  status : Status
  runs : ℕ
  pipe : List Count
  deriving DecidableEq, Repr

/-- Where `main` is in its loops: the first over the children, the second with its two calls of
`waitpid` and the fork between them, and the third. -/
inductive Parent
  | forking (i : ℕ)
  | waiting (i : ℕ)
  | again (i : ℕ)
  | rewaiting (i : ℕ)
  | reading (i : ℕ)
  | done
  deriving DecidableEq, Repr

structure Processes where
  parent : Parent
  total : Count
  child : ℕ → Child

def start : Processes := ⟨.forking 0, Count.zero, fun _ => ⟨.unborn, 0, []⟩⟩

inductive Action
  | parent
  | child (i : ℕ)
  deriving DecidableEq, Repr

/-- `pipe` and `fork`: the pipe of a child that is forked again is a new one. -/
def Child.fork (c : Child) : Child := ⟨.counting, c.runs + 1, []⟩

def Processes.put (t : Processes) (i : ℕ) (c : Child) (parent : Parent) : Processes :=
  { t with parent := parent, child := Function.update t.child i c }

/-- `waitpid` for child `i`, in either place. -/
def Processes.waitpid (t : Processes) (n i : ℕ) : Option (Unit × Processes) :=
  match (t.child i).status with
  | .exited => some ((), t.put i { t.child i with status := .gone }
      (if i + 1 < n then .waiting (i + 1) else .reading 0))
  | .signalled => some ((), t.put i { t.child i with status := .gone } (.again i))
  | _ => none

/-- One step; `run i k` is what child `i` counts when it runs for the `k`-th time, `none` where it
aborts. -/
def step (run : ℕ → ℕ → Option Count) (n : ℕ) (t : Processes) :
    Action → Option (Unit × Processes)
  | .parent =>
    match t.parent with
    | .forking i => some ((), t.put i (t.child i).fork
        (if i + 1 < n then .forking (i + 1) else .waiting 0))
    | .waiting i => t.waitpid n i
    | .again i => some ((), t.put i (t.child i).fork (.rewaiting i))
    | .rewaiting i => t.waitpid n i
    | .reading i =>
      match (t.child i).pipe with
      | [] => none
      | wc :: pipe => some ((), { t.put i { t.child i with pipe }
          (if i + 1 < n then .reading (i + 1) else .done) with total := t.total.add wc })
    | .done => none
  | .child i =>
    match (t.child i).status with
    | .counting =>
      match run i ((t.child i).runs - 1) with
      | none => some ((), t.put i { t.child i with status := .signalled } t.parent)
      | some wc => some ((), t.put i
          { t.child i with status := .written, pipe := (t.child i).pipe ++ [wc] } t.parent)
    | .written => some ((), t.put i { t.child i with status := .exited } t.parent)
    | _ => none

/-! ### One child -/

/-- A child that exits in its `k`-th run with `wc`, and the number of steps that it and the parent
will still take for it. -/
inductive Stage (k : ℕ) (wc : Count) : Child → ℕ → Prop
  | unborn : Stage k wc ⟨.unborn, 0, []⟩ (3 * k + 5)
  | counting (r : ℕ) : r ≤ k → Stage k wc ⟨.counting, r + 1, []⟩ (3 * (k - r) + 4)
  | signalled (r : ℕ) : r < k → Stage k wc ⟨.signalled, r + 1, []⟩ (3 * (k - r) + 3)
  | lost (r : ℕ) : r < k → Stage k wc ⟨.gone, r + 1, []⟩ (3 * (k - r) + 2)
  | written : Stage k wc ⟨.written, k + 1, [wc]⟩ 3
  | exited : Stage k wc ⟨.exited, k + 1, [wc]⟩ 2
  | ready : Stage k wc ⟨.gone, k + 1, [wc]⟩ 1
  | read : Stage k wc ⟨.gone, k + 1, []⟩ 0

/-- A child that has been forked and not been waited for. -/
def Child.Live (c : Child) : Prop := c.status ≠ .unborn ∧ c.status ≠ .gone

/-- The first run that does not abort is the `k`-th, and gives `wc`. -/
structure Exits (run : ℕ → Option Count) (k : ℕ) (wc : Count) : Prop where
  aborts : ∀ j < k, run j = none
  exits : run k = some wc

variable {run : ℕ → Option Count} {k m : ℕ} {wc : Count} {c : Child}

theorem Stage.fork_unborn (h : Stage k wc c m) (hc : c.status = .unborn) :
    ∃ m', Stage k wc c.fork m' ∧ m' + 1 = m ∧ c.fork.Live := by
  cases h with
  | unborn => exact ⟨_, .counting 0 (Nat.zero_le k), by omega, by simp [Child.fork, Child.Live]⟩
  | _ => exact absurd hc (by simp)

theorem Stage.fork_lost (h : Stage k wc c m) (hc : c.status = .gone) (hruns : c.runs ≤ k) :
    ∃ m', Stage k wc c.fork m' ∧ m' + 1 = m ∧ c.fork.Live := by
  cases h with
  | lost r hr =>
    refine ⟨_, .counting (r + 1) hr, ?_, by simp [Child.fork, Child.Live]⟩
    omega
  | ready => exact absurd hruns (by simp)
  | read => exact absurd hruns (by simp)
  | _ => exact absurd hc (by simp)

/-- The child's own steps. -/
theorem Stage.count (h : Stage k wc c m) (hrun : Exits run k wc) (hc : c.status = .counting) :
    (run (c.runs - 1) = none ∧ ∃ m', Stage k wc { c with status := .signalled } m' ∧ m' + 1 = m) ∨
      run (c.runs - 1) = some wc ∧
        ∃ m', Stage k wc { c with status := .written, pipe := c.pipe ++ [wc] } m' ∧ m' + 1 = m := by
  cases h with
  | counting r hr =>
    rcases hr.lt_or_eq with hlt | rfl
    · exact Or.inl ⟨hrun.aborts r hlt, _, .signalled r hlt, rfl⟩
    · exact Or.inr ⟨hrun.exits, 3, .written, by omega⟩
  | _ => exact absurd hc (by simp)

theorem Stage.exit (h : Stage k wc c m) (hc : c.status = .written) :
    ∃ m', Stage k wc { c with status := .exited } m' ∧ m' + 1 = m := by
  cases h with
  | written => exact ⟨2, .exited, rfl⟩
  | _ => exact absurd hc (by simp)

theorem Stage.reap_exited (h : Stage k wc c m) (hc : c.status = .exited) :
    ({ c with status := .gone } : Child) = ⟨.gone, k + 1, [wc]⟩ ∧ 1 + 1 = m := by
  cases h with
  | exited => exact ⟨rfl, rfl⟩
  | _ => exact absurd hc (by simp)

theorem Stage.reap_signalled (h : Stage k wc c m) (hc : c.status = .signalled) :
    c.runs ≤ k ∧ ∃ m', Stage k wc { c with status := .gone } m' ∧ m' + 1 = m := by
  cases h with
  | signalled r hr => exact ⟨hr, _, .lost r hr, rfl⟩
  | _ => exact absurd hc (by simp)

/-- A live child that cannot take a step has ended. -/
theorem Child.Live.cases (hc : c.Live) : c.status = .counting ∨ c.status = .written ∨
    c.status = .exited ∨ c.status = .signalled := by
  obtain ⟨hunborn, hgone⟩ := hc
  cases hstatus : c.status <;> simp_all

/-! ### All of them -/

/-- The sum over the first `j` pipes. -/
def sumTo (wc : ℕ → Count) (j : ℕ) : Count := ((List.range j).map wc).foldl Count.add Count.zero

/-- Which children are where, by the place of the parent in its loops. -/
def Processes.Placed (n : ℕ) (k : ℕ → ℕ) (wc : ℕ → Count) (t : Processes) : Prop :=
  match t.parent with
  | .forking j => j < n ∧ t.total = sumTo wc 0 ∧ (∀ i < j, (t.child i).Live) ∧
      ∀ i, j ≤ i → (t.child i).status = .unborn
  | .waiting j => j < n ∧ t.total = sumTo wc 0 ∧
      (∀ i < j, t.child i = ⟨.gone, k i + 1, [wc i]⟩) ∧ ∀ i, j ≤ i → i < n → (t.child i).Live
  | .again j => j < n ∧ t.total = sumTo wc 0 ∧
      (∀ i < j, t.child i = ⟨.gone, k i + 1, [wc i]⟩) ∧
      ((t.child j).status = .gone ∧ (t.child j).runs ≤ k j) ∧
      ∀ i, j < i → i < n → (t.child i).Live
  | .rewaiting j => j < n ∧ t.total = sumTo wc 0 ∧
      (∀ i < j, t.child i = ⟨.gone, k i + 1, [wc i]⟩) ∧ ∀ i, j ≤ i → i < n → (t.child i).Live
  | .reading j => j < n ∧ t.total = sumTo wc j ∧
      (∀ i < j, t.child i = ⟨.gone, k i + 1, []⟩) ∧
      ∀ i, j ≤ i → i < n → t.child i = ⟨.gone, k i + 1, [wc i]⟩
  | .done => t.total = sumTo wc n ∧ ∀ i < n, t.child i = ⟨.gone, k i + 1, []⟩

/-- Every child is at a stage with `m i` steps left, and the parent where these say. -/
structure Sound (n : ℕ) (k : ℕ → ℕ) (wc : ℕ → Count) (m : ℕ → ℕ) (t : Processes) : Prop where
  placed : t.Placed n k wc
  stage : ∀ i < n, Stage (k i) (wc i) (t.child i) (m i)
  beyond : ∀ i, n ≤ i → (t.child i).status = .unborn

variable {n : ℕ} {ks : ℕ → ℕ} {wcs : ℕ → Count} {ms : ℕ → ℕ} {t u : Processes} {i j : ℕ}

theorem sound_start (hn : 1 ≤ n) : Sound n ks wcs (fun i => 3 * ks i + 5) start :=
  ⟨⟨hn, rfl, fun i hi => absurd hi (Nat.not_lt_zero i), fun _ _ => rfl⟩, fun _ _ => .unborn,
    fun _ _ => rfl⟩

/-- One child moves on by a step; what has to be seen is where the parent is then. -/
theorem Sound.move (h : Sound n ks wcs ms t) (hi : i < n) (c : Child) (p : Parent) (total : Count)
    {m' : ℕ} (hc : Stage (ks i) (wcs i) c m') (hm : m' + 1 = ms i)
    (hplaced : ({ t.put i c p with total } : Processes).Placed n ks wcs) :
    ∃ ms', Sound n ks wcs ms' { t.put i c p with total } ∧
      ∑ a ∈ Finset.range n, ms' a + 1 = ∑ a ∈ Finset.range n, ms a := by
  refine ⟨Function.update ms i m', ⟨hplaced, ?_, ?_⟩, ?_⟩
  · intro a ha
    change Stage (ks a) (wcs a) (Function.update t.child i c a) _
    by_cases hai : a = i
    · subst hai
      rwa [Function.update_self, Function.update_self]
    · rw [Function.update_of_ne hai, Function.update_of_ne hai]
      exact h.stage a ha
  · intro a ha
    have hai : a ≠ i := by omega
    change (Function.update t.child i c a).status = .unborn
    rw [Function.update_of_ne hai]
    exact h.beyond a ha
  · have hmem : i ∈ Finset.range n := Finset.mem_range.mpr hi
    rw [Finset.sum_update_of_mem hmem, Finset.sum_eq_add_sum_sdiff_singleton_of_mem hmem]
    omega

/-- A child's own step does not move the parent. -/
theorem Processes.Placed.child_step (h : t.Placed n ks wcs) (hc : (t.child i).Live) {c : Child}
    (hlive : c.Live) : (t.put i c t.parent).Placed n ks wcs := by
  have hne {a : ℕ} (ha : ¬ (t.child a).Live) : a ≠ i := fun he => ha (he ▸ hc)
  have hgone {a : ℕ} {r : ℕ} {q : List Count} (ha : t.child a = ⟨.gone, r, q⟩) : a ≠ i :=
    hne (by rw [ha]; exact fun hl => hl.2 rfl)
  have hkeep (a : ℕ) (ha : (t.child a).Live) : (Function.update t.child i c a).Live := by
    by_cases hai : a = i
    · rw [hai, Function.update_self]
      exact hlive
    · rwa [Function.update_of_ne hai]
  unfold Processes.Placed at h ⊢
  simp only [Processes.put]
  cases hp : t.parent with
  | forking j =>
    rw [hp] at h
    refine ⟨h.1, h.2.1, fun a ha => hkeep a (h.2.2.1 a ha), fun a ha => ?_⟩
    have hunborn := h.2.2.2 a ha
    rwa [Function.update_of_ne (hne fun hl => hl.1 hunborn)]
  | waiting j =>
    rw [hp] at h
    refine ⟨h.1, h.2.1, fun a ha => ?_, fun a ha hn => hkeep a (h.2.2.2 a ha hn)⟩
    have hready := h.2.2.1 a ha
    rwa [Function.update_of_ne (hgone hready)]
  | again j =>
    rw [hp] at h
    have hj : j ≠ i := hne fun hl => hl.2 h.2.2.2.1.1
    refine ⟨h.1, h.2.1, fun a ha => ?_, ?_, fun a ha hn => hkeep a (h.2.2.2.2 a ha hn)⟩
    · have hready := h.2.2.1 a ha
      rwa [Function.update_of_ne (hgone hready)]
    · rw [Function.update_of_ne hj]
      exact h.2.2.2.1
  | rewaiting j =>
    rw [hp] at h
    refine ⟨h.1, h.2.1, fun a ha => ?_, fun a ha hn => hkeep a (h.2.2.2 a ha hn)⟩
    have hready := h.2.2.1 a ha
    rwa [Function.update_of_ne (hgone hready)]
  | reading j =>
    rw [hp] at h
    refine ⟨h.1, h.2.1, fun a ha => ?_, fun a ha hn => ?_⟩
    · have hread := h.2.2.1 a ha
      rwa [Function.update_of_ne (hgone hread)]
    · have hready := h.2.2.2 a ha hn
      rwa [Function.update_of_ne (hgone hready)]
  | done =>
    rw [hp] at h
    refine ⟨h.1, fun a ha => ?_⟩
    have hread := h.2 a ha
    rwa [Function.update_of_ne (hgone hread)]

/-- What `waitpid` does for a child that has ended. -/
theorem Sound.waitpid (h : Sound n ks wcs ms t) (hj : j < n) (htotal : t.total = sumTo wcs 0)
    (hready : ∀ i < j, t.child i = ⟨.gone, ks i + 1, [wcs i]⟩)
    (hlive : ∀ i, j ≤ i → i < n → (t.child i).Live) (hstep : t.waitpid n j = some ((), u)) :
    ∃ ms', Sound n ks wcs ms' u ∧
      ∑ a ∈ Finset.range n, ms' a + 1 = ∑ a ∈ Finset.range n, ms a := by
  have hstage := h.stage j hj
  have hother {c : Child} {a : ℕ} (ha : a ≠ j) : Function.update t.child j c a = t.child a :=
    Function.update_of_ne ha ..
  unfold Processes.waitpid at hstep
  cases hc : (t.child j).status with
  | exited =>
    simp only [hc, Option.some.injEq, Prod.mk.injEq, true_and] at hstep
    obtain ⟨hgone, hm⟩ := hstage.reap_exited hc
    have hready' (a : ℕ) (ha : a < j + 1) : Function.update t.child j
        { t.child j with status := .gone } a = ⟨.gone, ks a + 1, [wcs a]⟩ := by
      by_cases haj : a = j
      · rw [haj, Function.update_self, hgone]
      · rw [hother haj]
        exact hready a (by omega)
    rw [← hstep]
    refine h.move hj _ (if j + 1 < n then .waiting (j + 1) else .reading 0) t.total
      (hgone ▸ .ready) hm ?_
    by_cases hlast : j + 1 < n
    · rw [if_pos hlast]
      refine ⟨hlast, htotal, hready', fun a ha hn => ?_⟩
      change (Function.update t.child j _ a).Live
      rw [hother (by omega)]
      exact hlive a (by omega) hn
    · rw [if_neg hlast]
      exact ⟨by omega, htotal, fun a ha => absurd ha (Nat.not_lt_zero a),
        fun a _ hn => hready' a (by omega)⟩
  | signalled =>
    simp only [hc, Option.some.injEq, Prod.mk.injEq, true_and] at hstep
    obtain ⟨hruns, m', hm', hm⟩ := hstage.reap_signalled hc
    rw [← hstep]
    refine h.move hj _ (.again j) t.total hm' hm
      ⟨hj, htotal, fun a ha => ?_, ?_, fun a ha hn => ?_⟩
    · change Function.update t.child j _ a = _
      rw [hother (by omega)]
      exact hready a ha
    · change (Function.update t.child j _ j).status = _ ∧ (Function.update t.child j _ j).runs ≤ _
      rw [Function.update_self]
      exact ⟨rfl, hruns⟩
    · change (Function.update t.child j _ a).Live
      rw [hother (by omega)]
      exact hlive a (by omega) hn
  | _ => simp [hc] at hstep

theorem sumTo_succ (wc : ℕ → Count) (j : ℕ) : sumTo wc (j + 1) = (sumTo wc j).add (wc j) := by
  rw [sumTo, List.range_succ, List.map_append, List.foldl_append]
  rfl

/-- Every step, of whichever process, is one of the steps that were left. -/
theorem Sound.step {run : ℕ → ℕ → Option Count} (h : Sound n ks wcs ms t)
    (hrun : ∀ i < n, Exits (run i) (ks i) (wcs i)) {a : Action}
    (hstep : WC.step run n t a = some ((), u)) : ∃ ms', Sound n ks wcs ms' u ∧
      ∑ a ∈ Finset.range n, ms' a + 1 = ∑ a ∈ Finset.range n, ms a := by
  have hplaced := h.placed
  have hother {j : ℕ} {c : Child} {a : ℕ} (ha : a ≠ j) :
      Function.update t.child j c a = t.child a := Function.update_of_ne ha ..
  cases a with
  | child i =>
    cases hc : (t.child i).status with
    | counting =>
      have hi : i < n := by
        by_contra hi
        rw [h.beyond i (by omega)] at hc
        cases hc
      have hlive : (t.child i).Live := ⟨by simp [hc], by simp [hc]⟩
      rcases (h.stage i hi).count (hrun i hi) hc with ⟨hnone, m', hm', hm⟩ | ⟨hsome, m', hm', hm⟩
      · simp only [WC.step, hc, hnone, Option.some.injEq, Prod.mk.injEq, true_and] at hstep
        rw [← hstep]
        exact h.move hi _ t.parent t.total hm' hm (hplaced.child_step hlive ⟨by simp, by simp⟩)
      · simp only [WC.step, hc, hsome, Option.some.injEq, Prod.mk.injEq, true_and] at hstep
        rw [← hstep]
        exact h.move hi _ t.parent t.total hm' hm (hplaced.child_step hlive ⟨by simp, by simp⟩)
    | written =>
      have hi : i < n := by
        by_contra hi
        rw [h.beyond i (by omega)] at hc
        cases hc
      have hlive : (t.child i).Live := ⟨by simp [hc], by simp [hc]⟩
      obtain ⟨m', hm', hm⟩ := (h.stage i hi).exit hc
      simp only [WC.step, hc, Option.some.injEq, Prod.mk.injEq, true_and] at hstep
      rw [← hstep]
      exact h.move hi _ t.parent t.total hm' hm (hplaced.child_step hlive ⟨by simp, by simp⟩)
    | _ => simp [WC.step, hc] at hstep
  | parent =>
    unfold Processes.Placed at hplaced
    cases hp : t.parent with
    | forking j =>
      simp only [hp] at hplaced
      obtain ⟨hj, htotal, hlive, hunborn⟩ := hplaced
      simp only [WC.step, hp, Option.some.injEq, Prod.mk.injEq, true_and] at hstep
      obtain ⟨m', hm', hm, hforked⟩ := (h.stage j hj).fork_unborn (hunborn j le_rfl)
      have hlive' (a : ℕ) (ha : a < j + 1) : (Function.update t.child j (t.child j).fork a).Live := by
        by_cases haj : a = j
        · rw [haj, Function.update_self]
          exact hforked
        · rw [hother haj]
          exact hlive a (by omega)
      rw [← hstep]
      refine h.move hj _ (if j + 1 < n then .forking (j + 1) else .waiting 0) t.total hm' hm ?_
      by_cases hlast : j + 1 < n
      · rw [if_pos hlast]
        refine ⟨hlast, htotal, hlive', fun a ha => ?_⟩
        change (Function.update t.child j _ a).status = _
        rw [hother (by omega)]
        exact hunborn a (by omega)
      · rw [if_neg hlast]
        exact ⟨by omega, htotal, fun a ha => absurd ha (Nat.not_lt_zero a),
          fun a _ hn => hlive' a (by omega)⟩
    | waiting j =>
      simp only [hp] at hplaced
      simp only [WC.step, hp] at hstep
      exact h.waitpid hplaced.1 hplaced.2.1 hplaced.2.2.1 hplaced.2.2.2 hstep
    | again j =>
      simp only [hp] at hplaced
      obtain ⟨hj, htotal, hready, ⟨hgone, hruns⟩, hlive⟩ := hplaced
      simp only [WC.step, hp, Option.some.injEq, Prod.mk.injEq, true_and] at hstep
      obtain ⟨m', hm', hm, hforked⟩ := (h.stage j hj).fork_lost hgone hruns
      rw [← hstep]
      refine h.move hj _ (.rewaiting j) t.total hm' hm
        ⟨hj, htotal, fun a ha => ?_, fun a ha hn => ?_⟩
      · change Function.update t.child j _ a = _
        rw [hother (by omega)]
        exact hready a ha
      · change (Function.update t.child j _ a).Live
        by_cases haj : a = j
        · rw [haj, Function.update_self]
          exact hforked
        · rw [hother haj]
          exact hlive a (by omega) hn
    | rewaiting j =>
      simp only [hp] at hplaced
      simp only [WC.step, hp] at hstep
      exact h.waitpid hplaced.1 hplaced.2.1 hplaced.2.2.1 hplaced.2.2.2 hstep
    | reading j =>
      simp only [hp] at hplaced
      obtain ⟨hj, htotal, hread, hready⟩ := hplaced
      have hc := hready j le_rfl hj
      simp only [WC.step, hp, hc, Option.some.injEq, Prod.mk.injEq, true_and] at hstep
      have hstage := h.stage j hj
      rw [hc] at hstage
      have hm : 0 + 1 = ms j := by
        generalize ms j = m at hstage
        cases hstage
        rfl
      have hread' (a : ℕ) (ha : a < j + 1) :
          Function.update t.child j (⟨.gone, ks j + 1, []⟩ : Child) a = ⟨.gone, ks a + 1, []⟩ := by
        by_cases haj : a = j
        · rw [haj, Function.update_self]
        · rw [hother haj]
          exact hread a (by omega)
      rw [← hstep]
      refine h.move hj _ (if j + 1 < n then .reading (j + 1) else .done) (t.total.add (wcs j))
        .read hm ?_
      by_cases hlast : j + 1 < n
      · rw [if_pos hlast]
        refine ⟨hlast, ?_, hread', fun a ha hn => ?_⟩
        · change t.total.add (wcs j) = _
          rw [htotal, sumTo_succ]
        · change Function.update t.child j _ a = _
          rw [hother (by omega)]
          exact hready a (by omega) hn
      · rw [if_neg hlast]
        have hn : n = j + 1 := by omega
        refine ⟨?_, fun a ha => hread' a (by omega)⟩
        change t.total.add (wcs j) = _
        rw [htotal, hn, sumTo_succ]
    | done => simp [WC.step, hp] at hstep

/-- Until the parent is done, some process can take a step. -/
theorem Sound.progress (run : ℕ → ℕ → Option Count) (h : Sound n ks wcs ms t)
    (hdone : t.parent ≠ .done) : ∃ a, (WC.step run n t a).isSome := by
  have hplaced := h.placed
  -- A live child takes its next step, or has ended and can be waited for.
  have hwait (j : ℕ) (hlive : (t.child j).Live) (hp : t.parent = .waiting j ∨ t.parent = .rewaiting j) :
      ∃ a, (WC.step run n t a).isSome := by
    have hparent : WC.step run n t .parent = t.waitpid n j := by
      rcases hp with hp | hp <;> simp only [WC.step, hp]
    rcases hlive.cases with hc | hc | hc | hc
    · cases hrun : run j ((t.child j).runs - 1) with
      | none => exact ⟨.child j, by simp [WC.step, hc, hrun]⟩
      | some wc => exact ⟨.child j, by simp [WC.step, hc, hrun]⟩
    · exact ⟨.child j, by simp [WC.step, hc]⟩
    · exact ⟨.parent, by simp [hparent, Processes.waitpid, hc]⟩
    · exact ⟨.parent, by simp [hparent, Processes.waitpid, hc]⟩
  unfold Processes.Placed at hplaced
  cases hp : t.parent with
  | forking j => exact ⟨.parent, by simp [WC.step, hp]⟩
  | waiting j =>
    simp only [hp] at hplaced
    exact hwait j (hplaced.2.2.2 j le_rfl hplaced.1) (Or.inl hp)
  | again j => exact ⟨.parent, by simp [WC.step, hp]⟩
  | rewaiting j =>
    simp only [hp] at hplaced
    exact hwait j (hplaced.2.2.2 j le_rfl hplaced.1) (Or.inr hp)
  | reading j =>
    simp only [hp] at hplaced
    have hc := hplaced.2.2.2 j le_rfl hplaced.1
    exact ⟨.parent, by simp [WC.step, hp, hc]⟩
  | done => exact absurd hp hdone

/-- A run takes as many steps off what is left as it has. -/
theorem Sound.of_run {run : ℕ → ℕ → Option Count} (hrun : ∀ i < n, Exits (run i) (ks i) (wcs i))
    {actions : List Action} {replies : List Unit} (h : Sound n ks wcs ms t)
    (hactions : Mealy.run (WC.step run n) t actions = some (replies, u)) : ∃ ms',
      Sound n ks wcs ms' u ∧
        ∑ a ∈ Finset.range n, ms' a + actions.length = ∑ a ∈ Finset.range n, ms a := by
  induction actions generalizing t ms replies with
  | nil =>
    obtain ⟨-, rfl⟩ := Prod.mk.inj (Option.some.inj hactions)
    exact ⟨ms, h, rfl⟩
  | cons a actions ih =>
    obtain ⟨r, v, rs, hstep, hrest, -⟩ := (Mealy.run_cons_iff _ _ _ _ _ _).mp hactions
    obtain ⟨ms', hv, hsum⟩ := h.step hrun hstep
    obtain ⟨ms'', hu, hsum'⟩ := ih hv hrest
    refine ⟨ms'', hu, ?_⟩
    rw [List.length_cons]
    omega

/-- At the end nothing is left, and before it something is. -/
theorem Sound.done_iff {run : ℕ → ℕ → Option Count} (h : Sound n ks wcs ms t)
    (hrun : ∀ i < n, Exits (run i) (ks i) (wcs i)) :
    t.parent = .done ↔ ∑ a ∈ Finset.range n, ms a = 0 := by
  constructor
  · intro hp
    have hplaced := h.placed
    unfold Processes.Placed at hplaced
    rw [hp] at hplaced
    apply Finset.sum_eq_zero
    intro a ha
    have hstage := h.stage a (Finset.mem_range.mp ha)
    rw [hplaced.2 a (Finset.mem_range.mp ha)] at hstage
    generalize ms a = m at hstage
    cases hstage with
    | lost r hr => omega
    | read => rfl
  · intro hsum
    by_contra hp
    obtain ⟨a, ha⟩ := h.progress run hp
    obtain ⟨⟨r, u⟩, hstep⟩ := Option.isSome_iff_exists.mp ha
    obtain ⟨ms', -, hless⟩ := h.step hrun hstep
    omega

/-! ### Every order of steps -/

/-- What the children count when they run. -/
def children (data : List (BitVec 8)) (nChildProc : ℕ) (crashRate : ℤ) (rand : ℕ → ℕ → ℤ)
    (i k : ℕ) : Option Count :=
  let fsize : ℤ := data.length
  let size := BitVec.ofInt 32 (fsize.tdiv (if nChildProc = 0 then 1 else nChildProc))
  child data nChildProc size crashRate i (rand i k)

theorem children_exit (data : List (BitVec 8)) (nChildProc : ℕ) (hn : 1 ≤ nChildProc)
    (hlen : data.length < 2^31) (crashRate : ℤ) (rand : ℕ → ℕ → ℤ)
    (hretry : ∀ i < nChildProc, ∃ k, ¬ Crashes crashRate (rand i k)) :
    ∃ ks : ℕ → ℕ, ∀ i < nChildProc, Exits (children data nChildProc crashRate rand i) (ks i)
      (tally ((part data nChildProc i).takeWhile readable)) := by
  have hne : nChildProc ≠ 0 := by omega
  have hexits (i : ℕ) (hi : i < nChildProc) : ∃ k,
      Exits (children data nChildProc crashRate rand i) k
        (tally ((part data nChildProc i).takeWhile readable)) := by
    have heq (k : ℕ) : children data nChildProc crashRate rand i k =
        if Crashes crashRate (rand i k) then none
        else some (tally ((part data nChildProc i).takeWhile readable)) := by
      simp only [children, hne, if_false]
      exact child_eq data nChildProc crashRate i _ hlen hi
    refine ⟨Nat.find (hretry i hi), fun j hj => ?_, ?_⟩
    · rw [heq, if_pos (not_not.mp (Nat.find_min (hretry i hi) hj))]
    · rw [heq, if_neg (Nat.find_spec (hretry i hi))]
  choose! ks hks using hexits
  exact ⟨ks, hks⟩

/-- In whichever order the parent and its children run, and however often the children abort: all
runs have the same number of steps to go, none is stuck before the parent is done, and then it has
read the totals that the children give one after the other. -/
theorem processes_total (data : List (BitVec 8)) (nChildProc : ℕ) (hn : 1 ≤ nChildProc)
    (hlen : data.length < 2^31) (crashRate : ℤ) (rand : ℕ → ℕ → ℤ)
    (hretry : ∀ i < nChildProc, ∃ k, ¬ Crashes crashRate (rand i k)) :
    ∃ steps enough multi,
      (∀ fuel ≥ enough, wcMulti fuel data nChildProc crashRate rand = some multi) ∧
      ∀ actions replies t, Mealy.run (step (children data nChildProc crashRate rand) nChildProc)
          start actions = some (replies, t) →
        actions.length ≤ steps ∧ (actions.length = steps ↔ t.parent = .done) ∧
        (t.parent = .done → t.total = multi) ∧
        (t.parent ≠ .done →
          ∃ a, (step (children data nChildProc crashRate rand) nChildProc t a).isSome) := by
  obtain ⟨ks, hks⟩ := children_exit data nChildProc hn hlen crashRate rand hretry
  obtain ⟨enough, hmulti⟩ := wcMulti_eq data nChildProc hn hlen crashRate rand hretry
  refine ⟨∑ i ∈ Finset.range nChildProc, (3 * ks i + 5), enough, _, hmulti, ?_⟩
  intro actions replies t hrun
  obtain ⟨ms, ht, hsum⟩ := (sound_start hn).of_run hks hrun
  have hdone := ht.done_iff hks
  refine ⟨by omega, ?_, fun hp => ?_, fun hp => ht.progress _ hp⟩
  · rw [hdone]
    omega
  · have hplaced := ht.placed
    unfold Processes.Placed at hplaced
    rw [hp] at hplaced
    exact hplaced.1

/-- Three children, of which the first aborts once. -/
theorem processes_total_three : ∃ steps enough multi,
    (∀ fuel ≥ enough, wcMulti fuel [0x61, 0x20, 0x62, 0x0A, 0x63, 0x0A] 3 50
      (fun i k => if i = 0 ∧ k = 0 then 7 else 80) = some multi) ∧
    ∀ actions replies t, Mealy.run (step (children [0x61, 0x20, 0x62, 0x0A, 0x63, 0x0A] 3 50
          fun i k => if i = 0 ∧ k = 0 then 7 else 80) 3) start actions = some (replies, t) →
      actions.length ≤ steps ∧ (t.parent = .done → t.total = multi) := by
  obtain ⟨steps, enough, multi, hmulti, hall⟩ := processes_total
    [0x61, 0x20, 0x62, 0x0A, 0x63, 0x0A] 3 (by decide) (by decide) 50
    (fun i k => if i = 0 ∧ k = 0 then 7 else 80) fun _ _ => ⟨1, by simp [Crashes]⟩
  refine ⟨steps, enough, multi, hmulti, fun actions replies t hrun => ?_⟩
  obtain ⟨hle, -, htotal, -⟩ := hall actions replies t hrun
  exact ⟨hle, htotal⟩

end OperatingSystems.WC
