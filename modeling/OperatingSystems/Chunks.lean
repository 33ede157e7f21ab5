import Mathlib.Algebra.BigOperators.Group.Finset.Basic
import Mathlib.Algebra.Order.BigOperators.Group.Finset
import Mathlib.Data.List.TakeWhile
import Mathlib.Tactic.Linarith

/-! A list cut into consecutive chunks, and scans of the chunks that each stop at the first
element outside a set. -/

namespace OperatingSystems

variable {α : Type*}

/-- Chunk `i` of `n` chunks of `s` elements, the last of which also takes what is left over. -/
def chunk (n s : ℕ) (xs : List α) (i : ℕ) : List α :=
  (xs.drop (i * s)).take (if i + 1 = n then xs.length - i * s else s)

/-- The first `m` chunks joined. -/
def joined (c : ℕ → List α) (m : ℕ) : List α :=
  (List.range m).flatMap c

@[simp] theorem joined_zero (c : ℕ → List α) : joined c 0 = [] := rfl

@[simp] theorem joined_succ (c : ℕ → List α) (m : ℕ) : joined c (m + 1) = joined c m ++ c m := by
  simp [joined, List.range_succ]

theorem joined_chunks_take (n s : ℕ) (xs : List α) (m : ℕ) (hm : m < n) :
    joined (chunk n s xs) m = xs.take (m * s) := by
  induction m with
  | zero => simp
  | succ m ih =>
    have hne : ¬ m + 1 = n := by omega
    rw [joined_succ, ih (by omega), chunk, if_neg hne, Nat.succ_mul, List.take_add]

/-- The chunks tile the list, whatever its length. -/
theorem joined_chunks (n s : ℕ) (xs : List α) (hn : 0 < n) : joined (chunk n s xs) n = xs := by
  obtain ⟨m, rfl⟩ : ∃ m, n = m + 1 := ⟨n - 1, by omega⟩
  have hlast : chunk (m + 1) s xs m = xs.drop (m * s) := by
    rw [chunk, if_pos rfl]
    apply List.take_of_length_le
    rw [List.length_drop]
  rw [joined_succ, joined_chunks_take (m + 1) s xs m (by omega), hlast, List.take_append_drop]

/-- Scanning chunk by chunk counts what one scan counts, and in addition what the chunks behind
the first stop still hold before a stop of their own. -/
theorem sum_countP_takeWhile (p q : α → Bool) (c : ℕ → List α) (m : ℕ) :
    ∑ i ∈ Finset.range m, ((c i).takeWhile p).countP q =
      ((joined c m).takeWhile p).countP q +
        ∑ i ∈ Finset.range m,
          if (joined c i).all p then 0 else ((c i).takeWhile p).countP q := by
  induction m with
  | zero => simp
  | succ m ih =>
    rw [Finset.sum_range_succ, ih, Finset.sum_range_succ, joined_succ, List.takeWhile_append]
    by_cases hall : (joined c m).all p
    · -- No stop so far: the single scan reads on into chunk `m`.
      have htake : (joined c m).takeWhile p = joined c m :=
        List.takeWhile_eq_self_iff.mpr (List.all_eq_true.mp hall)
      simp only [htake, if_true, hall, List.countP_append]
      omega
    · -- The single scan has stopped: what chunk `m` adds is all excess.
      have hlen : ((joined c m).takeWhile p).length ≠ (joined c m).length := by
        intro h
        apply hall
        rw [List.all_eq_true, ← List.takeWhile_eq_self_iff]
        exact (List.takeWhile_prefix p).eq_of_length h
      simp only [hlen, hall, if_false, Bool.false_eq_true]
      omega

/-- The scans of the chunks read as many elements as one scan exactly when every chunk behind a
stop begins with a stop. -/
theorem sum_length_takeWhile_iff (p : α → Bool) (c : ℕ → List α) (m : ℕ) :
    ∑ i ∈ Finset.range m, ((c i).takeWhile p).length = ((joined c m).takeWhile p).length ↔
      ∀ i < m, (∃ a ∈ joined c i, p a = false) → (c i).takeWhile p = [] := by
  have hsum := sum_countP_takeWhile p (fun _ => true) c m
  simp only [List.countP_true] at hsum
  rw [hsum, Nat.add_eq_left, Finset.sum_eq_zero_iff]
  constructor
  · intro h i hi ⟨a, ha, hpa⟩
    have hall : ¬ (joined c i).all p := by
      rw [List.all_eq_true]
      intro hforall
      simp [hforall a ha] at hpa
    have := h i (Finset.mem_range.mpr hi)
    rw [if_neg hall] at this
    exact List.length_eq_zero_iff.mp this
  · intro h i hi
    by_cases hall : (joined c i).all p
    · rw [if_pos hall]
    · rw [if_neg hall]
      have hbad : ∃ a ∈ joined c i, p a = false := by
        simpa [List.all_eq_true] using hall
      rw [h i (Finset.mem_range.mp hi) hbad, List.length_nil]

/-- Where the scans read as many elements as one scan, they count as many of every kind. -/
theorem sum_countP_takeWhile_eq (p q : α → Bool) (c : ℕ → List α) (m : ℕ)
    (h : ∀ i < m, (∃ a ∈ joined c i, p a = false) → (c i).takeWhile p = []) :
    ∑ i ∈ Finset.range m, ((c i).takeWhile p).countP q = ((joined c m).takeWhile p).countP q := by
  rw [sum_countP_takeWhile, Nat.add_eq_left, Finset.sum_eq_zero_iff]
  intro i hi
  by_cases hall : (joined c i).all p
  · rw [if_pos hall]
  · rw [if_neg hall]
    have hbad : ∃ a ∈ joined c i, p a = false := by
      simpa [List.all_eq_true] using hall
    rw [h i (Finset.mem_range.mp hi) hbad, List.countP_nil]

/-- Scans of the chunks never count more than the list holds. -/
theorem sum_countP_takeWhile_le (p q : α → Bool) (c : ℕ → List α) (m : ℕ) :
    ∑ i ∈ Finset.range m, ((c i).takeWhile p).countP q ≤ (joined c m).length := by
  induction m with
  | zero => simp
  | succ m ih =>
    have hscan : ((c m).takeWhile p).countP q ≤ (c m).length :=
      (List.countP_le_length).trans (List.takeWhile_prefix p).length_le
    rw [Finset.sum_range_succ, joined_succ, List.length_append]
    omega

end OperatingSystems
