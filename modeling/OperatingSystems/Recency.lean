import Mathlib.Data.List.DropRight
import Mathlib.Data.List.Nodup

/-! Recency orders: the distinct elements of a history, the latest used last. A least recently
used store of `k` places holds the last `k` of them, so stores of different sizes are nested. -/
namespace OperatingSystems.Recency

variable {α : Type*}

theorem length_rtake (k : ℕ) (L : List α) : (L.rtake k).length = min k L.length := by
  rw [List.rtake, List.length_drop]
  omega

theorem length_rdrop (k : ℕ) (L : List α) : (L.rdrop k).length = L.length - k := by
  rw [List.rdrop, List.length_take]
  omega

theorem rdrop_append_rtake (k : ℕ) (L : List α) : L.rdrop k ++ L.rtake k = L := by
  rw [List.rdrop, List.rtake, List.take_append_drop]

/-- The larger of two stores holds everything the smaller one does. -/
theorem mem_rtake_mono {k m : ℕ} (hkm : k ≤ m) (L : List α) (a : α) (h : a ∈ L.rtake k) :
    a ∈ L.rtake m := by
  rw [List.rtake] at h ⊢
  exact List.drop_subset_drop_left L (by omega) h

variable [DecidableEq α]

/-- A use moves the element to the recent end. -/
def touch (L : List α) (a : α) : List α := L.erase a ++ [a]

/-- One use in a store of `k` places, kept from the least to the most recently used. -/
def lruStep (k : ℕ) (L : List α) (a : α) : List α :=
  if a ∈ L then touch L a
  else if L.length < k then L ++ [a]
  else L.tail ++ [a]

theorem nodup_touch (L : List α) (a : α) (h : L.Nodup) : (touch L a).Nodup := by
  refine List.nodup_append.mpr ⟨h.erase a, List.nodup_singleton a, ?_⟩
  rintro x hx y hy rfl
  rw [List.mem_singleton.mp hy] at hx
  exact h.not_mem_erase hx

/-- A store of `k ≥ 1` places is the `k` most recent elements, before and after a use. -/
theorem lruStep_rtake (k : ℕ) (L : List α) (a : α) (hk : 1 ≤ k) (h : L.Nodup) :
    lruStep k (L.rtake k) a = (touch L a).rtake k := by
  have hsplit := rdrop_append_rtake k L
  have hlen := length_rtake k L
  have hold := length_rdrop k L
  generalize L.rdrop k = A at hsplit hold
  generalize L.rtake k = B at hsplit hlen ⊢
  subst hsplit
  rw [List.length_append] at hlen hold
  obtain ⟨_, hB, hdisj⟩ := List.nodup_append.mp h
  unfold lruStep
  split_ifs with hmem hlt
  · -- a hit erases `a` among the recent elements only
    have herase : (A ++ B).erase a = A ++ B.erase a :=
      List.erase_append_right _ fun hin => hdisj a hin a hmem rfl
    have hpos := List.length_pos_of_mem hmem
    have hcut : (touch (A ++ B) a).length - k = A.length := by
      simp only [touch, herase, List.length_append, List.length_erase_of_mem hmem,
        List.length_singleton]
      omega
    rw [List.rtake, hcut, touch, touch, herase, List.append_assoc, List.drop_left]
  · -- fewer than `k` elements so far: nothing drops out
    have hA : A = [] := List.eq_nil_of_length_eq_zero (by omega)
    subst hA
    rw [List.nil_append, touch, List.erase_of_not_mem hmem, List.rtake, List.length_append,
      List.length_singleton, show B.length + 1 - k = 0 from by omega, List.drop_zero]
  · -- the least recent of the `k` elements drops out, wherever `a` was before
    have herase : (A ++ B).erase a = A.erase a ++ B := by
      by_cases hA : a ∈ A
      · exact List.erase_append_left B hA
      · rw [List.erase_of_not_mem hA, List.erase_of_not_mem]
        simp [hA, hmem]
    cases B with
    | nil =>
      simp only [List.length_nil] at hlt
      omega
    | cons b B =>
      have hcut : (touch (A ++ b :: B) a).length - k = (A.erase a).length + 1 := by
        simp only [touch, herase, List.length_append, List.length_cons, List.length_nil] at hlt ⊢
        simp only [List.length_cons] at hlen
        omega
      rw [List.rtake, hcut, touch, herase, List.append_assoc, List.drop_append]
      simp

/-- One use in a store of `k` places that gives them up in the order in which they were filled. -/
def fifoStep (k : ℕ) (L : List α) (a : α) : List α :=
  if a ∈ L then L
  else if L.length < k then L ++ [a]
  else L.tail ++ [a]

/-- The time of the latest use of `a`, the first use being at time 1; 0 if there is none. -/
def lastUse (past : List α) (a : α) : ℕ := past.length - past.reverse.idxOf a

theorem lastUse_concat_self (past : List α) (a : α) :
    lastUse (past ++ [a]) a = past.length + 1 := by
  simp [lastUse]

theorem lastUse_concat_of_ne (past : List α) {a b : α} (h : b ≠ a) :
    lastUse (past ++ [a]) b = lastUse past b := by
  unfold lastUse
  rw [List.reverse_append, List.reverse_singleton, List.singleton_append,
    List.idxOf_cons_ne _ (Ne.symm h), List.length_append, List.length_singleton]
  omega

theorem lastUse_le (past : List α) (a : α) : lastUse past a ≤ past.length := Nat.sub_le _ _

/-- A list ordered by the latest use, the oldest first. -/
def Oldest (past L : List α) : Prop := L.Pairwise fun a b => lastUse past a < lastUse past b

theorem Oldest.nodup {past L : List α} (h : Oldest past L) : L.Nodup := by
  refine List.Pairwise.imp ?_ h
  rintro a b hlt rfl
  exact lt_irrefl _ hlt

/-- Whatever is used next belongs at the end. -/
theorem Oldest.concat {past L : List α} (h : Oldest past L) {a : α} (ha : a ∉ L) :
    Oldest (past ++ [a]) (L ++ [a]) := by
  refine List.pairwise_append.mpr ⟨?_, List.pairwise_singleton _ _, ?_⟩
  · refine List.Pairwise.imp_of_mem ?_ h
    intro b c hb hc hlt
    rwa [lastUse_concat_of_ne past (ne_of_mem_of_not_mem hb ha),
      lastUse_concat_of_ne past (ne_of_mem_of_not_mem hc ha)]
  · intro b hb c hc
    rw [List.mem_singleton.mp hc, lastUse_concat_self,
      lastUse_concat_of_ne past (ne_of_mem_of_not_mem hb ha)]
    have := lastUse_le past b
    omega

theorem Oldest.sublist {past L M : List α} (h : Oldest past L) (hM : M.Sublist L) :
    Oldest past M := List.Pairwise.sublist hM h

theorem Oldest.touch {past L : List α} (h : Oldest past L) (a : α) :
    Oldest (past ++ [a]) (touch L a) :=
  (h.sublist List.erase_sublist).concat h.nodup.not_mem_erase

/-- Where only loads count as uses. -/
theorem Oldest.fifoStep {past L : List α} (h : Oldest past L) (k : ℕ) (a : α) :
    Oldest (if a ∈ L then past else past ++ [a]) (fifoStep k L a) := by
  unfold Recency.fifoStep
  split_ifs with hmem hlt
  · exact h
  · exact h.concat hmem
  · exact (h.sublist (List.tail_sublist L)).concat fun hin => hmem (List.mem_of_mem_tail hin)

/-- The head is used less recently than the rest. -/
theorem Oldest.head {past L : List α} {a b : α} (h : Oldest past (a :: L)) (hb : b ∈ a :: L)
    (hne : b ≠ a) : lastUse past a < lastUse past b :=
  (List.pairwise_cons.mp h).1 b ((List.mem_cons.mp hb).resolve_left hne)

end OperatingSystems.Recency
