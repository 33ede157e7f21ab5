import Mathlib.Data.Int.Notation
import Mathlib.Data.Nat.Notation
import Mathlib.Data.List.Nodup
import Mathlib.Logic.Function.Basic

/-! Frames on a ring, in the order in which a hand passes them, and the clock with one reference
bit for each frame. -/
namespace OperatingSystems.Frames

/-- The `n` frames in order from `h`. -/
def ring (n h : ℤ) : List ℤ := (List.range n.toNat).map fun i : ℕ => (h + i) % n

theorem mem_ring {n h f : ℤ} : f ∈ ring n h ↔ 0 ≤ f ∧ f < n := by
  rw [ring, List.mem_map]
  constructor
  · rintro ⟨i, hi, rfl⟩
    have hn : 0 < n := by
      rw [List.mem_range] at hi
      omega
    exact ⟨Int.emod_nonneg _ (by omega), Int.emod_lt_of_pos _ hn⟩
  · rintro ⟨h0, h1⟩
    have hn : 0 < n := by omega
    have hr := Int.emod_nonneg (f - h) (show n ≠ 0 by omega)
    have hlt := Int.emod_lt_of_pos (f - h) hn
    refine ⟨((f - h) % n).toNat, List.mem_range.mpr (by omega), ?_⟩
    rw [Int.toNat_of_nonneg hr, Int.add_emod_emod, show h + (f - h) = f by omega]
    exact Int.emod_eq_of_lt h0 h1

theorem nodup_ring (n h : ℤ) : (ring n h).Nodup := by
  refine List.Nodup.map_on ?_ List.nodup_range
  intro i hi j hj he
  rw [List.mem_range] at hi hj
  have hdvd := Int.dvd_of_emod_eq_zero (Int.emod_eq_emod_iff_emod_sub_eq_zero.mp he)
  have hzero := Int.eq_zero_of_dvd_of_natAbs_lt_natAbs hdvd (by omega)
  omega

/-- A step of the hand moves the first frame to the end. -/
theorem ring_turn {n h : ℤ} (h0 : 0 ≤ h) (hn : h < n) :
    ∃ rest, ring n h = h :: rest ∧ ring n ((h+1)%n) = rest ++ [h] := by
  obtain ⟨m, hm⟩ : ∃ m : ℕ, n.toNat = m + 1 := ⟨n.toNat - 1, by omega⟩
  refine ⟨(List.range m).map fun i : ℕ => (h + 1 + i) % n, ?_, ?_⟩
  · rw [ring, hm, List.range_succ_eq_map, List.map_cons, List.map_map]
    congr 1
    · rw [Int.natCast_zero, Int.add_zero]
      exact Int.emod_eq_of_lt h0 hn
    · apply List.map_congr_left
      intro i _
      simp only [Function.comp]
      congr 1
      push_cast
      omega
  · rw [ring, hm, List.range_succ, List.map_append, List.map_singleton]
    congr 1
    · apply List.map_congr_left
      intro i _
      rw [Int.emod_add_emod]
    · rw [Int.emod_add_emod, show h + 1 + (m : ℤ) = h + n by omega, Int.add_emod_right]
      exact congrArg (fun x => [x]) (Int.emod_eq_of_lt h0 hn)

/-- A frame more, while the hand has not moved. -/
theorem ring_zero_succ {n : ℤ} (hn : 0 ≤ n) : ring (n+1) 0 = ring n 0 ++ [n] := by
  have hm : (n+1).toNat = n.toNat + 1 := by omega
  rw [ring, hm, List.range_succ, List.map_append, List.map_singleton, ring]
  congr 1
  · apply List.map_congr_left
    intro i hi
    rw [List.mem_range] at hi
    rw [Int.emod_eq_of_lt (by omega) (by omega), Int.emod_eq_of_lt (by omega) (by omega)]
  · rw [Int.emod_eq_of_lt (by omega) (by omega)]
    exact congrArg (fun x => [x]) (by omega)

/-! ### The clock -/

/-- The frame that a page gets, whether the page was there, and the page that had to go. -/
structure Access (κ : Type*) where
  frame : ℤ
  hit : Bool
  victim : Option κ
  deriving DecidableEq

/-- The pages in the first `used` frames, a bit for each frame, and the hand. -/
structure Clock (κ : Type*) where
  page : ℤ → Option κ
  used : ℤ
  ref : ℤ → Bool
  hand : ℤ

def Clock.empty {κ : Type*} : Clock κ := ⟨fun _ => none, 0, fun _ => false, 0⟩

/-- While the hand points at a set bit, clear it and advance; `k` bounds the turns. -/
def sweep (n : ℤ) : ℕ → (ℤ → Bool) → ℤ → (ℤ → Bool) × ℤ
  | 0, ref, h => (ref, h)
  | k+1, ref, h =>
    if ref h then sweep n k (Function.update ref h false) ((h+1)%n) else (ref, h)

/-- One use of page `p` in a memory of `n` frames. -/
def Clock.use {κ : Type*} [DecidableEq κ] (n : ℤ) (c : Clock κ) (p : κ) : Access κ × Clock κ :=
  match (ring c.used 0).find? fun f => c.page f = some p with
  | some f => (⟨f, true, none⟩, { c with ref := Function.update c.ref f true })
  | none =>
    if c.used < n then
      (⟨c.used, false, none⟩, { c with
        page := Function.update c.page c.used (some p)
        used := c.used + 1
        ref := Function.update c.ref c.used false })
    else
      let (ref, f) := sweep n n.toNat c.ref c.hand
      (⟨f, false, c.page f⟩, { c with
        page := Function.update c.page f (some p)
        ref := Function.update ref f false
        hand := (f+1)%n })

theorem sweep_range {n : ℤ} (k : ℕ) (ref : ℤ → Bool) {h : ℤ} (h0 : 0 ≤ h) (hn : h < n) :
    0 ≤ (sweep n k ref h).2 ∧ (sweep n k ref h).2 < n := by
  induction k generalizing ref h with
  | zero => exact ⟨h0, hn⟩
  | succ k ih =>
    rw [sweep]
    split
    · exact ih _ (Int.emod_nonneg _ (by omega)) (Int.emod_lt_of_pos _ (by omega))
    · exact ⟨h0, hn⟩

/-- The hand stops before it has cleared more bits than were set. -/
theorem sweep_stops {n : ℤ} (k : ℕ) (ref : ℤ → Bool) {h : ℤ} (h0 : 0 ≤ h) (hn : h < n)
    (hk : (ring n h).countP ref ≤ k) : (sweep n k ref h).1 (sweep n k ref h).2 = false := by
  induction k generalizing ref h with
  | zero =>
    have hnone := List.countP_eq_zero.mp (Nat.le_zero.mp hk) h (mem_ring.mpr ⟨h0, hn⟩)
    exact Bool.eq_false_iff.mpr hnone
  | succ k ih =>
    rw [sweep]
    split
    · rename_i href
      apply ih _ (Int.emod_nonneg _ (by omega)) (Int.emod_lt_of_pos _ (by omega))
      -- one set bit less is ahead of the hand
      obtain ⟨rest, hring, hturn⟩ := ring_turn h0 hn
      have hnd := nodup_ring n h
      rw [hring, List.nodup_cons] at hnd
      have hrest : rest.countP (Function.update ref h false) = rest.countP ref := by
        apply List.countP_congr
        intro f hf
        rw [Function.update_of_ne (ne_of_mem_of_not_mem hf hnd.1)]
      rw [hring, List.countP_cons, if_pos href] at hk
      rw [hturn, List.countP_append, hrest, List.countP_singleton, Function.update_self]
      simp only [Bool.false_eq_true, if_false]
      omega
    · rename_i href
      exact Bool.eq_false_iff.mpr href

end OperatingSystems.Frames
