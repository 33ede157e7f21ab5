import Mathlib.Data.Finset.Card
import Mathlib.Data.List.Chain
import Mathlib.Data.List.Nodup
import Mathlib.Data.List.Induction
import Mathlib.Data.Nat.Notation
import Mathlib.Tactic.Ring
import Mathlib.Tactic.Linarith

/-! Paging. A store with room for some pages is asked for one page after another, and a page that
it does not hold is a fault. Stores that replace at will are compared with stores kept as a queue,
in the order of the loads or of the latest uses. -/
namespace OperatingSystems.Paging

variable {α : Type*} [DecidableEq α]

/-- A store of `h` places can go from `C` to `D` over the requests with `n` faults, whatever it
drops on the way; all it may take in is the page asked for. -/
inductive Serves (h : ℕ) : Finset α → List α → ℕ → Finset α → Prop
  | nil (C : Finset α) : Serves h C [] 0 C
  | cons {C D E : Finset α} {a : α} {as : List α} {n : ℕ} : a ∈ D → D ⊆ insert a C → D.card ≤ h →
      Serves h D as n E → Serves h C (a :: as) ((if a ∈ C then 0 else 1) + n) E

/-- A request to a store of `k` places kept as a queue, with the faults it adds. A page that is
there stays in its place or goes to the end; one that comes in goes to the end, and the first one
makes room. -/
inductive Turn (k : ℕ) (L : List α) (a : α) : List α → ℕ → Prop
  | stay : a ∈ L → Turn k L a L 0
  | move : a ∈ L → Turn k L a (L.erase a ++ [a]) 0
  | load : a ∉ L → L.length < k → Turn k L a (L ++ [a]) 1
  | evict : a ∉ L → L.length = k → Turn k L a (L.tail ++ [a]) 1

/-- Requests to the queue one after the other, and all their faults. -/
inductive Queue (k : ℕ) : List α → List α → ℕ → List α → Prop
  | nil (L : List α) : Queue k L [] 0 L
  | cons {L M N : List α} {a : α} {as : List α} {m n : ℕ} : Turn k L a M m → Queue k M as n N →
      Queue k L (a :: as) (m + n) N

variable {h k m n : ℕ} {C D E : Finset α} {L M N : List α} {a b : α} {as bs : List α}

/-! ### Stores that replace at will -/

theorem Serves.split (hs : Serves h C (as ++ bs) n E) : ∃ D n₁ n₂, n = n₁ + n₂ ∧
    Serves h C as n₁ D ∧ Serves h D bs n₂ E := by
  induction as generalizing C n with
  | nil => exact ⟨C, 0, n, (Nat.zero_add n).symm, .nil C, hs⟩
  | cons a as ih =>
    cases hs with
    | cons ha hsub hcard hrest =>
      obtain ⟨D, n₁, n₂, rfl, h₁, h₂⟩ := ih hrest
      exact ⟨D, _, n₂, (Nat.add_assoc _ _ _).symm, .cons ha hsub hcard h₁, h₂⟩

theorem Serves.append (hs : Serves h C as m D) (ht : Serves h D bs n E) :
    Serves h C (as ++ bs) (m + n) E := by
  induction hs with
  | nil C => rwa [Nat.zero_add]
  | cons ha hsub hcard _ ih =>
    rw [Nat.add_assoc]
    exact .cons ha hsub hcard (ih ht)

/-- One request more. -/
theorem Serves.concat (hs : Serves h C as n D) (ha : a ∈ E) (hsub : E ⊆ insert a D)
    (hcard : E.card ≤ h) : Serves h C (as ++ [a]) (n + if a ∈ D then 0 else 1) E :=
  hs.append (.cons ha hsub hcard (.nil E))

/-- The page asked for last is there at the end. -/
theorem Serves.last (hs : Serves h C (as ++ [b]) n E) : b ∈ E ∧ E.card ≤ h := by
  obtain ⟨D, n₁, n₂, -, -, h₂⟩ := hs.split
  cases h₂ with
  | cons hb _ hcard hrest =>
    cases hrest
    exact ⟨hb, hcard⟩

/-- A page that is not there at first costs a fault. -/
theorem Serves.card_le (hs : Serves h C as n E) : (as.toFinset \ C).card ≤ n := by
  induction hs with
  | nil C => simp
  | @cons C D E a as n ha hsub hcard hrest ih =>
    have hmono : as.toFinset \ insert a C ⊆ as.toFinset \ D := Finset.sdiff_subset_sdiff le_rfl hsub
    have hle := (Finset.card_le_card hmono).trans ih
    rw [List.toFinset_cons]
    by_cases hC : a ∈ C
    · rw [if_pos hC, Finset.insert_sdiff_of_mem _ hC, Nat.zero_add]
      rwa [Finset.insert_eq_of_mem hC] at hle
    · rw [if_neg hC]
      have hcover : insert a as.toFinset \ C ⊆ insert a (as.toFinset \ insert a C) := by
        intro x hx
        simp only [Finset.mem_sdiff, Finset.mem_insert] at hx ⊢
        tauto
      calc (insert a as.toFinset \ C).card
          ≤ (insert a (as.toFinset \ insert a C)).card := Finset.card_le_card hcover
        _ ≤ (as.toFinset \ insert a C).card + 1 := Finset.card_insert_le _ _
        _ ≤ 1 + n := by omega

/-- In a store of one place a page drives out the one before. -/
theorem Serves.length_le (hs : Serves 1 C as n E) (hfirst : ∀ a ∈ as.head?, a ∉ C)
    (has : as.IsChain (· ≠ ·)) : as.length ≤ n := by
  induction hs with
  | nil => exact le_rfl
  | @cons C D E a as n ha _ hcard _ ih =>
    have hnext : ∀ b ∈ as.head?, b ∉ D := by
      intro b hb hD
      have hne := has.rel_head? hb
      exact hne (Finset.card_le_one.mp hcard a ha b hD)
    have hle := ih hnext has.of_cons
    rw [if_neg (hfirst a rfl), List.length_cons]
    omega

/-! ### Stores kept as a queue -/

theorem Turn.nodup (ht : Turn k L a M m) (hL : L.Nodup) : M.Nodup := by
  have hconcat {l : List α} (hl : l.Nodup) (ha : a ∉ l) : (l ++ [a]).Nodup := by
    rw [List.nodup_append]
    refine ⟨hl, List.nodup_singleton a, ?_⟩
    intro b hb c hc
    rw [List.mem_singleton.mp hc]
    exact ne_of_mem_of_not_mem hb ha
  cases ht with
  | stay => exact hL
  | move => exact hconcat (hL.erase a) hL.not_mem_erase
  | load ha => exact hconcat hL ha
  | evict ha => exact hconcat hL.tail fun hmem => ha (List.mem_of_mem_tail hmem)

theorem Queue.split (hq : Queue k L (as ++ bs) n N) : ∃ M n₁ n₂, n = n₁ + n₂ ∧
    Queue k L as n₁ M ∧ Queue k M bs n₂ N := by
  induction as generalizing L n with
  | nil => exact ⟨L, 0, n, (Nat.zero_add n).symm, .nil L, hq⟩
  | cons a as ih =>
    cases hq with
    | cons ht hrest =>
      obtain ⟨M, n₁, n₂, rfl, h₁, h₂⟩ := ih hrest
      exact ⟨M, _, n₂, (Nat.add_assoc _ _ _).symm, .cons ht h₁, h₂⟩

theorem Queue.append (hq : Queue k L as m M) (hr : Queue k M bs n N) :
    Queue k L (as ++ bs) (m + n) N := by
  induction hq with
  | nil L => rwa [Nat.zero_add]
  | cons ht _ ih =>
    rw [Nat.add_assoc]
    exact .cons ht (ih hr)

/-- One request more. -/
theorem Queue.concat (hq : Queue k L as n M) (ht : Turn k M a N m) :
    Queue k L (as ++ [a]) (n + m) N :=
  hq.append (.cons ht (.nil N))

theorem Queue.nodup (hq : Queue k L as n M) (hL : L.Nodup) : M.Nodup := by
  induction hq with
  | nil => exact hL
  | cons ht _ ih => exact ih (ht.nodup hL)

/-- The pages of the queue asked for in a stretch of requests end up behind the others. As long
as these are not all gone, no page of the stretch drops out, so each faults once. -/
theorem Queue.faults_le {old new : List α} {S : Finset α} (hq : Queue k (old ++ new) as n N)
    (hnd : (old ++ new).Nodup) (hnew : ∀ a ∈ new, a ∈ S) (hcard : (S ∪ as.toFinset).card ≤ k) :
    n + new.length ≤ (S ∪ as.toFinset).card := by
  generalize hL : old ++ new = L at hq hnd
  induction hq generalizing old new S with
  | nil L =>
    subst hL
    have hsub : new.toFinset ⊆ S ∪ [].toFinset := by
      intro a ha
      exact Finset.mem_union_left _ (hnew a (List.mem_toFinset.mp ha))
    have hle := Finset.card_le_card hsub
    rwa [List.toFinset_card_of_nodup (List.nodup_append.mp hnd).2.1, ← Nat.zero_add new.length]
      at hle
  | @cons L M N a as m n ht hrest ih =>
    have hnext := ht.nodup hnd
    subst hL
    have hS : S ∪ (a :: as).toFinset = insert a S ∪ as.toFinset := by
      rw [List.toFinset_cons, Finset.union_insert, Finset.insert_union]
    rw [hS] at hcard ⊢
    have hold : ∀ b ∈ new, b ∈ insert a S := fun b hb => Finset.mem_insert_of_mem (hnew b hb)
    have hconcat {l : List α} (hl : ∀ b ∈ l, b ∈ new) : ∀ b ∈ l ++ [a], b ∈ insert a S := by
      intro b hb
      rcases List.mem_append.mp hb with hb | hb
      · exact hold b (hl b hb)
      · rw [List.mem_singleton.mp hb]
        exact Finset.mem_insert_self a S
    cases ht with
    | stay =>
      rw [Nat.zero_add]
      exact ih hold hcard rfl hnext
    | move hmem =>
      by_cases ha : a ∈ old
      · have hsplit : old.erase a ++ (new ++ [a]) = (old ++ new).erase a ++ [a] := by
          rw [List.erase_append_left _ ha, List.append_assoc]
        have hle := ih (hconcat fun _ hb => hb) hcard hsplit hnext
        rw [List.length_append] at hle
        omega
      · have hin := (List.mem_append.mp hmem).resolve_left ha
        have hsplit : old ++ (new.erase a ++ [a]) = (old ++ new).erase a ++ [a] := by
          rw [List.erase_append_right _ ha, List.append_assoc]
        have hle := ih (hconcat fun _ hb => List.mem_of_mem_erase hb) hcard hsplit hnext
        have hpos := List.length_pos_of_mem hin
        rw [List.length_append, List.length_erase_of_mem hin, List.length_singleton] at hle
        omega
    | load hmem hlt =>
      have hsplit : old ++ (new ++ [a]) = old ++ new ++ [a] := (List.append_assoc _ _ _).symm
      have hle := ih (hconcat fun _ hb => hb) hcard hsplit hnext
      rw [List.length_append, List.length_singleton] at hle
      omega
    | evict hmem hlen =>
      cases old with
      | nil =>
        -- All `k` pages belong to the stretch, and `a` is one more.
        exfalso
        rw [List.nil_append] at hmem hlen hnd
        have hsub : insert a new.toFinset ⊆ insert a S ∪ as.toFinset := by
          intro b hb
          apply Finset.mem_union_left
          rcases Finset.mem_insert.mp hb with rfl | hb
          · exact Finset.mem_insert_self _ _
          · exact hold b (List.mem_toFinset.mp hb)
        have hle := Finset.card_le_card hsub
        rw [Finset.card_insert_of_notMem (mt List.mem_toFinset.mp hmem),
          List.toFinset_card_of_nodup hnd] at hle
        omega
      | cons c old =>
        have hsplit : old ++ (new ++ [a]) = (c :: old ++ new).tail ++ [a] := by
          rw [List.cons_append, List.tail_cons, List.append_assoc]
        have hle := ih (hconcat fun _ hb => hb) hcard hsplit hnext
        rw [List.length_append, List.length_singleton] at hle
        omega

/-- A stretch with no more pages than the queue has places costs a fault a page at most. -/
theorem Queue.conservative (hq : Queue k L as n M) (hL : L.Nodup)
    (hcard : as.toFinset.card ≤ k) : n ≤ as.toFinset.card := by
  rw [← List.append_nil L] at hq hL
  have hle := hq.faults_le (S := ∅) hL (fun a ha => absurd ha List.not_mem_nil)
    (by rwa [Finset.empty_union])
  rwa [Finset.empty_union] at hle

/-! ### Phases -/

/-- Requests for more than `k` pages begin with a phase of `k` pages, and one for another page. -/
theorem exists_phase (hcard : k < as.toFinset.card) : ∃ xs b ys, as = xs ++ b :: ys ∧
    xs.toFinset.card = k ∧ b ∉ xs.toFinset := by
  induction as using List.reverseRecOn with
  | nil => exact absurd hcard (Nat.not_lt_zero k)
  | append_singleton as b ih =>
    by_cases hlt : k < as.toFinset.card
    · obtain ⟨xs, c, ys, rfl, hxs, hc⟩ := ih hlt
      exact ⟨xs, c, ys ++ [b], by rw [List.append_assoc]; rfl, hxs, hc⟩
    · have hinsert : (as ++ [b]).toFinset = insert b as.toFinset := by
        ext x
        simp
      rw [hinsert] at hcard
      have hb : b ∉ as.toFinset := by
        intro hb
        rw [Finset.insert_eq_of_mem hb] at hcard
        exact hlt hcard
      rw [Finset.card_insert_of_notMem hb] at hcard
      exact ⟨as, b, [], rfl, by omega, hb⟩

/-- From the first request of a phase to the first of the next one, a store that holds the first
page has at most `h - 1` of the `k` others. -/
theorem Serves.phase_le {xs : List α} (hs : Serves h D (xs ++ [b]) n E) (ha : a ∈ D)
    (hD : D.card ≤ h) (hxs : (a :: xs).toFinset.card = k) (hb : b ∉ (a :: xs).toFinset) :
    k + 1 ≤ n + h := by
  have hsub : insert b (a :: xs).toFinset \ D ⊆ (xs ++ [b]).toFinset \ D := by
    intro x hx
    simp only [Finset.mem_sdiff, Finset.mem_insert, List.mem_toFinset, List.mem_cons,
      List.mem_append, List.not_mem_nil, or_false] at hx ⊢
    refine ⟨?_, hx.2⟩
    rcases hx.1 with rfl | rfl | hx1
    · exact Or.inr rfl
    · exact absurd ha hx.2
    · exact Or.inl hx1
  have hfaults := (Finset.card_le_card hsub).trans hs.card_le
  have hall := Finset.le_card_sdiff D (insert b (a :: xs).toFinset)
  rw [Finset.card_insert_of_notMem hb, hxs] at hall
  omega

/-- From the first request of a phase on. -/
theorem competitive_from (hk : h ≤ k) (hq : Queue k L (a :: as) m M) (hL : L.Nodup)
    (hs : Serves h D as n E) (ha : a ∈ D) (hD : D.card ≤ h) :
    (k - h + 1) * m ≤ k * n + k * (k - h + 1) := by
  induction hlen : as.length using Nat.strong_induction_on generalizing as a L D m n with
  | _ len ih =>
    by_cases hcard : (a :: as).toFinset.card ≤ k
    · -- The last phase.
      have hm := (hq.conservative hL hcard).trans hcard
      calc (k - h + 1) * m ≤ (k - h + 1) * k := Nat.mul_le_mul_left _ hm
        _ ≤ k * n + k * (k - h + 1) := by rw [Nat.mul_comm]; exact Nat.le_add_left _ _
    · obtain ⟨xs, b, ys, hsplit, hxs, hb⟩ := exists_phase (Nat.lt_of_not_le hcard)
      cases xs with
      | nil =>
        have hpos := Finset.card_pos.mpr ⟨a, ha⟩
        rw [List.toFinset_nil, Finset.card_empty] at hxs
        omega
      | cons c xs =>
        rw [hsplit] at hq
        obtain ⟨rfl, rfl⟩ : a = c ∧ as = xs ++ b :: ys := List.cons.inj hsplit
        obtain ⟨M₁, m₁, m₂, rfl, hq₁, hq₂⟩ := hq.split
        have hs' : Serves h D ((xs ++ [b]) ++ ys) n E := by
          rwa [List.append_assoc]
        obtain ⟨D₁, n₁, n₂, rfl, hs₁, hs₂⟩ := hs'.split
        obtain ⟨hbD, hD₁⟩ := hs₁.last
        have hm₁ := hq₁.conservative hL hxs.le
        have hn₁ := hs₁.phase_le ha hD hxs hb
        have hlt : ys.length < len := by
          rw [← hlen, List.length_append, List.length_cons]
          omega
        have hrest := ih ys.length hlt hq₂ (hq₁.nodup hL) hs₂ hbD hD₁ rfl
        have hfirst : (k - h + 1) * m₁ ≤ k * n₁ := by
          calc (k - h + 1) * m₁ ≤ n₁ * k := Nat.mul_le_mul (by omega) (hm₁.trans hxs.le)
            _ = k * n₁ := Nat.mul_comm _ _
        linarith

/-- A queue of `k` places faults at most `k / (k - h + 1)` times as often as any store of `h`
places, but for a constant. -/
theorem Queue.competitive (hk : h ≤ k) (hq : Queue k L as m M) (hL : L.Nodup)
    (hs : Serves h C as n E) : (k - h + 1) * m ≤ k * n + k * (k - h + 1) := by
  cases hs with
  | nil =>
    cases hq
    exact Nat.zero_le _
  | cons ha hsub hcard hrest =>
    have hle := competitive_from hk hq hL hrest ha hcard
    rw [Nat.mul_add]
    omega

end OperatingSystems.Paging
