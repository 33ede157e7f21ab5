import OperatingSystems.Chunks
import Mathlib.Data.Int.Notation
import Mathlib.Data.Nat.Notation
import Mathlib.Data.BitVec

/-! `wc.c`, `wc_multi.c` and `wc_core.c`: counting a file in one scan, and counting it in chunks
by child processes that are forked again while they crash. -/
namespace OperatingSystems.WC

/-- What `getc` returns at the end of the file. -/
def EOF : ℤ := -1

/-- The characters ' ' and '\n'. -/
def space : ℤ := 32

def newline : ℤ := 10

/-- `count_t`. -/
structure Count where
  linecount : BitVec 32
  wordcount : BitVec 32
  charcount : BitVec 32
  deriving DecidableEq, Repr

def Count.zero : Count := ⟨0, 0, 0⟩

/-- An open file: all its bytes, and those behind the read position. -/
structure File where
  data : List (BitVec 8)
  unread : List (BitVec 8)

def fopen (data : List (BitVec 8)) : File := ⟨data, data⟩

/-- `fseek` with `SEEK_SET`; a negative offset is refused and the position stays. -/
def File.fseek (fp : File) (offset : ℤ) : File :=
  if offset < 0 then fp else { fp with unread := fp.data.drop offset.toNat }

/-- The body of the loop of `word_count`. -/
def Count.char (count : Count) (ch : ℤ) : Count where
  charcount := if ch ≠ space ∧ ch ≠ newline then count.charcount + 1 else count.charcount
  wordcount := if ch = space ∨ ch = newline then count.wordcount + 1 else count.wordcount
  linecount := if ch = newline then count.linecount + 1 else count.linecount

/-- The loop of `word_count`. A byte read by `getc` is stored in a plain `char`, signed on the
target; with nothing left `getc` returns `EOF`. -/
def wordCountLoop (size : ℤ) : List (BitVec 8) → ℤ → Count → Count
  | [], _, count => count
  | b :: unread, rbytes, count =>
      let ch := b.toInt
      if ch ≠ EOF ∧ rbytes < size then wordCountLoop size unread (rbytes + 1) (count.char ch)
      else count

/-- The process draws `rand()` and aborts. -/
def Crashes (crashRate rand : ℤ) : Prop := crashRate > 0 ∧ rand.tmod 100 < crashRate

instance decidableCrashes (crashRate rand : ℤ) : Decidable (Crashes crashRate rand) :=
  inferInstanceAs (Decidable (_ ∧ _))

/-- `word_count` in a process that draws `rand`; `none` when it aborts. -/
def wordCount (crashRate rand : ℤ) (fp : File) (offset size : ℤ) : Option Count :=
  let fp := fp.fseek offset
  let count := wordCountLoop size fp.unread 0 Count.zero
  if Crashes crashRate rand then none else some count

/-- `main` of `wc.c`: what it prints, `none` when it aborts. -/
def wc (data : List (BitVec 8)) (crashRate rand : ℤ) : Option Count :=
  let fsize : ℤ := data.length
  let fp := (fopen data).fseek fsize
  wordCount crashRate rand fp 0 fsize

/-- What child `i` of `main` of `wc_multi.c` writes to its pipe, in the first loop and in the
loop that forks it again; `none` when it aborts before. -/
def child (data : List (BitVec 8)) (nChildProc : ℕ) (size : BitVec 32) (crashRate : ℤ) (i : ℕ)
    (rand : ℤ) : Option Count :=
  let fsize : ℤ := data.length
  let offset := BitVec.ofNat 32 i * size
  let size := if i = nChildProc - 1 then BitVec.ofInt 32 (fsize - offset.toInt) else size
  wordCount crashRate rand (fopen data) offset.toInt size.toInt

/-- `while (isNotCrashing)`: fork the child a `k`-th time, with a new pipe, until it exits. -/
def retry (run : ℕ → Option Count) : ℕ → ℕ → Option Count
  | 0, _ => none
  | fuel + 1, k =>
      match run k with
      | some wc => some wc
      | none => retry run fuel (k + 1)

/-- What the pipe of a child holds when `main` has waited for it. -/
def await (run : ℕ → Option Count) (fuel : ℕ) : Option Count :=
  match run 0 with
  | some wc => some wc
  | none => retry run fuel 1

def Count.add (count wc : Count) : Count where
  linecount := count.linecount + wc.linecount
  wordcount := count.wordcount + wc.wordcount
  charcount := count.charcount + wc.charcount

/-- `main` of `wc_multi.c`: what it prints, where `rand i k` is what child `i` draws when it runs
for the `k`-th time; `none` when a loop has not ended within the fuel. -/
def wcMulti (fuel : ℕ) (data : List (BitVec 8)) (nChildProc : ℕ) (crashRate : ℤ)
    (rand : ℕ → ℕ → ℤ) : Option Count := do
  let fsize : ℤ := data.length
  let size := BitVec.ofInt 32 (fsize.tdiv (if nChildProc = 0 then 1 else nChildProc))
  let pipes ← (List.range nChildProc).mapM fun i =>
    await (fun k => child data nChildProc size crashRate i (rand i k)) fuel
  return pipes.foldl Count.add Count.zero

/-! ### What a scan counts -/

/-- A byte that does not look like the end of the file. -/
def readable (b : BitVec 8) : Bool := b.toInt ≠ EOF

theorem readable_eq_false (b : BitVec 8) : readable b = false ↔ b = 0xFF := by
  rw [readable, decide_eq_false_iff_not, not_not]
  constructor
  · intro h
    apply BitVec.eq_of_toInt_eq
    exact h
  · rintro rfl
    rfl

/-- The bytes counted as lines, as words and as characters. -/
def isLine (b : BitVec 8) : Bool := b.toInt = newline

def isWord (b : BitVec 8) : Bool := b.toInt = space ∨ b.toInt = newline

def isChar (b : BitVec 8) : Bool := b.toInt ≠ space ∧ b.toInt ≠ newline

theorem isChar_eq (b : BitVec 8) : isChar b = !isWord b := by
  simp only [isChar, isWord]
  by_cases hs : b.toInt = space <;> by_cases hn : b.toInt = newline <;> simp [hs, hn]

/-- Counters that hold these numbers. -/
def Count.ofNat (lines words chars : ℕ) : Count :=
  ⟨BitVec.ofNat 32 lines, BitVec.ofNat 32 words, BitVec.ofNat 32 chars⟩

/-- What a scan of these bytes adds up to. -/
def tally (bytes : List (BitVec 8)) : Count :=
  Count.ofNat (bytes.countP isLine) (bytes.countP isWord) (bytes.countP isChar)

theorem Count.add_ofNat (l w c l' w' c' : ℕ) :
    (Count.ofNat l w c).add (Count.ofNat l' w' c') = Count.ofNat (l + l') (w + w') (c + c') := by
  simp only [Count.add, Count.ofNat, BitVec.ofNat_add]

theorem Count.zero_add (count : Count) : Count.zero.add count = count := by
  simp [Count.add, Count.zero]

theorem Count.add_assoc (a b c : Count) : (a.add b).add c = a.add (b.add c) := by
  simp only [Count.add, BitVec.add_assoc]

theorem Count.char_eq (count : Count) (b : BitVec 8) : count.char b.toInt = count.add (tally [b]) := by
  have hbit (p : Prop) [Decidable p] (x : BitVec 32) :
      (if p then x + 1 else x) = x + BitVec.ofNat 32 (if p then 1 else 0) := by
    by_cases hp : p
    · simp [hp]
    · simp [hp]
  simp only [Count.char, Count.add, tally, Count.ofNat, List.countP_singleton, hbit, isLine,
    isWord, isChar, decide_eq_true_eq]

theorem tally_cons (b : BitVec 8) (bytes : List (BitVec 8)) :
    tally (b :: bytes) = (tally [b]).add (tally bytes) := by
  simp only [tally, Count.add_ofNat, ← List.countP_append, List.singleton_append]

/-- The loop counts the bytes of its chunk up to the first that looks like the end. -/
theorem wordCountLoop_eq (size : ℤ) (unread : List (BitVec 8)) (rbytes : ℤ) (count : Count) :
    wordCountLoop size unread rbytes count =
      count.add (tally ((unread.take (size - rbytes).toNat).takeWhile readable)) := by
  have hnil (c : Count) : c.add (tally []) = c := by
    simp only [tally, Count.ofNat, Count.add, List.countP_nil, BitVec.add_zero]
  -- Along the bytes not read yet; the counters are added up from the front.
  induction unread generalizing rbytes count with
  | nil => rw [wordCountLoop, List.take_nil, List.takeWhile_nil, hnil]
  | cons b unread ih =>
    simp only [wordCountLoop]
    by_cases hsize : rbytes < size
    · obtain ⟨k, hk, hk'⟩ : ∃ k, (size - rbytes).toNat = k + 1 ∧ (size - (rbytes + 1)).toNat = k :=
        ⟨(size - rbytes).toNat - 1, by omega, by omega⟩
      rw [hk, List.take_succ_cons, List.takeWhile_cons]
      by_cases hread : b.toInt = EOF
      · have hb : readable b = false := by simp [readable, hread]
        rw [if_neg (fun h => h.1 hread), hb, if_neg Bool.false_ne_true, hnil]
      · have hb : readable b = true := by simp [readable, hread]
        rw [if_pos ⟨hread, hsize⟩, if_pos hb, ih, hk', Count.char_eq, Count.add_assoc, ← tally_cons]
    · have hzero : (size - rbytes).toNat = 0 := by omega
      rw [if_neg (fun h => hsize h.2), hzero, List.take_zero, List.takeWhile_nil, hnil]

theorem wordCount_eq (crashRate rand : ℤ) (fp : File) (offset size : ℕ) :
    wordCount crashRate rand fp offset size = if Crashes crashRate rand then none
      else some (tally (((fp.data.drop offset).take size).takeWhile readable)) := by
  have hseek : (fp.fseek offset).unread = fp.data.drop offset := by
    rw [File.fseek, if_neg (by omega)]
    rfl
  simp only [wordCount, hseek, wordCountLoop_eq, Count.zero_add, sub_zero, Int.toNat_natCast]

/-! ### The children -/

/-- The chunk of child `i`. -/
def part (data : List (BitVec 8)) (nChildProc : ℕ) (i : ℕ) : List (BitVec 8) :=
  chunk nChildProc (data.length / nChildProc) data i

/-- In 32-bit arithmetic too, the children read the chunks of the file. -/
theorem child_eq (data : List (BitVec 8)) (nChildProc : ℕ) (crashRate : ℤ) (i : ℕ) (rand : ℤ)
    (hlen : data.length < 2^31) (hi : i < nChildProc) :
    child data nChildProc (BitVec.ofInt 32 ((data.length : ℤ).tdiv nChildProc)) crashRate i rand =
      if Crashes crashRate rand then none
      else some (tally ((part data nChildProc i).takeWhile readable)) := by
  have hmul : i * (data.length / nChildProc) ≤ data.length := by
    calc i * (data.length / nChildProc) ≤ nChildProc * (data.length / nChildProc) :=
          Nat.mul_le_mul_right _ hi.le
      _ ≤ data.length := Nat.mul_div_le _ _
  have hquot : data.length / nChildProc ≤ data.length := Nat.div_le_self _ _
  have hsize : BitVec.ofInt 32 ((data.length : ℤ).tdiv nChildProc) =
      BitVec.ofNat 32 (data.length / nChildProc) := by
    rw [← Int.ofNat_tdiv, BitVec.ofInt_natCast]
  have hoffset : BitVec.ofNat 32 i * BitVec.ofNat 32 (data.length / nChildProc) =
      BitVec.ofNat 32 (i * (data.length / nChildProc)) := by
    rw [BitVec.ofNat_mul]
  -- No `int` of the child leaves its range.
  have hint (k : ℕ) (hk : k ≤ data.length) : (BitVec.ofNat 32 k).toInt = k := by
    rw [BitVec.toInt_ofNat', Int.bmod_eq_of_le (by omega) (by omega)]
  simp only [child, hsize, hoffset, hint _ hmul]
  by_cases hlast : i = nChildProc - 1
  · have hrest : BitVec.ofInt 32 ((data.length : ℤ) - (i * (data.length / nChildProc) : ℕ)) =
        BitVec.ofNat 32 (data.length - i * (data.length / nChildProc)) := by
      rw [← Nat.cast_sub hmul, BitVec.ofInt_natCast]
    rw [if_pos hlast, hrest, hint _ (Nat.sub_le _ _), wordCount_eq, part, chunk,
      if_pos (show i + 1 = nChildProc by omega)]
    rfl
  · rw [if_neg hlast, hint _ hquot, wordCount_eq, part, chunk,
      if_neg (show ¬ i + 1 = nChildProc by omega)]
    rfl

/-- Forking again ends with the first run that does not crash. -/
theorem retry_eq {run : ℕ → Option Count} {wc : Count} (hrun : ∀ k, run k = none ∨ run k = some wc)
    (fuel k j : ℕ) (hj : run (k + j) = some wc) (hfuel : j < fuel) :
    retry run fuel k = some wc := by
  induction j generalizing fuel k with
  | zero =>
    obtain ⟨fuel, rfl⟩ : ∃ f, fuel = f + 1 := ⟨fuel - 1, by omega⟩
    rw [Nat.add_zero] at hj
    simp only [retry, hj]
  | succ j ih =>
    obtain ⟨fuel, rfl⟩ : ∃ f, fuel = f + 1 := ⟨fuel - 1, by omega⟩
    rw [retry]
    rcases hrun k with hk | hk
    · simp only [hk]
      apply ih
      · rw [show k + 1 + j = k + (j + 1) by omega]
        exact hj
      · omega
    · simp only [hk]

theorem await_eq {run : ℕ → Option Count} {wc : Count} (hrun : ∀ k, run k = none ∨ run k = some wc)
    (fuel j : ℕ) (hj : run j = some wc) (hfuel : j ≤ fuel) : await run fuel = some wc := by
  rw [await]
  rcases hrun 0 with h0 | h0
  · simp only [h0]
    obtain ⟨j, rfl⟩ : ∃ i, j = i + 1 := by
      cases j with
      | zero => simp [hj] at h0
      | succ i => exact ⟨i, rfl⟩
    apply retry_eq hrun fuel 1 j
    · rw [Nat.add_comm]
      exact hj
    · omega
  · simp only [h0]

/-- The sum over the pipes, number by number. -/
theorem foldl_tally (scan : ℕ → List (BitVec 8)) (n : ℕ) :
    ((List.range n).map fun i => tally (scan i)).foldl Count.add Count.zero =
      Count.ofNat (∑ i ∈ Finset.range n, (scan i).countP isLine)
        (∑ i ∈ Finset.range n, (scan i).countP isWord)
        (∑ i ∈ Finset.range n, (scan i).countP isChar) := by
  induction n with
  | zero => rfl
  | succ n ih =>
    simp only [List.range_succ, List.map_append, List.foldl_append, ih, Finset.sum_range_succ]
    exact Count.add_ofNat _ _ _ _ _ _

/-! ### The totals -/

/-- Every chunk behind a byte `0xFF` is empty or begins with such a byte. -/
def SplitSafe (data : List (BitVec 8)) (nChildProc : ℕ) : Prop :=
  ∀ i < nChildProc, 0xFF ∈ data.take (i * (data.length / nChildProc)) →
    ∀ b ∈ (part data nChildProc i).head?, b = 0xFF

theorem wc_eq (data : List (BitVec 8)) (crashRate rand : ℤ) (hrand : ¬ Crashes crashRate rand) :
    wc data crashRate rand = some (tally (data.takeWhile readable)) := by
  have hdata : ((fopen data).fseek data.length).data = data := by
    rw [File.fseek]
    split <;> rfl
  have hcount := wordCount_eq crashRate rand ((fopen data).fseek data.length) 0 data.length
  rw [if_neg hrand, hdata, List.drop_zero, List.take_length] at hcount
  exact hcount

theorem mapM_eq_some {α β : Type*} {f : α → Option β} {g : α → β} {xs : List α}
    (h : ∀ x ∈ xs, f x = some (g x)) : xs.mapM f = some (xs.map g) := by
  induction xs with
  | nil => rfl
  | cons x xs ih =>
    have hx := h x List.mem_cons_self
    have hxs := ih fun y hy => h y (List.mem_cons_of_mem x hy)
    rw [List.mapM_cons, hx, hxs]
    rfl

theorem wcMulti_eq (data : List (BitVec 8)) (nChildProc : ℕ) (hn : 1 ≤ nChildProc)
    (hlen : data.length < 2^31) (crashRate : ℤ) (rand : ℕ → ℕ → ℤ)
    (hretry : ∀ i < nChildProc, ∃ k, ¬ Crashes crashRate (rand i k)) :
    ∃ enough, ∀ fuel ≥ enough, wcMulti fuel data nChildProc crashRate rand =
      some (((List.range nChildProc).map fun i =>
        tally ((part data nChildProc i).takeWhile readable)).foldl Count.add Count.zero) := by
  choose! k hk using hretry
  refine ⟨(Finset.range nChildProc).sup k, fun fuel hfuel => ?_⟩
  -- Every child exits in a run that the fuel reaches.
  have hpipe (i : ℕ) (hi : i ∈ List.range nChildProc) :
      await (fun j => child data nChildProc
        (BitVec.ofInt 32 ((data.length : ℤ).tdiv nChildProc)) crashRate i (rand i j)) fuel =
        some (tally ((part data nChildProc i).takeWhile readable)) := by
    have hi' := List.mem_range.mp hi
    apply await_eq (j := k i)
    · intro j
      rw [child_eq data nChildProc crashRate i _ hlen hi']
      split
      · exact Or.inl rfl
      · exact Or.inr rfl
    · rw [child_eq data nChildProc crashRate i _ hlen hi', if_neg (hk i hi')]
    · exact (Finset.le_sup (f := k) (Finset.mem_range.mpr hi')).trans hfuel
  have hne : nChildProc ≠ 0 := by omega
  simp only [wcMulti, hne, if_false]
  rw [mapM_eq_some hpipe]
  rfl

/-- A chunk that begins with `0xFF` is one of which nothing is read. -/
theorem head_eq_iff (bytes : List (BitVec 8)) :
    (∀ b ∈ bytes.head?, b = 0xFF) ↔ bytes.takeWhile readable = [] := by
  cases bytes with
  | nil => simp
  | cons b bytes =>
    simp only [List.head?_cons, Option.mem_some_iff, forall_eq', ← readable_eq_false,
      List.takeWhile_cons]
    cases readable b <;> simp

theorem splitSafe_iff (data : List (BitVec 8)) (nChildProc : ℕ) :
    SplitSafe data nChildProc ↔ ∀ i < nChildProc,
      (∃ a ∈ joined (part data nChildProc) i, readable a = false) →
        (part data nChildProc i).takeWhile readable = [] := by
  rw [SplitSafe]
  apply forall₂_congr
  intro i hi
  have hfront : joined (part data nChildProc) i = data.take (i * (data.length / nChildProc)) :=
    joined_chunks_take _ _ _ i hi
  simp only [hfront, readable_eq_false, exists_eq_right, head_eq_iff]

/-- Every byte read is counted as a word or as a character. -/
theorem length_eq_counts (bytes : List (BitVec 8)) :
    bytes.length = bytes.countP isWord + bytes.countP isChar := by
  rw [List.length_eq_countP_add_countP isWord, funext isChar_eq]
  simp only [Bool.not_eq_true, Bool.decide_eq_false]

/-- Splitting the count over processes gives the totals of the single scan exactly for the files
whose chunks behind a byte `0xFF` are empty or begin with one. -/
theorem split_count_exact_iff (data : List (BitVec 8)) (nChildProc : ℕ) (hn : 1 ≤ nChildProc)
    (hlen : data.length < 2^31) (crashRate : ℤ) (rand : ℕ → ℕ → ℤ)
    (hretry : ∀ i < nChildProc, ∃ k, ¬ Crashes crashRate (rand i k)) :
    ∃ enough multi single,
      (∀ fuel ≥ enough, wcMulti fuel data nChildProc crashRate rand = some multi) ∧
      (∀ rate r, ¬ Crashes rate r → wc data rate r = some single) ∧
      (multi = single ↔ SplitSafe data nChildProc) := by
  obtain ⟨enough, hmulti⟩ := wcMulti_eq data nChildProc hn hlen crashRate rand hretry
  refine ⟨enough, _, _, hmulti, wc_eq data, ?_⟩
  have hdata := joined_chunks nChildProc (data.length / nChildProc) data hn
  change joined (part data nChildProc) nChildProc = data at hdata
  have hle (q : BitVec 8 → Bool) := sum_countP_takeWhile_le readable q (part data nChildProc) nChildProc
  have hle' (q : BitVec 8 → Bool) : (data.takeWhile readable).countP q ≤ data.length :=
    List.countP_le_length.trans (List.takeWhile_prefix _).length_le
  rw [hdata] at hle
  rw [foldl_tally, tally, splitSafe_iff]
  constructor
  · intro heq
    rw [← sum_length_takeWhile_iff, hdata]
    -- The counters stay below 2^32, so equal counters are equal numbers.
    have hval (q : BitVec 8 → Bool)
        (hq : BitVec.ofNat 32 (∑ i ∈ Finset.range nChildProc,
            ((part data nChildProc i).takeWhile readable).countP q) =
          BitVec.ofNat 32 ((data.takeWhile readable).countP q)) :
        ∑ i ∈ Finset.range nChildProc, ((part data nChildProc i).takeWhile readable).countP q =
          (data.takeWhile readable).countP q := by
      have h := congrArg BitVec.toNat hq
      have hl := hle q
      have hr := hle' q
      rwa [BitVec.toNat_ofNat, BitVec.toNat_ofNat, Nat.mod_eq_of_lt (by omega),
        Nat.mod_eq_of_lt (by omega)] at h
    have hword := hval isWord (congrArg Count.wordcount heq)
    have hchar := hval isChar (congrArg Count.charcount heq)
    simp only [length_eq_counts, Finset.sum_add_distrib, hword, hchar]
  · intro h
    have hcount (q : BitVec 8 → Bool) := sum_countP_takeWhile_eq readable q _ _ h
    rw [hdata] at hcount
    rw [hcount, hcount, hcount]

/-- Three children over two lines and a `0xFF` at the start of the last chunk; the first child
crashes once. -/
theorem split_count_exact_iff_three : ∃ enough multi single,
    (∀ fuel ≥ enough, wcMulti fuel [0x61, 0x20, 0x62, 0x0A, 0xFF, 0x63] 3 50
      (fun i k => if i = 0 ∧ k = 0 then 7 else 80) = some multi) ∧
    (∀ rate r, ¬ Crashes rate r → wc [0x61, 0x20, 0x62, 0x0A, 0xFF, 0x63] rate r = some single) ∧
    (multi = single ↔ SplitSafe [0x61, 0x20, 0x62, 0x0A, 0xFF, 0x63] 3) :=
  split_count_exact_iff _ 3 (by decide) (by decide) 50 _ fun _ _ => ⟨1, by simp [Crashes]⟩

/-- The file with the bytes `0xFF` and 'a' and two children: one scan stops at the first byte,
the second child counts the other. -/
theorem split_count_not_exact :
    wc [0xFF, 0x61] 0 0 = some ⟨0, 0, 0⟩ ∧
      wcMulti 0 [0xFF, 0x61] 2 0 (fun _ _ => 0) = some ⟨0, 0, 1⟩ := by
  decide

end OperatingSystems.WC
