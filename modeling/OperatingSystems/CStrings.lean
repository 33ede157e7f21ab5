import OperatingSystems.Layout
import Mathlib.Data.List.Basic
import Mathlib.Data.List.TakeWhile

/-! The C library's functions on strings, over lists of bytes without the closing zero: reading
a line, splitting it at a delimiter, and copying into a buffer of a given size. -/
namespace OperatingSystems.CStrings

variable {α : Type*} [DecidableEq α]

/-- The characters of a literal. -/
def ascii (s : String) : List Byte := s.toList.map fun c => BitVec.ofNat 8 c.toNat

/-- The string that starts where these bytes do. -/
def cString (s : List Byte) : List Byte := s.takeWhile (· ≠ 0)

/-- Everything up to the first `e`, which is kept. -/
def line (e : α) : List α → List α
  | [] => []
  | b :: s => if b = e then [b] else b :: line e s

/-- `fgets` with a buffer of `size` bytes; `none` at the end of the stream. -/
def fgets (size : ℕ) (stream : List Byte) : Option (List Byte) :=
  if stream = [] then none else some (cString (line 10#8 (stream.take (size - 1))))

/-- What is left of the stream for the next call. -/
def fgetsRest (size : ℕ) (stream : List Byte) : List Byte :=
  stream.drop (line 10#8 (stream.take (size - 1))).length

/-- The buffers of a loop over `fgets`, at most `n` of them. -/
def buffers (size : ℕ) : ℕ → List Byte → List (List Byte)
  | 0, _ => []
  | n + 1, stream =>
    match fgets size stream with
    | none => []
    | some buf => buf :: buffers size n (fgetsRest size stream)

/-- All buffers: no more than there are bytes. -/
def allBuffers (size : ℕ) (stream : List Byte) : List (List Byte) :=
  buffers size stream.length stream

/-- `strtok` with one delimiter: the next token, and what is left for the call after. -/
def strtok (d : α) (s : List α) : Option (List α × List α) :=
  let t := s.dropWhile (· = d)
  if t = [] then none else some (t.takeWhile (· ≠ d), (t.dropWhile (· ≠ d)).tail)

/-- `strrchr`: the string from the last `d` on. -/
def strrchr (d : α) (s : List α) : Option (List α) :=
  if d ∈ s then some (d :: (s.reverse.takeWhile (· ≠ d)).reverse) else none

def tolower (b : Byte) : Byte := if 65#8 ≤ b ∧ b ≤ 90#8 then b + 32#8 else b

/-- Whether `strcasecmp` is 0. -/
def sameLetters (s t : List Byte) : Bool := s.map tolower = t.map tolower

/-- `snprintf` into a buffer of `size` bytes: what does not fit is left out. -/
def snprintf (size : ℕ) (s : List α) : List α := s.take (size - 1)

/-- `sprintf`, `strcpy` and `strcat` into a buffer of `size` bytes; `none` when the string and its
closing zero do not fit. -/
def sprintf (size : ℕ) (s : List α) : Option (List α) :=
  if s.length < size then some s else none

omit [DecidableEq α] in
/-- A string put behind `c` twice, cut to a buffer, is the string behind `c` once only if the cut is
there and the string begins with `c` itself. -/
theorem snprintf_twice_iff (size : ℕ) {c : List α} (s : List α) (hc : c ≠ []) :
    snprintf size (c ++ (c ++ s)) = c ++ s ↔ (c ++ s).length = size - 1 ∧ s <+: c ++ s := by
  have hpos := List.length_pos_of_ne_nil hc
  constructor
  · intro h
    have hlen := congrArg List.length h
    simp only [snprintf, List.length_take, List.length_append] at hlen
    refine ⟨by rw [List.length_append]; omega, ?_⟩
    rw [← List.prefix_append_right_inj c]
    calc c ++ s = snprintf size (c ++ (c ++ s)) := h.symm
      _ <+: c ++ (c ++ s) := List.take_prefix _ _
  · intro h
    obtain ⟨hlen, hs⟩ := h
    have hprefix := (List.prefix_append_right_inj c).mpr hs
    rw [snprintf, ← hlen]
    exact (List.prefix_iff_eq_take.mp hprefix).symm

omit [DecidableEq α] in
/-- A prefix that ends in `b` ends before a part without `b`. -/
theorem prefix_of_notMem {a c s : List α} {b : α} (hb : b ∉ s) (h : a ++ [b] <+: c ++ s) :
    a ++ [b] <+: c := by
  rcases List.prefix_or_prefix_of_prefix h (List.prefix_append c s) with hc | ⟨x, hx⟩
  · exact hc
  · -- Otherwise the prefix is `c` and a piece `x` of `s`, and `b` is the last of it.
    rcases List.eq_nil_or_concat x with rfl | ⟨y, d, rfl⟩
    · rw [List.append_nil] at hx
      exact hx ▸ List.prefix_rfl
    · exfalso
      rw [← hx] at h
      have hy := (List.prefix_append_right_inj c).mp h
      rw [List.concat_eq_append, ← List.append_assoc] at hx
      have hd : d = b := List.singleton_inj.mp (List.append_inj_right' hx rfl)
      apply hb
      rw [← hd]
      exact hy.subset (by simp)

/-! Lines. -/

theorem line_isPrefix (e : α) (s : List α) : line e s <+: s := by
  induction s with
  | nil => exact List.nil_prefix
  | cons b s ih =>
    rw [line]
    split_ifs with hb
    · exact List.prefix_cons_inj b |>.mpr List.nil_prefix
    · exact List.prefix_cons_inj b |>.mpr ih

/-- Nothing follows the `e` that ends a line. -/
theorem notMem_of_line {e : α} {s a b : List α} (h : line e s = a ++ b) (hb : b ≠ []) :
    e ∉ a := by
  induction s generalizing a with
  | nil =>
    have ha : a = [] := (List.append_eq_nil_iff.mp h.symm).1
    simp [ha]
  | cons c s ih =>
    cases a with
    | nil => simp
    | cons x a =>
      rw [line] at h
      split_ifs at h with hc
      · have hnil : a ++ b = [] := (List.cons_eq_cons.mp h).2.symm
        exact absurd (List.append_eq_nil_iff.mp hnil).2 hb
      · obtain ⟨hx, htail⟩ := List.cons_eq_cons.mp h
        have hxe : e ≠ x := fun he => hc (hx.trans he.symm)
        exact List.not_mem_cons_of_ne_of_not_mem hxe (ih htail)

theorem line_append {e : α} {a : List α} (ha : e ∉ a) (s : List α) :
    line e (a ++ s) = a ++ line e s := by
  induction a with
  | nil => rfl
  | cons b a ih =>
    have hb : b ≠ e := fun h => ha (h ▸ List.mem_cons_self)
    rw [List.cons_append, line, if_neg hb, ih (fun h => ha (List.mem_cons_of_mem b h)),
      List.cons_append]

/-- A line is cut only behind the `e` it ends with. -/
theorem mem_line {e b : α} {s : List α} (h : b ∈ s) : b ∈ line e s ∨ e ∈ line e s := by
  by_cases he : e ∈ s
  · right
    clear h
    induction s with
    | nil => exact absurd he List.not_mem_nil
    | cons c s ih =>
      rw [line]
      split_ifs with hc
      · simp [hc]
      · have hes : e ∈ s := (List.mem_cons.mp he).resolve_left (Ne.symm hc)
        exact List.mem_cons_of_mem c (ih hes)
  · left
    have hall := line_append he []
    rw [List.append_nil] at hall
    rw [hall]
    exact List.mem_append_left _ h

theorem cString_of_notMem {s : List Byte} (h : 0 ∉ s) : cString s = s := by
  apply List.takeWhile_eq_self_iff.mpr
  intro b hb
  have hne : b ≠ 0 := fun hzero => h (hzero ▸ hb)
  simpa using hne

theorem cString_isPrefix (s : List Byte) : cString s <+: s := List.takeWhile_prefix _

theorem notMem_cString (s : List Byte) : 0 ∉ cString s := by
  intro h
  simpa using List.mem_takeWhile_imp h

theorem zero_notMem_fgets {size : ℕ} {stream buf : List Byte} (h : fgets size stream = some buf) :
    0 ∉ buf := by
  simp only [fgets, Option.ite_none_left_eq_some, Option.some.injEq] at h
  rw [← h.2]
  exact notMem_cString _

/-- A newline can only be the last byte. -/
theorem newline_notMem_fgets {size : ℕ} {stream a b : List Byte}
    (h : fgets size stream = some (a ++ b)) (hb : b ≠ []) : 10#8 ∉ a := by
  simp only [fgets, Option.ite_none_left_eq_some, Option.some.injEq] at h
  obtain ⟨c, hc⟩ := cString_isPrefix (line 10#8 (stream.take (size - 1)))
  rw [h.2, List.append_assoc] at hc
  exact notMem_of_line hc.symm (by simp [hb])

theorem length_fgets {size : ℕ} {stream buf : List Byte} (h : fgets size stream = some buf) :
    buf.length ≤ size - 1 := by
  simp only [fgets, Option.ite_none_left_eq_some, Option.some.injEq] at h
  calc buf.length ≤ (line 10#8 (stream.take (size - 1))).length := by
        rw [← h.2]
        exact (cString_isPrefix _).length_le
    _ ≤ (stream.take (size - 1)).length := (line_isPrefix _ _).length_le
    _ ≤ size - 1 := List.length_take_le _ _

/-- With room for one byte and the closing zero every call takes something off the stream. -/
theorem length_fgetsRest {size : ℕ} (hsize : 2 ≤ size) {stream : List Byte} (h : stream ≠ []) :
    (fgetsRest size stream).length < stream.length := by
  have hline : line 10#8 (stream.take (size - 1)) ≠ [] := by
    cases stream with
    | nil => exact absurd rfl h
    | cons b s =>
      obtain ⟨n, hn⟩ : ∃ n, size - 1 = n + 1 := ⟨size - 2, by omega⟩
      rw [hn, List.take_succ_cons, line]
      split_ifs <;> exact List.cons_ne_nil _ _
  have hpos := List.length_pos_of_ne_nil hline
  have hstream := List.length_pos_of_ne_nil h
  rw [fgetsRest, List.length_drop]
  omega

/-- Any number that is large enough gives all buffers. -/
theorem buffers_eq {size : ℕ} (hsize : 2 ≤ size) (n : ℕ) (stream : List Byte)
    (hn : stream.length ≤ n) : buffers size n stream = allBuffers size stream := by
  have hall : ∀ n m stream, stream.length ≤ n → stream.length ≤ m →
      buffers size n stream = buffers size m stream := by
    intro n
    induction n with
    | zero =>
      intro m stream hn _
      have hnil : stream = [] := List.eq_nil_of_length_eq_zero (by omega)
      cases m with
      | zero => rfl
      | succ m => simp [buffers, fgets, hnil]
    | succ n ih =>
      intro m stream hn hm
      by_cases hnil : stream = []
      · cases m with
        | zero => simp [buffers, fgets, hnil]
        | succ m => simp [buffers, fgets, hnil]
      · have hlt := length_fgetsRest hsize hnil
        cases m with
        | zero => exact absurd (List.eq_nil_of_length_eq_zero (by omega)) hnil
        | succ m =>
          rw [buffers, buffers, ih m (fgetsRest size stream) (by omega) (by omega)]
  exact hall n stream.length stream hn le_rfl

/-- A line that fits in the buffer is read as one. -/
theorem allBuffers_line {size : ℕ} {s t : List Byte} (hnewline : 10#8 ∉ s) (hzero : 0 ∉ s)
    (hlen : s.length + 1 < size) :
    allBuffers size (s ++ 10#8 :: t) = (s ++ [10#8]) :: allBuffers size t := by
  obtain ⟨n, hn⟩ : ∃ n, size - 1 = s.length + (n + 1) := ⟨size - 2 - s.length, by omega⟩
  have hline : line 10#8 ((s ++ 10#8 :: t).take (size - 1)) = s ++ [10#8] := by
    rw [hn, List.take_length_add_append, List.take_succ_cons, line_append hnewline, line,
      if_pos rfl]
  have hstring : cString (s ++ [10#8]) = s ++ [10#8] := by
    apply cString_of_notMem
    intro h
    rcases List.mem_append.mp h with h | h
    · exact hzero h
    · exact absurd (List.mem_singleton.mp h) (by decide)
  have hrest : fgetsRest size (s ++ 10#8 :: t) = t := by
    have happend : s ++ 10#8 :: t = s ++ [10#8] ++ t := List.append_cons s 10#8 t
    rw [fgetsRest, hline, happend, List.drop_left]
  have hne : s ++ 10#8 :: t ≠ [] := by simp
  obtain ⟨m, hm⟩ : ∃ m, (s ++ 10#8 :: t).length = m + 1 :=
    ⟨s.length + t.length, by simp; omega⟩
  have hfgets : fgets size (s ++ 10#8 :: t) = some (s ++ [10#8]) := by
    rw [fgets, if_neg hne, hline, hstring]
  rw [allBuffers, hm, buffers, hfgets, hrest]
  dsimp only
  rw [buffers_eq (by omega)]
  simp only [List.length_append, List.length_cons] at hm
  omega

/-! Tokens. -/

omit [DecidableEq α] in
/-- Where `takeWhile` and `dropWhile` part. -/
theorem span_append {p : α → Bool} {w s : List α} (hw : ∀ b ∈ w, p b = true)
    (hs : ∀ b ∈ s.head?, p b = false) : (w ++ s).takeWhile p = w ∧ (w ++ s).dropWhile p = s := by
  have hhead : s.takeWhile p = [] ∧ s.dropWhile p = s := by
    cases s with
    | nil => exact ⟨rfl, rfl⟩
    | cons b s =>
      have hb : p b = false := hs b rfl
      simp [hb]
  rw [List.takeWhile_append_of_pos hw, List.dropWhile_append_of_pos hw, hhead.1, hhead.2,
    List.append_nil]
  exact ⟨rfl, rfl⟩

omit [DecidableEq α] in
theorem head_dropWhile {p : α → Bool} (s : List α) : ∀ b ∈ (s.dropWhile p).head?, p b = false := by
  induction s with
  | nil => simp
  | cons c s ih =>
    rw [List.dropWhile_cons]
    split_ifs with hc
    · exact ih
    · intro b hb
      have hbc : c = b := by simpa using hb
      simpa [hbc] using hc

/-- A delimiter-free stretch is split off up to the end of the string or the next delimiter. -/
theorem strtok_skip {d : α} {w t : List α} (k : ℕ) (hne : w ≠ []) (hd : d ∉ w)
    (ht : ∀ b ∈ t.head?, b = d) :
    strtok d (List.replicate k d ++ (w ++ t)) = some (w, t.tail) := by
  have hblank : ∀ b ∈ List.replicate k d, decide (b = d) = true := by
    intro b hb
    simp [List.eq_of_mem_replicate hb]
  have hword : ∀ b ∈ w, decide (b ≠ d) = true := by
    intro b hb
    have hbd : b ≠ d := fun h => hd (h ▸ hb)
    simp [hbd]
  have hfirst : ∀ b ∈ (w ++ t).head?, decide (b = d) = false := by
    intro b hb
    cases w with
    | nil => exact absurd rfl hne
    | cons c w =>
      have hcb : c = b := by simpa using hb
      have hbd : b ≠ d := fun h => hd (h ▸ hcb ▸ List.mem_cons_self)
      simp [hbd]
  have hend : ∀ b ∈ t.head?, decide (b ≠ d) = false := by
    intro b hb
    simp [ht b hb]
  have hskip := (span_append hblank hfirst).2
  have hsplit := span_append hword hend
  have hnil : w ++ t ≠ [] := by simp [hne]
  simp only [strtok, hskip, if_neg hnil, hsplit.1, hsplit.2]

/-- A token is a stretch without delimiters between delimiters or ends of the string; `strtok`
finds the first one. -/
theorem strtok_iff {d : α} {s w rest : List α} : strtok d s = some (w, rest) ↔
    w ≠ [] ∧ d ∉ w ∧ ∃ k, (s = List.replicate k d ++ w ∧ rest = []) ∨
      s = List.replicate k d ++ (w ++ d :: rest) := by
  constructor
  · intro h
    simp only [strtok, Option.ite_none_left_eq_some, Option.some.injEq, Prod.mk.injEq] at h
    obtain ⟨ht, hw, hrest⟩ := h
    set t := s.dropWhile (· = d) with htdef
    -- `s` is a run of delimiters, the token, and what the second scan leaves.
    have hblanks : s.takeWhile (· = d) = List.replicate (s.takeWhile (· = d)).length d := by
      apply List.eq_replicate_of_mem
      intro b hb
      simpa using List.mem_takeWhile_imp hb
    have hs : s = List.replicate (s.takeWhile (· = d)).length d ++ t := by
      rw [← hblanks, htdef, List.takeWhile_append_dropWhile]
    have htw : t = w ++ t.dropWhile (· ≠ d) := by
      rw [← hw, List.takeWhile_append_dropWhile]
    refine ⟨?_, ?_, (s.takeWhile (· = d)).length, ?_⟩
    · rw [← hw]
      intro hnil
      have hhead := head_dropWhile (p := (· = d)) s
      cases hcase : t with
      | nil => exact ht hcase
      | cons b t' =>
        have hb : decide (b = d) = false := hhead b (by rw [← htdef, hcase]; rfl)
        have hne : decide (b ≠ d) = true := by simpa using hb
        rw [hcase, List.takeWhile_cons, if_pos hne] at hnil
        exact List.cons_ne_nil b _ hnil
    · rw [← hw]
      intro hd
      simpa using List.mem_takeWhile_imp hd
    · cases hcase : t.dropWhile (· ≠ d) with
      | nil =>
        left
        rw [hcase] at htw hrest
        rw [List.append_nil] at htw
        exact ⟨htw ▸ hs, hrest.symm⟩
      | cons b t' =>
        right
        have hb : decide (b ≠ d) = false := head_dropWhile t b (by rw [hcase]; rfl)
        have hbd : b = d := by simpa using hb
        rw [hcase] at htw hrest
        rw [hbd] at htw
        rw [← hrest]
        exact htw ▸ hs
  · rintro ⟨hne, hd, k, ⟨rfl, rfl⟩ | rfl⟩
    · simpa using strtok_skip (t := []) k hne hd (by simp)
    · exact strtok_skip k hne hd (by simp)

/-- There is a token wherever there is a byte that is no delimiter. -/
theorem strtok_isSome_iff {d : α} {s : List α} : (strtok d s).isSome ↔ ∃ b ∈ s, b ≠ d := by
  have hnil : s.dropWhile (· = d) = [] ↔ ∀ b ∈ s, b = d := by
    simp [List.dropWhile_eq_nil_iff]
  by_cases hs : s.dropWhile (· = d) = []
  · simpa [strtok, hs] using hnil.mp hs
  · have hex := mt hnil.mpr hs
    push Not at hex
    simpa [strtok, hs] using hex

theorem strtok_isSome {d b : α} {s : List α} (hb : b ∈ s) (hd : b ≠ d) : (strtok d s).isSome :=
  strtok_isSome_iff.mpr ⟨b, hb, hd⟩

theorem strtok_nil {d : α} : strtok d [] = none := rfl

end OperatingSystems.CStrings
