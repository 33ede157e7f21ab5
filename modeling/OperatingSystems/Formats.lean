import OperatingSystems.CStrings
import Mathlib.Data.BitVec
import Mathlib.Data.Nat.Digits.Lemmas

/-! `scanf` and `printf`: a format as a list of directives, what each of them reads and prints, and
what has to stand behind a printed value for `scanf` to find its end. -/
namespace OperatingSystems.Formats
open CStrings

/-- `\t`, `\n`, `\v`, `\f`, `\r` and the blank. -/
def isspace (b : Byte) : Bool := b = 32#8 ∨ 9#8 ≤ b ∧ b ≤ 13#8

/-- What a character counts as a digit. -/
def digitValue (b : Byte) : Option ℕ :=
  if 48#8 ≤ b ∧ b ≤ 57#8 then some (b.toNat - 48)
  else if 97#8 ≤ b ∧ b ≤ 102#8 then some (b.toNat - 87)
  else if 65#8 ≤ b ∧ b ≤ 70#8 then some (b.toNat - 55)
  else none

def isDigit (base : ℕ) (b : Byte) : Bool := (digitValue b).any (· < base)

/-- The number that a run of digits stands for. -/
def numeral (base : ℕ) (s : List Byte) : ℕ :=
  s.foldl (fun n b => base * n + (digitValue b).getD 0) 0

/-- A sign is taken off; the flag says that it was a minus. -/
def sign : List Byte → Bool × List Byte
  | [] => (false, [])
  | b :: s => if b = 45#8 then (true, s) else if b = 43#8 then (false, s) else (false, b :: s)

/-- `0x` in front of a hexadecimal number. -/
def dropPrefix : List Byte → List Byte
  | b :: c :: s => if b = 48#8 ∧ (c = 120#8 ∨ c = 88#8) then s else b :: c :: s
  | s => s

/-- `strtol` stops at the ends of a 64-bit `long`; an `int` keeps the low half. -/
def storeSigned (minus : Bool) (n : ℕ) : BitVec 32 :=
  BitVec.ofInt 32 (if minus then max (-2^63) (-n) else min (2^63 - 1) n)

/-- `strtoul` negates in 64 bits and stops at the largest number. -/
def storeUnsigned (minus : Bool) (n : ℕ) : BitVec 32 :=
  BitVec.ofInt 32 (if n ≥ 2^64 then -1 else if minus then -n else n)

/-- `atoi`, which is `strtol` in base ten stored as an `int`; 0 where there is no number. -/
def atoi (s : List Byte) : BitVec 32 :=
  let (minus, s) := sign (s.dropWhile isspace)
  storeSigned minus (numeral 10 (s.takeWhile (isDigit 10)))

/-- One piece of a format: a character that stands for itself, or a conversion. The width is that
of `%04x`; a format that is scanned has none. -/
inductive Directive
  | plain (b : Byte)
  | decimal
  | hex (width : ℕ)
  | char
  | word
  deriving DecidableEq, Repr

inductive Value
  | int (n : BitVec 32)
  | char (b : Byte)
  | word (s : List Byte)
  deriving DecidableEq, Repr

/-- The directives of a format string. -/
def format : List Char → List Directive
  | '%' :: 'd' :: fmt => .decimal :: format fmt
  | '%' :: 'x' :: fmt => .hex 0 :: format fmt
  | '%' :: '0' :: '4' :: 'x' :: fmt => .hex 4 :: format fmt
  | '%' :: 'c' :: fmt => .char :: format fmt
  | '%' :: 's' :: fmt => .word :: format fmt
  | c :: fmt => .plain (BitVec.ofNat 8 c.toNat) :: format fmt
  | [] => []

/-! ### Reading -/

/-- A directive is done, with what it converted and the rest of the input; or the input does not
match; or it is at its end. -/
inductive Outcome
  | next (value : Option Value) (rest : List Byte)
  | mismatch
  | ended
  deriving DecidableEq, Repr

/-- The digits of a number and what is behind them. -/
def readDigits (base : ℕ) (store : ℕ → BitVec 32) (s : List Byte) : Outcome :=
  if s.takeWhile (isDigit base) = [] then .mismatch
  else .next (some (.int (store (numeral base (s.takeWhile (isDigit base))))))
    (s.dropWhile (isDigit base))

def Directive.read : Directive → List Byte → Outcome
  | .plain b, s =>
    if isspace b then .next none (s.dropWhile isspace)
    else match s with
      | [] => .ended
      | c :: s => if c = b then .next none s else .mismatch
  | .decimal, s =>
    if s.dropWhile isspace = [] then .ended
    else
      let (minus, s) := sign (s.dropWhile isspace)
      readDigits 10 (storeSigned minus) s
  | .hex _, s =>
    if s.dropWhile isspace = [] then .ended
    else
      let (minus, s) := sign (s.dropWhile isspace)
      readDigits 16 (storeUnsigned minus) (dropPrefix s)
  | .char, [] => .ended
  | .char, b :: s => .next (some (.char b)) s
  | .word, s =>
    if s.dropWhile isspace = [] then .ended
    else .next (some (.word ((s.dropWhile isspace).takeWhile (¬isspace ·))))
      ((s.dropWhile isspace).dropWhile (¬isspace ·))

/-- The values up to the first directive that fails, and whether that was for the end of the
input. -/
def scan : List Directive → List Byte → List Value × Bool
  | [], _ => ([], false)
  | d :: fmt, s =>
    match d.read s with
    | .next none s => scan fmt s
    | .next (some v) s => (v :: (scan fmt s).1, (scan fmt s).2)
    | .mismatch => ([], false)
    | .ended => ([], true)

/-- `sscanf`: its return value, and the values it stores. -/
def sscanf (s : List Byte) (fmt : String) : ℤ × List Value :=
  let (values, ended) := scan (format fmt.toList) s
  (if values = [] ∧ ended then -1 else values.length, values)

/-- The conversion stores a value of its kind. -/
def Directive.Stores : Directive → Value → Prop
  | .decimal, .int _ => True
  | .hex _, .int _ => True
  | .char, .char _ => True
  | .word, .word _ => True
  | _, _ => False

/-- Values of the kinds of the first conversions of a format. -/
def Stored : List Directive → List Value → Prop
  | _, [] => True
  | [], _ :: _ => False
  | .plain _ :: fmt, values => Stored fmt values
  | d :: fmt, v :: values => d.Stores v ∧ Stored fmt values

theorem readDigits_next {base : ℕ} {store : ℕ → BitVec 32} {s t : List Byte} {v : Option Value}
    (h : readDigits base store s = .next v t) : ∃ n, v = some (.int n) := by
  rw [readDigits] at h
  split_ifs at h with hnil
  obtain ⟨hv, -⟩ := Outcome.next.inj h
  exact ⟨_, hv.symm⟩

/-- A character of the format stores nothing, a conversion a value of its kind. -/
theorem read_next {d : Directive} {s t : List Byte} {v : Option Value} (h : d.read s = .next v t) :
    (v = none ∧ ∃ b, d = .plain b) ∨ ∃ w, v = some w ∧ d.Stores w := by
  cases d with
  | plain b =>
    cases s with
    | nil =>
      rw [Directive.read] at h
      split_ifs at h
      exact Or.inl ⟨(Outcome.next.inj h).1.symm, b, rfl⟩
    | cons c s =>
      rw [Directive.read] at h
      split_ifs at h
      · exact Or.inl ⟨(Outcome.next.inj h).1.symm, b, rfl⟩
      · exact Or.inl ⟨(Outcome.next.inj h).1.symm, b, rfl⟩
  | decimal =>
    rw [Directive.read] at h
    split_ifs at h with hnil
    obtain ⟨n, hv⟩ := readDigits_next h
    exact Or.inr ⟨.int n, hv, trivial⟩
  | hex width =>
    rw [Directive.read] at h
    split_ifs at h with hnil
    obtain ⟨n, hv⟩ := readDigits_next h
    exact Or.inr ⟨.int n, hv, trivial⟩
  | char =>
    cases s with
    | nil => exact Outcome.noConfusion h
    | cons b s => exact Or.inr ⟨.char b, (Outcome.next.inj h).1.symm, trivial⟩
  | word =>
    rw [Directive.read] at h
    split_ifs at h with hnil
    exact Or.inr ⟨.word _, (Outcome.next.inj h).1.symm, trivial⟩

theorem Stored.cons {d : Directive} {fmt : List Directive} {v : Value} {values : List Value}
    (hv : d.Stores v) (h : Stored fmt values) : Stored (d :: fmt) (v :: values) := by
  cases d with
  | plain b => exact False.elim hv
  | decimal => exact ⟨hv, h⟩
  | hex width => exact ⟨hv, h⟩
  | char => exact ⟨hv, h⟩
  | word => exact ⟨hv, h⟩

theorem Stored.plain {b : Byte} {fmt : List Directive} {values : List Value}
    (h : Stored fmt values) : Stored (.plain b :: fmt) values := by
  cases values with
  | nil => trivial
  | cons v values => exact h

/-- The values scanned are of the kinds that the format names, in its order. -/
theorem scan_stored (fmt : List Directive) (s : List Byte) : Stored fmt (scan fmt s).1 := by
  induction fmt generalizing s with
  | nil => trivial
  | cons d fmt ih =>
    rw [scan]
    cases hread : d.read s with
    | next value t =>
      rcases read_next hread with ⟨rfl, b, rfl⟩ | ⟨v, rfl, hv⟩
      · exact (ih t).plain
      · exact (ih t).cons hv
    | mismatch => trivial
    | ended => trivial

/-! ### Printing -/

def digitByte (d : ℕ) : Byte := BitVec.ofNat 8 (if d < 10 then 48 + d else 87 + d)

/-- A number in a base, without leading zeros. -/
def digits (base n : ℕ) : List Byte :=
  if n = 0 then [48#8] else ((Nat.digits base n).map digitByte).reverse

/-- The number behind as many zeros as the width asks for. -/
def padded (width base n : ℕ) : List Byte :=
  List.replicate (width - (digits base n).length) 48#8 ++ digits base n

def Value.print : Directive → Value → List Byte
  | .decimal, .int n =>
    if n.toInt < 0 then 45#8 :: digits 10 n.toInt.natAbs else digits 10 n.toInt.natAbs
  | .hex width, .int n => padded width 16 n.toNat
  | .char, .char b => [b]
  | .word, .word s => s
  | _, _ => []

def print : List Directive → List Value → List Byte
  | [], _ => []
  | .plain b :: fmt, values => b :: print fmt values
  | d :: fmt, v :: values => v.print d ++ print fmt values
  | _ :: _, [] => []

def printf (fmt : String) (values : List Value) : List Byte := print (format fmt.toList) values

/-! ### Digits -/

theorem digitValue_digitByte {d : ℕ} (hd : d < 16) : digitValue (digitByte d) = some d := by
  interval_cases d <;> decide

theorem isDigit_digitByte {base d : ℕ} (hbase : base ≤ 16) (hd : d < base) :
    isDigit base (digitByte d) = true := by
  rw [isDigit, digitValue_digitByte (hd.trans_le hbase)]
  simpa using hd

/-- A digit is no white space, no sign, and not the `x` of a prefix. -/
theorem of_isDigit {base : ℕ} {b : Byte} (hb : isDigit base b = true) :
    48#8 ≤ b ∧ isspace b = false ∧ b ≠ 45#8 ∧ b ≠ 43#8 ∧ b ≠ 120#8 ∧ b ≠ 88#8 := by
  have hsome : (digitValue b).isSome = true := by
    simp only [isDigit, Option.any_eq_true] at hb
    obtain ⟨d, hd, -⟩ := hb
    rw [hd]
    rfl
  have hall : ∀ c : Byte, (digitValue c).isSome = true →
      48#8 ≤ c ∧ isspace c = false ∧ c ≠ 45#8 ∧ c ≠ 43#8 ∧ c ≠ 120#8 ∧ c ≠ 88#8 := by
    decide +kernel
  exact hall b hsome

theorem digits_ne_nil (base n : ℕ) : digits base n ≠ [] := by
  rw [digits]
  split_ifs with hn
  · exact List.cons_ne_nil _ _
  · simpa [Nat.digits_eq_nil_iff_eq_zero] using hn

theorem isDigit_of_mem_digits {base n : ℕ} (h2 : 2 ≤ base) (hbase : base ≤ 16) {b : Byte}
    (hb : b ∈ digits base n) : isDigit base b = true := by
  rw [digits] at hb
  split_ifs at hb with hn
  · rw [List.mem_singleton.mp hb]
    exact isDigit_digitByte (d := 0) hbase (by omega)
  · rw [List.mem_reverse, List.mem_map] at hb
    obtain ⟨d, hd, rfl⟩ := hb
    exact isDigit_digitByte hbase (Nat.digits_lt_base h2 hd)

/-- Reading the digits of a number gives the number. -/
theorem numeral_digits {base : ℕ} (h2 : 2 ≤ base) (hbase : base ≤ 16) (n : ℕ) :
    numeral base (digits base n) = n := by
  by_cases hn : n = 0
  · subst hn
    decide +revert
  · have hvalues : ∀ l : List ℕ, (∀ d ∈ l, d < base) →
        (l.map digitByte).foldr (fun b m => base * m + (digitValue b).getD 0) 0 =
          Nat.ofDigits base l := by
      intro l hl
      induction l with
      | nil => rfl
      | cons d l ih =>
        have hd : d < 16 := (hl d List.mem_cons_self).trans_le hbase
        rw [List.map_cons, List.foldr_cons, ih fun e he => hl e (List.mem_cons_of_mem d he),
          digitValue_digitByte hd, Nat.ofDigits_cons, Option.getD_some]
        omega
    rw [digits, if_neg hn, numeral, List.foldl_reverse,
      hvalues _ fun d hd => Nat.digits_lt_base h2 hd, Nat.ofDigits_digits]

theorem numeral_zeros (base k : ℕ) (s : List Byte) :
    numeral base (List.replicate k 48#8 ++ s) = numeral base s := by
  induction k with
  | zero => rfl
  | succ k ih => exact ih

theorem padded_ne_nil (width base n : ℕ) : padded width base n ≠ [] := by
  simp [padded, digits_ne_nil]

theorem isDigit_of_mem_padded {width base n : ℕ} (h2 : 2 ≤ base) (hbase : base ≤ 16) {b : Byte}
    (hb : b ∈ padded width base n) : isDigit base b = true := by
  rcases List.mem_append.mp hb with hb | hb
  · rw [List.eq_of_mem_replicate hb]
    exact isDigit_digitByte (d := 0) hbase (by omega)
  · exact isDigit_of_mem_digits h2 hbase hb

theorem numeral_padded {base : ℕ} (h2 : 2 ≤ base) (hbase : base ≤ 16) (width n : ℕ) :
    numeral base (padded width base n) = n := by
  rw [padded, numeral_zeros, numeral_digits h2 hbase]

theorem length_digits_le {base n k : ℕ} (h2 : 2 ≤ base) (hk : 1 ≤ k) (hn : n < base^k) :
    (digits base n).length ≤ k := by
  rw [digits]
  split_ifs with hzero
  · simpa using hk
  · rw [List.length_reverse, List.length_map]
    exact (Nat.digits_length_le_iff h2 n).mpr hn

theorem length_padded_le {width base n k : ℕ} (h2 : 2 ≤ base) (hk : 1 ≤ k) (hn : n < base^k) :
    (padded width base n).length ≤ max width k := by
  have hlen := length_digits_le h2 hk hn
  rw [padded, List.length_append, List.length_replicate]
  omega

/-! ### Reading back what was printed -/

/-- Behind the blank there is no white space. -/
theorem isspace_of_le {b : Byte} (h : 33#8 ≤ b) : isspace b = false := by
  rw [isspace, decide_eq_false_iff_not]
  bv_omega

theorem dropWhile_isspace {b : Byte} (hb : isspace b = false) (s : List Byte) :
    (b :: s).dropWhile isspace = b :: s := by
  rw [List.dropWhile_cons, hb]
  rfl

theorem sign_of_digit {base : ℕ} {b : Byte} (hb : isDigit base b = true) (s : List Byte) :
    sign (b :: s) = (false, b :: s) := by
  obtain ⟨-, -, hminus, hplus, -⟩ := of_isDigit hb
  rw [sign, if_neg hminus, if_neg hplus]

/-- Without an `x` in second place there is no prefix. -/
theorem dropPrefix_eq {s : List Byte} (h : ∀ c ∈ s.tail.head?, c ≠ 120#8 ∧ c ≠ 88#8) :
    dropPrefix s = s := by
  match s with
  | [] => rfl
  | [b] => rfl
  | b :: c :: s =>
    obtain ⟨hx, hX⟩ := h c rfl
    rw [dropPrefix, if_neg (by simp [hx, hX])]

/-- A run of digits is read up to its end. -/
theorem readDigits_append {base : ℕ} (store : ℕ → BitVec 32) {s t : List Byte} (hne : s ≠ [])
    (hs : ∀ b ∈ s, isDigit base b = true) (ht : ∀ b ∈ t.head?, isDigit base b = false) :
    readDigits base store (s ++ t) = .next (some (.int (store (numeral base s)))) t := by
  obtain ⟨htake, hdrop⟩ := span_append hs ht
  rw [readDigits, htake, hdrop, if_neg hne]

theorem storeSigned_natAbs (n : BitVec 32) :
    storeSigned (decide (n.toInt < 0)) n.toInt.natAbs = n := by
  have hlt := n.toInt_lt
  have hle := n.le_toInt
  have hvalue : (if decide (n.toInt < 0) = true then max (-2^63) (-(n.toInt.natAbs : ℤ))
      else min (2^63 - 1) (n.toInt.natAbs : ℤ)) = n.toInt := by
    by_cases hneg : n.toInt < 0
    · rw [if_pos (decide_eq_true hneg)]
      omega
    · rw [if_neg (by simpa using hneg)]
      omega
  rw [storeSigned, hvalue, BitVec.ofInt_toInt]

theorem storeUnsigned_toNat (n : BitVec 32) : storeUnsigned false n.toNat = n := by
  have hlt := n.isLt
  rw [storeUnsigned, if_neg (by omega), if_neg (by decide)]
  rw [BitVec.ofInt_natCast, BitVec.ofNat_toNat, BitVec.setWidth_eq]

/-- What has to follow a printed directive for `scanf` to stop at its end. -/
def Directive.Ends : Directive → List Byte → Prop
  | .plain b, t => isspace b = true → ∀ c ∈ t.head?, isspace c = false
  | .decimal, t => ∀ c ∈ t.head?, isDigit 10 c = false
  | .hex _, t => ∀ c ∈ t.head?, isDigit 16 c = false ∧ c ≠ 120#8 ∧ c ≠ 88#8
  | .char, _ => True
  | .word, t => ∀ c ∈ t.head?, isspace c = true

/-- A value of the kind that the conversion stores. -/
def Value.Fits : Directive → Value → Prop
  | .decimal, .int _ => True
  | .hex _, .int _ => True
  | .char, .char _ => True
  | .word, .word s => s ≠ [] ∧ ∀ b ∈ s, isspace b = false
  | _, _ => False

/-- Every value of the text is of the kind that its conversion reads, and its end can be seen. -/
def Readable : List Directive → List Value → List Byte → Prop
  | [], values, _ => values = []
  | .plain b :: fmt, values, t =>
    Directive.Ends (.plain b) (print fmt values ++ t) ∧ Readable fmt values t
  | d :: fmt, v :: values, t =>
    v.Fits d ∧ d.Ends (print fmt values ++ t) ∧ Readable fmt values t
  | _ :: _, [], _ => False

theorem read_plain {b : Byte} {t : List Byte} (ht : Directive.Ends (.plain b) t) :
    Directive.read (.plain b) (b :: t) = .next none t := by
  by_cases hb : isspace b = true
  · have hdrop : (b :: t).dropWhile isspace = t := by
      have hsplit := span_append (w := [b]) (by simpa using hb) (ht hb)
      exact hsplit.2
    rw [Directive.read, if_pos hb, hdrop]
  · rw [Directive.read, if_neg hb]
    exact if_pos rfl

theorem read_digits {base : ℕ} {s : List Byte} (hne : s ≠ [])
    (hs : ∀ b ∈ s, isDigit base b = true) (t : List Byte) :
    (s ++ t).dropWhile isspace = s ++ t ∧ sign (s ++ t) = (false, s ++ t) := by
  cases s with
  | nil => exact absurd rfl hne
  | cons b s =>
    have hb := hs b List.mem_cons_self
    exact ⟨dropWhile_isspace (of_isDigit hb).2.1 _, sign_of_digit hb _⟩

theorem read_decimal (n : BitVec 32) {t : List Byte} (ht : Directive.Ends .decimal t) :
    Directive.decimal.read (Value.print .decimal (.int n) ++ t) = .next (some (.int n)) t := by
  have hne := digits_ne_nil 10 n.toInt.natAbs
  have hdigits : ∀ b ∈ digits 10 n.toInt.natAbs, isDigit 10 b = true :=
    fun b hb => isDigit_of_mem_digits (by decide) (by decide) hb
  have hread (minus : Bool) := readDigits_append (storeSigned minus) hne hdigits ht
  have hnumeral := numeral_digits (by decide : 2 ≤ 10) (by decide) n.toInt.natAbs
  have hstore := storeSigned_natAbs n
  rw [Value.print]
  split_ifs with hneg
  · have hminus : (45#8 :: digits 10 n.toInt.natAbs ++ t).dropWhile isspace =
        45#8 :: (digits 10 n.toInt.natAbs ++ t) := dropWhile_isspace (by decide) _
    rw [decide_eq_true hneg] at hstore
    rw [Directive.read, hminus, if_neg (List.cons_ne_nil _ _), sign, if_pos rfl]
    dsimp only
    rw [hread, hnumeral, hstore]
  · obtain ⟨hdrop, hsign⟩ := read_digits hne hdigits t
    rw [decide_eq_false hneg] at hstore
    rw [Directive.read, hdrop, if_neg (by simp [hne]), hsign]
    dsimp only
    rw [hread, hnumeral, hstore]

/-- `atoi` reads what `%d` prints. -/
theorem atoi_print (n : BitVec 32) : atoi (Value.print .decimal (.int n)) = n := by
  have hne := digits_ne_nil 10 n.toInt.natAbs
  have hdigits : ∀ b ∈ digits 10 n.toInt.natAbs, isDigit 10 b = true :=
    fun b hb => isDigit_of_mem_digits (by decide) (by decide) hb
  have hall : (digits 10 n.toInt.natAbs).takeWhile (isDigit 10) = digits 10 n.toInt.natAbs :=
    List.takeWhile_eq_self_iff.mpr hdigits
  have hnumeral := numeral_digits (by decide : 2 ≤ 10) (by decide) n.toInt.natAbs
  have hstore := storeSigned_natAbs n
  rw [Value.print, atoi]
  split_ifs with hneg
  · rw [decide_eq_true hneg] at hstore
    rw [dropWhile_isspace (by decide), sign, if_pos rfl]
    dsimp only
    rw [hall, hnumeral, hstore]
  · obtain ⟨hdrop, hsign⟩ := read_digits hne hdigits []
    rw [List.append_nil] at hdrop hsign
    rw [decide_eq_false hneg] at hstore
    rw [hdrop, hsign]
    dsimp only
    rw [hall, hnumeral, hstore]

theorem read_hex (width : ℕ) (n : BitVec 32) {t : List Byte} (ht : Directive.Ends (.hex width) t) :
    (Directive.hex width).read (Value.print (.hex width) (.int n) ++ t) =
      .next (some (.int n)) t := by
  have hne := padded_ne_nil width 16 n.toNat
  have hdigits : ∀ b ∈ padded width 16 n.toNat, isDigit 16 b = true :=
    fun b hb => isDigit_of_mem_padded (by decide) (by decide) hb
  obtain ⟨hdrop, hsign⟩ := read_digits hne hdigits t
  -- the second character is one more digit or the first of `t`
  have hstart : dropPrefix (padded width 16 n.toNat ++ t) = padded width 16 n.toNat ++ t := by
    apply dropPrefix_eq
    intro c hc
    generalize padded width 16 n.toNat = s at hne hdigits hc
    match s, hne with
    | [b], _ => exact (ht c hc).2
    | b :: d :: s, _ =>
      have hd : d = c := by simpa using hc
      obtain ⟨-, -, -, -, hx⟩ := of_isDigit (hdigits c (by simp [hd]))
      exact hx
  rw [Value.print, Directive.read, hdrop, if_neg (by simp [hne]), hsign]
  dsimp only
  rw [hstart, readDigits_append _ hne hdigits fun c hc => (ht c hc).1,
    numeral_padded (by decide) (by decide), storeUnsigned_toNat]

theorem read_word {s t : List Byte} (hs : Value.Fits .word (.word s))
    (ht : Directive.Ends .word t) : Directive.word.read (s ++ t) = .next (some (.word s)) t := by
  obtain ⟨hne, hspace⟩ := hs
  have hdrop : (s ++ t).dropWhile isspace = s ++ t := by
    cases s with
    | nil => exact absurd rfl hne
    | cons b s => exact dropWhile_isspace (hspace b List.mem_cons_self) _
  obtain ⟨htake, hrest⟩ := span_append (p := fun b => decide ¬isspace b = true) (w := s) (s := t)
    (fun b hb => by simp [hspace b hb]) (fun c hc => by simp [ht c hc])
  rw [Directive.read, hdrop, if_neg (by simp [hne]), htake, hrest]

/-- The characters of a format stand for themselves. -/
theorem print_plain (s : List Byte) (fmt : List Directive) (values : List Value) :
    print (s.map .plain ++ fmt) values = s ++ print fmt values := by
  induction s with
  | nil => rfl
  | cons b s ih => rw [List.map_cons, List.cons_append, print, ih, List.cons_append]

/-- Between two values a format may have text in which no white space stands next to another. -/
theorem readable_plain {s : List Byte} {fmt : List Directive} {values : List Value} {t : List Byte}
    (hs : s.IsChain fun b c => isspace b = true → isspace c = false)
    (hlast : ∀ c ∈ (print fmt values ++ t).head?, isspace c = false)
    (h : Readable fmt values t) : Readable (s.map .plain ++ fmt) values t := by
  induction s with
  | nil => exact h
  | cons b s ih =>
    refine ⟨?_, ih hs.tail⟩
    cases s with
    | nil => exact fun _ => hlast
    | cons c s =>
      intro hb d hd
      have hcd : c = d := Option.some.inj hd
      rw [← hcd]
      exact (List.isChain_cons_cons.mp hs).1 hb

/-- The first byte of a decimal number, what its bytes are, and how many there are at most. -/
theorem print_decimal (n : BitVec 32) : ∃ b s, Value.print .decimal (.int n) = b :: s ∧
    (∀ c ∈ b :: s, 45#8 ≤ c) ∧ (b :: s).length ≤ 11 := by
  have hlt := n.toInt_lt
  have hle := n.le_toInt
  have hdigits : ∀ b ∈ digits 10 n.toInt.natAbs, 45#8 ≤ b := by
    have htrans : ∀ b : Byte, 48#8 ≤ b → 45#8 ≤ b := fun b hb => BitVec.le_trans (by decide) hb
    exact fun b hb =>
      htrans b (of_isDigit (isDigit_of_mem_digits (by decide) (by decide) hb)).1
  have hlen : (digits 10 n.toInt.natAbs).length ≤ 10 :=
    length_digits_le (by decide) (by decide) (by omega)
  have hne := digits_ne_nil 10 n.toInt.natAbs
  rw [Value.print]
  split_ifs with hneg
  · refine ⟨45#8, _, rfl, List.forall_mem_cons.mpr ⟨by decide, hdigits⟩, ?_⟩
    rw [List.length_cons]
    omega
  · generalize digits 10 n.toInt.natAbs = s at hdigits hlen hne
    cases s with
    | nil => exact absurd rfl hne
    | cons b s => exact ⟨b, s, rfl, hdigits, by omega⟩

/-- A printed value is read back up to its end. -/
theorem read_print {d : Directive} {v : Value} {t : List Byte} (hv : v.Fits d) (ht : d.Ends t) :
    d.read (v.print d ++ t) = .next (some v) t := by
  cases d with
  | plain b => cases v <;> exact False.elim hv
  | decimal =>
    cases v with
    | int n => exact read_decimal n ht
    | char b => exact False.elim hv
    | word s => exact False.elim hv
  | hex width =>
    cases v with
    | int n => exact read_hex width n ht
    | char b => exact False.elim hv
    | word s => exact False.elim hv
  | char =>
    cases v with
    | int n => exact False.elim hv
    | char b => rfl
    | word s => exact False.elim hv
  | word =>
    cases v with
    | int n => exact False.elim hv
    | char b => exact False.elim hv
    | word s => exact read_word hv ht

theorem print_value (d : Directive) (fmt : List Directive) (v : Value) (values : List Value)
    (hd : ∀ b, d ≠ .plain b) : print (d :: fmt) (v :: values) = v.print d ++ print fmt values := by
  cases d with
  | plain b => exact absurd rfl (hd b)
  | _ => rfl

/-- The first directive of a text that can be read. -/
theorem Readable.cases {d : Directive} {fmt : List Directive} {values : List Value}
    {t : List Byte} (h : Readable (d :: fmt) values t) :
    (∃ b, d = .plain b ∧ d.Ends (print fmt values ++ t) ∧ Readable fmt values t) ∨
      ∃ v rest, values = v :: rest ∧ (∀ b, d ≠ .plain b) ∧ v.Fits d ∧
        d.Ends (print fmt rest ++ t) ∧ Readable fmt rest t := by
  cases d with
  | plain b => exact Or.inl ⟨b, rfl, h⟩
  | _ =>
    cases values with
    | nil => exact False.elim h
    | cons v rest => exact Or.inr ⟨v, rest, rfl, by simp, h⟩

/-- What is printed is read back, and scanning goes on behind it. -/
theorem scan_print (fmt more : List Directive) (values : List Value) (t : List Byte)
    (h : Readable fmt values t) :
    scan (fmt ++ more) (print fmt values ++ t) =
      (values ++ (scan more t).1, (scan more t).2) := by
  induction fmt generalizing values with
  | nil =>
    rw [Readable] at h
    subst h
    rfl
  | cons d fmt ih =>
    rcases h.cases with ⟨b, rfl, hends, hrest⟩ | ⟨v, rest, rfl, hd, hfits, hends, hrest⟩
    · rw [print, List.cons_append, List.cons_append, scan, read_plain hends]
      exact ih values hrest
    · rw [print_value d fmt v rest hd, List.cons_append, List.append_assoc, scan,
        read_print hfits hends]
      simp only [ih rest hrest, List.cons_append]

theorem print_append (fmt more : List Directive) (values : List Value) (t : List Byte)
    (h : Readable fmt values t) : print (fmt ++ more) values = print fmt values ++ print more [] := by
  induction fmt generalizing values with
  | nil =>
    rw [Readable] at h
    subst h
    rfl
  | cons d fmt ih =>
    rcases h.cases with ⟨b, rfl, -, hrest⟩ | ⟨v, rest, rfl, hd, -, -, hrest⟩
    · rw [List.cons_append, print, print, ih values hrest, List.cons_append]
    · rw [List.cons_append, print_value d _ v rest hd, print_value d _ v rest hd, ih rest hrest,
        List.append_assoc]

example : printf "%d %c 0x%04x %c\n" [.int (-3), .char 87#8, .int 0x2f#32, .char 97#8] =
    ascii "-3 W 0x002f a\n" := by decide +kernel

example : sscanf (ascii "-3 W 0x002f a\n") "%d %c 0x%x %c" =
    (4, [.int (-3), .char 87#8, .int 0x2f#32, .char 97#8]) := by decide +kernel

example : sscanf (ascii "2 R  ") "%d %c 0x%x %c" = (2, [.int 2, .char 82#8]) := by decide +kernel

example : (sscanf [] "%d %c 0x%x %c").1 = -1 := by decide +kernel

end OperatingSystems.Formats
