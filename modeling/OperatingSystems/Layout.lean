import Mathlib.Logic.Equiv.Fin.Basic
import Mathlib.Data.Fin.Tuple.Basic
import Mathlib.Data.Nat.Notation

/-! Fixed-size binary layouts: an encoding of a type in `n` bytes that decoding undoes, built
up from bytes and words by pairing and by arrays, as a C struct is. -/
namespace OperatingSystems

abbrev Byte := BitVec 8

/-- Values of `α` laid out in `n` bytes; reading back what was written gives the value. -/
structure Layout (α : Type*) (n : ℕ) where
  encode : α → Fin n → Byte
  decode : (Fin n → Byte) → α
  decode_encode : ∀ a, decode (encode a) = a

namespace Layout

variable {α β : Type*} {m n : ℕ}

/-- Bytes lie in memory as they are. -/
def bytes (n : ℕ) : Layout (Fin n → Byte) n where
  encode b := b
  decode b := b
  decode_encode _ := rfl

/-- A 32-bit word, the least significant byte first. -/
def word : Layout (BitVec 32) 4 where
  encode w i := w.extractLsb' (8 * i.val) 8
  decode b := b 3 ++ b 2 ++ b 1 ++ b 0
  decode_encode w := by
    apply BitVec.eq_of_getLsbD_eq
    intro i hi
    simp only [BitVec.getLsbD_append, BitVec.getLsbD_extractLsb']
    -- the byte that holds bit `i` depends on which multiples of eight lie below `i`
    by_cases hb0 : i < 8
    · simp [hb0]
    · by_cases hb1 : i < 16
      · simp [hb0, show i - 8 < 8 by omega, show 8 + (i - 8) = i by omega]
      · by_cases hb2 : i < 24
        · simp [hb0, show ¬i - 8 < 8 by omega, show i - 8 - 8 < 8 by omega,
            show 16 + (i - 8 - 8) = i by omega]
        · simp [hb0, show ¬i - 8 < 8 by omega, show ¬i - 8 - 8 < 8 by omega,
            show i - 8 - 8 - 8 < 8 by omega, show 24 + (i - 8 - 8 - 8) = i by omega]

/-- One field after the other. -/
def pair (A : Layout α m) (B : Layout β n) : Layout (α × β) (m+n) where
  encode p := Fin.append (A.encode p.1) (B.encode p.2)
  decode b := (A.decode fun i => b (Fin.castAdd n i), B.decode fun j => b (Fin.natAdd m j))
  decode_encode p := by
    simp only [Fin.append_left, Fin.append_right, A.decode_encode, B.decode_encode]

/-- `k` elements in a row. -/
def array (A : Layout α n) (k : ℕ) : Layout (Fin k → α) (k*n) where
  encode f i := A.encode (f i.divNat) i.modNat
  decode b := fun i => A.decode fun j => b (finProdFinEquiv (i, j))
  decode_encode f := by
    funext i
    have h (j : Fin n) : (finProdFinEquiv (i, j)).divNat = i ∧ (finProdFinEquiv (i, j)).modNat = j :=
      Prod.mk.injEq _ _ _ _ ▸ finProdFinEquiv.symm_apply_apply (i, j)
    simp only [h, A.decode_encode]

/-- The same bytes read as another type. -/
def map (A : Layout α n) (f : α → β) (g : β → α) (h : ∀ b, f (g b) = b) : Layout β n where
  encode b := A.encode (g b)
  decode c := f (A.decode c)
  decode_encode b := by rw [A.decode_encode, h]

/-- A C `int`. -/
def int : Layout Int32 4 :=
  word.map Int32.ofBitVec Int32.toBitVec fun _ => rfl

end Layout

end OperatingSystems
