import OperatingSystems.FSCommand
import Mathlib.Data.Finset.Card
import Mathlib.Order.Interval.Finset.Defs
import Mathlib.Data.Int.Interval
import Mathlib.Data.Int.Range
import Mathlib.Tactic.Linarith

/-! What the allocators do to the sets of blocks and inodes marked used. -/
namespace OperatingSystems.FS

def Bitmap.bit (array : Bitmap) (index : ℤ) : Bool :=
  (array.byte (index / 8)).getLsbD (index % 8).toNat

theorem getBit_eq (array : Bitmap) (index : ℤ) :
    getBit array index = if array.bit index then 1 else 0 := by
  apply BitVec.eq_of_getLsbD_eq
  intro i hi
  unfold getBit Bitmap.bit
  by_cases h0 : i = 0
  · subst h0
    by_cases hb : (array.byte (index / 8)).getLsbD (index % 8).toNat <;> simp [hb]
  · by_cases hb : (array.byte (index / 8)).getLsbD (index % 8).toNat <;> simp [hb, h0]

/-- Two indices name the same bit of the same byte only if they are equal. -/
theorem bit_toggleBit (array : Bitmap) (i j : ℤ) :
    (toggleBit array i).bit j = if j = i then !array.bit i else array.bit j := by
  unfold toggleBit Bitmap.bit
  by_cases hd : j / 8 = i / 8
  · have hj : (j % 8).toNat < 8 := by omega
    simp only [hd, Function.update_self, BitVec.getLsbD_xor]
    by_cases he : j = i
    · subst he
      simp [hj]
    · have hne : (j % 8).toNat - (i % 8).toNat ≠ 0 ∨ (j % 8).toNat < (i % 8).toNat := by omega
      have hz : ((1 : Byte) <<< (i % 8).toNat).getLsbD (j % 8).toNat = false := by
        rcases hne with hne | hlt
        · simp [hne]
        · simp [hlt]
      rw [hz, Bool.xor_false, if_neg he]
  · have he : j ≠ i := fun he => hd (by rw [he])
    simp only [Function.update_of_ne hd, if_neg he]

theorem bit_setBit (array : Bitmap) (i j : ℤ) (v : Bool) :
    (setBit array i (if v then 1 else 0)).bit j = if j = i then v else array.bit j := by
  have hv : ¬((if v then (1 : Byte) else 0) ≠ 0 ∧ (if v then (1 : Byte) else 0) ≠ 1) := by
    cases v <;> simp
  have hinj (b : Bool) : ((if b then (1 : Byte) else 0) = if v then 1 else 0) ↔ b = v := by
    cases b <;> cases v <;> simp
  simp only [setBit, if_neg hv, getBit_eq, hinj, bit_toggleBit, ↓reduceIte]
  by_cases hb : (!array.bit i) = v
  · simp only [hb, ↓reduceIte, bit_toggleBit]
  · simp only [hb, ↓reduceIte, bit_toggleBit]
    by_cases hj : j = i
    · subst hj
      simpa using hb
    · simp only [hj, ↓reduceIte]

theorem bit_setBit_one (array : Bitmap) (i j : ℤ) :
    (setBit array i 1).bit j = (decide (j = i) || array.bit j) := by
  have h := bit_setBit array i j true
  simp only [↓reduceIte] at h
  rw [h]
  by_cases hj : j = i <;> simp [hj]

theorem bit_setBit_zero (array : Bitmap) (i j : ℤ) :
    (setBit array i 0).bit j = (!decide (j = i) && array.bit j) := by
  have h := bit_setBit array i j false
  simp only [Bool.false_eq_true, ↓reduceIte] at h
  rw [h]
  by_cases hj : j = i <;> simp [hj]

/-- The bits determine the array. -/
theorem Bitmap.ext_bit {a b : Bitmap} (h : ∀ i, a.bit i = b.bit i) : a = b := by
  ext k i hi
  have hk := h (8*k+i)
  have hq : (8*k+i)/8 = k := by omega
  have hr : ((8*k+(i:ℤ))%8).toNat = i := by omega
  unfold Bitmap.bit at hk
  rw [hq, hr] at hk
  rw [← BitVec.getLsbD_eq_getElem, ← BitVec.getLsbD_eq_getElem]
  exact hk

/-- The indices below `n` whose bit is set. -/
def Bitmap.marked (array : Bitmap) (n : ℕ) : Finset ℤ :=
  (Int.range 0 n).toFinset.filter fun i => array.bit i = true

theorem Bitmap.mem_marked {array : Bitmap} {n : ℕ} {i : ℤ} :
    i ∈ array.marked n ↔ (0 ≤ i ∧ i < n) ∧ array.bit i = true := by
  simp only [Bitmap.marked, Finset.mem_filter, List.mem_toFinset, Int.mem_range_iff]

theorem marked_setBit_one (array : Bitmap) (n : ℕ) {i : ℤ} (hi : 0 ≤ i ∧ i < n) :
    (setBit array i 1).marked n = insert i (array.marked n) := by
  ext j
  simp only [Bitmap.mem_marked, Finset.mem_insert, bit_setBit_one, Bool.or_eq_true,
    decide_eq_true_eq]
  constructor
  · rintro ⟨hj, he | hb⟩
    · exact Or.inl he
    · exact Or.inr ⟨hj, hb⟩
  · rintro (rfl | ⟨hj, hb⟩)
    · exact ⟨hi, Or.inl rfl⟩
    · exact ⟨hj, Or.inr hb⟩

theorem marked_setBit_zero (array : Bitmap) (n : ℕ) (i : ℤ) :
    (setBit array i 0).marked n = (array.marked n).erase i := by
  ext j
  simp only [Bitmap.mem_marked, Finset.mem_erase, bit_setBit_zero, Bool.and_eq_true,
    Bool.not_eq_true', decide_eq_false_iff_not]
  tauto

theorem Bitmap.card_marked_le (array : Bitmap) (n : ℕ) : (array.marked n).card ≤ n := by
  have h : array.marked n ⊆ Finset.Ico 0 (n : ℤ) :=
    fun i hi => Finset.mem_Ico.mpr (Bitmap.mem_marked.mp hi).1
  calc (array.marked n).card ≤ (Finset.Ico 0 (n : ℤ)).card := Finset.card_le_card h
    _ = n := by simp

/-- The scan ends at the first clear bit, or passes over set bits only. -/
theorem findClear_spec (array : Bitmap) (k : ℕ) (i : ℤ) (hi : 0 ≤ i) :
    (findClear array k i = -1 ∧ ∀ j, i ≤ j → j < i+k → array.bit j = true) ∨
      ((i ≤ findClear array k i ∧ findClear array k i < i+k) ∧
        array.bit (findClear array k i) = false ∧
        ∀ j, i ≤ j → j < findClear array k i → array.bit j = true) := by
  -- Induction on the bits left; a set bit at `i` joins those of the scan from `i+1`.
  induction k generalizing i with
  | zero =>
    left
    refine ⟨rfl, fun j hj hk => ?_⟩
    omega
  | succ k ih =>
    rw [findClear]
    by_cases hb : array.bit i = true
    · have hg : getBit array i ≠ 0 := by
        rw [getBit_eq, hb]
        decide
      rw [if_neg hg]
      rcases ih (i+1) (by omega) with ⟨he, hall⟩ | ⟨hr, hc, hall⟩
      · left
        refine ⟨he, fun j hj hk => ?_⟩
        by_cases hji : j = i
        · exact hji ▸ hb
        · exact hall j (by omega) (by omega)
      · right
        refine ⟨⟨by omega, by omega⟩, hc, fun j hj hk => ?_⟩
        by_cases hji : j = i
        · exact hji ▸ hb
        · exact hall j (by omega) hk
    · right
      have hg : getBit array i = 0 := by simp [getBit_eq, hb]
      rw [if_pos hg]
      exact ⟨⟨le_rfl, by omega⟩, by simpa using hb, fun j hj hk => by omega⟩

/-- The scan stops at the first clear bit. -/
theorem findClear_first (array : Bitmap) (k : ℕ) (i r : ℤ) (hi : i ≤ r) (hr : r < i+k)
    (hset : ∀ j, i ≤ j → j < r → array.bit j = true) (hclear : array.bit r = false) :
    findClear array k i = r := by
  induction k generalizing i with
  | zero => omega
  | succ k ih =>
    rw [findClear]
    by_cases he : i = r
    · subst he
      rw [if_pos (by simp [getBit_eq, hclear])]
    · have hb := hset i le_rfl (by omega)
      rw [if_neg (by simp [getBit_eq, hb])]
      exact ih (i+1) (by omega) (by omega) fun j hj hjr => hset j (by omega) hjr

theorem findClear_eq_neg_one_iff (array : Bitmap) (n : ℕ) :
    findClear array n 0 = -1 ↔ (array.marked n).card = n := by
  -- All `n` bits are set exactly if the marked ones fill the interval.
  have hfull : (array.marked n).card = n ↔ ∀ j : ℤ, 0 ≤ j → j < n → array.bit j = true := by
    have hc : (Finset.Ico 0 (n : ℤ)).card = n := by simp
    have hsub : array.marked n ⊆ Finset.Ico 0 (n : ℤ) :=
      fun i hi => Finset.mem_Ico.mpr (Bitmap.mem_marked.mp hi).1
    constructor
    · intro h j h0 hn
      have he := Finset.eq_of_subset_of_card_le hsub (by rw [hc, h])
      exact (Bitmap.mem_marked.mp (he ▸ Finset.mem_Ico.mpr ⟨h0, hn⟩)).2
    · intro h
      have he : array.marked n = Finset.Ico 0 (n : ℤ) := by
        apply hsub.antisymm
        intro j hj
        have hj := Finset.mem_Ico.mp hj
        exact Bitmap.mem_marked.mpr ⟨hj, h j hj.1 hj.2⟩
      rw [he, hc]
  rw [hfull]
  rcases findClear_spec array n 0 le_rfl with ⟨he, hall⟩ | ⟨⟨hl, hu⟩, hb, -⟩
  · simp only [he, true_iff]
    intro j h0 hn
    exact hall j h0 (by omega)
  · constructor
    · intro he
      omega
    · intro h
      have := h _ hl (by omega)
      simp [hb] at this

theorem toInt_ofInt {b : ℤ} (h0 : -1 ≤ b) (h : b < 4096) : (Int32.ofInt b).toInt = b := by
  apply Int32.toInt_ofInt_of_le <;> omega

theorem toInt_add_one {a : Int32} (h0 : -65536 ≤ a.toInt) (h : a.toInt ≤ 65536) :
    (a+1).toInt = a.toInt+1 := by
  rw [Int32.toInt_add, Int.bmod_eq_of_le]
  all_goals simp
  all_goals omega

theorem toInt_sub_one {a : Int32} (h0 : -65536 ≤ a.toInt) (h : a.toInt ≤ 65536) :
    (a-1).toInt = a.toInt-1 := by
  rw [Int32.toInt_sub, Int.bmod_eq_of_le]
  all_goals simp
  all_goals omega

def usedBlocks (fs : FileSystem) : Finset ℤ := fs.blockMap.marked MAX_BLOCK

def usedInodes (fs : FileSystem) : Finset ℤ := fs.inodeMap.marked MAX_INODE

/-- The free counters of the super block are exact. -/
structure Counted (fs : FileSystem) : Prop where
  blocks : fs.superBlock.freeBlockCount.toInt + (usedBlocks fs).card = MAX_BLOCK
  inodes : fs.superBlock.freeInodeCount.toInt + (usedInodes fs).card = MAX_INODE

theorem mem_usedBlocks_range {fs : FileSystem} {b : ℤ} (h : b ∈ usedBlocks fs) :
    0 ≤ b ∧ b < 4096 := (Bitmap.mem_marked.mp h).1

theorem mem_usedInodes_range {fs : FileSystem} {n : ℤ} (h : n ∈ usedInodes fs) :
    0 ≤ n ∧ n < 512 := (Bitmap.mem_marked.mp h).1

theorem Counted.blocks_range {fs : FileSystem} (h : Counted fs) :
    0 ≤ fs.superBlock.freeBlockCount.toInt ∧ fs.superBlock.freeBlockCount.toInt ≤ 4096 := by
  have hc := h.blocks
  have hm := Bitmap.card_marked_le fs.blockMap MAX_BLOCK
  simp only [usedBlocks, MAX_BLOCK] at hc hm
  omega

theorem Counted.inodes_range {fs : FileSystem} (h : Counted fs) :
    0 ≤ fs.superBlock.freeInodeCount.toInt ∧ fs.superBlock.freeInodeCount.toInt ≤ 512 := by
  have hc := h.inodes
  have hm := Bitmap.card_marked_le fs.inodeMap MAX_INODE
  simp only [usedInodes, MAX_INODE] at hc hm
  omega

namespace FileSystem

/-- The state after `get_block` has handed out `b`. -/
def takeBlock (fs : FileSystem) (b : ℤ) : FileSystem :=
  { fs with
    blockMap := setBit fs.blockMap b 1
    superBlock := { fs.superBlock with freeBlockCount := fs.superBlock.freeBlockCount - 1 } }

/-- The state after `get_inode` has handed out `n`. -/
def takeInode (fs : FileSystem) (n : ℤ) : FileSystem :=
  { fs with
    inodeMap := setBit fs.inodeMap n 1
    superBlock := { fs.superBlock with freeInodeCount := fs.superBlock.freeInodeCount - 1 } }

end FileSystem

variable {fs : FileSystem}

theorem getBlock_cases (hc : Counted fs) :
    (fs.superBlock.freeBlockCount.toInt = 0 ∧ fs.getBlock = (-1, fs)) ∨
      ∃ b, (0 ≤ b ∧ b < 4096) ∧ b ∉ usedBlocks fs ∧ 0 < fs.superBlock.freeBlockCount.toInt ∧
        fs.getBlock = (b, fs.takeBlock b) := by
  have hcard := hc.blocks
  have hle := Bitmap.card_marked_le fs.blockMap MAX_BLOCK
  have hiff := findClear_eq_neg_one_iff fs.blockMap MAX_BLOCK
  unfold usedBlocks at hcard
  rcases findClear_spec fs.blockMap MAX_BLOCK 0 le_rfl with ⟨he, -⟩ | ⟨⟨hl, hu⟩, hb, -⟩
  · left
    have hfull := hiff.mp he
    exact ⟨by omega, by simp only [FileSystem.getBlock, he, ↓reduceIte]⟩
  · right
    have hne : findClear fs.blockMap MAX_BLOCK 0 ≠ -1 := by omega
    refine ⟨findClear fs.blockMap MAX_BLOCK 0, ⟨hl, by simpa [MAX_BLOCK] using hu⟩, ?_, ?_, ?_⟩
    · intro hm
      simp [(Bitmap.mem_marked.mp hm).2] at hb
    · have := mt hiff.mpr hne
      omega
    · simp only [FileSystem.getBlock, if_neg hne, FileSystem.takeBlock]

theorem getInode_cases (hc : Counted fs) :
    (fs.superBlock.freeInodeCount.toInt = 0 ∧ fs.getInode = (-1, fs)) ∨
      ∃ n, (0 ≤ n ∧ n < 512) ∧ n ∉ usedInodes fs ∧ (∀ m, 0 ≤ m → m < n → m ∈ usedInodes fs) ∧
        fs.getInode = (n, fs.takeInode n) := by
  have hcard := hc.inodes
  have hle := Bitmap.card_marked_le fs.inodeMap MAX_INODE
  have hiff := findClear_eq_neg_one_iff fs.inodeMap MAX_INODE
  unfold usedInodes at hcard
  rcases findClear_spec fs.inodeMap MAX_INODE 0 le_rfl with ⟨he, -⟩ | ⟨⟨hl, hu⟩, hb, hall⟩
  · left
    have hfull := hiff.mp he
    exact ⟨by omega, by simp only [FileSystem.getInode, he, ↓reduceIte]⟩
  · right
    have hne : findClear fs.inodeMap MAX_INODE 0 ≠ -1 := by omega
    refine ⟨findClear fs.inodeMap MAX_INODE 0, ⟨hl, by simpa [MAX_INODE] using hu⟩, ?_, ?_, ?_⟩
    · intro hm
      simp [(Bitmap.mem_marked.mp hm).2] at hb
    · intro m h0 hm
      rw [usedInodes, Bitmap.mem_marked]
      exact ⟨⟨h0, by omega⟩, hall m h0 hm⟩
    · simp only [FileSystem.getInode, if_neg hne, FileSystem.takeInode]

theorem usedBlocks_takeBlock {b : ℤ} (hb : 0 ≤ b ∧ b < 4096) :
    usedBlocks (fs.takeBlock b) = insert b (usedBlocks fs) :=
  marked_setBit_one fs.blockMap MAX_BLOCK hb

theorem usedInodes_takeInode {n : ℤ} (hn : 0 ≤ n ∧ n < 512) :
    usedInodes (fs.takeInode n) = insert n (usedInodes fs) :=
  marked_setBit_one fs.inodeMap MAX_INODE hn

/-- With no block left by the counter, all are in use. -/
theorem Counted.mem_of_full (hc : Counted fs) (h0 : fs.superBlock.freeBlockCount.toInt = 0) {b : ℤ}
    (hb : 0 ≤ b ∧ b < 4096) : b ∈ usedBlocks fs := by
  by_contra hfree
  have hcard := hc.blocks
  have hle : (usedBlocks fs).card + 1 ≤ MAX_BLOCK := by
    calc (usedBlocks fs).card + 1 = (insert b (usedBlocks fs)).card :=
          (Finset.card_insert_of_notMem hfree).symm
      _ = (usedBlocks (fs.takeBlock b)).card := by rw [usedBlocks_takeBlock hb]
      _ ≤ MAX_BLOCK := Bitmap.card_marked_le _ _
  omega

theorem Counted.takeBlock (hc : Counted fs) {b : ℤ} (hb : 0 ≤ b ∧ b < 4096)
    (hfree : b ∉ usedBlocks fs) : Counted (fs.takeBlock b) := by
  have hr := hc.blocks_range
  have hsub := toInt_sub_one (a := fs.superBlock.freeBlockCount) (by omega) (by omega)
  constructor
  · have := hc.blocks
    rw [usedBlocks_takeBlock hb, Finset.card_insert_of_notMem hfree]
    change (fs.superBlock.freeBlockCount - 1).toInt + _ = _
    push_cast
    omega
  · exact hc.inodes

theorem Counted.takeInode (hc : Counted fs) {n : ℤ} (hn : 0 ≤ n ∧ n < 512)
    (hfree : n ∉ usedInodes fs) : Counted (fs.takeInode n) := by
  have hr := hc.inodes_range
  have hsub := toInt_sub_one (a := fs.superBlock.freeInodeCount) (by omega) (by omega)
  constructor
  · exact hc.blocks
  · have := hc.inodes
    rw [usedInodes_takeInode hn, Finset.card_insert_of_notMem hfree]
    change (fs.superBlock.freeInodeCount - 1).toInt + _ = _
    push_cast
    omega

/-- `fs'` is `fs` with the blocks `bs` given back. -/
structure Freed (fs : FileSystem) (bs : Finset ℤ) (fs' : FileSystem) : Prop where
  range : ∀ b ∈ bs, 0 ≤ b ∧ b < 4096
  used : usedBlocks fs' = usedBlocks fs \ bs
  rest : fs' = { fs with
    blockMap := fs'.blockMap
    superBlock := { fs.superBlock with freeBlockCount := fs'.superBlock.freeBlockCount } }
  counted : Counted fs → Counted fs'

theorem Freed.refl (fs : FileSystem) : Freed fs ∅ fs := ⟨by simp, by simp, rfl, id⟩

theorem Freed.trans {fs₁ fs₂ : FileSystem} {bs cs : Finset ℤ} (h : Freed fs bs fs₁)
    (h' : Freed fs₁ cs fs₂) : Freed fs (bs ∪ cs) fs₂ := by
  refine ⟨?_, ?_, ?_, fun hc => h'.counted (h.counted hc)⟩
  · intro b hb
    rcases Finset.mem_union.mp hb with hb | hb
    · exact h.range b hb
    · exact h'.range b hb
  · rw [h'.used, h.used, sdiff_sdiff_left]
    rfl
  · rw [h'.rest, h.rest]

theorem freeBlock_isSome (fs : FileSystem) {b : ℤ} (hb : 0 ≤ b ∧ b < 4096) : ∃ fs', fs.freeBlock b = some fs' := by
  have hr : ¬(b < 0 ∨ b ≥ MAX_BLOCK) := by simp only [MAX_BLOCK]; omega
  by_cases hg : getBit fs.blockMap b = 1
  · exact ⟨_, by rw [FileSystem.freeBlock, if_neg hr, if_pos hg]⟩
  · exact ⟨_, by rw [FileSystem.freeBlock, if_neg hr, if_neg hg]⟩

theorem getBit_eq_one_iff (array : Bitmap) (n : ℕ) {i : ℤ} (hi : 0 ≤ i ∧ i < n) :
    getBit array i = 1 ↔ i ∈ array.marked n := by
  rw [getBit_eq, Bitmap.mem_marked]
  by_cases hb : array.bit i = true
  · simp [hb, hi]
  · simp [hb]

theorem freeBlock_freed {b : ℤ} {fs' : FileSystem} (h : fs.freeBlock b = some fs') :
    Freed fs {b} fs' := by
  unfold FileSystem.freeBlock at h
  by_cases hr : b < 0 ∨ b ≥ MAX_BLOCK
  · simp [if_pos hr] at h
  have hb : 0 ≤ b ∧ b < MAX_BLOCK := by omega
  have hrange : ∀ c ∈ ({b} : Finset ℤ), 0 ≤ c ∧ c < 4096 := by
    intro c hc
    rw [Finset.mem_singleton] at hc
    simp only [MAX_BLOCK] at hb
    omega
  rw [if_neg hr] at h
  by_cases hg : getBit fs.blockMap b = 1
  · have hm := (getBit_eq_one_iff _ _ hb).mp hg
    rw [if_pos hg, Option.some_inj] at h
    subst h
    have hused : (setBit fs.blockMap b 0).marked MAX_BLOCK = (fs.blockMap.marked MAX_BLOCK).erase b :=
      marked_setBit_zero fs.blockMap MAX_BLOCK b
    refine ⟨hrange, ?_, rfl, fun hc => ⟨?_, hc.inodes⟩⟩
    · rw [Finset.sdiff_singleton_eq_erase]
      exact hused
    · have hr := hc.blocks_range
      have hadd := toInt_add_one (a := fs.superBlock.freeBlockCount) (by omega) (by omega)
      have hcard := Finset.card_erase_add_one hm
      have := hc.blocks
      simp only [usedBlocks] at this ⊢
      rw [hused]
      omega
  · have hm := mt (getBit_eq_one_iff _ _ hb).mpr hg
    rw [if_neg hg, Option.some_inj] at h
    subst h
    refine ⟨hrange, ?_, rfl, id⟩
    rw [Finset.sdiff_singleton_eq_erase]
    exact (Finset.erase_eq_of_notMem hm).symm

theorem usedInodes_freeInode (fs : FileSystem) {n : ℤ} (hn : 0 ≤ n ∧ n < 512) :
    usedInodes (fs.freeInode n) = (usedInodes fs).erase n := by
  have hiff := getBit_eq_one_iff fs.inodeMap MAX_INODE hn
  by_cases hg : getBit fs.inodeMap n = 1
  · rw [FileSystem.freeInode, if_pos hg]
    exact marked_setBit_zero fs.inodeMap MAX_INODE n
  · rw [FileSystem.freeInode, if_neg hg]
    exact (Finset.erase_eq_of_notMem (mt hiff.mpr hg)).symm

theorem freeInode_rest (fs : FileSystem) (n : ℤ) :
    fs.freeInode n = { fs with
      inodeMap := (fs.freeInode n).inodeMap
      superBlock := { fs.superBlock with
        freeInodeCount := (fs.freeInode n).superBlock.freeInodeCount } } := by
  unfold FileSystem.freeInode
  split <;> rfl

theorem Counted.freeInode (hc : Counted fs) {n : ℤ} (hn : 0 ≤ n ∧ n < 512) :
    Counted (fs.freeInode n) := by
  have hiff := getBit_eq_one_iff fs.inodeMap MAX_INODE hn
  have hused := usedInodes_freeInode fs hn
  by_cases hg : getBit fs.inodeMap n = 1
  · have hcard := Finset.card_erase_add_one (hiff.mp hg)
    have hr := hc.inodes_range
    have hadd := toInt_add_one (a := fs.superBlock.freeInodeCount) (by omega) (by omega)
    have := hc.inodes
    simp only [FileSystem.freeInode, if_pos hg] at hused ⊢
    refine ⟨hc.blocks, ?_⟩
    rw [hused]
    simp only [usedInodes] at this ⊢
    omega
  · rw [FileSystem.freeInode, if_neg hg]
    exact hc

end OperatingSystems.FS
