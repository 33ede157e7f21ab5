import OperatingSystems.FSBlocks

/-! The freshly formatted disk. -/
namespace OperatingSystems.FS

theorem bit_setBits (value : ℕ → Bool) (n : ℕ) (array : Bitmap) (j : ℤ) :
    (setBits (fun i => if value i then 1 else 0) n array).bit j =
      if 0 ≤ j ∧ j < n then value j.toNat else array.bit j := by
  induction n with
  | zero =>
    rw [if_neg (by omega)]
    rfl
  | succ n ih =>
    have hstep : setBits (fun i => if value i then 1 else 0) (n+1) array =
        setBit (setBits (fun i => if value i then 1 else 0) n array) n
          (if value n then 1 else 0) := by
      simp only [setBits, List.range_succ, List.foldl_append, List.foldl_cons, List.foldl_nil]
    rw [hstep, bit_setBit, ih]
    by_cases hj : j = n
    · subst hj
      rw [if_pos rfl, if_pos (by omega), Int.toNat_natCast]
    · rw [if_neg hj]
      by_cases hr : 0 ≤ j ∧ j < n
      · rw [if_pos hr, if_pos (by omega)]
      · rw [if_neg hr, if_neg (by omega)]

/-- The inode map before the root takes its inode: all clear. -/
def emptyInodeMap : Bitmap := setBits (fun _ => 0) (MAX_INODE/8) zeroed.inodeMap

/-- The block map before the root takes its block: the metadata blocks are marked. -/
def metadataMap : Bitmap :=
  setBits (fun i => if i < 1+1+1+numInodeBlock then 1 else 0) (MAX_BLOCK/8) zeroed.blockMap

theorem zeroed_bit (j : ℤ) : (⟨fun _ => 0⟩ : Bitmap).bit j = false := by simp [Bitmap.bit]

theorem bit_emptyInodeMap (j : ℤ) : emptyInodeMap.bit j = false := by
  have h := bit_setBits (fun _ => false) (MAX_INODE/8) zeroed.inodeMap j
  simp only [Bool.false_eq_true, ↓reduceIte] at h
  rw [emptyInodeMap, h]
  split
  · rfl
  · exact zeroed_bit j

theorem bit_metadataMap (j : ℤ) : metadataMap.bit j = decide (0 ≤ j ∧ j < 131) := by
  have h := bit_setBits (fun i => decide (i < 131)) (MAX_BLOCK/8) zeroed.blockMap j
  have hz : zeroed.blockMap.bit j = false := zeroed_bit j
  have hn : ((MAX_BLOCK/8 : ℕ) : ℤ) = 512 := rfl
  simp only [decide_eq_true_eq] at h
  rw [metadataMap]
  change (setBits (fun i => if i < 131 then 1 else 0) (MAX_BLOCK/8) zeroed.blockMap).bit j = _
  rw [h, hz, hn]
  by_cases hj : 0 ≤ j ∧ j < 131
  · rw [if_pos (by omega), decide_eq_true hj]
    exact decide_eq_true (by omega)
  · rw [decide_eq_false hj]
    split
    · exact decide_eq_false (by omega)
    · rfl

def rootInode : Inode :=
  ⟨.directory, 1, 1, Function.update (fun _ => 0) 0 131, 0, 0, fun _ => 0⟩

def rootDir : Dentry :=
  ⟨1, Function.update (fun _ => ⟨fun _ => 0, 0⟩) 0 ⟨dot.store fun _ => 0, 0⟩, fun _ => 0⟩

/-- The fresh disk field by field: the root has inode 0 and block 131. -/
theorem format_eq : format =
    { superBlock := ⟨MAGIC_NUMBER, 3964, 511, 0, fun _ => 0⟩
      inodeMap := setBit emptyInodeMap 0 1
      blockMap := setBit metadataMap 131 1
      inode := Function.update zeroed.inode 0 rootInode
      curDir := rootDir
      curDirInode := 131
      disk := Function.update zeroed.disk 131 (dentryLayout.encode rootDir) } := by
  -- `get_inode` and `get_block` find the first bits that `fs_mount` has left clear.
  have hinode : findClear emptyInodeMap MAX_INODE 0 = 0 :=
    findClear_first _ _ _ _ le_rfl (by decide) (by omega) (bit_emptyInodeMap 0)
  have hblock : findClear metadataMap MAX_BLOCK 0 = 131 := by
    apply findClear_first _ _ _ _ (by decide) (by decide)
    · intro j h0 hj
      rw [bit_metadataMap]
      exact decide_eq_true ⟨h0, hj⟩
    · rw [bit_metadataMap]
      exact decide_eq_false (by decide)
  rw [emptyInodeMap] at hinode
  rw [metadataMap] at hblock
  simp only [format, FileSystem.getInode, FileSystem.getBlock, hinode, hblock,
    show (0 : ℤ) ≠ -1 by decide, show (131 : ℤ) ≠ -1 by decide, ↓reduceIte]
  have hfree : Int32.ofNat (MAX_BLOCK - (1+1+1+numInodeBlock)) - 1 = 3964 := by decide
  have hfree' : Int32.ofNat MAX_INODE - 1 = 511 := by decide
  have h131 : Int32.ofInt 131 = 131 := by decide
  have h0 : Int32.ofInt 0 = 0 := by decide
  rw [FileSystem.writeDiskBlock_of_range _ (show (0:ℤ) ≤ 131 ∧ (131:ℤ) < 4096 by decide)]
  simp only [FileSystem.writeInode, hfree, hfree', h131, h0, zeroed]
  rfl

/-- The bitmaps of the fresh disk byte by byte. -/
theorem bitmaps_format : setBit emptyInodeMap 0 1 = ⟨fun i => if i = 0 then 1 else 0⟩ ∧
    setBit metadataMap 131 1 = ⟨fun i => if 0 ≤ i ∧ i < 16 then 255 else if i = 16 then 15 else 0⟩ := by
  have hbyte (b : Byte) (m : ℕ) (hb : ∀ r < 8, b.getLsbD r = decide (r < m)) (j : ℤ) :
      b.getLsbD (j%8).toNat = decide ((j%8).toNat < m) := hb _ (by omega)
  constructor
  · apply Bitmap.ext_bit
    intro j
    rw [bit_setBit_one, bit_emptyInodeMap, Bool.or_false, Bitmap.bit]
    simp only
    by_cases hj : j/8 = 0
    · rw [if_pos hj, hbyte 1 1 (by decide)]
      exact decide_eq_decide.mpr (by omega)
    · rw [if_neg hj, hbyte 0 0 (by decide)]
      exact decide_eq_decide.mpr (by omega)
  · apply Bitmap.ext_bit
    intro j
    rw [bit_setBit_one, bit_metadataMap, ← Bool.decide_or, Bitmap.bit]
    simp only
    by_cases hj : 0 ≤ j/8 ∧ j/8 < 16
    · rw [if_pos hj, hbyte 255 8 (by decide)]
      exact decide_eq_decide.mpr (by omega)
    · rw [if_neg hj]
      by_cases hj' : j/8 = 16
      · rw [if_pos hj', hbyte 15 4 (by decide)]
        exact decide_eq_decide.mpr (by omega)
      · rw [if_neg hj', hbyte 0 0 (by decide)]
        exact decide_eq_decide.mpr (by omega)

@[simp] theorem inode_format : format.inode = Function.update zeroed.inode 0 rootInode := by
  rw [format_eq]

@[simp] theorem curDir_format : format.curDir = rootDir := by rw [format_eq]

@[simp] theorem curDirInode_format : format.curDirInode = 131 := by rw [format_eq]

@[simp] theorem disk_format :
    format.disk = Function.update zeroed.disk 131 (dentryLayout.encode rootDir) := by
  rw [format_eq]

theorem usedInodes_format : usedInodes format = {0} := by
  ext n
  simp only [usedInodes, format_eq, Bitmap.mem_marked, bit_setBit_one, bit_emptyInodeMap,
    Bool.or_false, decide_eq_true_eq, Finset.mem_singleton, MAX_INODE]
  omega

theorem mem_usedBlocks_format {b : ℤ} : b ∈ usedBlocks format ↔ 0 ≤ b ∧ b < 132 := by
  simp only [usedBlocks, format_eq, Bitmap.mem_marked, bit_setBit_one, bit_metadataMap,
    Bool.or_eq_true, decide_eq_true_eq, MAX_BLOCK]
  omega

theorem counted_format : Counted format := by
  constructor
  · have hused : usedBlocks format = Finset.Ico 0 132 := by
      ext b
      rw [mem_usedBlocks_format, Finset.mem_Ico]
    rw [hused, Int.card_Ico, format_eq]
    decide
  · rw [usedInodes_format, Finset.card_singleton, format_eq]
    decide

end OperatingSystems.FS
