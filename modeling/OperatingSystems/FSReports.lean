import OperatingSystems.FSFsck
import Mathlib.Algebra.Order.BigOperators.Group.Finset

/-! The commands that only print: `ls`, `file_stat` and `fs_stat`. -/
namespace OperatingSystems.FS

/-- The loop of `ls` over `k` entries from `i`. -/
def lsEntries (env : Env) (fs : FileSystem) : ℕ → ℕ → Option (List (String × List Arg))
  | 0, _ => some []
  | k+1, i => (fs.curDir.entry? i).bind fun entry =>
    (fs.readInode env entry.inode.toInt).bind fun targetInode =>
    (lsEntries env fs k (i+1)).map fun printed =>
    (if targetInode.type = .file then "type: file, " else "type: dir, ", []) ::
      ("name \"%s\", inode %d, size %d byte\n",
        [.s (cString entry.name), .d entry.inode.toInt, .d targetInode.size.toInt]) :: printed

def ls (env : Env) (fs : FileSystem) : Option (Reply × FileSystem) :=
  (lsEntries env fs fs.curDir.count 0).map fun printed => (⟨0, printed⟩, fs)

/-- Past the search the function ends without `return`: `left` is what its caller finds. -/
def fileStat (env : Env) (left : ℤ) (name : Name) (fs : FileSystem) :
    Option (Reply × FileSystem) :=
  (fs.searchCurDir name).bind fun inodeNum =>
  if inodeNum < 0 then some (.error "file cat error: file is not exist.\n" [], fs)
  else
    (fs.readInode env inodeNum).map fun targetInode =>
    (⟨left, [("Inode = %d\n", [.d inodeNum]),
      (if targetInode.type = .file then "type = file\n" else "type = directory\n", []),
      ("size = %d\n", [.d targetInode.size.toInt]),
      ("linkCount = %d\n", [.d targetInode.linkCount.toInt]),
      ("num of block = %d\n", [.d targetInode.blockCount.toInt])]⟩, fs)

/-- It has no `return` either. -/
def fsStat (left : ℤ) (fs : FileSystem) : Option (Reply × FileSystem) :=
  some (⟨left, [("File System Status: \n", []),
    ("# of free blocks: %d (%d bytes), # of free inodes: %d\n",
      [.d fs.superBlock.freeBlockCount.toInt, .d (fs.superBlock.freeBlockCount * 512).toInt,
        .d fs.superBlock.freeInodeCount.toInt])]⟩, fs)

variable {fs : FileSystem} {env : Env}

/-! ### What the directory holds -/

/-- The two lines for an entry. -/
def lsLine (fs : FileSystem) (e : List Byte × ℤ) : List (String × List Arg) :=
  [(if (fs.inode e.2).type = .file then "type: file, " else "type: dir, ", []),
    ("name \"%s\", inode %d, size %d byte\n",
      [.s e.1, .d e.2, .d (fs.inode e.2).size.toInt])]

theorem lsEntries_segment (k i : ℕ) (hik : i + k ≤ 21)
    (hrange : ∀ e ∈ fs.curDir.segment i k, 0 ≤ e.2 ∧ e.2 < 512) :
    lsEntries env fs k i = some ((fs.curDir.segment i k).flatMap (lsLine fs)) := by
  induction k generalizing i with
  | zero => rfl
  | succ k ih =>
    have hi : i < 21 := by omega
    rw [Dentry.segment_succ] at hrange ⊢
    have htail := ih (i+1) (by omega) fun e he => hrange e (List.mem_cons_of_mem _ he)
    have hentry := hrange _ List.mem_cons_self
    rw [Dentry.entryAt_of_lt hi] at hentry ⊢
    rw [lsEntries, Dentry.entry?_of_lt hi, Option.bind_some, readInode_of_range hentry,
      Option.bind_some, htail]
    rfl

/-- Every entry has its line, in order. -/
theorem ls_listing (hfits : fs.curDir.Fits)
    (hrange : ∀ e ∈ fs.curDir.listing, 0 ≤ e.2 ∧ e.2 < 512) (env : Env) :
    ls env fs = some (⟨0, fs.curDir.listing.flatMap (lsLine fs)⟩, fs) := by
  have hle := hfits.count_le
  rw [ls, lsEntries_segment _ 0 (by omega) hrange]
  rfl

namespace Clean

theorem ls_listing (h : Clean fs) (env : Env) :
    ls env fs = some (⟨0, fs.curDir.listing.flatMap (lsLine fs)⟩, fs) :=
  FS.ls_listing h.fits
    (fun e he => mem_usedInodes_range ((h.allocated e.2).mpr (mem_named he))) env

/-- The blocks in use from 131 on are those of the inodes. -/
theorem dataBlocks_eq (h : Clean fs) : (usedBlocks fs).filter (¬· < 131) =
    (usedInodes fs).biUnion fun n => (blocksOf fs.disk (fs.inode n)).toFinset := by
  ext b
  rw [Finset.mem_filter, Finset.mem_biUnion]
  constructor
  · rintro ⟨hb, h131⟩
    obtain ⟨n, hn, hbn⟩ := h.noLeak b hb (not_lt.mp h131)
    exact ⟨n, hn, List.mem_toFinset.mpr hbn⟩
  · rintro ⟨n, hn, hb⟩
    have hdata := h.data n hn b (List.mem_toFinset.mp hb)
    exact ⟨hdata.2, not_lt.mpr hdata.1⟩

theorem card_metadata (h : Clean fs) : ((usedBlocks fs).filter (· < 131)).card = 131 := by
  have hall : (usedBlocks fs).filter (· < 131) = Finset.Ico 0 131 := by
    ext b
    rw [Finset.mem_filter, Finset.mem_Ico]
    constructor
    · rintro ⟨hb, h131⟩
      exact ⟨(mem_usedBlocks_range hb).1, h131⟩
    · rintro ⟨h0, h131⟩
      exact ⟨h.metadata b h0 h131, h131⟩
  rw [hall, Int.card_Ico]
  rfl

/-- The free blocks are the data blocks less what the inodes need. -/
theorem free_blocks (h : Clean fs) : fs.superBlock.freeBlockCount.toInt =
    3965 - ((∑ n ∈ usedInodes fs, need (fs.inode n) : ℕ) : ℤ) := by
  have hone (n : ℤ) (hn : n ∈ usedInodes fs) :
      ((blocksOf fs.disk (fs.inode n)).toFinset).card = need (fs.inode n) := by
    rw [List.toFinset_card_of_nodup (h.nodup n hn), length_blocksOf, need]
  have hdata : ((usedBlocks fs).filter (¬· < 131)).card =
      ∑ n ∈ usedInodes fs, need (fs.inode n) := by
    rw [h.dataBlocks_eq, Finset.card_biUnion]
    · exact Finset.sum_congr rfl hone
    · intro n hn m hm hne
      apply Finset.disjoint_left.mpr
      intro b hb hb'
      exact h.disjoint n hn m hm hne b (List.mem_toFinset.mp hb) (List.mem_toFinset.mp hb')
  have hmeta := h.card_metadata
  have hcard := (usedBlocks fs).card_filter_add_card_filter_not (· < 131)
  have hcounted := h.sane.counted.blocks
  simp only [MAX_BLOCK] at hcounted
  omega

theorem free_inodes (h : Clean fs) :
    fs.superBlock.freeInodeCount.toInt = 512 - ((usedInodes fs).card : ℤ) := by
  have hcounted := h.sane.counted.inodes
  simp only [MAX_INODE] at hcounted
  omega

end Clean

end OperatingSystems.FS
