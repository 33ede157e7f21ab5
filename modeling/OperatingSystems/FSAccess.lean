import OperatingSystems.FSEnter

/-! The numbers by which the commands reach the inode table, an indirect map and the block map, and
when they are in range: `read_inode` is called before the number is looked at. -/
namespace OperatingSystems.FS

/-- A subscript of the inode table, a subscript of an indirect map, or the argument of
`free_block`. -/
inductive Access where
  | inode (inodeNum : ℤ)
  | indirect (i : ℕ)
  | free (blockNum : ℤ)
  deriving DecidableEq

/-- In range, if the inode table started at `lo`. -/
def Access.Within (lo : ℤ) : Access → Prop
  | .inode inodeNum => lo ≤ inodeNum ∧ inodeNum < MAX_INODE
  | .indirect i => i < 128
  | .free blockNum => 0 ≤ blockNum ∧ blockNum < MAX_BLOCK

def Access.InRange (a : Access) : Prop := a.Within 0

/-! ### The accesses of each command, in order -/

/-- A search, and what follows with the number found. -/
def searchThen (fs : FileSystem) (name : Name) (next : ℤ → List Access) : List Access :=
  (fs.searchCurDir name).elim [] next

/-- `read_inode`, and what follows with the inode read. -/
def readThen (env : Env) (fs : FileSystem) (inodeNum : ℤ) (next : Inode → List Access) :
    List Access :=
  .inode inodeNum :: (fs.readInode env inodeNum).elim [] next

def fileCatAccesses (env : Env) (name : Name) (fs : FileSystem) : List Access :=
  searchThen fs name fun inodeNum =>
  readThen env fs inodeNum fun inode =>
  if inodeNum < 0 ∨ inode.type = .directory then []
  else if inode.size.toInt > 7680 then (List.range (blocks inode - 15)).map .indirect
  else []

/-- The loops of `file_remove` over the blocks of a file. -/
def freeFileAccesses (env : Env) (inode : Inode) (fs : FileSystem) : List Access :=
  (List.range (min 15 (blocks inode))).map (fun i => .free (slot inode.directBlock i)) ++
  if inode.size.toInt > 7680 then
    ((List.range (blocks inode - 15)).flatMap fun i =>
      [.indirect i, .free (slot (fs.readIndirect env inode.indirectBlock) i)]) ++
      [.free inode.indirectBlock.toInt]
  else []

def fileRemoveAccesses (env : Env) (name : Name) (fs : FileSystem) : List Access :=
  searchThen fs name fun inodeNum =>
  readThen env fs inodeNum fun inode =>
  if inodeNum < 0 ∨ inode.type = .directory ∨ fs.curDir.numEntry = 0 then []
  else if inode.linkCount = 1 then freeFileAccesses env inode fs
  else [.inode inodeNum]

def hardLinkAccesses (env : Env) (src dest : Name) (fs : FileSystem) : List Access :=
  searchThen fs src fun srcInodeNum =>
  searchThen fs dest fun destInodeNum =>
  readThen env fs srcInodeNum fun srcInode =>
  readThen env fs destInodeNum fun _ =>
  if srcInodeNum < 0 ∨ destInodeNum ≥ 0 ∨ srcInode.type = .directory ∨ fs.curDir.Full ∨
      srcInode.blockCount.toInt > fs.superBlock.freeBlockCount.toInt ∨
      fs.superBlock.freeInodeCount.toInt < 1 then []
  else [.inode srcInodeNum]

/-- How many of `k` calls of `get_block` in a row find a block. -/
def blocksFound : ℕ → FileSystem → ℕ
  | 0, _ => 0
  | k+1, fs => if fs.getBlock.1 = -1 then 0 else blocksFound k fs.getBlock.2 + 1

/-- The block loops of `file_create` and `file_copy`, up to the first `get_block` that fails, and
`write_inode` if none does. Fifteen blocks go to the inode, the next one is the map, and each block
after these goes to the next slot of the map (which `file_copy` reads in the source's map, too). -/
def fillAccesses (size : ℤ) (inodeNum : ℤ) (fs : FileSystem) : List Access :=
  let blocks := (numBlock size).toNat + if size > 7680 then 1 else 0
  let found := blocksFound blocks fs
  (List.range (found - 16)).map .indirect ++ if found = blocks then [.inode inodeNum] else []

def fileCopyAccesses (env : Env) (src dest : Name) (fs : FileSystem) : List Access :=
  searchThen fs src fun srcInodeNum =>
  searchThen fs dest fun destInodeNum =>
  readThen env fs srcInodeNum fun srcInode =>
  let blocks := numBlock srcInode.size.toInt
  if srcInodeNum < 0 ∨ destInodeNum ≥ 0 ∨ fs.curDir.Full ∨
      fs.superBlock.freeInodeCount.toInt < 1 ∨
      (srcInode.size.toInt > 7680 ∧ blocks+1 > fs.superBlock.freeBlockCount.toInt) ∨
      blocks > fs.superBlock.freeBlockCount.toInt ∨ fs.getInode.1 < 0 then []
  else fillAccesses srcInode.size.toInt fs.getInode.1 fs.getInode.2

def fileCreateAccesses (name : Name) (size : Int32) (fs : FileSystem) : List Access :=
  if size.toInt ≤ 0 ∨ size.toInt > 73216 then []
  else
    searchThen fs name fun inodeNum =>
    let blocks := numBlock size.toInt
    if inodeNum ≥ 0 ∨ fs.curDir.Full ∨ fs.superBlock.freeInodeCount.toInt < 1 ∨
        (if size.toInt > 7680 then blocks+1 else blocks) > fs.superBlock.freeBlockCount.toInt ∨
        fs.getInode.1 < 0 then []
    else fillAccesses size.toInt fs.getInode.1 fs.getInode.2

def dirMakeAccesses (name : Name) (fs : FileSystem) : List Access :=
  searchThen fs name fun inodeNum =>
  let fs := fs.getBlock.2
  if inodeNum ≥ 0 ∨ fs.curDir.Full ∨ fs.superBlock.freeInodeCount.toInt < 1 ∨ fs.getInode.1 < 0
  then []
  else [.inode fs.getInode.1]

def dirRemoveAccesses (env : Env) (name : Name) (fs : FileSystem) : List Access :=
  searchThen fs name fun inodeNum =>
  readThen env fs inodeNum fun inode =>
  let dentry := dentryLayout.decode
    (fs.readDiskBlock (inode.directBlock 0).toInt (dentryLayout.encode env.dentry))
  if inodeNum < 0 ∨ inode.type ≠ .directory ∨ dot.bytes = name.bytes ∨
      dotDot.bytes = name.bytes ∨ dentry.numEntry.toInt > 2 then []
  else
    (List.range inode.blockCount.toInt.toNat).map (fun i => .free (slot inode.directBlock i)) ++
    if inode.size.toInt > 7680 then [.free inode.indirectBlock.toInt] else []

def dirChangeAccesses (env : Env) (name : Name) (fs : FileSystem) : List Access :=
  if name.bytes = dot.bytes then []
  else if name.bytes = dotDot.bytes then
    readThen env fs (fs.curDir.dentry 1).inode.toInt fun _ =>
    readThen env fs fs.curDirInode fun _ => []
  else
    searchThen fs name fun inodeNum =>
    readThen env fs inodeNum fun _ =>
    if inodeNum < 0 then [] else readThen env fs fs.curDirInode fun _ => []

def accesses (env : Env) (fs : FileSystem) : Command → List Access
  | .create name size => fileCreateAccesses name size fs
  | .cat name => fileCatAccesses env name fs
  | .rm name => fileRemoveAccesses env name fs
  | .mkdir name => dirMakeAccesses name fs
  | .rmdir name => dirRemoveAccesses env name fs
  | .cd name => dirChangeAccesses env name fs
  | .ln src dest => hardLinkAccesses env src dest fs
  | .cp src dest => fileCopyAccesses env src dest fs

/-- All accesses of the command are in range. -/
def Safe (fs : FileSystem) (i : Env × Command) : Prop := ∀ a ∈ accesses i.1 fs i.2, a.InRange

variable {S : Finset ℤ} {t : NameTree (List Byte) ℤ} {fs fs' : FileSystem} {env : Env}
  {name src dest : Name} {lo : ℤ} {n : ℤ} {r : Reply} {cmd : Command}

/-! ### One command -/

theorem forall_searchThen_iff {P : Access → Prop} {next : ℤ → List Access} :
    (∀ a ∈ searchThen fs name next, P a) ↔
      ∀ n, fs.searchCurDir name = some n → ∀ a ∈ next n, P a := by
  unfold searchThen
  cases hs : fs.searchCurDir name with
  | none => simp
  | some n => simp

theorem forall_readThen_iff {P : Access → Prop} {next : Inode → List Access} :
    (∀ a ∈ readThen env fs n next, P a) ↔ P (.inode n) ∧
      ∀ inode, fs.readInode env n = some inode → ∀ a ∈ next inode, P a := by
  unfold readThen
  cases hr : fs.readInode env n with
  | none => simp
  | some inode => simp

/-- The number that a search gives is a subscript of the table, if this starts at `lo`. -/
def LooksUp (lo : ℤ) (fs : FileSystem) (name : Name) : Prop :=
  ∀ n, fs.searchCurDir name = some n → lo ≤ n ∧ n < 512

/-- The inodes that a command reads are in the table, if this starts at `lo`. -/
def Reads (lo : ℤ) (fs : FileSystem) : Command → Prop
  | .cat name => LooksUp lo fs name
  | .rm name => LooksUp lo fs name
  | .rmdir name => LooksUp lo fs name
  | .cp src _ => LooksUp lo fs src
  | .ln src dest => LooksUp lo fs src ∧ LooksUp lo fs dest
  | .cd name => name ≠ dot → (name ≠ dotDot → LooksUp lo fs name) ∧
      ∀ n, Leads name fs n → (lo ≤ n ∧ n < 512) ∧ lo ≤ fs.curDirInode ∧ fs.curDirInode < 512
  | _ => True

/-- `dir_remove` has passed all its checks for inode `n`. -/
structure Removable (env : Env) (name : Name) (fs : FileSystem) (n : ℤ) : Prop where
  found : fs.searchCurDir name = some n ∧ 0 ≤ n
  type : (fs.inode n).type = .directory
  ne_dot : dot.bytes ≠ name.bytes
  ne_dotDot : dotDot.bytes ≠ name.bytes
  empty : (dentryLayout.decode (fs.readDiskBlock (ownBlock (fs.inode n))
    (dentryLayout.encode env.dentry))).numEntry.toInt ≤ 2

/-- The numbers that a command gives to `free_block` are blocks of the disk. -/
def Frees (env : Env) (fs : FileSystem) : Command → Prop
  | .rm name => ∀ n, fs.searchCurDir name = some n → 0 ≤ n → (fs.inode n).type = .file →
      fs.curDir.numEntry ≠ 0 → (fs.inode n).linkCount = 1 → ¬OutOfDisk (fs.inode n) fs
  | .rmdir name => ∀ n, Removable env name fs n →
      (∀ i < (fs.inode n).blockCount.toInt.toNat, 0 ≤ slot (fs.inode n).directBlock i ∧
        slot (fs.inode n).directBlock i < 4096) ∧
      ((fs.inode n).size.toInt > 7680 → 0 ≤ (fs.inode n).indirectBlock.toInt ∧
        (fs.inode n).indirectBlock.toInt < 4096)
  | _ => True

theorem freeFileAccesses_within {nd : Inode} (hsize : nd.size.toInt ≤ 73216)
    (hdisk : ¬OutOfDisk nd fs) : ∀ a ∈ freeFileAccesses env nd fs, a.Within lo := by
  -- The loops free what the inode lists, and subscripts stop where its blocks do.
  have hblocks : ∀ b ∈ blocksOf fs.disk nd, 0 ≤ b ∧ b < 4096 := by
    intro b hb
    by_contra hout
    exact hdisk ⟨b, hb, hout⟩
  have hle := blocks_le hsize
  intro a ha
  rcases List.mem_append.mp ha with ha | ha
  · obtain ⟨i, hi, rfl⟩ := List.mem_map.mp ha
    have hi := List.mem_range.mp hi
    have hslot : dataBlock fs.disk nd i = slot nd.directBlock i := if_pos (by omega)
    exact hslot ▸ hblocks _ (dataBlock_mem fs.disk (show i < blocks nd by omega))
  · obtain ⟨hbig, ha⟩ := List.mem_ite_nil_right.mp ha
    have hindirect := hblocks _ (indirectBlock_mem fs.disk hbig)
    rcases List.mem_append.mp ha with ha | ha
    · obtain ⟨i, hi, ha⟩ := List.mem_flatMap.mp ha
      have hi := List.mem_range.mp hi
      simp only [List.mem_cons, List.not_mem_nil, or_false] at ha
      rcases ha with rfl | rfl
      · exact (show i < 128 by omega)
      · have hmap : fs.readIndirect env nd.indirectBlock = indirectMap fs.disk nd := by
          rw [FileSystem.readIndirect, FileSystem.readDiskBlock_of_range _ hindirect, indirectMap]
        have hslot : dataBlock fs.disk nd (15+i) = slot (indirectMap fs.disk nd) i := by
          rw [dataBlock, if_neg (by omega), Nat.add_sub_cancel_left]
        rw [hmap, ← hslot]
        exact hblocks _ (dataBlock_mem fs.disk (by omega))
    · rw [List.mem_singleton.mp ha]
      exact hindirect

theorem blocksFound_le (k : ℕ) (fs : FileSystem) : blocksFound k fs ≤ k := by
  induction k generalizing fs with
  | zero => exact le_rfl
  | succ k ih =>
    rw [blocksFound]
    split_ifs
    · omega
    · exact Nat.succ_le_succ (ih _)

theorem fillAccesses_within {size : ℤ} (hsize : size ≤ 73216) (hlo : lo ≤ 0)
    (hn : 0 ≤ n ∧ n < 512) : ∀ a ∈ fillAccesses size n fs, a.Within lo := by
  have hnum := numBlock_spec size
  intro a ha
  rcases List.mem_append.mp ha with ha | ha
  · obtain ⟨i, hi, rfl⟩ := List.mem_map.mp ha
    have hi := List.mem_range.mp hi
    have hfound := blocksFound_le ((numBlock size).toNat + if size > 7680 then 1 else 0) fs
    have hle : (if size > 7680 then 1 else 0) ≤ 1 := by split_ifs <;> omega
    exact (show i < 128 by omega)
  · rw [List.mem_singleton.mp (List.mem_ite_nil_right.mp ha).2]
    exact ⟨by omega, hn.2⟩

theorem getInode_range (hc : Counted fs) (h : ¬fs.getInode.1 < 0) :
    0 ≤ fs.getInode.1 ∧ fs.getInode.1 < 512 := by
  rcases getInode_cases hc with ⟨-, hg⟩ | ⟨n, hn, -, -, hg⟩
  · rw [hg] at h
    exact absurd (by decide : (-1 : ℤ) < 0) h
  · rw [hg]
    exact hn

/-- A number in the table but for -1 is that of an inode whose content is known. -/
theorem readInode_eq {inode : Inode} (hn : lo ≤ n ∧ n < 512) (h0 : ¬n < 0)
    (h : fs.readInode env n = some inode) : inode = fs.inode n ∧ 0 ≤ n := by
  rw [readInode_of_range ⟨by omega, hn.2⟩, Option.some_inj] at h
  exact ⟨h.symm, by omega⟩

/-- What `search_cur_dir` and `read_inode` give each command to work on. -/
theorem forall_lookup_iff {next : ℤ → Inode → List Access} (hlook : LooksUp lo fs name) :
    (∀ a ∈ searchThen fs name fun n => readThen env fs n (next n), a.Within lo) ↔
      ∀ n, fs.searchCurDir name = some n → ∀ inode, fs.readInode env n = some inode →
        ∀ a ∈ next n inode, a.Within lo := by
  simp only [forall_searchThen_iff, forall_readThen_iff]
  constructor
  · intro h n hs inode hread
    exact (h n hs).2 inode hread
  · intro h n hs
    exact ⟨hlook n hs, h n hs⟩

namespace Sane

theorem fileCat_within (h : Sane fs) (hlook : LooksUp lo fs name) :
    ∀ a ∈ fileCatAccesses env name fs, a.Within lo := by
  rw [fileCatAccesses, forall_lookup_iff hlook]
  intro n hs inode hread a ha
  obtain ⟨hpass, ha⟩ := List.mem_ite_nil_left.mp ha
  rw [not_or] at hpass
  obtain ⟨rfl, -⟩ := readInode_eq (hlook n hs) hpass.1 hread
  obtain ⟨i, hi, rfl⟩ := List.mem_map.mp (List.mem_ite_nil_right.mp ha).2
  have hi := List.mem_range.mp hi
  have hle := blocks_le (h.size n).2
  exact (show i < 128 by omega)

theorem fileRemove_within (h : Sane fs) (hlook : LooksUp lo fs name)
    (hfrees : Frees env fs (.rm name)) : ∀ a ∈ fileRemoveAccesses env name fs, a.Within lo := by
  rw [fileRemoveAccesses, forall_lookup_iff hlook]
  intro n hs inode hread a ha
  obtain ⟨hpass, ha⟩ := List.mem_ite_nil_left.mp ha
  rw [not_or, not_or] at hpass
  obtain ⟨hneg, htype, hentries⟩ := hpass
  obtain ⟨rfl, h0⟩ := readInode_eq (hlook n hs) hneg hread
  split_ifs at ha with hlink
  · have hdisk := hfrees n hs h0 (TYPE.eq_file htype) hentries hlink
    exact freeFileAccesses_within (h.size n).2 hdisk a ha
  · rw [List.mem_singleton.mp ha]
    exact hlook n hs

theorem hardLink_within (hsrc : LooksUp lo fs src) (hdest : LooksUp lo fs dest) :
    ∀ a ∈ hardLinkAccesses env src dest fs, a.Within lo := by
  unfold hardLinkAccesses
  simp only [forall_searchThen_iff, forall_readThen_iff]
  intro s hs f hf
  refine ⟨hsrc s hs, fun _ _ => ⟨hdest f hf, fun _ _ a ha => ?_⟩⟩
  rw [List.mem_singleton.mp (List.mem_ite_nil_left.mp ha).2]
  exact hsrc s hs

theorem fileCopy_within (h : Sane fs) (hlo : lo ≤ 0) (hsrc : LooksUp lo fs src) :
    ∀ a ∈ fileCopyAccesses env src dest fs, a.Within lo := by
  unfold fileCopyAccesses
  simp only [forall_searchThen_iff, forall_readThen_iff]
  intro s hs f hf
  refine ⟨hsrc s hs, fun inode hread a ha => ?_⟩
  obtain ⟨hpass, ha⟩ := List.mem_ite_nil_left.mp ha
  simp only [not_or] at hpass
  obtain ⟨hneg, -, -, -, -, -, hinode⟩ := hpass
  obtain ⟨rfl, -⟩ := readInode_eq (hsrc s hs) hneg hread
  exact fillAccesses_within (h.size s).2 hlo (getInode_range h.counted hinode) a ha

theorem fileCreate_within (h : Sane fs) (hlo : lo ≤ 0) (size : Int32) :
    ∀ a ∈ fileCreateAccesses name size fs, a.Within lo := by
  by_cases hsize : size.toInt ≤ 0 ∨ size.toInt > 73216
  · rw [fileCreateAccesses, if_pos hsize]
    exact fun a ha => absurd ha List.not_mem_nil
  · rw [fileCreateAccesses, if_neg hsize, forall_searchThen_iff]
    intro n _ a ha
    obtain ⟨hpass, ha⟩ := List.mem_ite_nil_left.mp ha
    simp only [not_or] at hpass
    exact fillAccesses_within (by omega) hlo (getInode_range h.counted hpass.2.2.2.2) a ha

theorem dirMake_within (h : Sane fs) (hlo : lo ≤ 0) :
    ∀ a ∈ dirMakeAccesses name fs, a.Within lo := by
  rw [dirMakeAccesses, forall_searchThen_iff]
  intro n _ a ha
  obtain ⟨hpass, ha⟩ := List.mem_ite_nil_left.mp ha
  simp only [not_or] at hpass
  have hrange := getInode_range h.getBlock.counted hpass.2.2.2
  rw [List.mem_singleton.mp ha]
  exact ⟨by omega, hrange.2⟩

theorem dirRemove_within (hlook : LooksUp lo fs name) (hfrees : Frees env fs (.rmdir name)) :
    ∀ a ∈ dirRemoveAccesses env name fs, a.Within lo := by
  rw [dirRemoveAccesses, forall_lookup_iff hlook]
  intro n hs inode hread a ha
  obtain ⟨hpass, ha⟩ := List.mem_ite_nil_left.mp ha
  simp only [not_or] at hpass
  obtain ⟨hneg, htype, hdot, hdots, hempty⟩ := hpass
  obtain ⟨rfl, h0⟩ := readInode_eq (hlook n hs) hneg hread
  obtain ⟨hslots, hindirect⟩ :=
    hfrees n ⟨⟨hs, h0⟩, not_not.mp htype, hdot, hdots, not_lt.mp hempty⟩
  rcases List.mem_append.mp ha with ha | ha
  · obtain ⟨i, hi, rfl⟩ := List.mem_map.mp ha
    exact hslots i (List.mem_range.mp hi)
  · obtain ⟨hbig, ha⟩ := List.mem_ite_nil_right.mp ha
    rw [List.mem_singleton.mp ha]
    exact hindirect hbig

theorem dirChange_within (hreads : Reads lo fs (.cd name)) :
    ∀ a ∈ dirChangeAccesses env name fs, a.Within lo := by
  by_cases hdot : name.bytes = dot.bytes
  · rw [dirChangeAccesses, if_pos hdot]
    exact fun a ha => absurd ha List.not_mem_nil
  obtain ⟨hlook, hmove⟩ := hreads fun h => hdot (congrArg Name.bytes h)
  by_cases hdots : name.bytes = dotDot.bytes
  · obtain ⟨hup, hcur⟩ := hmove _ (Or.inl ⟨Name.ext_bytes hdots, rfl⟩)
    rw [dirChangeAccesses, if_neg hdot, if_pos hdots]
    simp only [forall_readThen_iff]
    exact ⟨hup, fun _ _ => ⟨hcur, fun _ _ a ha => absurd ha List.not_mem_nil⟩⟩
  · have hname : name ≠ dotDot := fun h => hdots (congrArg Name.bytes h)
    rw [dirChangeAccesses, if_neg hdot, if_neg hdots, forall_lookup_iff (hlook hname)]
    intro n hs _ _
    split_ifs with hneg
    · exact fun a ha => absurd ha List.not_mem_nil
    · obtain ⟨-, hcur⟩ := hmove n (Or.inr ⟨hname, hs, by omega⟩)
      rw [forall_readThen_iff]
      exact ⟨hcur, fun _ _ a ha => absurd ha List.not_mem_nil⟩

/-- Sizes are bounded and counters exact, so only what a command reads or frees can be out of
range. -/
theorem within (h : Sane fs) (hlo : lo ≤ 0) (hreads : Reads lo fs cmd) (hfrees : Frees env fs cmd) :
    ∀ a ∈ accesses env fs cmd, a.Within lo := by
  cases cmd with
  | create name size => exact h.fileCreate_within hlo size
  | cat name => exact h.fileCat_within hreads
  | rm name => exact h.fileRemove_within hreads hfrees
  | mkdir name => exact h.dirMake_within hlo
  | rmdir name => exact dirRemove_within hreads hfrees
  | cd name => exact dirChange_within hreads
  | ln src dest => exact hardLink_within hreads.1 hreads.2
  | cp src dest => exact h.fileCopy_within hlo hreads

end Sane

/-! ### The accesses and the model of the commands -/

theorem range_of_readInode {inode : Inode} (h : fs.readInode env n = some inode) :
    -1 ≤ n ∧ n < 512 := by
  unfold FileSystem.readInode at h
  split_ifs at h with hneg hrange
  · omega
  · exact ⟨by omega, hrange.2⟩

theorem LooksUp.of_eq (hs : fs.searchCurDir name = some n) (hn : lo ≤ n ∧ n < 512) :
    LooksUp lo fs name := by
  intro m hm
  rw [hs, Option.some_inj] at hm
  exact hm ▸ hn

/-- A command that looks up `name` and reads the inode found. -/
theorem looked_up {β : Type} {next : ℤ → Inode → Option β} {x : β}
    (h : ((fs.searchCurDir name).bind fun n => (fs.readInode env n).bind (next n)) = some x) :
    LooksUp (-1) fs name ∧ ∃ n inode, fs.searchCurDir name = some n ∧
      fs.readInode env n = some inode ∧ next n inode = some x := by
  obtain ⟨n, hs, h⟩ := Option.bind_eq_some_iff.mp h
  obtain ⟨inode, hread, h⟩ := Option.bind_eq_some_iff.mp h
  exact ⟨LooksUp.of_eq hs (range_of_readInode hread), n, inode, hs, hread, h⟩

theorem fileRemove_frees (hx : fileRemove env name fs = some (r, fs')) :
    LooksUp (-1) fs name ∧ Frees env fs (.rm name) := by
  obtain ⟨hlook, n, inode, hs, hread, h⟩ := looked_up hx
  refine ⟨hlook, ?_⟩
  intro m hm h0 htype hentries hlink hout
  cases hs.symm.trans hm
  obtain ⟨rfl, -⟩ := readInode_eq (hlook n hs) (by omega) hread
  have hdir : ¬(fs.inode n).type = .directory := by
    rw [htype]
    decide
  dsimp only at h
  rw [if_neg (by omega), if_neg hdir, if_neg hentries] at h
  obtain ⟨curDir, -, h⟩ := Option.bind_eq_some_iff.mp h
  rw [if_pos hlink] at h
  obtain ⟨fs₁, hfree, -⟩ := Option.map_eq_some_iff.mp h
  obtain ⟨b, hb, hr⟩ := hout
  exact hr (freeFileBlocks_range hfree hb)

theorem dirRemove_frees (hx : dirRemove env name fs = some (r, fs')) :
    LooksUp (-1) fs name ∧ Frees env fs (.rmdir name) := by
  obtain ⟨hlook, n, inode, hs, hread, h⟩ := looked_up hx
  refine ⟨hlook, ?_⟩
  intro m hm
  cases hs.symm.trans hm.found.1
  obtain ⟨rfl, -⟩ := readInode_eq (hlook n hs) (by have := hm.found.2; omega) hread
  have h0 := hm.found.2
  have hempty := not_lt.mpr hm.empty
  unfold ownBlock at hempty
  dsimp only at h
  rw [if_neg (by omega), if_neg (not_not.mpr hm.type), if_neg hm.ne_dot, if_neg hm.ne_dotDot,
    if_neg hempty] at h
  obtain ⟨curDir, -, h⟩ := Option.bind_eq_some_iff.mp h
  obtain ⟨fs₁, hfree, h⟩ := Option.bind_eq_some_iff.mp h
  have hfreed := freeBlocks_freed _ _ _ _ _ hfree
  constructor
  · intro i hi
    apply hfreed.range
    rw [List.mem_toFinset]
    exact List.mem_map.mpr ⟨i, List.mem_range.mpr hi, by rw [Nat.zero_add]⟩
  · intro hbig
    rw [if_pos hbig] at h
    obtain ⟨fs₂, hlast, -⟩ := Option.map_eq_some_iff.mp h
    exact (freeBlock_freed hlast).range _ (Finset.mem_singleton_self _)

theorem moveTo_range {target : Inode} (hx : moveTo env n target fs = some (r, fs')) :
    -1 ≤ fs.curDirInode ∧ fs.curDirInode < 512 := by
  obtain ⟨current, hread, -⟩ := Option.map_eq_some_iff.mp hx
  exact range_of_readInode hread

theorem dirChange_reads (hx : dirChange env name fs = some (r, fs')) :
    Reads (-1) fs (.cd name) := by
  intro hdot
  have hdot : ¬name.bytes = dot.bytes := fun he => hdot (Name.ext_bytes he)
  rw [dirChange, if_neg hdot] at hx
  by_cases hdots : name = dotDot
  · -- Up: the inode of the second entry slot.
    rw [if_pos (congrArg Name.bytes hdots)] at hx
    obtain ⟨parent, hread, hmove⟩ := Option.bind_eq_some_iff.mp hx
    refine ⟨fun hname => absurd hdots hname, ?_⟩
    intro m hm
    rcases hm with ⟨-, rfl⟩ | ⟨hname, -⟩
    · exact ⟨range_of_readInode hread, moveTo_range hmove⟩
    · exact absurd hdots hname
  · rw [if_neg fun he => hdots (Name.ext_bytes he)] at hx
    obtain ⟨hlook, n, inode, hs, -, h⟩ := looked_up hx
    refine ⟨fun _ => hlook, ?_⟩
    intro m hm
    obtain ⟨-, hsm, h0⟩ := hm.resolve_left fun hup => hdots hup.1
    cases hs.symm.trans hsm
    rw [if_neg (by omega)] at h
    exact ⟨hlook n hs, moveTo_range h⟩

theorem hardLink_reads (hx : hardLink env src dest fs = some (r, fs')) :
    Reads (-1) fs (.ln src dest) := by
  obtain ⟨s, hs, h⟩ := Option.bind_eq_some_iff.mp hx
  obtain ⟨f, hf, h⟩ := Option.bind_eq_some_iff.mp h
  obtain ⟨srcInode, hsrc, h⟩ := Option.bind_eq_some_iff.mp h
  obtain ⟨destInode, hdest, -⟩ := Option.bind_eq_some_iff.mp h
  exact ⟨LooksUp.of_eq hs (range_of_readInode hsrc), LooksUp.of_eq hf (range_of_readInode hdest)⟩

theorem fileCopy_reads (hx : fileCopy env src dest fs = some (r, fs')) :
    Reads (-1) fs (.cp src dest) := by
  obtain ⟨s, hs, h⟩ := Option.bind_eq_some_iff.mp hx
  obtain ⟨f, -, h⟩ := Option.bind_eq_some_iff.mp h
  obtain ⟨inode, hread, -⟩ := Option.bind_eq_some_iff.mp h
  exact LooksUp.of_eq hs (range_of_readInode hread)

/-- Where the model gives a command a meaning, the one number out of range is the -1 of a missing
name, as which an inode is read. -/
theorem Sane.within_of_execute (h : Sane fs) (hx : execute fs (env, cmd) = some (r, fs')) :
    ∀ a ∈ accesses env fs cmd, a.Within (-1) := by
  have hlo : (-1 : ℤ) ≤ 0 := by decide
  cases cmd with
  | create name size => exact h.within hlo trivial trivial
  | cat name => exact h.within hlo (looked_up hx).1 trivial
  | rm name =>
    obtain ⟨hlook, hfrees⟩ := fileRemove_frees hx
    exact h.within hlo hlook hfrees
  | mkdir name => exact h.within hlo trivial trivial
  | rmdir name =>
    obtain ⟨hlook, hfrees⟩ := dirRemove_frees hx
    exact h.within hlo hlook hfrees
  | cd name => exact h.within hlo (dirChange_reads hx) trivial
  | ln src dest => exact h.within hlo (hardLink_reads hx) trivial
  | cp src dest => exact h.within hlo (fileCopy_reads hx) trivial

/-! ### Runs -/

/-- The name is in the current directory. -/
def Found (fs : FileSystem) (name : Name) : Prop := ∃ n, fs.searchCurDir name = some n ∧ 0 ≤ n

/-- The names whose inodes a command reads exist, and `rmdir` frees no directory without a block. -/
def Finds (env : Env) (fs : FileSystem) : Command → Prop
  | .cat name => Found fs name
  | .rm name => Found fs name
  | .rmdir name => Found fs name ∧ ∀ n, Removable env name fs n → ownBlock (fs.inode n) ≠ -1
  | .cd name => name = dot ∨ name = dotDot ∨ Found fs name
  | .ln src dest => Found fs src ∧ Found fs dest
  | .cp src _ => Found fs src
  | _ => True

theorem slot_directBlock (nd : Inode) : slot nd.directBlock 0 = ownBlock nd := rfl

namespace Tree

theorem searched (h : Tree S t fs) (name : Name) : ∃ n, fs.searchCurDir name = some n :=
  ⟨_, h.curDir.search name⟩

/-- The number read first is in the table: the name was found. -/
theorem found_of_safe (h : Tree S t fs) {next : ℤ → Inode → List Access}
    (hsafe : ∀ a ∈ searchThen fs name fun n => readThen env fs n (next n), a.InRange) :
    Found fs name := by
  obtain ⟨n, hs⟩ := h.searched name
  have hread := (forall_readThen_iff.mp (forall_searchThen_iff.mp hsafe n hs)).1
  exact ⟨n, hs, hread.1⟩

theorem looksUp_of_found (h : Tree S t fs) (hf : Found fs name) : LooksUp 0 fs name := by
  obtain ⟨n, hs, h0⟩ := hf
  exact LooksUp.of_eq hs (mem_usedInodes_range (h.found_used hs h0))

theorem mem_of_block (h : Tree S t fs) (hn : n ∈ usedInodes fs)
    (hblock : (fs.inode n).type = .directory → ownBlock (fs.inode n) ≠ -1) : n ∈ S := by
  by_contra hS
  obtain ⟨hdir, -, -, hlack⟩ := h.blockless n hn hS
  exact hblock hdir hlack

theorem rm_frees (h : Tree S t fs) : Frees env fs (.rm name) := by
  intro n hs h0 htype _ _
  apply h.held.not_outOfDisk
  apply h.mem_of_block (h.found_used hs h0)
  intro hdir
  rw [htype] at hdir
  cases hdir

/-- A directory that holds its block has no other. -/
theorem rmdir_frees (h : Tree S t fs)
    (hblock : ∀ n, Removable env name fs n → ownBlock (fs.inode n) ≠ -1) :
    Frees env fs (.rmdir name) := by
  intro n hm
  have hS : n ∈ S := h.mem_of_block (h.found_used hm.found.1 hm.found.2) fun _ => hblock n hm
  obtain ⟨hsize, hcount⟩ := h.held.directory n hS hm.type
  have hown : ownBlock (fs.inode n) ∈ usedBlocks fs := by
    apply (h.held.data n hS _ _).2
    rw [blocksOf_of_size_one fs.disk hsize]
    exact List.mem_singleton_self _
  constructor
  · intro i hi
    have hone : (fs.inode n).blockCount.toInt.toNat = 1 := by
      rw [hcount]
      decide
    obtain rfl : i = 0 := by omega
    rw [slot_directBlock]
    exact mem_usedBlocks_range hown
  · intro hbig
    rw [hsize] at hbig
    exact absurd hbig (by decide)

/-- The one block of a directory without a block is -1. -/
theorem rmdir_unsafe (h : Tree S t fs) (hm : Removable env name fs n)
    (hlack : ownBlock (fs.inode n) = -1) : .free (-1) ∈ dirRemoveAccesses env name fs := by
  have hused := h.found_used hm.found.1 hm.found.2
  -- A directory that held its block would list one from 131 on.
  have hS : n ∉ S := by
    intro hS
    have hb := blocksOf_of_size_one fs.disk (h.held.directory n hS hm.type).1
    have hdata := (h.held.data n hS (ownBlock (fs.inode n)) (hb ▸ List.mem_singleton_self _)).1
    omega
  obtain ⟨-, -, hcount, -⟩ := h.blockless n hused hS
  have hpass : ¬(n < 0 ∨ (fs.inode n).type ≠ .directory ∨ dot.bytes = name.bytes ∨
      dotDot.bytes = name.bytes ∨ (dentryLayout.decode (fs.readDiskBlock
        (ownBlock (fs.inode n)) (dentryLayout.encode env.dentry))).numEntry.toInt > 2) := by
    rintro (hneg | htype | hdot | hdots | hfull)
    · exact absurd hm.found.2 (by omega)
    · exact htype hm.type
    · exact hm.ne_dot hdot
    · exact hm.ne_dotDot hdots
    · exact absurd hm.empty (by omega)
  unfold ownBlock at hpass
  rw [dirRemoveAccesses, searchThen, hm.found.1, Option.elim_some, readThen,
    readInode_of_range (mem_usedInodes_range hused), Option.elim_some]
  dsimp only
  rw [if_neg hpass, hcount]
  -- Behind the read of the inode, the loop over `blockCount` slots frees the first one.
  apply List.mem_cons_of_mem
  apply List.mem_append_left
  apply List.mem_map.mpr
  refine ⟨0, by decide, ?_⟩
  rw [slot_directBlock, hlack]

theorem reads_of_finds (h : Tree S t fs) (henters : Enters t.dirs fs cmd)
    (hfinds : Finds env fs cmd) : Reads 0 fs cmd := by
  cases cmd with
  | cat name => exact h.looksUp_of_found hfinds
  | rm name => exact h.looksUp_of_found hfinds
  | rmdir name => exact h.looksUp_of_found hfinds.1
  | cp src dest => exact h.looksUp_of_found hfinds
  | ln src dest => exact ⟨h.looksUp_of_found hfinds.1, h.looksUp_of_found hfinds.2⟩
  | cd name =>
    intro hdot
    constructor
    · intro hdots
      exact h.looksUp_of_found ((hfinds.resolve_left hdot).resolve_left hdots)
    · intro n hleads
      have hn := henters.resolve_left hdot n hleads
      exact ⟨mem_usedInodes_range (h.used hn), h.curDirInode_range⟩
  | _ => trivial

theorem frees_of_finds (h : Tree S t fs) (hfinds : Finds env fs cmd) : Frees env fs cmd := by
  cases cmd with
  | rm name => exact h.rm_frees
  | rmdir name => exact h.rmdir_frees hfinds.2
  | _ => trivial

theorem finds_of_safe (h : Tree S t fs) (hsafe : Safe fs (env, cmd)) : Finds env fs cmd := by
  cases cmd with
  | cat name => exact h.found_of_safe hsafe
  | rm name => exact h.found_of_safe hsafe
  | rmdir name =>
    refine ⟨h.found_of_safe hsafe, ?_⟩
    intro n hm hlack
    have hfree : 0 ≤ (-1 : ℤ) := (hsafe _ (h.rmdir_unsafe hm hlack)).1
    exact absurd hfree (by decide)
  | cd name =>
    by_cases hdot : name = dot
    · exact Or.inl hdot
    by_cases hdots : name = dotDot
    · exact Or.inr (Or.inl hdots)
    have hread : ∀ a ∈ dirChangeAccesses env name fs, a.InRange := hsafe
    rw [dirChangeAccesses, if_neg fun he => hdot (Name.ext_bytes he),
      if_neg fun he => hdots (Name.ext_bytes he)] at hread
    exact Or.inr (Or.inr (h.found_of_safe hread))
  | ln src dest =>
    obtain ⟨s, hs⟩ := h.searched src
    obtain ⟨f, hf⟩ := h.searched dest
    have hread := forall_searchThen_iff.mp (forall_searchThen_iff.mp hsafe s hs) f hf
    obtain ⟨hsrc, hrest⟩ := forall_readThen_iff.mp hread
    obtain ⟨hdest, -⟩ := forall_readThen_iff.mp (hrest _ (readInode_of_range hsrc))
    exact ⟨⟨s, hs, hsrc.1⟩, ⟨f, hf, hdest.1⟩⟩
  | cp src dest =>
    obtain ⟨s, hs⟩ := h.searched src
    obtain ⟨f, hf⟩ := h.searched dest
    have hread := forall_searchThen_iff.mp (forall_searchThen_iff.mp hsafe s hs) f hf
    exact ⟨s, hs, (forall_readThen_iff.mp hread).1.1⟩
  | _ => trivial

theorem safe_iff (h : Tree S t fs) (henters : Enters t.dirs fs cmd) :
    Safe fs (env, cmd) ↔ Finds env fs cmd := by
  constructor
  · exact h.finds_of_safe
  · intro hfinds
    exact h.held.sane.within le_rfl (h.reads_of_finds henters hfinds) (h.frees_of_finds hfinds)

end Tree

/-- In a run that enters real directories only and keeps the current one when it moves, all accesses
are in range exactly if no command reads the inode of a missing name and `rmdir` frees no directory
without a block: sizes are bounded and no block is out of the disk throughout. -/
theorem accesses_in_range_iff {inputs : List (Env × Command)}
    (hok : Mealy.Meets track (fun s i => Enters s.2 s.1 i.2 ∧ Keeps s.1 i.2) start inputs) :
    Mealy.Meets execute Safe format inputs ↔
      Mealy.Meets execute (fun fs i => Finds i.1 fs i.2) format inputs := by
  obtain ⟨S₀, t₀, hstart, hdirs, -⟩ := tree_start
  -- Both conditions are on the file system alone; the run that notes directories carries the tree.
  rw [← Mealy.meets_noted_iff (fun D fs i r fs' => realDirs D fs fs' r i.2) {0},
    ← Mealy.meets_noted_iff (fun D fs i r fs' => realDirs D fs fs' r i.2) {0}]
  apply Mealy.meets_iff_of_invariant (fun s i => Enters s.2 s.1 i.2 ∧ Keeps s.1 i.2)
    (fun s => ∃ S t, Tree S t s.1 ∧ t.dirs = s.2) _ _ ⟨S₀, t₀, hstart, hdirs⟩ hok
  · rintro ⟨fs, D⟩ ⟨env, cmd⟩ r ⟨fs', D'⟩ ⟨S, t, h, rfl⟩ ⟨henters, hkeeps⟩ hx
    obtain ⟨hexec, rfl⟩ := (Mealy.noted_eq_some_iff execute _ _ _ _ _ _ _).mp hx
    obtain ⟨S', t', h', hd, -⟩ := h.of_step henters hkeeps hexec
    exact ⟨S', t', h', hd⟩
  · rintro ⟨fs, D⟩ ⟨env, cmd⟩ ⟨S, t, h, rfl⟩ ⟨henters, -⟩
    exact h.safe_iff henters

def createCat : List (Env × Command) := createOne ++ [(Env.zeroed, .cat nameA)]

theorem finds_createCat :
    Mealy.Meets execute (fun fs i => Finds i.1 fs i.2) format createCat := by
  rw [createCat, Mealy.meets_append_iff]
  constructor
  · exact ⟨trivial, fun _ _ _ => trivial⟩
  · intro replies fs hrun
    refine ⟨?_, fun _ _ _ => trivial⟩
    obtain ⟨D, htrack⟩ := (Mealy.run_noted_iff execute
      (fun D fs i r fs' => realDirs D fs fs' r i.2) _ _ {0} _ _).mp hrun
    have hfacts := run_createOne
    rw [start, show Mealy.run track (format, {0}) createOne = some (replies, fs, D) from htrack,
      Option.map_some, Option.some_inj] at hfacts
    exact ⟨1, (of_decide_eq_true hfacts).1, by decide⟩

theorem accesses_in_range_iff_createCat : Mealy.Meets execute Safe format createCat := by
  obtain ⟨S, t, hstart, hdirs, hm⟩ := tree_start
  apply (accesses_in_range_iff (hstart.meets_of_stay hdirs hm _)).mpr finds_createCat
  simp [createCat, createOne]

/-- `cat` reads the inode of a missing name, as inode -1. -/
theorem cat_reads_missing : ¬∀ inputs : List (Env × Command),
    Mealy.Meets track (fun s i => Enters s.2 s.1 i.2) start inputs →
      Mealy.Meets execute Safe format inputs := by
  intro hall
  have henters : Mealy.Meets track (fun s i => Enters s.2 s.1 i.2) start
      [(Env.zeroed, .cat nameA)] := by
    apply Mealy.meets_of_forall
    intro s i hi
    rw [List.mem_singleton.mp hi]
    trivial
  obtain ⟨n, hs, h0⟩ : Found format nameA := tree_format.finds_of_safe (hall _ henters).1
  have hmissing : format.searchCurDir nameA = some (-1) := by
    rw [tree_format.curDir.search, Finset.mem_singleton.mp tree_format.here]
    decide
  rw [hmissing, Option.some_inj] at hs
  exact absurd h0 (by omega)

end OperatingSystems.FS
