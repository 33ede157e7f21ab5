import OperatingSystems.FSReturn

/-! Unmounting and mounting: what the disk file holds, and what a new process reads from it. -/
namespace OperatingSystems.FS

/-- The disk before the current directory is written: the metadata in blocks 0 to 130. -/
def image (behind : Block) (fs : FileSystem) : ℤ → Block := fun b =>
  if b = 0 then superBlockLayout.encode fs.superBlock
  else if b = 1 then blockOf fs.inodeMap (MAX_INODE/8) behind
  else if b = 2 then blockOf fs.blockMap (MAX_BLOCK/8) behind
  else if 3 ≤ b ∧ b < 131 then inodeBlockLayout.encode (inodesAt fs.inode (4*(b-3)))
  else fs.disk b

/-- What a new process has read after the bitmaps and the inode table. -/
def loaded (disk : ℤ → Block) : FileSystem :=
  { zeroed with
    disk := disk
    superBlock := superBlockLayout.decode (disk 0)
    inodeMap := arrayOf (disk 1) (MAX_INODE/8) zeroed.inodeMap
    blockMap := arrayOf (disk 2) (MAX_BLOCK/8) zeroed.blockMap
    inode := fun n => if 0 ≤ n ∧ n < 512 then
      inodeBlockLayout.decode (disk (n/4+3)) ⟨(n%4).toNat, by omega⟩ else zeroed.inode n }

variable {fs fs' : FileSystem} {behind : Block}

/-- The loop over the inode blocks writes four inodes at a time. -/
theorem foldl_writeInodes (fs : FileSystem) (k : ℕ) (hk : k ≤ 128) :
    (List.range k).foldl (fun fs (i : ℕ) =>
      fs.writeDiskBlock (i+3) (inodeBlockLayout.encode (inodesAt fs.inode (4*i)))) fs =
    { fs with disk := fun b => if 3 ≤ b ∧ b < k+3 then
        inodeBlockLayout.encode (inodesAt fs.inode (4*(b-3))) else fs.disk b } := by
  induction k with
  | zero =>
    rw [List.range_zero, List.foldl_nil]
    ext1 <;> try rfl
    funext b
    exact (if_neg (by omega)).symm
  | succ k ih =>
    rw [List.range_succ, List.foldl_append, ih (by omega), List.foldl_cons, List.foldl_nil,
      FileSystem.writeDiskBlock_of_range _ (by omega)]
    ext1 <;> try rfl
    funext b
    simp only
    by_cases hb : b = (k : ℤ)+3
    · subst hb
      rw [Function.update_self, if_pos (by omega), show (k : ℤ)+3-3 = k by omega]
    · rw [Function.update_of_ne hb]
      by_cases hr : 3 ≤ b ∧ b < (k : ℤ)+3
      · rw [if_pos hr, if_pos (by omega)]
      · rw [if_neg hr, if_neg (by omega)]

/-- The current directory goes over the image, to the block that `curDirInode` names. -/
theorem fsUmount_disk (behind : Block) (fs : FileSystem) : (fsUmount behind fs).disk =
    ({ fs with disk := image behind fs }.writeDiskBlock fs.curDirInode
      (dentryLayout.encode fs.curDir)).disk := by
  unfold fsUmount
  simp only
  rw [FileSystem.writeDiskBlock_of_range fs (show (0:ℤ) ≤ 0 ∧ (0:ℤ) < 4096 by decide),
    FileSystem.writeDiskBlock_of_range _ (show (0:ℤ) ≤ 1 ∧ (1:ℤ) < 4096 by decide),
    FileSystem.writeDiskBlock_of_range _ (show (0:ℤ) ≤ 2 ∧ (2:ℤ) < 4096 by decide),
    foldl_writeInodes _ numInodeBlock (by decide)]
  congr 2
  ext1 <;> try rfl
  funext b
  have hlast : ((numInodeBlock : ℕ) : ℤ)+3 = 131 := rfl
  -- Block by block, the last write to each counts.
  simp only [image]
  by_cases hr : 3 ≤ b ∧ b < (numInodeBlock : ℤ)+3
  · have h0 : b ≠ 0 := by omega
    have h1 : b ≠ 1 := by omega
    have h2 : b ≠ 2 := by omega
    rw [if_pos hr, if_neg h0, if_neg h1, if_neg h2]
    exact (if_pos (by omega)).symm
  · rw [if_neg hr]
    by_cases h2 : b = 2
    · subst h2
      exact Function.update_self ..
    · rw [Function.update_of_ne h2]
      by_cases h1 : b = 1
      · subst h1
        exact Function.update_self ..
      · rw [Function.update_of_ne h1]
        by_cases h0 : b = 0
        · subst h0
          exact Function.update_self ..
        · rw [Function.update_of_ne h0, if_neg h0, if_neg h1, if_neg h2]
          exact (if_neg (by omega)).symm

/-- The loop over the inode blocks reads four inodes at a time. -/
theorem foldl_readInodes (fs : FileSystem) (k : ℕ) (hk : k ≤ 128) :
    (List.range k).foldl (fun fs (i : ℕ) =>
      { fs with inode := setInodesAt fs.inode (4*i) (inodeBlockLayout.decode
        (fs.readDiskBlock (i+3) (inodeBlockLayout.encode (inodesAt fs.inode (4*i))))) }) fs =
    { fs with inode := fun n => if 0 ≤ n ∧ n < 4*k then
        inodeBlockLayout.decode (fs.disk (n/4+3)) ⟨(n%4).toNat, by omega⟩ else fs.inode n } := by
  induction k with
  | zero =>
    rw [List.range_zero, List.foldl_nil]
    ext1 <;> try rfl
    funext n
    have hn : ¬(0 ≤ n ∧ n < 4*((0 : ℕ) : ℤ)) := by omega
    simp only
    rw [if_neg hn]
  | succ k ih =>
    rw [List.range_succ, List.foldl_append, ih (by omega), List.foldl_cons, List.foldl_nil,
      FileSystem.readDiskBlock_of_range _ (by omega)]
    ext1 <;> try rfl
    funext n
    simp only [setInodesAt]
    -- The four inodes of block `k` are those with `n/4 = k`.
    by_cases hn : 0 ≤ n - 4*(k : ℤ) ∧ (n - 4*(k : ℤ)).toNat < 4
    · have hdiv : n/4 = k := by omega
      have hmod : (n - 4*(k : ℤ)).toNat = (n%4).toNat := by omega
      rw [dif_pos hn, if_pos (by omega), hdiv]
      exact congrArg _ (Fin.ext hmod)
    · rw [dif_neg hn]
      by_cases hr : 0 ≤ n ∧ n < 4*(k : ℤ)
      · rw [if_pos hr, if_pos (by omega)]
      · rw [if_neg hr, if_neg (by omega)]

theorem fsMount_eq (disk : ℤ → Block) : fsMount disk =
    if (loaded disk).superBlock.magicNumber ≠ MAGIC_NUMBER then none
    else some { loaded disk with
      curDirInode := ownBlock ((loaded disk).inode 0)
      curDir := dentryLayout.decode ((loaded disk).readDiskBlock
        (ownBlock ((loaded disk).inode 0)) (dentryLayout.encode zeroed.curDir)) } := by
  unfold fsMount
  simp only
  rw [FileSystem.readDiskBlock_of_range _ (show (0:ℤ) ≤ 0 ∧ (0:ℤ) < 4096 by decide),
    FileSystem.readDiskBlock_of_range _ (show (0:ℤ) ≤ 1 ∧ (1:ℤ) < 4096 by decide),
    FileSystem.readDiskBlock_of_range _ (show (0:ℤ) ≤ 2 ∧ (2:ℤ) < 4096 by decide),
    foldl_readInodes _ numInodeBlock (by decide)]
  rfl

/-! ### What comes back -/

/-- The entries of directory `n`; one without a block has none. -/
def entriesOf (fs : FileSystem) (n : ℤ) : List (List Byte × ℤ) :=
  if n = fs.here then fs.curDir.listing
  else if 0 ≤ ownBlock (fs.inode n) ∧ ownBlock (fs.inode n) < 4096 then
    (dentryLayout.decode (fs.disk (ownBlock (fs.inode n)))).listing
  else []

/-- The root, and the directories that are reached from it by following entries. -/
inductive FromRoot (fs : FileSystem) : ℤ → Prop
  | root : FromRoot fs 0
  | entry (n : ℤ) (e : List Byte × ℤ) : FromRoot fs n → e ∈ entriesOf fs n →
      0 ≤ e.2 ∧ e.2 < 512 → fs.isDir e.2 → FromRoot fs e.2

/-- A mounted file system `fs'` has all that `fs` had when it was unmounted. -/
structure Restores (fs fs' : FileSystem) : Prop where
  superBlock : fs'.superBlock = fs.superBlock
  inodeMap : ∀ i, 0 ≤ i → i < 64 → fs'.inodeMap.byte i = fs.inodeMap.byte i
  blockMap : ∀ i, 0 ≤ i → i < 512 → fs'.blockMap.byte i = fs.blockMap.byte i
  inode : ∀ n, 0 ≤ n → n < 512 → fs'.inode n = fs.inode n
  reached : ∀ n, FromRoot fs' n ↔ FromRoot fs n
  entries : ∀ n, FromRoot fs n → entriesOf fs' n = entriesOf fs n

theorem arrayOf_blockOf (array empty : Bitmap) (rest : Block) {len : ℕ} (hlen : len ≤ 512) {i : ℤ}
    (h0 : 0 ≤ i) (hi : i < len) : (arrayOf (blockOf array len rest) len empty).byte i = array.byte i := by
  have hin : 0 ≤ i ∧ i < len ∧ i.toNat < 512 := by omega
  have hlt : i.toNat < len := by omega
  simp only [arrayOf, blockOf, dif_pos hin, if_pos hlt]
  rw [Int.toNat_of_nonneg h0]

/-- A disk that has the image in its metadata blocks gives the metadata back. -/
theorem loaded_image {disk : ℤ → Block} (hdisk : ∀ b, 0 ≤ b → b < 131 → disk b = image behind fs b) :
    (loaded disk).superBlock = fs.superBlock ∧
      (∀ i, 0 ≤ i → i < 64 → (loaded disk).inodeMap.byte i = fs.inodeMap.byte i) ∧
      (∀ i, 0 ≤ i → i < 512 → (loaded disk).blockMap.byte i = fs.blockMap.byte i) ∧
      ∀ n, 0 ≤ n → n < 512 → (loaded disk).inode n = fs.inode n := by
  have h0 : disk 0 = superBlockLayout.encode fs.superBlock := hdisk 0 (by decide) (by decide)
  have h1 : disk 1 = blockOf fs.inodeMap (MAX_INODE/8) behind := hdisk 1 (by decide) (by decide)
  have h2 : disk 2 = blockOf fs.blockMap (MAX_BLOCK/8) behind := hdisk 2 (by decide) (by decide)
  refine ⟨?_, ?_, ?_, ?_⟩
  · rw [loaded, h0, superBlockLayout.decode_encode]
  · intro i hi hlt
    rw [loaded, h1]
    exact arrayOf_blockOf _ _ _ (by decide) hi hlt
  · intro i hi hlt
    rw [loaded, h2]
    exact arrayOf_blockOf _ _ _ (by decide) hi hlt
  · intro n hn hlt
    -- Inode `n` is the `n%4`-th in its block.
    have hblock : disk (n/4+3) = inodeBlockLayout.encode (inodesAt fs.inode (4*(n/4))) := by
      have h3 : 3 ≤ n/4+3 ∧ n/4+3 < 131 := by omega
      have ha : n/4+3 ≠ 0 := by omega
      have hb : n/4+3 ≠ 1 := by omega
      have hc : n/4+3 ≠ 2 := by omega
      rw [hdisk _ (by omega) h3.2, image, if_neg ha, if_neg hb, if_neg hc, if_pos h3,
        show n/4+3-3 = n/4 by omega]
    simp only [loaded]
    rw [if_pos ⟨hn, hlt⟩, hblock, inodeBlockLayout.decode_encode, inodesAt]
    congr 1
    simp only
    omega

/-- All that a new process finds as the old one left it. -/
structure Remounted (fs fs' : FileSystem) : Prop where
  superBlock : fs'.superBlock = fs.superBlock
  inodeMap : ∀ i, 0 ≤ i → i < 64 → fs'.inodeMap.byte i = fs.inodeMap.byte i
  blockMap : ∀ i, 0 ≤ i → i < 512 → fs'.blockMap.byte i = fs.blockMap.byte i
  inode : ∀ n, 0 ≤ n → n < 512 → fs'.inode n = fs.inode n
  beyond : ∀ n, ¬(0 ≤ n ∧ n < 512) → fs'.inode n = zeroed.inode n
  curDir : fs'.curDir = fs.curDir
  curDirInode : fs'.curDirInode = 131
  root : dentryLayout.decode (fs'.disk 131) = fs.curDir
  disk : ∀ b, 132 ≤ b → fs'.disk b = fs.disk b

/-- It does if the current directory is the root's, in its block. -/
theorem remounts (hcur : fs.curDirInode = 131) (hroot : ownBlock (fs.inode 0) = 131)
    (hmagic : fs.superBlock.magicNumber = MAGIC_NUMBER) (behind : Block) :
    ∃ fs', fsMount (fsUmount behind fs).disk = some fs' ∧ Remounted fs fs' := by
  let disk := (fsUmount behind fs).disk
  have hdisk (b : ℤ) :
      disk b = if b = 131 then dentryLayout.encode fs.curDir else image behind fs b := by
    have hu : disk = _ := fsUmount_disk behind fs
    rw [hu, hcur, FileSystem.writeDiskBlock_of_range _ (by decide)]
    exact Function.update_apply ..
  have hmeta (b : ℤ) (_ : 0 ≤ b) (hb : b < 131) : disk b = image behind fs b := by
    rw [hdisk, if_neg (by omega)]
  obtain ⟨hsuper, hinodes, hblocks, hinode⟩ := loaded_image hmeta
  have hown : ownBlock ((loaded disk).inode 0) = 131 := by
    rw [hinode 0 (by decide) (by decide), hroot]
  have hdecode : dentryLayout.decode (disk 131) = fs.curDir := by
    rw [hdisk, if_pos rfl, dentryLayout.decode_encode]
  refine ⟨{ loaded disk with
    curDirInode := ownBlock ((loaded disk).inode 0)
    curDir := dentryLayout.decode ((loaded disk).readDiskBlock
      (ownBlock ((loaded disk).inode 0)) (dentryLayout.encode zeroed.curDir)) }, ?_, hsuper,
    hinodes, hblocks, hinode, ?_, ?_, hown, hdecode, ?_⟩
  · rw [fsMount_eq, if_neg]
    rw [hsuper]
    exact not_not.mpr hmagic
  · intro n hn
    simp only [loaded, if_neg hn]
  · simp only
    rw [hown, FileSystem.readDiskBlock_of_range _ (by decide)]
    exact hdecode
  · intro b hb
    change disk b = _
    rw [hdisk, if_neg (by omega), image, if_neg (by omega), if_neg (by omega), if_neg (by omega),
      if_neg (by omega)]

theorem Remounted.here_eq (hr : Remounted fs fs') : fs'.here = fs.here := by
  rw [FileSystem.here, hr.curDir, FileSystem.here]

variable {S : Finset ℤ} {t : NameTree (List Byte) ℤ}

/-- As long as `curDirInode` is the root's block, unmounting puts the current directory there. -/
theorem Tree.remount (h : Tree S t fs) (hm : AtFormat t fs) (behind : Block) :
    ∃ fs', fsMount (fsUmount behind fs).disk = some fs' ∧ Restores fs fs' := by
  obtain ⟨fs', hmount, hr⟩ := remounts hm.block h.root h.magic behind
  -- the blocks from 132 on are as they were, and no directory but the root lies below
  have hentries (n : ℤ) (hn : 0 ≤ n ∧ n < 512) (hd : fs.isDir n) :
      entriesOf fs' n = entriesOf fs n := by
    unfold entriesOf
    rw [hr.here_eq, hr.curDir, hr.inode n hn.1 hn.2]
    by_cases h0 : n = fs.here
    · rw [if_pos h0, if_pos h0]
    rw [if_neg h0, if_neg h0]
    by_cases hrange : 0 ≤ ownBlock (fs.inode n) ∧ ownBlock (fs.inode n) < 4096
    · have hfar := h.stale n (by rw [hm.here] at h0; exact h0) hd
      rw [if_pos hrange, if_pos hrange, hr.disk _ (by omega)]
    · rw [if_neg hrange, if_neg hrange]
  have hdirs (n : ℤ) (hn : 0 ≤ n ∧ n < 512) : fs'.isDir n ↔ fs.isDir n := by
    rw [FileSystem.isDir, FileSystem.isDir, hr.inode n hn.1 hn.2]
  have hroot : fs.isDir 0 := (h.good.dir 0 h.good.root_mem).2
  have hreached (n : ℤ) (hn : FromRoot fs n) : (0 ≤ n ∧ n < 512) ∧ fs.isDir n := by
    cases hn with
    | root => exact ⟨by decide, hroot⟩
    | entry _ e _ _ hr hd => exact ⟨hr, hd⟩
  have hreached' (n : ℤ) (hn : FromRoot fs' n) : (0 ≤ n ∧ n < 512) ∧ fs.isDir n := by
    cases hn with
    | root => exact ⟨by decide, hroot⟩
    | entry _ e _ _ hr hd => exact ⟨hr, (hdirs _ hr).mp hd⟩
  refine ⟨fs', hmount, hr.superBlock, hr.inodeMap, hr.blockMap, hr.inode, ?_, ?_⟩
  · intro n
    constructor
    · intro hn
      induction hn with
      | root => exact .root
      | entry k e hk he hr hd ih =>
        have hk' := hreached' k hk
        rw [hentries k hk'.1 hk'.2] at he
        exact .entry k e ih he hr ((hdirs _ hr).mp hd)
    · intro hn
      induction hn with
      | root => exact .root
      | entry k e hk he hr hd ih =>
        have hk' := hreached k hk
        rw [← hentries k hk'.1 hk'.2] at he
        exact .entry k e ih he hr ((hdirs _ hr).mpr hd)
  · exact fun n hn => hentries n (hreached n hn).1 (hreached n hn).2

theorem Tree.atFormat_of_run {inputs : List (Env × Command)} {replies : List Reply}
    (h : Tree S t fs) (hm : AtFormat t fs)
    (hrun : Mealy.run execute fs inputs = some (replies, fs'))
    (hok : Mealy.Meets execute (fun fs i => Stays fs i.2) fs inputs) :
    ∃ S t, Tree S t fs' ∧ AtFormat t fs' := by
  apply Mealy.invariant (fun fs i => Stays fs i.2) (fun fs => ∃ S t, Tree S t fs ∧ AtFormat t fs) _
    ⟨S, t, h, hm⟩ hok hrun
  rintro fs ⟨env, cmd⟩ r fs' ⟨S, t, h, hm⟩ hstays hx
  obtain ⟨S', t', h', hm', -⟩ := h.stay_step hm hstays hx
  exact ⟨S', t', h', hm'⟩

/-- Unmounting and mounting loses nothing after a run that never moves. -/
theorem remount_restores {inputs : List (Env × Command)} {replies : List Reply}
    (hrun : Mealy.run execute format inputs = some (replies, fs))
    (hok : Mealy.Meets execute (fun fs i => Stays fs i.2) format inputs) (behind : Block) :
    ∃ fs', fsMount (fsUmount behind fs).disk = some fs' ∧ Restores fs fs' := by
  obtain ⟨S, t, h, hm⟩ := tree_format.atFormat_of_run atFormat_format hrun hok
  exact h.remount hm behind

theorem remount_restores_removeOne : ∃ replies fs fs',
    Mealy.run execute format removeOne = some (replies, fs) ∧
      fsMount (fsUmount (fun _ => 0) fs).disk = some fs' ∧ Restores fs fs' := by
  obtain ⟨replies, fs, D, S, t, hrun, -⟩ := run_removeOne
  have hexec := (Mealy.run_noted_iff execute _ format fs {0} removeOne replies).mpr ⟨D, hrun⟩
  have hstays : Mealy.Meets execute (fun fs i => Stays fs i.2) format removeOne := by
    apply Mealy.meets_of_forall
    intro fs i hi
    simp only [removeOne, makeTwo, List.cons_append, List.nil_append, List.mem_cons,
      List.not_mem_nil, or_false] at hi
    rcases hi with rfl | rfl | rfl <;> trivial
  obtain ⟨fs', hmount, hrestores⟩ := remount_restores hexec hstays fun _ => 0
  exact ⟨replies, fs, fs', hexec, hmount, hrestores⟩

/-- With `curDirInode` an inode number the current directory goes over the metadata: from the root,
whose number is 0, over the super block. -/
theorem Tree.fsMount_none (h : Tree S t fs) (hcur : fs.curDirInode = 0) (behind : Block) :
    fsMount (fsUmount behind fs).disk = none := by
  have hdisk : (fsUmount behind fs).disk 0 = dentryLayout.encode fs.curDir := by
    rw [fsUmount_disk, hcur, FileSystem.writeDiskBlock_of_range _ (by decide)]
    simp only [Function.update_self]
  rw [fsMount_eq, if_pos]
  -- the magic number is where a directory has its number of entries
  have hmagic : (loaded (fsUmount behind fs).disk).superBlock.magicNumber = fs.curDir.numEntry := by
    simp only [loaded]
    rw [hdisk]
    change Layout.int.decode (fun i => Fin.append (Layout.int.encode fs.curDir.numEntry) _
      (Fin.castAdd 508 i)) = _
    simp only [Fin.append_left, Layout.int.decode_encode]
  have hfits := h.curDir.fits.2
  rw [hmagic]
  intro he
  rw [he] at hfits
  exact absurd hfits (by decide)

/-- On a fresh disk `cd ..` stays in the root, and the disk is lost. -/
theorem remount_fails : ¬∀ (inputs : List (Env × Command)) (replies : List Reply)
    (fs : FileSystem) (behind : Block), Mealy.run execute format inputs = some (replies, fs) →
    ∃ fs', fsMount (fsUmount behind fs).disk = some fs' ∧ Restores fs fs' := by
  intro hall
  have h := tree_format
  have hm := atFormat_format
  have hroot : (0 : ℤ) ∈ ({0} : Finset ℤ) := Finset.mem_singleton_self 0
  have hup : Leads dotDot format 0 := by
    left
    rw [curDir_format]
    exact ⟨rfl, by decide⟩
  have hsaved : Saved format := by
    rw [Saved, hm.here, h.root, disk_format, curDir_format, Function.update_self,
      dentryLayout.decode_encode]
    exact ⟨rfl, rfl⟩
  have hx : execute format (Env.zeroed, .cd dotDot) = some (⟨0, []⟩, moved format 0) :=
    dirChange_moved (by decide) hup (by decide) h.curDirInode_range (by rw [h.root]; decide)
  have hrun : Mealy.run execute format [(Env.zeroed, .cd dotDot)] =
      some ([⟨0, []⟩], moved format 0) := by
    rw [Mealy.run, hx, Option.bind_some, Mealy.run]
    rfl
  obtain ⟨fs', hmount, -⟩ := hall _ _ _ (fun _ => 0) hrun
  rw [(h.move hroot (Or.inr hsaved)).fsMount_none rfl] at hmount
  cases hmount

end OperatingSystems.FS
