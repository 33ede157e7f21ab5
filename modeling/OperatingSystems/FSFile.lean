import OperatingSystems.FSUtil

/-! The file commands of `file.c`. A command answers `none` where the source subscripts an
array out of range. -/
namespace OperatingSystems.FS

/-- `size / BLOCK_SIZE`, and one more where a part is left over. -/
def numBlock (size : ℤ) : ℤ :=
  if size % BLOCK_SIZE > 0 then size / BLOCK_SIZE + 1 else size / BLOCK_SIZE

/-- The string at `str`, whose byte `n` is the terminator. -/
def stringOf (str : ℕ → Byte) (n : ℕ) : List Byte :=
  ((List.range n).map str).takeWhile (· ≠ 0)

def memcpy (str : ℕ → Byte) (offset : ℕ) (buf : Block) (len : ℕ) : ℕ → Byte := fun j =>
  if h : offset ≤ j ∧ j - offset < len ∧ j - offset < 512 then buf ⟨j - offset, h.2.2⟩ else str j

/-- A loop of `file_cat` over `k` slots from `i`: read the block, copy as much as is left. -/
def catBlocks {n : ℕ} (fs : FileSystem) (slots : Fin n → Int32) (base : ℕ) :
    ℕ → ℕ → Block → ℤ → (ℕ → Byte) → Option (ℤ × (ℕ → Byte))
  | 0, _, _, size, str => some (size, str)
  | k+1, i, buffer, size, str =>
    if h : i < n then
      let buffer := fs.readDiskBlock (slots ⟨i, h⟩).toInt buffer
      let offset := (base+i)*BLOCK_SIZE
      if size ≥ BLOCK_SIZE then
        catBlocks fs slots base k (i+1) buffer (size-BLOCK_SIZE) (memcpy str offset buffer BLOCK_SIZE)
      else catBlocks fs slots base k (i+1) buffer size (memcpy str offset buffer size.toNat)
    else none

/-- `int indirectBlockMap[128]` as read from the disk. -/
def FileSystem.readIndirect (fs : FileSystem) (env : Env) (block : Int32) : Fin 128 → Int32 :=
  indirectLayout.decode (fs.readDiskBlock block.toInt (indirectLayout.encode env.indirectBlockMap))

def fileCat (env : Env) (name : Name) (fs : FileSystem) : Option (Reply × FileSystem) :=
  (fs.searchCurDir name).bind fun inodeNum =>
  (fs.readInode env inodeNum).bind fun inode =>
  let blocks := (numBlock inode.size.toInt).toNat
  if inodeNum < 0 then some (.error "cat Error: File %s was not found.\n" [.s name.bytes], fs)
  else if inode.type = .directory then
    some (.error "cat Error: Cannot perform cat on a directory.\n" [], fs)
  else
    let size := inode.size.toInt
    let str := Function.update env.heap size.toNat 0
    (catBlocks fs inode.directBlock 0 (min 15 blocks) 0 env.buffer size str).bind fun direct =>
    (if size > 7680 then
      catBlocks fs (fs.readIndirect env inode.indirectBlock) 15 (blocks-15) 0 env.buffer
        direct.1 direct.2
    else some direct).map fun whole =>
    (⟨0, [("%s\n", [.s (stringOf whole.2 size.toNat)])]⟩, fs)

/-- A loop of `free_block` over `k` slots from `i`. -/
def freeBlocks {n : ℕ} (slots : Fin n → Int32) : ℕ → ℕ → FileSystem → Option FileSystem
  | 0, _, fs => some fs
  | k+1, i, fs =>
    if h : i < n then (fs.freeBlock (slots ⟨i, h⟩).toInt).bind (freeBlocks slots k (i+1)) else none

/-- The blocks that `file_remove` gives back with the last link. -/
def freeFileBlocks (env : Env) (inode : Inode) (fs : FileSystem) : Option FileSystem :=
  let blocks := (numBlock inode.size.toInt).toNat
  (freeBlocks inode.directBlock (min 15 blocks) 0 fs).bind fun fs =>
  if inode.size.toInt > 7680 then
    (freeBlocks (fs.readIndirect env inode.indirectBlock) (blocks-15) 0 fs).bind fun fs =>
    fs.freeBlock inode.indirectBlock.toInt
  else some fs

def fileRemove (env : Env) (name : Name) (fs : FileSystem) : Option (Reply × FileSystem) :=
  (fs.searchCurDir name).bind fun inodeNum =>
  (fs.readInode env inodeNum).bind fun inode =>
  if inodeNum < 0 then some (.error "rm Error: File %s was not found.\n" [.s name.bytes], fs)
  else if inode.type = .directory then some (.error "rm Error: Cannot remove a directory.\n" [], fs)
  else if fs.curDir.numEntry = 0 then
    some (.error "rm Error: There are no files to remove in this directory\n" [], fs)
  else
    (fs.curDir.remove env.afterDentry name fs.curDir.count 0).bind fun curDir =>
    let fs := { fs with curDir := curDir }
    if inode.linkCount = 1 then
      (freeFileBlocks env inode fs).map fun fs => (⟨0, []⟩, fs.freeInode inodeNum)
    else
      some (⟨0, []⟩, fs.writeInode inodeNum { inode with linkCount := inode.linkCount - 1 })

def hardLink (env : Env) (src dest : Name) (fs : FileSystem) : Option (Reply × FileSystem) :=
  (fs.searchCurDir src).bind fun srcInodeNum =>
  (fs.searchCurDir dest).bind fun destInodeNum =>
  (fs.readInode env srcInodeNum).bind fun srcInode =>
  (fs.readInode env destInodeNum).bind fun _ =>
  if srcInodeNum < 0 then some (.error "ln Error: File %s was not found.\n" [.s src.bytes], fs)
  else if destInodeNum ≥ 0 then
    some (.error "ln Error: File %s exists and cannot be used for linking.\n" [.s dest.bytes], fs)
  else if srcInode.type = .directory then
    some (.error "ln Error: %s is a directory.\n" [.s src.bytes], fs)
  else if fs.curDir.Full then some (.error "ln Error: Current directory is full.\n" [], fs)
  else if srcInode.blockCount.toInt > fs.superBlock.freeBlockCount.toInt then
    some (.error "ln Error: Not enough free blocks in the super block.\n" [], fs)
  else if fs.superBlock.freeInodeCount.toInt < 1 then
    some (.error "ln Error: Not enough free inodes in the super block.\n" [], fs)
  else
    let fs := fs.writeInode srcInodeNum { srcInode with linkCount := srcInode.linkCount + 1 }
    (fs.curDir.append dest srcInodeNum).map fun curDir =>
    (⟨0, [("Link created: %s\n", [.s dest.bytes])]⟩, { fs with curDir := curDir })

/-- How a loop that takes blocks ends: `ok` is false when `get_block` failed. -/
structure Fill (n : ℕ) where
  ok : Bool
  slots : Fin n → Int32
  fs : FileSystem

/-- A loop of `file_create` and `file_copy` over `k` slots from `i`: take a block, note it, and
write to it what `fetch` puts in the buffer. -/
def fillBlocks {n : ℕ} (fetch : FileSystem → Fin n → Block → Block) :
    ℕ → ℕ → Block → (Fin n → Int32) → FileSystem → Option (Fill n)
  | 0, _, _, slots, fs => some ⟨true, slots, fs⟩
  | k+1, i, buffer, slots, fs =>
    let block := fs.getBlock.1
    let fs := fs.getBlock.2
    if block = -1 then some ⟨false, slots, fs⟩
    else if h : i < n then
      let buffer := fetch fs ⟨i, h⟩ buffer
      fillBlocks fetch k (i+1) buffer (Function.update slots ⟨i, h⟩ (Int32.ofInt block))
        (fs.writeDiskBlock block buffer)
    else none

/-- How taking the blocks of a new inode ends; `indirect` tells whether the loop over the
indirect slots was reached. -/
structure Filled where
  ok : Bool
  indirect : Bool
  inode : Inode
  fs : FileSystem

/-- The block loops shared by `file_create` and `file_copy`: the direct slots, then past 7680
bytes the indirect block, its slots, and its map. `fetchIndirect` is given the state in which
its loop starts. -/
def fillInode (env : Env) (fetch : FileSystem → Fin 15 → Block → Block)
    (fetchIndirect : FileSystem → FileSystem → Fin 128 → Block → Block) (newInode : Inode)
    (fs : FileSystem) : Option Filled :=
  let blocks := (numBlock newInode.size.toInt).toNat
  (fillBlocks fetch (min 15 blocks) 0 env.buffer newInode.directBlock fs).bind fun direct =>
  let newInode := { newInode with directBlock := direct.slots }
  if direct.ok = false then some ⟨false, false, newInode, direct.fs⟩
  else if newInode.size.toInt > 7680 then
    let block := direct.fs.getBlock.1
    let fs := direct.fs.getBlock.2
    if block = -1 then some ⟨false, false, newInode, fs⟩
    else
      let newInode := { newInode with indirectBlock := Int32.ofInt block }
      (fillBlocks (fetchIndirect fs) (blocks-15) 0 env.buffer env.indirectBlockMap fs).map
        fun indirect =>
        if indirect.ok = false then ⟨false, true, newInode, indirect.fs⟩
        else ⟨true, true, newInode,
          indirect.fs.writeDiskBlock block (indirectLayout.encode indirect.slots)⟩
  else some ⟨true, false, newInode, direct.fs⟩

def fileCopy (env : Env) (src dest : Name) (fs : FileSystem) : Option (Reply × FileSystem) :=
  (fs.searchCurDir src).bind fun srcInodeNum =>
  (fs.searchCurDir dest).bind fun destInodeNum =>
  (fs.readInode env srcInodeNum).bind fun srcInode =>
  let blocks := numBlock srcInode.size.toInt
  if srcInodeNum < 0 then some (.error "cp Error: File %s was not found.\n" [.s src.bytes], fs)
  else if destInodeNum ≥ 0 then
    some (.error "cp Error: File %s exists and cannot be over written.\n" [.s dest.bytes], fs)
  else if fs.curDir.Full then some (.error "cp Error: directory is full.\n" [], fs)
  else if fs.superBlock.freeInodeCount.toInt < 1 then
    some (.error "cp Error: inode is full.\n" [], fs)
  else if (srcInode.size.toInt > 7680 ∧ blocks+1 > fs.superBlock.freeBlockCount.toInt) ∨
      blocks > fs.superBlock.freeBlockCount.toInt then
    some (.error "cp Error: data block is full.\n" [], fs)
  else
    let destInodeNum := fs.getInode.1
    let fs := fs.getInode.2
    if destInodeNum < 0 then some (.error "cp Error: Not enough inodes.\n" [], fs)
    else
      let destInode := { env.inode with
        type := srcInode.type, size := srcInode.size, blockCount := srcInode.blockCount
        linkCount := 1 }
      (fillInode env (fun fs i buffer => fs.readDiskBlock (srcInode.directBlock i).toInt buffer)
        (fun start =>
          let srcIndirectBlockMap := start.readIndirect env srcInode.indirectBlock
          fun fs i buffer => fs.readDiskBlock (srcIndirectBlockMap i).toInt buffer)
        destInode fs).bind fun filled =>
      let trace := if filled.indirect then [("3\n", [])] else []
      if filled.ok = false then
        some (⟨-1, trace ++ [("cp Error: get_block failed.\n", [])]⟩, filled.fs)
      else
        (filled.fs.curDir.append dest destInodeNum).map fun curDir =>
        (⟨0, trace ++ [("File copy success: copied %s to %s.\n", [.s src.bytes, .s dest.bytes])]⟩,
          { filled.fs with curDir := curDir }.writeInode destInodeNum filled.inode)

def charset : List Byte :=
  "abcdefghijklmnopqrstuvwxyzABCDEFGHIJKLMNOPQRSTUVWXYZ0123456789".toList.map fun c =>
    BitVec.ofNat 8 c.toNat

/-- `rand_string` into fresh heap memory. -/
def randString (env : Env) (size : ℕ) : ℕ → Byte := fun n =>
  if n < size then charset.getD (env.rand n % charset.length) 0
  else if n = size then 0 else env.heap n

/-- The block that starts `i*BLOCK_SIZE` bytes into `str`. -/
def chunk (str : ℕ → Byte) (i : ℕ) : Block := fun j => str (i*BLOCK_SIZE + j)

def fileCreate (env : Env) (name : Name) (size : Int32) (fs : FileSystem) :
    Option (Reply × FileSystem) :=
  if size.toInt ≤ 0 ∨ size.toInt > 73216 then
    some (.error "File create failed: file size error\n" [], fs)
  else
    (fs.searchCurDir name).bind fun inodeNum =>
    let blocks := numBlock size.toInt
    if inodeNum ≥ 0 then some (.error "File create failed:  %s exist.\n" [.s name.bytes], fs)
    else if fs.curDir.Full then some (.error "File create failed: directory is full!\n" [], fs)
    else if fs.superBlock.freeInodeCount.toInt < 1 then
      some (.error "File create failed: inode is full!\n" [], fs)
    else if (if size.toInt > 7680 then blocks+1 else blocks) > fs.superBlock.freeBlockCount.toInt then
      some (.error "File create failed: data block is full!\n" [], fs)
    else
      let tmp := randString env size.toInt.toNat
      let contents := ("File contents:\n%s\n", [Arg.s (stringOf tmp size.toInt.toNat)])
      let inodeNum := fs.getInode.1
      let fs := fs.getInode.2
      if inodeNum < 0 then
        some (⟨-1, [contents, ("File_create error: not enough inode.\n", [])]⟩, fs)
      else
        let newInode := { env.inode with
          type := .file, size := size, blockCount := Int32.ofInt blocks, linkCount := 1 }
        (fs.curDir.append name inodeNum).bind fun curDir =>
        (fillInode env (fun _ i _ => chunk tmp i) (fun _ _ i _ => chunk tmp (i+15)) newInode
          { fs with curDir := curDir }).map fun filled =>
        if filled.ok = false then
          (⟨-1, [contents, ("File_create error: get_block failed\n", [])]⟩, filled.fs)
        else
          (⟨0, [contents, ("File created. name: %s, inode: %d, size: %d\n",
              [.s name.bytes, .d inodeNum, .d size.toInt])]⟩,
            filled.fs.writeInode inodeNum filled.inode)

end OperatingSystems.FS
