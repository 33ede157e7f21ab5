import OperatingSystems.FSDirectory
import OperatingSystems.Mealy

/-! Mounting and unmounting in `fs.c`, and the commands it executes. -/
namespace OperatingSystems.FS

/-- Globals are zero when the process starts. -/
def zeroed : FileSystem where
  superBlock := ⟨0, 0, 0, 0, fun _ => 0⟩
  inodeMap := ⟨fun _ => 0⟩
  blockMap := ⟨fun _ => 0⟩
  inode := fun _ => ⟨.file, 0, 0, fun _ => 0, 0, 0, fun _ => 0⟩
  curDir := ⟨0, fun _ => ⟨fun _ => 0, 0⟩, fun _ => 0⟩
  curDirInode := 0
  disk := fun _ _ => 0

/-- `(sizeof(Inode)*MAX_INODE) / BLOCK_SIZE`. -/
def numInodeBlock : ℕ := 128

/-- `set_bit(array, i, value i)` for `i = 0 .. n-1`. -/
def setBits (value : ℕ → Byte) (n : ℕ) (array : Bitmap) : Bitmap :=
  (List.range n).foldl (fun array (i : ℕ) => setBit array i (value i)) array

/-- `fs_mount` where the disk file does not exist yet. -/
def format : FileSystem :=
  let fs : FileSystem := { zeroed with
    superBlock := { zeroed.superBlock with
      magicNumber := MAGIC_NUMBER
      freeBlockCount := Int32.ofNat (MAX_BLOCK - (1+1+1+numInodeBlock))
      freeInodeCount := Int32.ofNat MAX_INODE
      rootDirInode := 0 }
    inodeMap := setBits (fun _ => 0) (MAX_INODE/8) zeroed.inodeMap
    blockMap := setBits (fun i => if i < 1+1+1+numInodeBlock then 1 else 0) (MAX_BLOCK/8)
      zeroed.blockMap }
  let rootInode := fs.getInode.1
  let fs := fs.getInode.2
  let block := fs.getBlock.1
  let fs := fs.getBlock.2
  let root := { fs.inode rootInode with
    type := .directory, size := 1, blockCount := 1
    directBlock := Function.update (fs.inode rootInode).directBlock 0 (Int32.ofInt block) }
  let curDir := { fs.curDir with
    numEntry := 1
    dentry := Function.update fs.curDir.dentry 0
      ⟨dot.store (fs.curDir.dentry 0).name, Int32.ofInt rootInode⟩ }
  let fs := { fs.writeInode rootInode root with curDir := curDir, curDirInode := block }
  fs.writeDiskBlock block (dentryLayout.encode curDir)

/-- Four inodes of the table from `k`. -/
def inodesAt (table : ℤ → Inode) (k : ℤ) : Fin 4 → Inode := fun j => table (k+j)

def setInodesAt (table : ℤ → Inode) (k : ℤ) (inodes : Fin 4 → Inode) : ℤ → Inode := fun n =>
  if h : 0 ≤ n-k ∧ (n-k).toNat < 4 then inodes ⟨(n-k).toNat, h.2⟩ else table n

/-- The first `len` bytes of an array as a block, the rest of the block being `rest`. -/
def blockOf (array : Bitmap) (len : ℕ) (rest : Block) : Block := fun j =>
  if j.val < len then array.byte j.val else rest j

/-- The first `len` bytes of a block read into an array. -/
def arrayOf (block : Block) (len : ℕ) (array : Bitmap) : Bitmap where
  byte i := if h : 0 ≤ i ∧ i < len ∧ i.toNat < 512 then block ⟨i.toNat, h.2.2⟩ else array.byte i

/-- `fs_umount`, as far as the disk file that `disk_umount` writes: block 1 takes along the
bytes `behind` that lie after the 64 of `inodeMap`. -/
def fsUmount (behind : Block) (fs : FileSystem) : FileSystem :=
  let fs := fs.writeDiskBlock 0 (superBlockLayout.encode fs.superBlock)
  let fs := fs.writeDiskBlock 1 (blockOf fs.inodeMap (MAX_INODE/8) behind)
  let fs := fs.writeDiskBlock 2 (blockOf fs.blockMap (MAX_BLOCK/8) behind)
  let fs := (List.range numInodeBlock).foldl (fun fs (i : ℕ) =>
    fs.writeDiskBlock (i+3) (inodeBlockLayout.encode (inodesAt fs.inode (4*i)))) fs
  fs.writeDiskBlock fs.curDirInode (dentryLayout.encode fs.curDir)

/-- `fs_mount` of a disk file in a new process; `none` is the exit on an invalid disk. -/
def fsMount (disk : ℤ → Block) : Option FileSystem :=
  let fs := { zeroed with disk := disk }
  let fs := { fs with superBlock :=
    superBlockLayout.decode (fs.readDiskBlock 0 (superBlockLayout.encode fs.superBlock)) }
  if fs.superBlock.magicNumber ≠ MAGIC_NUMBER then none
  else
    let block := fs.readDiskBlock 1 (blockOf fs.inodeMap (MAX_INODE/8) fun _ => 0)
    let fs := { fs with inodeMap := arrayOf block (MAX_INODE/8) fs.inodeMap }
    let block := fs.readDiskBlock 2 (blockOf fs.blockMap (MAX_BLOCK/8) fun _ => 0)
    let fs := { fs with blockMap := arrayOf block (MAX_BLOCK/8) fs.blockMap }
    let fs := (List.range numInodeBlock).foldl (fun fs (i : ℕ) =>
      let block := fs.readDiskBlock (i+3) (inodeBlockLayout.encode (inodesAt fs.inode (4*i)))
      { fs with inode := setInodesAt fs.inode (4*i) (inodeBlockLayout.decode block) }) fs
    let curDirInode := ((fs.inode 0).directBlock 0).toInt
    some { fs with
      curDirInode := curDirInode
      curDir := dentryLayout.decode (fs.readDiskBlock curDirInode (dentryLayout.encode fs.curDir)) }

/-- The commands that `execute_command` dispatches with their arguments present, but for the
three that only print. -/
inductive Command where
  | create (name : Name) (size : Int32)
  | cat (name : Name)
  | rm (name : Name)
  | mkdir (name : Name)
  | rmdir (name : Name)
  | cd (name : Name)
  | ln (src dest : Name)
  | cp (src dest : Name)
  deriving DecidableEq

/-- One command, in the environment it happens to run in. -/
def execute (fs : FileSystem) : Env × Command → Option (Reply × FileSystem)
  | (env, .create name size) => fileCreate env name size fs
  | (env, .cat name) => fileCat env name fs
  | (env, .rm name) => fileRemove env name fs
  | (env, .mkdir name) => dirMake env name fs
  | (env, .rmdir name) => dirRemove env name fs
  | (env, .cd name) => dirChange env name fs
  | (env, .ln src dest) => hardLink env src dest fs
  | (env, .cp src dest) => fileCopy env src dest fs

/-- A run of commands on a fresh disk ends in `fs`. -/
def Reachable (inputs : List (Env × Command)) (fs : FileSystem) : Prop :=
  ∃ replies, Mealy.run execute format inputs = some (replies, fs)

end OperatingSystems.FS
