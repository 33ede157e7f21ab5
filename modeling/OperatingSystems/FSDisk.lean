import OperatingSystems.Layout
import Mathlib.Data.Int.Notation
import Mathlib.Logic.Function.Basic

/-! The structures of `fs.h`, the globals of `fs.c` and `disk.c`, and the block device. -/
namespace OperatingSystems.FS

def BLOCK_SIZE : ℕ := 512
def MAX_BLOCK : ℕ := 4096
def MAX_INODE : ℕ := 512
def MAX_FILE_NAME : ℕ := 20
def MAGIC_NUMBER : Int32 := 0x1234FFFF

/-- `BLOCK_SIZE / sizeof(DirectoryEntry)`. -/
def MAX_DIR_ENTRY : ℕ := 21

-- numerals index the slots of an inode and the entries of a directory
instance neZero_slots : @NeZero ℕ Zero.ofOfNat0 15 := ⟨Nat.succ_ne_zero 14⟩
instance neZero_entries : @NeZero ℕ Zero.ofOfNat0 21 := ⟨Nat.succ_ne_zero 20⟩

abbrev Block := Fin 512 → Byte

inductive TYPE where
  | file
  | directory
  deriving DecidableEq, Repr

theorem TYPE.eq_file {t : TYPE} (h : t ≠ .directory) : t = .file := by
  cases t with
  | file => rfl
  | directory => exact absurd rfl h

structure SuperBlock where
  magicNumber : Int32
  freeBlockCount : Int32
  freeInodeCount : Int32
  rootDirInode : Int32
  padding : Fin 496 → Byte

@[ext] structure Inode where
  type : TYPE
  size : Int32
  blockCount : Int32
  directBlock : Fin 15 → Int32
  indirectBlock : Int32
  linkCount : Int32
  padding : Fin 48 → Byte

@[ext] structure DirectoryEntry where
  name : Fin 20 → Byte
  inode : Int32

@[ext] structure Dentry where
  numEntry : Int32
  dentry : Fin 21 → DirectoryEntry
  padding : Fin 4 → Byte

/-- The enumeration as an `int`; the code asks of a type only whether it is `directory`. -/
def typeLayout : Layout TYPE 4 :=
  Layout.int.map (fun i => if i = 1 then .directory else .file)
    (fun | .file => 0 | .directory => 1) fun t => by cases t <;> rfl

def superBlockLayout : Layout SuperBlock 512 :=
  (Layout.int.pair (Layout.int.pair (Layout.int.pair (Layout.int.pair (Layout.bytes 496))))).map
    (fun p => ⟨p.1, p.2.1, p.2.2.1, p.2.2.2.1, p.2.2.2.2⟩)
    (fun s => (s.magicNumber, s.freeBlockCount, s.freeInodeCount, s.rootDirInode, s.padding))
    fun _ => rfl

def inodeLayout : Layout Inode 128 :=
  (typeLayout.pair (Layout.int.pair (Layout.int.pair ((Layout.int.array 15).pair
    (Layout.int.pair (Layout.int.pair (Layout.bytes 48))))))).map
    (fun p => ⟨p.1, p.2.1, p.2.2.1, p.2.2.2.1, p.2.2.2.2.1, p.2.2.2.2.2.1, p.2.2.2.2.2.2⟩)
    (fun d => (d.type, d.size, d.blockCount, d.directBlock, d.indirectBlock, d.linkCount, d.padding))
    fun _ => rfl

def directoryEntryLayout : Layout DirectoryEntry 24 :=
  ((Layout.bytes 20).pair Layout.int).map (fun p => ⟨p.1, p.2⟩) (fun e => (e.name, e.inode))
    fun _ => rfl

def dentryLayout : Layout Dentry 512 :=
  (Layout.int.pair ((directoryEntryLayout.array 21).pair (Layout.bytes 4))).map
    (fun p => ⟨p.1, p.2.1, p.2.2⟩) (fun d => (d.numEntry, d.dentry, d.padding)) fun _ => rfl

/-- The four inodes of one inode block. -/
def inodeBlockLayout : Layout (Fin 4 → Inode) 512 := inodeLayout.array 4

/-- `int indirectBlockMap[128]`. -/
def indirectLayout : Layout (Fin 128 → Int32) 512 := Layout.int.array 128

/-- A `char` array whose bits are numbered from the low bit of its first byte. -/
@[ext] structure Bitmap where
  byte : ℤ → Byte

/-- The globals of `fs.c`, and the disk that `disk.c` keeps in memory. -/
@[ext] structure FileSystem where
  superBlock : SuperBlock
  inodeMap : Bitmap
  blockMap : Bitmap
  inode : ℤ → Inode
  curDir : Dentry
  curDirInode : ℤ
  disk : ℤ → Block

/-- What a command finds in memory that the program has not written: the numbers `rand()` gives,
fresh heap and stack, and the memory just outside `inode` and `curDir.dentry`. -/
structure Env where
  rand : ℕ → ℕ
  heap : ℕ → Byte
  inode : Inode
  dentry : Dentry
  buffer : Block
  indirectBlockMap : Fin 128 → Int32
  beforeInode : Inode
  afterDentry : DirectoryEntry

/-- A C string that fits a directory entry. -/
structure Name where
  bytes : List Byte
  length_lt : bytes.length < MAX_FILE_NAME
  nul_not_mem : 0 ∉ bytes
  deriving DecidableEq

namespace FileSystem

variable (fs : FileSystem)

/-- Out of range the buffer keeps what it held. The text `disk_read error` is left out. -/
def readDiskBlock (block : ℤ) (buf : Block) : Block :=
  if block < 0 ∨ block ≥ MAX_BLOCK then buf else fs.disk block

/-- Out of range nothing is written. The text `disk_write error` is left out. -/
def writeDiskBlock (block : ℤ) (buf : Block) : FileSystem :=
  if block < 0 ∨ block ≥ MAX_BLOCK then fs
  else { fs with disk := Function.update fs.disk block buf }

/-- A missing name is searched as -1 and read before the number is checked: `inode[-1]` holds
some bytes. -/
def readInode (env : Env) (inodeNum : ℤ) : Option Inode :=
  if inodeNum = -1 then some env.beforeInode
  else if 0 ≤ inodeNum ∧ inodeNum < MAX_INODE then some (fs.inode inodeNum)
  else none

def writeInode (inodeNum : ℤ) (newInode : Inode) : FileSystem :=
  { fs with inode := Function.update fs.inode inodeNum newInode }

end FileSystem

end OperatingSystems.FS
