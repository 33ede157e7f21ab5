import OperatingSystems.FSDisk

/-! The bitmaps and allocators of `fs_util.c`, and the entries of the current directory. -/
namespace OperatingSystems.FS

def toggleBit (array : Bitmap) (index : ℤ) : Bitmap :=
  ⟨Function.update array.byte (index / 8)
    (array.byte (index / 8) ^^^ ((1 : Byte) <<< (index % 8).toNat))⟩

def getBit (array : Bitmap) (index : ℤ) : Byte :=
  1 &&& (array.byte (index / 8) >>> (index % 8).toNat)

def setBit (array : Bitmap) (index : ℤ) (value : Byte) : Bitmap :=
  if value ≠ 0 ∧ value ≠ 1 then array
  else
    let toggled := toggleBit array index
    if getBit toggled index = value then toggled else toggleBit toggled index

/-- The loop of `get_inode` and `get_block`: the first clear bit among `k` from `i`, or -1. -/
def findClear (array : Bitmap) : ℕ → ℤ → ℤ
  | 0, _ => -1
  | k+1, i => if getBit array i = 0 then i else findClear array k (i+1)

namespace FileSystem

variable (fs : FileSystem)

def getInode : ℤ × FileSystem :=
  let i := findClear fs.inodeMap MAX_INODE 0
  if i = -1 then (-1, fs)
  else (i, { fs with
    inodeMap := setBit fs.inodeMap i 1
    superBlock := { fs.superBlock with freeInodeCount := fs.superBlock.freeInodeCount - 1 } })

def freeInode (inodeNum : ℤ) : FileSystem :=
  if getBit fs.inodeMap inodeNum = 1 then { fs with
    inodeMap := setBit fs.inodeMap inodeNum 0
    superBlock := { fs.superBlock with freeInodeCount := fs.superBlock.freeInodeCount + 1 } }
  else fs

def getBlock : ℤ × FileSystem :=
  let i := findClear fs.blockMap MAX_BLOCK 0
  if i = -1 then (-1, fs)
  else (i, { fs with
    blockMap := setBit fs.blockMap i 1
    superBlock := { fs.superBlock with freeBlockCount := fs.superBlock.freeBlockCount - 1 } })

/-- A block number outside the map has no bit to read. -/
def freeBlock (blockNum : ℤ) : Option FileSystem :=
  if blockNum < 0 ∨ blockNum ≥ MAX_BLOCK then none
  else if getBit fs.blockMap blockNum = 1 then some { fs with
    blockMap := setBit fs.blockMap blockNum 0
    superBlock := { fs.superBlock with freeBlockCount := fs.superBlock.freeBlockCount + 1 } }
  else some fs

end FileSystem

/-- The bytes of a name field up to its terminator. -/
def cString (name : Fin 20 → Byte) : List Byte := (List.ofFn name).takeWhile (· ≠ 0)

/-- `command` of `fs_sim.c`: equal length and equal bytes over it. -/
def command (comm comm2 : List Byte) : Bool :=
  comm.length == comm2.length && comm.take comm.length == comm2.take comm.length

/-- `strncpy(name, dest, strlen(dest))` and the terminator; the tail of the field stays. -/
def Name.store (n : Name) (old : Fin 20 → Byte) : Fin 20 → Byte := fun i =>
  if h : i.val < n.bytes.length then n.bytes[i.val] else if i.val = n.bytes.length then 0 else old i

namespace Dentry

variable (d : Dentry)

def entry? (i : ℕ) : Option DirectoryEntry :=
  if h : i < 21 then some (d.dentry ⟨i, h⟩) else none

/-- The loop of `search_cur_dir` with `k` entries left from `i`. -/
def search (name : Name) : ℕ → ℕ → Option ℤ
  | 0, _ => some (-1)
  | k+1, i => (d.entry? i).bind fun e =>
      if command name.bytes (cString e.name) then some e.inode.toInt else search name k (i+1)

/-- `curDir.numEntry + 1 > MAX_DIR_ENTRY`, compared as `size_t`. -/
def Full : Prop := d.numEntry.toInt + 1 < 0 ∨ d.numEntry.toInt + 1 > MAX_DIR_ENTRY

instance : Decidable d.Full := by unfold Full; infer_instance

/-- Write a name and an inode number behind the last entry. -/
def append (name : Name) (inodeNum : ℤ) : Option Dentry :=
  if h : 0 ≤ d.numEntry.toInt ∧ d.numEntry.toInt.toNat < 21 then
    let slot : Fin 21 := ⟨d.numEntry.toInt.toNat, h.2⟩
    some { d with
      dentry := Function.update d.dentry slot
        ⟨name.store (d.dentry slot).name, Int32.ofInt inodeNum⟩
      numEntry := d.numEntry + 1 }
  else none

/-- `curDir.dentry[i] = curDir.dentry[i+1]` for `k` steps from `i`; from the last slot the copy
reads what lies behind the array. -/
def compact (after : DirectoryEntry) : ℕ → ℕ → Dentry → Option Dentry
  | 0, _, d => some d
  | k+1, i, d =>
    if h : i < 21 then
      compact after k (i+1)
        { d with dentry := Function.update d.dentry ⟨i, h⟩ ((d.entry? (i+1)).getD after) }
    else none

/-- The removal loop shared by `file_remove` and `dir_remove`, with `k` entries left from `i`. -/
def remove (after : DirectoryEntry) (name : Name) : ℕ → ℕ → Dentry → Option Dentry
  | 0, _, d => some d
  | k+1, i, d => (d.entry? i).bind fun e =>
      if name.bytes = cString e.name then
        (compact after (k+1) i d).map fun d => { d with numEntry := d.numEntry - 1 }
      else remove after name k (i+1) d

/-- How many turns a loop `for (i = 0; i < numEntry; i++)` takes. -/
def count : ℕ := d.numEntry.toInt.toNat

end Dentry

def FileSystem.searchCurDir (fs : FileSystem) (name : Name) : Option ℤ :=
  fs.curDir.search name fs.curDir.count 0

/-- An argument of `printf`. -/
inductive Arg where
  | s (string : List Byte)
  | d (number : ℤ)
  deriving DecidableEq

/-- What a command returns, and the `printf` calls it makes in order; those of `disk.c` are left
out. -/
structure Reply where
  ret : ℤ
  printed : List (String × List Arg)
  deriving DecidableEq

def Reply.error (format : String) (args : List Arg) : Reply := ⟨-1, [(format, args)]⟩

end OperatingSystems.FS
