import OperatingSystems.FSFile

/-! The directory commands of `directory.c`. -/
namespace OperatingSystems.FS

def dot : Name := ⟨[46], by decide, by decide⟩

def dotDot : Name := ⟨[46, 46], by decide, by decide⟩

/-- The block of a made directory: `.` and `..`, on top of what the stack held. -/
def newDentry (env : Env) (inodeNum parent : Int32) : Dentry :=
  { env.dentry with
    numEntry := 2
    dentry := Function.update (Function.update env.dentry.dentry
      0 ⟨dot.store (env.dentry.dentry 0).name, inodeNum⟩)
      1 ⟨dotDot.store (env.dentry.dentry 1).name, parent⟩ }

def dirMake (env : Env) (name : Name) (fs : FileSystem) : Option (Reply × FileSystem) :=
  (fs.searchCurDir name).bind fun inodeNum =>
  let block := fs.getBlock.1
  let fs := fs.getBlock.2
  if inodeNum ≥ 0 then some (.error "mkdir Error: %s already exists.\n" [.s name.bytes], fs)
  else if fs.curDir.Full then some (.error "mkdir Error: Directory is full.\n" [], fs)
  else if fs.superBlock.freeInodeCount.toInt < 1 then
    some (.error "mkdir Error: Inode is full.\n" [], fs)
  else
    -- without a block the command complains and goes on
    let trace := if block < 0 then [("mkdir Error: No free blocks.\n", [])] else []
    let inodeNum := fs.getInode.1
    let fs := fs.getInode.2
    if inodeNum < 0 then some (⟨-1, trace ++ [("mkdir Error: No free inodes.\n", [])]⟩, fs)
    else
      let inode := { env.inode with
        type := .directory, size := 1, blockCount := 1
        directBlock := Function.update env.inode.directBlock 0 (Int32.ofInt block) }
      let fs := fs.writeInode inodeNum inode
      (fs.curDir.append name inodeNum).map fun curDir =>
      let fs := { fs with curDir := curDir }
      let fs := fs.writeDiskBlock block
        (dentryLayout.encode (newDentry env (Int32.ofInt inodeNum) (curDir.dentry 0).inode))
      (⟨0, trace⟩, fs.writeDiskBlock fs.curDirInode (dentryLayout.encode curDir))

def dirRemove (env : Env) (name : Name) (fs : FileSystem) : Option (Reply × FileSystem) :=
  (fs.searchCurDir name).bind fun inodeNum =>
  (fs.readInode env inodeNum).bind fun inode =>
  let dentry := dentryLayout.decode
    (fs.readDiskBlock (inode.directBlock 0).toInt (dentryLayout.encode env.dentry))
  if inodeNum < 0 then some (.error "rmdir Error: %s does not exist.\n" [.s name.bytes], fs)
  else if inode.type ≠ .directory then
    some (.error "rmdir Error: %s is not a directory.\n" [.s name.bytes], fs)
  else if dot.bytes = name.bytes then
    some (.error "rmdir Error: Cannot remove the current directory.\n" [], fs)
  else if dotDot.bytes = name.bytes then
    some (.error "rmdir Error: Cannot remove the parent directory.\n" [], fs)
  else if dentry.numEntry.toInt > 2 then
    some (.error "rmdir Error: Directory is not empty.\n" [], fs)
  else
    (fs.curDir.remove env.afterDentry name fs.curDir.count 0).bind fun curDir =>
    let fs := { fs with curDir := curDir }
    (freeBlocks inode.directBlock inode.blockCount.toInt.toNat 0 fs).bind fun fs =>
    (if inode.size.toInt > 7680 then fs.freeBlock inode.indirectBlock.toInt else some fs).map fun fs =>
    (⟨0, []⟩, fs.freeInode inodeNum)

/-- Both branches of `dir_change` that move: the current directory goes to the block that inode
`curDirInode` lists first, and the directory of `inodeNum`, read as `target`, is loaded. -/
def moveTo (env : Env) (inodeNum : ℤ) (target : Inode) (fs : FileSystem) :
    Option (Reply × FileSystem) :=
  (fs.readInode env fs.curDirInode).map fun currentInode =>
  let fs := fs.writeDiskBlock (currentInode.directBlock 0).toInt (dentryLayout.encode fs.curDir)
  (⟨0, []⟩, { fs with
    curDir := dentryLayout.decode
      (fs.readDiskBlock (target.directBlock 0).toInt (dentryLayout.encode fs.curDir))
    curDirInode := inodeNum })

def dirChange (env : Env) (name : Name) (fs : FileSystem) : Option (Reply × FileSystem) :=
  if name.bytes = dot.bytes then some (⟨0, []⟩, fs)
  else if name.bytes = dotDot.bytes then
    let parentInodeNum := (fs.curDir.dentry 1).inode.toInt
    (fs.readInode env parentInodeNum).bind fun parentInode =>
    moveTo env parentInodeNum parentInode fs
  else
    (fs.searchCurDir name).bind fun inodeNum =>
    (fs.readInode env inodeNum).bind fun inode =>
    if inodeNum < 0 then some (.error "cd Error: %s does not exist.\n" [.s name.bytes], fs)
    else moveTo env inodeNum inode fs

end OperatingSystems.FS
