import OperatingSystems.FSNavigate
import OperatingSystems.FSTableStep

/-! The directories as a tree of tables from which everything that the program prints can be read,
as `FSTable` has it for the root alone. -/
namespace OperatingSystems.FS

/-- The tree of names, the current directory, and what the files hold. -/
structure Hierarchy where
  tree : NameTree (List Byte) ℤ
  here : ℤ
  content : ℤ → List Byte
  /-- The format leaves this count of the root at 0, and `dir_make` what the stack held. -/
  linkCount : ℤ → ℤ
  /-- The blocks that refused calls of `dir_make` have taken. -/
  lost : ℕ
  /-- Until the first move, the entries in the root's block. -/
  stored : Option (List (List Byte × ℤ))

namespace Hierarchy

/-- A fresh disk. -/
def empty : Hierarchy := ⟨⟨{0}, fun _ => [], fun _ => 0⟩, 0, fun _ => [], fun _ => 0, 0, some []⟩

variable (t : Hierarchy)

def kids : List (List Byte × ℤ) := t.tree.kids t.here

def listing : List (List Byte × ℤ) := listingOf t.tree t.here

def lookup (name : Name) : Option ℤ :=
  (t.listing.find? fun e => e.1 == name.bytes).map Prod.snd

def Full : Prop := 21 ≤ t.listing.length

instance : Decidable t.Full := by unfold Full; infer_instance

/-- The root and whatever has a name. -/
def nodes : Finset ℤ := insert 0 (t.tree.dirs.biUnion fun d => (t.tree.children d).toFinset)

/-- The least number that no node has. -/
def fresh : ℤ := (((List.range 512).find? fun n : ℕ => (n : ℤ) ∉ t.nodes).getD 512 : ℕ)

def size (n : ℤ) : ℕ := if n ∈ t.tree.dirs then 1 else (t.content n).length

/-- The data blocks for so many bytes. -/
def blocksFor (size : ℕ) : ℕ := (size + 511) / 512

/-- One more for the map, if the direct slots do not suffice. -/
def blocksTaken (size : ℕ) : ℕ := blocksFor size + if 7680 < size then 1 else 0

def links (n : ℤ) : ℤ := if n ∈ t.tree.dirs then t.linkCount n else t.tree.links n

def freeBlocks : ℤ := 3965 - ((∑ n ∈ t.nodes, blocksTaken (t.size n) : ℕ) : ℤ) - t.lost

def freeInodes : ℤ := 512 - (t.nodes.card : ℤ)

/-! ### What becomes of it -/

def setKids (l : List (List Byte × ℤ)) : Hierarchy :=
  { t with tree := t.tree.setKids t.here l }

/-- One more name for a number. -/
def link (name : Name) (n : ℤ) : Hierarchy := t.setKids (t.kids ++ [(name.bytes, n)])

/-- A file of its own behind a name. -/
def add (name : Name) (c : List Byte) : Hierarchy :=
  { t.link name t.fresh with content := Function.update t.content t.fresh c }

def remove (name : Name) : Hierarchy := t.setKids (t.kids.eraseP fun e => e.1 == name.bytes)

/-- A directory of its own behind a name; the current one is written to its block. -/
def make (env : Env) (name : Name) : Hierarchy :=
  { t with
    tree := (t.link name t.fresh).tree.adopt t.fresh t.here
    linkCount := Function.update t.linkCount t.fresh env.inode.linkCount.toInt
    stored := t.stored.map fun _ => t.kids ++ [(name.bytes, t.fresh)] }

def removeDir (name : Name) (n : ℤ) : Hierarchy :=
  { t with tree := t.tree.disown n }.remove name

/-- A block is taken and not used. -/
def lose : Hierarchy := { t with lost := t.lost + if 0 < t.freeBlocks then 1 else 0 }

def enter (n : ℤ) : Hierarchy := { t with here := n, stored := none }

/-! ### The commands -/

def create (env : Env) (name : Name) (size : Int32) : Reply × Hierarchy :=
  if size.toInt ≤ 0 ∨ size.toInt > 73216 then
    (.error "File create failed: file size error\n" [], t)
  else if (t.lookup name).isSome then
    (.error "File create failed:  %s exist.\n" [.s name.bytes], t)
  else if t.Full then (.error "File create failed: directory is full!\n" [], t)
  else if t.freeInodes < 1 then (.error "File create failed: inode is full!\n" [], t)
  else if t.freeBlocks < blocksTaken size.toInt.toNat then
    (.error "File create failed: data block is full!\n" [], t)
  else
    (⟨0, [("File contents:\n%s\n", [.s (generated env size)]),
      ("File created. name: %s, inode: %d, size: %d\n",
        [.s name.bytes, .d t.fresh, .d size.toInt])]⟩, t.add name (generated env size))

def cat (name : Name) : Reply :=
  match t.lookup name with
  | none => .error "cat Error: File %s was not found.\n" [.s name.bytes]
  | some n =>
    if n ∈ t.tree.dirs then .error "cat Error: Cannot perform cat on a directory.\n" []
    else ⟨0, [("%s\n", [.s (t.content n)])]⟩

def rm (name : Name) : Reply × Hierarchy :=
  match t.lookup name with
  | none => (.error "rm Error: File %s was not found.\n" [.s name.bytes], t)
  | some n =>
    if n ∈ t.tree.dirs then (.error "rm Error: Cannot remove a directory.\n" [], t)
    else (⟨0, []⟩, t.remove name)

def ln (src dest : Name) : Reply × Hierarchy :=
  match t.lookup src with
  | none => (.error "ln Error: File %s was not found.\n" [.s src.bytes], t)
  | some n =>
    if (t.lookup dest).isSome then
      (.error "ln Error: File %s exists and cannot be used for linking.\n" [.s dest.bytes], t)
    else if n ∈ t.tree.dirs then (.error "ln Error: %s is a directory.\n" [.s src.bytes], t)
    else if t.Full then (.error "ln Error: Current directory is full.\n" [], t)
    else if t.freeBlocks < blocksFor (t.size n) then
      (.error "ln Error: Not enough free blocks in the super block.\n" [], t)
    else if t.freeInodes < 1 then
      (.error "ln Error: Not enough free inodes in the super block.\n" [], t)
    else (⟨0, [("Link created: %s\n", [.s dest.bytes])]⟩, t.link dest n)

def cp (src dest : Name) : Reply × Hierarchy :=
  match t.lookup src with
  | none => (.error "cp Error: File %s was not found.\n" [.s src.bytes], t)
  | some n =>
    if (t.lookup dest).isSome then
      (.error "cp Error: File %s exists and cannot be over written.\n" [.s dest.bytes], t)
    else if t.Full then (.error "cp Error: directory is full.\n" [], t)
    else if t.freeInodes < 1 then (.error "cp Error: inode is full.\n" [], t)
    else if t.freeBlocks < blocksTaken (t.size n) then
      (.error "cp Error: data block is full.\n" [], t)
    else
      (⟨0, (if 7680 < t.size n then [("3\n", [])] else []) ++
        [("File copy success: copied %s to %s.\n", [.s src.bytes, .s dest.bytes])]⟩,
        t.add dest (t.content n))

/-- The block is taken before the checks. -/
def mkdir (env : Env) (name : Name) : Reply × Hierarchy :=
  if (t.lookup name).isSome then
    (.error "mkdir Error: %s already exists.\n" [.s name.bytes], t.lose)
  else if t.Full then (.error "mkdir Error: Directory is full.\n" [], t.lose)
  else if t.freeInodes < 1 then (.error "mkdir Error: Inode is full.\n" [], t.lose)
  else (⟨0, []⟩, t.make env name)

def rmdir (name : Name) : Reply × Hierarchy :=
  match t.lookup name with
  | none => (.error "rmdir Error: %s does not exist.\n" [.s name.bytes], t)
  | some n =>
    if n ∉ t.tree.dirs then
      (.error "rmdir Error: %s is not a directory.\n" [.s name.bytes], t)
    else if name = dot then (.error "rmdir Error: Cannot remove the current directory.\n" [], t)
    else if name = dotDot then (.error "rmdir Error: Cannot remove the parent directory.\n" [], t)
    else if t.tree.kids n ≠ [] then (.error "rmdir Error: Directory is not empty.\n" [], t)
    else (⟨0, []⟩, t.removeDir name n)

def cd (name : Name) : Reply × Hierarchy :=
  if name = dot then (⟨0, []⟩, t)
  else if name = dotDot then (⟨0, []⟩, t.enter (t.tree.up t.here))
  else
    match t.lookup name with
    | none => (.error "cd Error: %s does not exist.\n" [.s name.bytes], t)
    | some n => (⟨0, []⟩, t.enter n)

/-- The lines of `ls` for an entry. -/
def line (e : List Byte × ℤ) : List (String × List Arg) :=
  [(if e.2 ∈ t.tree.dirs then "type: dir, " else "type: file, ", []),
    ("name \"%s\", inode %d, size %d byte\n", [.s e.1, .d e.2, .d (t.size e.2)])]

def stat (left : ℤ) (name : Name) : Reply :=
  match t.lookup name with
  | none => .error "file cat error: file is not exist.\n" []
  | some n =>
    ⟨left, [("Inode = %d\n", [.d n]),
      (if n ∈ t.tree.dirs then "type = directory\n" else "type = file\n", []),
      ("size = %d\n", [.d (t.size n)]), ("linkCount = %d\n", [.d (t.links n)]),
      ("num of block = %d\n", [.d (blocksFor (t.size n))])]⟩

def df (left : ℤ) : Reply :=
  ⟨left, [("File System Status: \n", []),
    ("# of free blocks: %d (%d bytes), # of free inodes: %d\n",
      [.d t.freeBlocks, .d (t.freeBlocks * 512), .d t.freeInodes])]⟩

/-- A move finds the current directory in its block. -/
def Settled : Prop := t.stored = none ∨ t.stored = some t.kids

instance : Decidable t.Settled := by unfold Settled; infer_instance

/-- What the program does as the tables say: `cd` moves to a directory, `..` not from the root, and
not while the root has changed since it was written; a directory is made while a block is free, and
below 131, where the number of the current one is no data block; `rmdir` finds its name; and `cp`
copies no directory. -/
def Served : Request → Prop
  | .call (.cd name) => name = dot ∨ (name = dotDot ∧ t.here ≠ 0 ∧ t.Settled) ∨
      (name ≠ dotDot ∧ (t.lookup name = none ∨
        (t.lookup name).all (· ∈ t.tree.dirs) = true ∧ t.Settled))
  | .call (.mkdir name) => (t.lookup name).isSome = true ∨ t.Full ∨ t.freeInodes < 1 ∨
      0 < t.freeBlocks ∧ (t.stored = none → t.here < 131)
  | .call (.rmdir name) => (t.lookup name).isSome = true
  | .call (.cp src _) => (t.lookup src).all (· ∉ t.tree.dirs) = true
  | _ => True

instance (q : Request) : Decidable (t.Served q) := by
  cases q with
  | call c => cases c <;> unfold Served <;> infer_instance
  | _ => exact isTrue trivial

/-- What the tables say to a request, and what becomes of them. -/
def step : Hierarchy → Context × Request → Reply × Hierarchy
  | t, (ctx, .call (.create name size)) => t.create ctx.toEnv name size
  | t, (_, .call (.cat name)) => (t.cat name, t)
  | t, (_, .call (.rm name)) => t.rm name
  | t, (_, .call (.ln src dest)) => t.ln src dest
  | t, (_, .call (.cp src dest)) => t.cp src dest
  | t, (ctx, .call (.mkdir name)) => t.mkdir ctx.toEnv name
  | t, (_, .call (.rmdir name)) => t.rmdir name
  | t, (_, .call (.cd name)) => t.cd name
  | t, (_, .ls) => (⟨0, t.listing.flatMap t.line⟩, t)
  | t, (ctx, .stat name) => (t.stat ctx.left name, t)
  | t, (ctx, .df) => (t.df ctx.left, t)
  | t, (_, .usage text) => (.error text [], t)
  | t, (_, .unknown comm) => (.error "%s: command not found.\n" [.s comm], t)

end Hierarchy

/-- The disk carries the hierarchy: every inode in use has its place in the tree. -/
structure Carries (fs : FileSystem) (t : Hierarchy) : Prop where
  tree : Tree (usedInodes fs) t.tree fs
  here : fs.here = t.here
  dirs : ∀ n ∈ usedInodes fs, fs.isDir n → n ∈ t.tree.dirs
  file : ∀ n ∈ usedInodes fs, n ∉ t.tree.dirs →
    (fs.inode n).blockCount = Int32.ofInt (numBlock (fs.inode n).size.toInt) ∧
    content fs.disk (fs.inode n) = t.content n ∧ 0 ∉ t.content n
  linkCount : ∀ n ∈ t.tree.dirs, fs.linkCount n = t.linkCount n
  blocks : fs.superBlock.freeBlockCount.toInt =
    3965 - ((∑ n ∈ usedInodes fs, need (fs.inode n) : ℕ) : ℤ) - t.lost
  numbered : t.stored = none → fs.curDirInode = fs.here
  stored : ∀ l, t.stored = some l → AtFormat t.tree fs ∧
    Lists (dentryLayout.decode (fs.disk 131)) ((dot.bytes, 0) :: l)

variable {fs fs' : FileSystem} {t : Hierarchy} {ctx : Context} {n : ℤ}

namespace Carries

theorem owned (h : Carries fs t) : Owned fs := ⟨h.tree.held⟩

theorem mem_nodes (h : Carries fs t) : n ∈ t.nodes ↔ n ∈ usedInodes fs := by
  rw [Hierarchy.nodes, Finset.mem_insert, Finset.mem_biUnion]
  constructor
  · rintro (rfl | ⟨d, hd, hn⟩)
    · exact h.tree.used h.tree.good.root_mem
    · exact (h.tree.good.kid d hd n (List.mem_toFinset.mp hn)).1
  · intro hn
    by_cases h0 : n = 0
    · exact Or.inl h0
    · obtain ⟨d, hd, hnd⟩ := NameTree.links_pos_iff.mp (h.tree.good.named n hn h0)
      exact Or.inr ⟨d, hd, List.mem_toFinset.mpr hnd⟩

theorem nodes_eq (h : Carries fs t) : t.nodes = usedInodes fs := by
  ext n
  exact h.mem_nodes

theorem lists (h : Carries fs t) : Lists fs.curDir t.listing := by
  have hcur := h.tree.curDir
  rw [h.here] at hcur
  exact hcur

theorem search (h : Carries fs t) (name : Name) :
    fs.searchCurDir name = some ((t.lookup name).getD (-1)) := h.lists.search name

theorem search_none (h : Carries fs t) {name : Name} (hl : t.lookup name = none) :
    fs.searchCurDir name = some (-1) := by rw [h.search, hl]; rfl

theorem search_some (h : Carries fs t) {name : Name} (hl : t.lookup name = some n) :
    fs.searchCurDir name = some n := by rw [h.search, hl]; rfl

theorem entry_used (h : Carries fs t) {e : List Byte × ℤ} (he : e ∈ t.listing) :
    e.2 ∈ usedInodes fs := by
  apply h.tree.entry_used
  rw [h.lists.listing]
  exact he

theorem lookup_used (h : Carries fs t) {name : Name} (hl : t.lookup name = some n) :
    n ∈ usedInodes fs := by
  obtain ⟨e, he, rfl⟩ := Option.map_eq_some_iff.mp hl
  exact h.entry_used (List.mem_of_find?_eq_some he)

theorem full_iff (h : Carries fs t) : fs.curDir.Full ↔ t.Full := by
  have hlen := congrArg List.length h.lists.listing
  rw [Dentry.length_listing] at hlen
  have hf := h.lists.fits
  have hcoe := hf.coe_count
  have hle := hf.2
  unfold Dentry.Full Hierarchy.Full
  simp only [MAX_DIR_ENTRY]
  omega

/-! ### What an inode says of itself -/

theorem isDir_iff (h : Carries fs t) (hn : n ∈ usedInodes fs) :
    (fs.inode n).type = .directory ↔ n ∈ t.tree.dirs :=
  ⟨h.dirs n hn, fun hd => (h.tree.good.dir n hd).2⟩

theorem size_eq (h : Carries fs t) (hn : n ∈ usedInodes fs) :
    (fs.inode n).size.toInt = t.size n := by
  by_cases hd : n ∈ t.tree.dirs
  · have hsize := (h.tree.held.directory n hn ((h.isDir_iff hn).mpr hd)).1
    rw [hsize, Hierarchy.size, if_pos hd]
    rfl
  · have hpos := (h.tree.held.sane.size n).1
    rw [Hierarchy.size, if_neg hd, ← (h.file n hn hd).2.1, content, List.length_map,
      List.length_range, Int.toNat_of_nonneg hpos]

theorem size_le (h : Carries fs t) (hn : n ∈ usedInodes fs) : t.size n ≤ 73216 := by
  have hsize := (h.tree.held.sane.size n).2
  rw [h.size_eq hn] at hsize
  omega

theorem numBlock_eq (h : Carries fs t) (hn : n ∈ usedInodes fs) :
    numBlock (fs.inode n).size.toInt = Hierarchy.blocksFor (t.size n) := by
  have hnum := numBlock_spec (fs.inode n).size.toInt
  rw [h.size_eq hn] at hnum ⊢
  unfold Hierarchy.blocksFor
  omega

theorem blockCount_eq (h : Carries fs t) (hn : n ∈ usedInodes fs) :
    (fs.inode n).blockCount.toInt = Hierarchy.blocksFor (t.size n) := by
  by_cases hd : n ∈ t.tree.dirs
  · have hone := (h.tree.held.directory n hn ((h.isDir_iff hn).mpr hd)).2
    rw [hone, Hierarchy.size, if_pos hd]
    rfl
  · have hle := h.size_le hn
    rw [(h.file n hn hd).1, h.numBlock_eq hn, toInt_ofInt (by omega)]
    unfold Hierarchy.blocksFor
    omega

theorem links_eq (h : Carries fs t) (hn : n ∈ usedInodes fs) :
    (fs.inode n).linkCount.toInt = t.links n := by
  by_cases hd : n ∈ t.tree.dirs
  · rw [Hierarchy.links, if_pos hd]
    exact h.linkCount n hd
  · rw [Hierarchy.links, if_neg hd]
    exact h.tree.good.linked n hn (mt (h.dirs n hn) hd)

theorem need_eq (h : Carries fs t) (hn : n ∈ usedInodes fs) :
    need (fs.inode n) = Hierarchy.blocksTaken (t.size n) := by
  have hcoe := coe_blocks (h.tree.held.sane.size n).1
  rw [h.numBlock_eq hn] at hcoe
  have hsize := h.size_eq hn
  unfold need Hierarchy.blocksTaken
  split_ifs <;> omega

theorem freeBlocks_eq (h : Carries fs t) :
    fs.superBlock.freeBlockCount.toInt = t.freeBlocks := by
  rw [h.blocks, Hierarchy.freeBlocks, h.nodes_eq, Finset.sum_congr rfl fun n hn => h.need_eq hn]

theorem freeInodes_eq (h : Carries fs t) :
    fs.superBlock.freeInodeCount.toInt = t.freeInodes := by
  have hcounted := h.tree.held.sane.counted.inodes
  simp only [MAX_INODE] at hcounted
  rw [Hierarchy.freeInodes, h.nodes_eq]
  omega

/-! ### Reports -/

/-- The test of `ls` and `file_stat`, which asks for a file. -/
theorem text_eq (h : Carries fs t) (hn : n ∈ usedInodes fs) (a b : String) :
    (if (fs.inode n).type = .file then a else b) = if n ∈ t.tree.dirs then b else a := by
  by_cases hd : n ∈ t.tree.dirs
  · have hdir : ¬(fs.inode n).type = .file := by
      rw [(h.isDir_iff hn).mpr hd]
      decide
    rw [if_neg hdir, if_pos hd]
  · rw [if_pos (TYPE.eq_file (mt (h.isDir_iff hn).mp hd)), if_neg hd]

theorem ls_reply (h : Carries fs t) :
    ls ctx.toEnv fs = some (⟨0, t.listing.flatMap t.line⟩, fs) := by
  have hlines : fs.curDir.listing.flatMap (lsLine fs) = t.listing.flatMap t.line := by
    rw [h.lists.listing]
    apply List.flatMap_congr
    intro e he
    have hn := h.entry_used he
    rw [lsLine, Hierarchy.line, h.size_eq hn, h.text_eq hn]
  rw [ls_listing h.lists.fits, hlines]
  intro e he
  exact mem_usedInodes_range (h.tree.entry_used he)

theorem stat_reply (h : Carries fs t) (name : Name) :
    fileStat ctx.toEnv ctx.left name fs = some (t.stat ctx.left name, fs) := by
  rw [fileStat, Hierarchy.stat]
  cases hl : t.lookup name with
  | none =>
    rw [h.search_none hl]
    rfl
  | some n =>
    have hn := h.lookup_used hl
    have hrange := mem_usedInodes_range hn
    rw [h.search_some hl, Option.bind_some, if_neg (by omega), readInode_of_range hrange,
      Option.map_some, h.text_eq hn, h.size_eq hn, h.links_eq hn, h.blockCount_eq hn]

/-- The number of bytes does not overflow. -/
theorem df_reply (h : Carries fs t) : fsStat ctx.left fs = some (t.df ctx.left, fs) := by
  have hrange := h.tree.held.sane.counted.blocks_range
  have hbytes : (fs.superBlock.freeBlockCount * 512).toInt = t.freeBlocks * 512 := by
    rw [Int32.toInt_mul, ← h.freeBlocks_eq, Int.bmod_eq_of_le]
    all_goals simp
    all_goals omega
  rw [fsStat, hbytes, h.freeBlocks_eq, h.freeInodes_eq]
  rfl

end Carries

end OperatingSystems.FS
