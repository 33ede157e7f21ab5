import OperatingSystems.FSShared
import OperatingSystems.FSShell
import Mathlib.Data.Set.Finite.Basic

/-! The root directory as a table from which everything that the program prints can be read, and
the program as this table. -/
namespace OperatingSystems.FS

/-- The names in the order of the listing, each with its inode number, and what the inodes hold.
Number 0 is the root itself. -/
structure Table where
  entries : List (Name × ℕ)
  content : ℕ → List Byte

namespace Table

def empty : Table := ⟨[(dot, 0)], fun _ => []⟩

variable (t : Table)

def numbers : List ℕ := t.entries.map Prod.snd

def lookup (name : Name) : Option ℕ := (t.entries.find? fun e => e.1 = name).map Prod.snd

def Full : Prop := 21 ≤ t.entries.length

instance : Decidable t.Full := by unfold Full; infer_instance

theorem exists_fresh : ∃ n, n ∉ t.numbers := by
  obtain ⟨n, hn⟩ := Infinite.exists_notMem_finset t.numbers.toFinset
  exact ⟨n, fun h => hn (List.mem_toFinset.mpr h)⟩

/-- The least number that no entry has. -/
def fresh : ℕ := Nat.find t.exists_fresh

def size (n : ℕ) : ℕ := if n = 0 then 1 else (t.content n).length

def blockCount (n : ℕ) : ℕ := (t.size n + 511) / 512

/-- One more for the map, if the direct slots do not suffice. -/
def blocksTaken (n : ℕ) : ℕ := t.blockCount n + if 7680 < t.size n then 1 else 0

/-- The format leaves the count of the root at 0. -/
def linkCount (n : ℕ) : ℕ := if n = 0 then 0 else t.numbers.count n

def freeBlocks : ℤ := 3965 - ((∑ n ∈ t.numbers.toFinset, t.blocksTaken n : ℕ) : ℤ)

def freeInodes : ℤ := 512 - (t.numbers.toFinset.card : ℤ)

/-- A name with a string of its own. -/
def add (name : Name) (c : List Byte) : Table where
  entries := t.entries ++ [(name, t.fresh)]
  content := Function.update t.content t.fresh c

/-- One more name for a number. -/
def link (name : Name) (n : ℕ) : Table := { t with entries := t.entries ++ [(name, n)] }

def remove (name : Name) : Table := { t with entries := t.entries.eraseP fun e => e.1 = name }

/-- The lines of `ls` for an entry. -/
def line (e : Name × ℕ) : List (String × List Arg) :=
  [(if e.2 = 0 then "type: dir, " else "type: file, ", []),
    ("name \"%s\", inode %d, size %d byte\n", [.s e.1.bytes, .d e.2, .d (t.size e.2)])]

def create (env : Env) (name : Name) (size : Int32) : Reply × Table :=
  if size.toInt ≤ 0 ∨ size.toInt > 73216 then
    (.error "File create failed: file size error\n" [], t)
  else if (t.lookup name).isSome then
    (.error "File create failed:  %s exist.\n" [.s name.bytes], t)
  else if t.Full then (.error "File create failed: directory is full!\n" [], t)
  else
    (⟨0, [("File contents:\n%s\n", [.s (generated env size)]),
      ("File created. name: %s, inode: %d, size: %d\n",
        [.s name.bytes, .d t.fresh, .d size.toInt])]⟩, t.add name (generated env size))

def cat (name : Name) : Reply :=
  match t.lookup name with
  | none => .error "cat Error: File %s was not found.\n" [.s name.bytes]
  | some n =>
    if n = 0 then .error "cat Error: Cannot perform cat on a directory.\n" []
    else ⟨0, [("%s\n", [.s (t.content n)])]⟩

def rm (name : Name) : Reply × Table :=
  match t.lookup name with
  | none => (.error "rm Error: File %s was not found.\n" [.s name.bytes], t)
  | some n =>
    if n = 0 then (.error "rm Error: Cannot remove a directory.\n" [], t)
    else (⟨0, []⟩, t.remove name)

def ln (src dest : Name) : Reply × Table :=
  match t.lookup src with
  | none => (.error "ln Error: File %s was not found.\n" [.s src.bytes], t)
  | some n =>
    if (t.lookup dest).isSome then
      (.error "ln Error: File %s exists and cannot be used for linking.\n" [.s dest.bytes], t)
    else if n = 0 then (.error "ln Error: %s is a directory.\n" [.s src.bytes], t)
    else if t.Full then (.error "ln Error: Current directory is full.\n" [], t)
    else (⟨0, [("Link created: %s\n", [.s dest.bytes])]⟩, t.link dest n)

/-- A copied file goes through the map block exactly if the direct slots do not suffice. -/
def cp (src dest : Name) : Reply × Table :=
  match t.lookup src with
  | none => (.error "cp Error: File %s was not found.\n" [.s src.bytes], t)
  | some n =>
    if (t.lookup dest).isSome then
      (.error "cp Error: File %s exists and cannot be over written.\n" [.s dest.bytes], t)
    else if t.Full then (.error "cp Error: directory is full.\n" [], t)
    else
      (⟨0, (if 7680 < t.size n then [("3\n", [])] else []) ++
        [("File copy success: copied %s to %s.\n", [.s src.bytes, .s dest.bytes])]⟩,
        t.add dest (t.content n))

def stat (left : ℤ) (name : Name) : Reply :=
  match t.lookup name with
  | none => .error "file cat error: file is not exist.\n" []
  | some n =>
    ⟨left, [("Inode = %d\n", [.d n]),
      (if n = 0 then "type = directory\n" else "type = file\n", []),
      ("size = %d\n", [.d (t.size n)]), ("linkCount = %d\n", [.d (t.linkCount n)]),
      ("num of block = %d\n", [.d (t.blockCount n)])]⟩

def df (left : ℤ) : Reply :=
  ⟨left, [("File System Status: \n", []),
    ("# of free blocks: %d (%d bytes), # of free inodes: %d\n",
      [.d t.freeBlocks, .d (t.freeBlocks * 512), .d t.freeInodes])]⟩

/-- The requests that stay in the root and among regular files. -/
def InRoot : Request → Prop
  | .call (.mkdir _) | .call (.rmdir _) => False
  | .call (.cd name) => name = dot
  | .call (.cp src _) => src ≠ dot
  | _ => True

instance (q : Request) : Decidable (InRoot q) := by
  unfold InRoot
  split <;> infer_instance

/-- What the table says to a request, and what becomes of it. -/
def step : Table → Context × Request → Reply × Table
  | t, (ctx, .call (.create name size)) => t.create ctx.toEnv name size
  | t, (_, .call (.cat name)) => (t.cat name, t)
  | t, (_, .call (.rm name)) => t.rm name
  | t, (_, .call (.ln src dest)) => t.ln src dest
  | t, (_, .call (.cp src dest)) => t.cp src dest
  | t, (_, .call _) => (⟨0, []⟩, t)
  | t, (_, .ls) => (⟨0, t.entries.flatMap t.line⟩, t)
  | t, (ctx, .stat name) => (t.stat ctx.left name, t)
  | t, (ctx, .df) => (t.df ctx.left, t)
  | t, (_, .usage text) => (.error text [], t)
  | t, (_, .unknown comm) => (.error "%s: command not found.\n" [.s comm], t)

end Table

/-- The disk holds the table. -/
structure Holds (fs : FileSystem) (t : Table) : Prop where
  clean : Clean fs
  listing : fs.curDir.listing = t.entries.map fun e => (e.1.bytes, (e.2 : ℤ))
  file : ∀ n ∈ t.numbers, n ≠ 0 → (fs.inode n).type = .file ∧
    (fs.inode n).blockCount = Int32.ofInt (numBlock (fs.inode n).size.toInt) ∧
    content fs.disk (fs.inode n) = t.content n ∧ 0 ∉ t.content n
  rootName : ∀ e ∈ t.entries, e.2 = 0 → e.1 = dot
  rootLinks : (fs.inode 0).linkCount = 0
  rootBlock : ownBlock (fs.inode 0) = 131
  curDirInode : fs.curDirInode = 131
  magic : fs.superBlock.magicNumber = MAGIC_NUMBER

variable {fs fs' : FileSystem} {t : Table} {ctx : Context}

/-- An entry of the listing has the name that the entry of the table has. -/
theorem entry_named (name : Name) : ((fun e : List Byte × ℤ => e.1 == name.bytes) ∘
    fun e : Name × ℕ => (e.1.bytes, (e.2 : ℤ))) = fun e => decide (e.1 = name) := by
  funext e
  rw [Function.comp_apply, ← Bool.coe_iff_coe]
  simp only [beq_iff_eq, decide_eq_true_eq]
  exact ⟨Name.ext_bytes, fun he => congrArg Name.bytes he⟩

namespace Holds

theorem named_eq (h : Holds fs t) : named fs.curDir = t.numbers.map ((↑) : ℕ → ℤ) := by
  rw [named, h.listing, Table.numbers, List.map_map, List.map_map]
  rfl

theorem mem_used (h : Holds fs t) {n : ℕ} : (n : ℤ) ∈ usedInodes fs ↔ n ∈ t.numbers := by
  rw [h.clean.allocated, h.named_eq]
  exact List.mem_map_of_injective Nat.cast_injective

theorem find_eq (h : Holds fs t) (name : Name) :
    Dentry.find fs.curDir.listing name = ((t.lookup name).map ((↑) : ℕ → ℤ)).getD (-1) := by
  rw [Dentry.find, h.listing, List.find?_map, entry_named, Table.lookup]
  simp only [Option.map_map]
  rfl

theorem search (h : Holds fs t) (name : Name) :
    fs.searchCurDir name = some (((t.lookup name).map ((↑) : ℕ → ℤ)).getD (-1)) := by
  rw [h.clean.search, h.find_eq]

theorem search_none (h : Holds fs t) {name : Name} (hl : t.lookup name = none) :
    fs.searchCurDir name = some (-1) := by rw [h.search, hl]; rfl

theorem search_some (h : Holds fs t) {name : Name} {n : ℕ} (hl : t.lookup name = some n) :
    fs.searchCurDir name = some (n : ℤ) := by rw [h.search, hl]; rfl

theorem mem_numbers {name : Name} {n : ℕ} (hl : t.lookup name = some n) : n ∈ t.numbers := by
  obtain ⟨e, he, rfl⟩ := Option.map_eq_some_iff.mp hl
  exact List.mem_map_of_mem (List.mem_of_find?_eq_some he)

theorem full_iff (h : Holds fs t) : fs.curDir.Full ↔ t.Full := by
  have hlen := congrArg List.length h.listing
  rw [Dentry.length_listing, List.length_map] at hlen
  have hf := h.clean.fits
  have hcoe := hf.coe_count
  have hle := hf.2
  unfold Dentry.Full Table.Full
  simp only [MAX_DIR_ENTRY]
  omega

/-! ### What an inode says of itself -/

theorem range (h : Holds fs t) {n : ℕ} (hn : n ∈ t.numbers) : 0 ≤ (n : ℤ) ∧ (n : ℤ) < 512 :=
  mem_usedInodes_range (h.mem_used.mpr hn)

theorem type_iff (h : Holds fs t) {n : ℕ} (hn : n ∈ t.numbers) :
    (fs.inode n).type = .file ↔ n ≠ 0 := by
  constructor
  · rintro htype rfl
    exact h.clean.ne_root htype rfl
  · intro h0
    exact (h.file n hn h0).1

theorem size_eq (h : Holds fs t) {n : ℕ} (hn : n ∈ t.numbers) :
    (fs.inode n).size.toInt = t.size n := by
  by_cases h0 : n = 0
  · subst h0
    have hdir := (h.clean.directory 0 h.clean.root_used h.clean.root).1
    rw [Nat.cast_zero, hdir, Table.size, if_pos rfl]
    rfl
  · have hpos := (h.clean.sane.size n).1
    rw [Table.size, if_neg h0, ← (h.file n hn h0).2.2.1, content, List.length_map,
      List.length_range, Int.toNat_of_nonneg hpos]

theorem size_le (h : Holds fs t) {n : ℕ} (hn : n ∈ t.numbers) : t.size n ≤ 73216 := by
  have hsize := (h.clean.sane.size n).2
  rw [h.size_eq hn] at hsize
  omega

theorem numBlock_eq (h : Holds fs t) {n : ℕ} (hn : n ∈ t.numbers) :
    numBlock (fs.inode n).size.toInt = t.blockCount n := by
  have hnum := numBlock_spec (fs.inode n).size.toInt
  rw [h.size_eq hn] at hnum ⊢
  unfold Table.blockCount
  omega

theorem blockCount_eq (h : Holds fs t) {n : ℕ} (hn : n ∈ t.numbers) :
    (fs.inode n).blockCount.toInt = t.blockCount n := by
  by_cases h0 : n = 0
  · subst h0
    have hdir := (h.clean.directory 0 h.clean.root_used h.clean.root).2
    rw [Nat.cast_zero, hdir, Table.blockCount, Table.size, if_pos rfl]
    rfl
  · have hle := h.size_le hn
    rw [(h.file n hn h0).2.1, h.numBlock_eq hn, toInt_ofInt (by omega)]
    unfold Table.blockCount
    omega

theorem linkCount_eq (h : Holds fs t) {n : ℕ} (hn : n ∈ t.numbers) :
    (fs.inode n).linkCount.toInt = t.linkCount n := by
  by_cases h0 : n = 0
  · subst h0
    rw [Nat.cast_zero, h.rootLinks, Table.linkCount, if_pos rfl]
    rfl
  · rw [h.clean.links n (h.mem_used.mpr hn) ((h.type_iff hn).mpr h0), Table.linkCount, if_neg h0,
      h.named_eq, List.count_map_of_injective _ _ Nat.cast_injective]

theorem need_eq (h : Holds fs t) {n : ℕ} (hn : n ∈ t.numbers) :
    need (fs.inode n) = t.blocksTaken n := by
  have hcoe := coe_blocks (h.clean.sane.size n).1
  rw [h.numBlock_eq hn] at hcoe
  have hsize := h.size_eq hn
  unfold need Table.blocksTaken
  split_ifs <;> omega

theorem usedInodes_eq (h : Holds fs t) :
    usedInodes fs = t.numbers.toFinset.map Nat.castEmbedding := by
  ext n
  rw [h.clean.allocated, h.named_eq, List.mem_map, Finset.mem_map]
  simp

theorem freeBlocks_eq (h : Holds fs t) : fs.superBlock.freeBlockCount.toInt = t.freeBlocks := by
  rw [h.clean.free_blocks, Table.freeBlocks, h.usedInodes_eq, Finset.sum_map]
  congr 2
  apply Finset.sum_congr rfl
  intro n hn
  exact h.need_eq (List.mem_toFinset.mp hn)

theorem freeInodes_eq (h : Holds fs t) : fs.superBlock.freeInodeCount.toInt = t.freeInodes := by
  rw [h.clean.free_inodes, Table.freeInodes, h.usedInodes_eq, Finset.card_map]

/-! ### Reports -/

theorem ls_reply (h : Holds fs t) :
    ls ctx.toEnv fs = some (⟨0, t.entries.flatMap t.line⟩, fs) := by
  have hlines : fs.curDir.listing.flatMap (lsLine fs) = t.entries.flatMap t.line := by
    rw [h.listing, List.flatMap_map]
    apply List.flatMap_congr
    intro e he
    have hn : e.2 ∈ t.numbers := List.mem_map_of_mem he
    rw [lsLine, Table.line, h.size_eq hn]
    by_cases h0 : e.2 = 0
    · have hdir : ¬(fs.inode e.2).type = .file := fun hf => (h.type_iff hn).mp hf h0
      rw [if_neg hdir, if_pos h0]
    · rw [if_pos ((h.type_iff hn).mpr h0), if_neg h0]
  rw [h.clean.ls_listing, hlines]

theorem stat_reply (h : Holds fs t) (name : Name) :
    fileStat ctx.toEnv ctx.left name fs = some (t.stat ctx.left name, fs) := by
  rw [fileStat, Table.stat]
  cases hl : t.lookup name with
  | none =>
    rw [h.search_none hl]
    rfl
  | some n =>
    have hn := mem_numbers hl
    have hrange := h.range hn
    have htext : (if (fs.inode n).type = .file then "type = file\n" else "type = directory\n") =
        if n = 0 then "type = directory\n" else "type = file\n" := by
      by_cases h0 : n = 0
      · have hdir : ¬(fs.inode n).type = .file := fun hf => (h.type_iff hn).mp hf h0
        rw [if_neg hdir, if_pos h0]
      · rw [if_pos ((h.type_iff hn).mpr h0), if_neg h0]
    rw [h.search_some hl, Option.bind_some, if_neg (by omega), readInode_of_range hrange,
      Option.map_some, htext, h.size_eq hn, h.linkCount_eq hn, h.blockCount_eq hn]

/-- The number of bytes does not overflow. -/
theorem df_reply (h : Holds fs t) : fsStat ctx.left fs = some (t.df ctx.left, fs) := by
  have hrange := h.clean.sane.counted.blocks_range
  have hbytes : (fs.superBlock.freeBlockCount * 512).toInt = t.freeBlocks * 512 := by
    rw [Int32.toInt_mul, ← h.freeBlocks_eq, Int.bmod_eq_of_le]
    all_goals simp
    all_goals omega
  rw [fsStat, hbytes, h.freeBlocks_eq, h.freeInodes_eq]
  rfl

end Holds

end OperatingSystems.FS
