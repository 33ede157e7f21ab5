import OperatingSystems.FSDirOutcome
import OperatingSystems.FSFormat

/-! Every reachable state has exact free counters, so the late failures cannot happen, and a
command that answers -1 has changed nothing unless it is a refused `mkdir`. -/
namespace OperatingSystems.FS

variable {fs fs' : FileSystem} {env : Env}

/-- Directories, the disk and what does not change a size are of no concern to the counters. -/
theorem Sane.of_eq (h : Sane fs) (hsuper : fs'.superBlock = fs.superBlock)
    (hinodes : fs'.inodeMap = fs.inodeMap) (hblocks : fs'.blockMap = fs.blockMap)
    (hsize : ∀ n, (fs'.inode n).size = (fs.inode n).size) : Sane fs' := by
  refine ⟨⟨?_, ?_⟩, fun n => ?_⟩
  · rw [usedBlocks, hsuper, hblocks]
    exact h.counted.blocks
  · rw [usedInodes, hsuper, hinodes]
    exact h.counted.inodes
  · rw [hsize n]
    exact h.size n

theorem Sane.writeDiskBlock (h : Sane fs) (b : ℤ) (buf : Block) :
    Sane (fs.writeDiskBlock b buf) := by
  rw [fs.writeDiskBlock_rest]
  exact h.of_eq rfl rfl rfl fun _ => rfl

theorem Sane.released (h : Sane fs) {s : ℤ} {bs : Finset ℤ} (hr : Released fs s bs fs') :
    Sane fs' := by
  refine ⟨hr.counted h.counted, fun n => ?_⟩
  rw [hr.rest]
  exact h.size n

theorem size_update_linkCount (fs : FileSystem) (s : ℤ) (l : Int32) (n : ℤ) :
    (Function.update fs.inode s { fs.inode s with linkCount := l } n).size =
      (fs.inode n).size := by
  by_cases hn : n = s
  · subst hn
    rw [Function.update_self]
  · rw [Function.update_of_ne hn]

theorem Sane.links (h : Sane fs) {src dest : Name} {s : ℤ} (hl : Links src dest fs s fs') :
    Sane fs' := by
  rw [hl.rest]
  exact h.of_eq rfl rfl rfl (size_update_linkCount fs s _)

theorem Sane.unlinks (h : Sane fs) {name : Name} {s : ℤ} (hu : Unlinks name fs s fs') :
    Sane fs' := by
  rcases hu.rest with ⟨-, hr⟩ | ⟨-, bs, hr, -⟩
  · rw [hr]
    exact h.of_eq rfl rfl rfl (size_update_linkCount fs s _)
  · exact h.released hr

theorem Sane.makes (h : Sane fs) {name : Name} {n : ℤ} {nd : Inode} {fs₁ : FileSystem}
    (hm : Makes env name fs n nd fs₁ fs') : Sane fs' := by
  have hsize : 0 ≤ nd.size.toInt ∧ nd.size.toInt ≤ 73216 := by
    rw [hm.size]
    decide
  have h₁ : Sane fs₁ := by
    cases hm.made with
    | block added => exact h.added added hsize
    | noBlock full range fresh first own rest =>
      have hc := h.counted.takeInode range fresh
      rw [rest]
      exact ⟨⟨hc.blocks, hc.inodes⟩, h.size_update n hsize⟩
  rw [hm.rest]
  exact h₁.writeDiskBlock _ _

theorem Sane.moves (h : Sane fs) {t : ℤ} (hm : Moves env fs t fs') : Sane fs' := by
  obtain ⟨target, current, -, -, hr⟩ := hm.target
  rw [hr]
  exact h.of_eq rfl rfl rfl fun _ => rfl

theorem Sane.getBlock (h : Sane fs) : Sane fs.getBlock.2 := by
  rcases getBlock_cases h.counted with ⟨-, hg⟩ | ⟨b, hb, hfresh, -, hg⟩
  · rw [hg]
    exact h
  · rw [hg]
    exact ⟨h.counted.takeBlock hb hfresh, h.size⟩

/-- `cat` only reads. -/
theorem fileCat_state {name : Name} {r : Reply} (h : fileCat env name fs = some (r, fs')) :
    fs' = fs := by
  unfold fileCat at h
  simp only [Option.bind_eq_some_iff] at h
  obtain ⟨s, -, nd, -, h⟩ := h
  split at h
  · simp only [Option.some_inj, Prod.mk.injEq] at h
    exact h.2.symm
  split at h
  · simp only [Option.some_inj, Prod.mk.injEq] at h
    exact h.2.symm
  simp only [Option.bind_eq_some_iff, Option.map_eq_some_iff, Prod.mk.injEq] at h
  obtain ⟨_, -, _, -, -, h⟩ := h
  exact h.symm

/-- All that a command can do. A refused `mkdir` has its own case, for it took a block. -/
inductive Does (env : Env) (fs : FileSystem) : Command → Reply → FileSystem → Prop
  | refused (cmd : Command) (r : Reply) (ret : r.ret = -1) (make : ∀ name, cmd ≠ .mkdir name) :
      Does env fs cmd r fs
  | cats (name : Name) (r : Reply) : Does env fs (.cat name) r fs
  | creates (name : Name) (size : Int32) (n : ℤ) (nd : Inode) (r : Reply) (fs' : FileSystem)
      (ret : r.ret = 0) (what : Creates env name size fs n nd fs') :
      Does env fs (.create name size) r fs'
  | unlinks (name : Name) (s : ℤ) (r : Reply) (fs' : FileSystem) (ret : r.ret = 0)
      (what : Unlinks name fs s fs') : Does env fs (.rm name) r fs'
  | takesBlock (name : Name) (r : Reply) (ret : r.ret = -1) (why : MakeRefused name fs) :
      Does env fs (.mkdir name) r fs.getBlock.2
  | makes (name : Name) (n : ℤ) (nd : Inode) (fs₁ : FileSystem) (r : Reply) (fs' : FileSystem)
      (ret : r.ret = 0) (what : Makes env name fs n nd fs₁ fs') : Does env fs (.mkdir name) r fs'
  | removesDir (name : Name) (s : ℤ) (r : Reply) (fs' : FileSystem) (ret : r.ret = 0)
      (what : RemovesDir name fs s fs') : Does env fs (.rmdir name) r fs'
  | remains (r : Reply) (ret : r.ret = 0) : Does env fs (.cd dot) r fs
  | moves (name : Name) (t : ℤ) (r : Reply) (fs' : FileSystem) (ret : r.ret = 0)
      (other : name ≠ dot) (leads : Leads name fs t) (what : Moves env fs t fs') :
      Does env fs (.cd name) r fs'
  | links (src dest : Name) (s : ℤ) (r : Reply) (fs' : FileSystem) (ret : r.ret = 0)
      (what : Links src dest fs s fs') : Does env fs (.ln src dest) r fs'
  | copies (src dest : Name) (s n : ℤ) (nd : Inode) (r : Reply) (fs' : FileSystem)
      (ret : r.ret = 0) (what : Copies src dest fs s n nd fs') : Does env fs (.cp src dest) r fs'

theorem Sane.does (h : Sane fs) {cmd : Command} {r : Reply}
    (hx : execute fs (env, cmd) = some (r, fs')) : Does env fs cmd r fs' := by
  cases cmd with
  | create name size =>
    rcases (fileCreate_outcome _ name size h.counted).cases hx with
      ⟨hret, -, rfl⟩ | ⟨hret, n, nd, hc⟩
    · exact .refused _ r hret nofun
    · exact .creates name size n nd r fs' hret hc
  | cat name =>
    rw [fileCat_state hx]
    exact .cats name r
  | rm name =>
    rcases (fileRemove_outcome _ name h).cases hx with ⟨hret, -, rfl⟩ | ⟨hret, s, hu⟩
    · exact .refused _ r hret nofun
    · exact .unlinks name s r fs' hret hu
  | mkdir name =>
    rcases (dirMake_outcome _ name h.counted).cases hx with
      ⟨hret, hwhy, rfl⟩ | ⟨hret, n, nd, fs₁, hm⟩
    · exact .takesBlock name r hret hwhy
    · exact .makes name n nd fs₁ r fs' hret hm
  | rmdir name =>
    rcases (dirRemove_outcome _ name).cases hx with ⟨hret, -, rfl⟩ | ⟨hret, s, hr⟩
    · exact .refused _ r hret nofun
    · exact .removesDir name s r fs' hret hr
  | cd name =>
    rcases (dirChange_outcome _ name).cases hx with
      ⟨hret, -, rfl⟩ | ⟨hret, ⟨rfl, rfl⟩ | ⟨hname, t, hl, hm⟩⟩
    · exact .refused _ r hret nofun
    · exact .remains r hret
    · exact .moves name t r fs' hret hname hl hm
  | ln src dest =>
    rcases (hardLink_outcome _ src dest).cases hx with ⟨hret, -, rfl⟩ | ⟨hret, s, hl⟩
    · exact .refused _ r hret nofun
    · exact .links src dest s r fs' hret hl
  | cp src dest =>
    rcases (fileCopy_outcome _ src dest h).cases hx with ⟨hret, -, rfl⟩ | ⟨hret, s, n, nd, hc⟩
    · exact .refused _ r hret nofun
    · exact .copies src dest s n nd r fs' hret hc

/-- Every command keeps the counters exact and the sizes in range. -/
theorem Sane.of_step (h : Sane fs) {cmd : Command} {r : Reply}
    (hx : execute fs (env, cmd) = some (r, fs')) : Sane fs' := by
  cases h.does hx with
  | refused cmd r ret make => exact h
  | cats name r => exact h
  | creates name size n nd r fs' ret what =>
    exact h.added what.toAdded (by rw [what.size_eq]; exact ⟨what.size_pos.le, what.size_le⟩)
  | unlinks name s r fs' ret what => exact h.unlinks what
  | takesBlock name r ret why => exact h.getBlock
  | makes name n nd fs₁ r fs' ret what => exact h.makes what
  | removesDir name s r fs' ret what =>
    obtain ⟨bs, hr, -⟩ := what.rest
    exact h.released hr
  | remains r ret => exact h
  | moves name t r fs' ret other leads what => exact h.moves what
  | links src dest s r fs' ret what => exact h.links what
  | copies src dest s n nd r fs' ret what =>
    exact h.added what.toAdded (by rw [what.size_eq]; exact h.size s)

theorem sane_format : Sane format := by
  refine ⟨counted_format, fun n => ?_⟩
  rw [inode_format]
  by_cases hn : n = 0
  · subst hn
    rw [Function.update_self]
    decide
  · rw [Function.update_of_ne hn]
    exact (show 0 ≤ (0 : Int32).toInt ∧ (0 : Int32).toInt ≤ 73216 by decide)

/-- In every reachable state the free counters are exact. -/
theorem sane_of_reachable {inputs : List (Env × Command)} (h : Reachable inputs fs) : Sane fs := by
  obtain ⟨replies, hrun⟩ := h
  exact Mealy.invariant (fun _ _ => True) Sane (fun _ _ _ _ hs _ hx => hs.of_step hx) sane_format
    (Mealy.meets_of_forall execute _ format inputs fun _ _ _ => trivial) hrun

/-- How many of the first `n` bits are clear. -/
def clearBits (array : Bitmap) (n : ℕ) : ℕ := (List.range n).countP fun (i : ℕ) => getBit array i = 0

theorem clearBits_add_card_marked (array : Bitmap) (n : ℕ) :
    clearBits array n + (array.marked n).card = n := by
  induction n with
  | zero => rfl
  | succ n ih =>
    have hclear : clearBits array (n + 1) = clearBits array n + if array.bit n then 0 else 1 := by
      rw [clearBits, List.range_succ, List.countP_append, List.countP_singleton, ← clearBits,
        getBit_eq]
      by_cases hb : array.bit n <;> simp [hb]
    have hnot : (n : ℤ) ∉ array.marked n := fun h => absurd (Bitmap.mem_marked.mp h).1 (by omega)
    -- Bit `n` is counted on exactly one of the two sides.
    by_cases hb : array.bit n
    · have hmarked : array.marked (n + 1) = insert (n : ℤ) (array.marked n) := by
        ext i
        simp only [Bitmap.mem_marked, Finset.mem_insert]
        constructor
        · rintro ⟨hi, hbit⟩
          by_cases he : i = n
          · exact Or.inl he
          · exact Or.inr ⟨by omega, hbit⟩
        · rintro (rfl | ⟨hi, hbit⟩)
          · exact ⟨by omega, hb⟩
          · exact ⟨by omega, hbit⟩
      rw [hclear, if_pos hb, hmarked, Finset.card_insert_of_notMem hnot]
      omega
    · have hmarked : array.marked (n + 1) = array.marked n := by
        ext i
        simp only [Bitmap.mem_marked]
        constructor
        · rintro ⟨hi, hbit⟩
          refine ⟨?_, hbit⟩
          by_contra h
          apply hb
          rw [show (n : ℤ) = i by omega]
          exact hbit
        · rintro ⟨hi, hbit⟩
          exact ⟨by omega, hbit⟩
      rw [hclear, if_neg hb, hmarked]
      omega

/-- The command succeeds, unless it is cut at an access outside a directory that `curDir` is
not. -/
def Succeeds (fs : FileSystem) (o : Option (Reply × FileSystem)) : Prop :=
  (∃ r fs', o = some (r, fs') ∧ r.ret = 0) ∨ o = none ∧ ¬fs.curDir.Fits

theorem Succeeds.of_outcome {undefined : Prop} {effect : FileSystem → Prop}
    {o : Option (Reply × FileSystem)} (h : Outcome undefined False effect fs o)
    (hfits : undefined → ¬fs.curDir.Fits) : Succeeds fs o := by
  cases h with
  | undefined why => exact Or.inr ⟨rfl, hfits why⟩
  | refused r ret why => exact why.elim
  | done r fs' ret what => exact Or.inl ⟨r, fs', rfl, ret⟩

/-- The free counters count the clear bits, and past the checks of `file_create` and `file_copy`
neither `get_inode` nor `get_block` fails. -/
theorem free_counters_exact {inputs : List (Env × Command)} (hreach : Reachable inputs fs) :
    fs.superBlock.freeBlockCount.toInt = clearBits fs.blockMap MAX_BLOCK ∧
      fs.superBlock.freeInodeCount.toInt = clearBits fs.inodeMap MAX_INODE ∧
      (∀ env name size, CreatePasses name size fs → Succeeds fs (fileCreate env name size fs)) ∧
      ∀ env src dest, CopyPasses src dest fs → Succeeds fs (fileCopy env src dest fs) := by
  have h := sane_of_reachable hreach
  refine ⟨?_, ?_, ?_, ?_⟩
  · have hblocks := h.counted.blocks
    have hclear := clearBits_add_card_marked fs.blockMap MAX_BLOCK
    rw [usedBlocks] at hblocks
    omega
  · have hinodes := h.counted.inodes
    have hclear := clearBits_add_card_marked fs.inodeMap MAX_INODE
    rw [usedInodes] at hinodes
    omega
  · intro env name size hpass
    exact .of_outcome (fileCreate_passed env h.counted hpass) id
  · intro env src dest hpass
    apply Succeeds.of_outcome (fileCopy_passed env h hpass)
    rintro (hfits | ⟨t, ht, -, hout⟩)
    · exact hfits
    · -- The inode found for `src` is in the table.
      obtain ⟨s, hs, hrange, -⟩ := hpass.found
      rw [hs, Option.some_inj] at ht
      exact absurd (ht ▸ hrange) hout

/-- A `mkdir` while a block is free: `dir_make` takes that block before its checks. -/
def TakesBlock (cmd : Command) (fs : FileSystem) : Prop :=
  (∃ name, cmd = .mkdir name) ∧ ∃ b : ℤ, (0 ≤ b ∧ b < MAX_BLOCK) ∧ b ∉ usedBlocks fs

/-- A command that answers -1 leaves the whole state as it was, except for `mkdir` while a block
is free, which never does. -/
theorem failed_command_iff {inputs : List (Env × Command)} (hreach : Reachable inputs fs)
    {cmd : Command} {r : Reply} (hx : execute fs (env, cmd) = some (r, fs'))
    (hret : r.ret = -1) : fs' = fs ↔ ¬TakesBlock cmd fs := by
  have h := sane_of_reachable hreach
  have hsame (hn : ∀ name, cmd ≠ .mkdir name) (he : fs' = fs) : fs' = fs ↔ ¬TakesBlock cmd fs := by
    simp only [he, true_iff]
    rintro ⟨⟨name, rfl⟩, -⟩
    exact hn name rfl
  cases cmd with
  | create name size =>
    exact hsame (fun _ => by simp) ((fileCreate_outcome _ name size h.counted).of_ret_neg hx hret)
  | cat name => exact hsame (fun _ => by simp) (fileCat_state hx)
  | rm name => exact hsame (fun _ => by simp) ((fileRemove_outcome _ name h).of_ret_neg hx hret)
  | rmdir name => exact hsame (fun _ => by simp) ((dirRemove_outcome _ name).of_ret_neg hx hret)
  | cd name => exact hsame (fun _ => by simp) ((dirChange_outcome _ name).of_ret_neg hx hret)
  | ln src dest =>
    exact hsame (fun _ => by simp) ((hardLink_outcome _ src dest).of_ret_neg hx hret)
  | cp src dest => exact hsame (fun _ => by simp) ((fileCopy_outcome _ src dest h).of_ret_neg hx hret)
  | mkdir name =>
    have he : fs' = fs.getBlock.2 := (dirMake_outcome _ name h.counted).of_ret_neg hx hret
    rcases getBlock_cases h.counted with ⟨h0, hg⟩ | ⟨b, hb, hfresh, -, hg⟩
    · -- the map is full
      rw [he, hg]
      simp only [true_iff]
      rintro ⟨-, b, hb, hfree⟩
      exact hfree (h.counted.mem_of_full h0 hb)
    -- The block that was taken is not given back.
    · rw [he, hg]
      constructor
      · intro hfs
        have hmem : b ∈ usedBlocks (fs.takeBlock b) := by
          rw [usedBlocks_takeBlock hb]
          exact Finset.mem_insert_self _ _
        rw [show fs.takeBlock b = fs from hfs] at hmem
        exact absurd hmem hfresh
      · intro hn
        exact absurd ⟨⟨name, rfl⟩, b, hb, hfresh⟩ hn

/-- An environment for runs on fixed inputs. -/
def Env.zeroed : Env where
  rand := fun _ => 0
  heap := fun _ => 0
  inode := ⟨.file, 0, 0, fun _ => 0, 0, 0, fun _ => 0⟩
  dentry := ⟨0, fun _ => ⟨fun _ => 0, 0⟩, fun _ => 0⟩
  buffer := fun _ => 0
  indirectBlockMap := fun _ => 0
  beforeInode := ⟨.file, 0, 0, fun _ => 0, 0, 0, fun _ => 0⟩
  afterDentry := ⟨fun _ => 0, 0⟩

theorem reachable_format : Reachable [] format := ⟨[], rfl⟩

/-- On the fresh disk `mkdir .` is refused, and has taken a block by then. -/
theorem mkdir_dot_refused : execute format (Env.zeroed, .mkdir dot) =
    some (.error "mkdir Error: %s already exists.\n" [.s dot.bytes], format.getBlock.2) := by
  have hs : format.searchCurDir dot = some 0 := by
    rw [format_eq]
    decide +kernel
  simp only [execute, dirMake, hs, Option.bind_some, ge_iff_le, le_refl, ↓reduceIte]

def nameA : Name := ⟨[97], by decide, by decide⟩

def nameB : Name := ⟨[98], by decide, by decide⟩

def createRemove : List (Env × Command) :=
  [(Env.zeroed, .create nameA 1), (Env.zeroed, .rm nameA), (Env.zeroed, .create nameB 1)]

theorem run_createRemove : ((Mealy.run execute format createRemove).map fun p => decide (
    p.1.map Reply.ret = [0, 0, 0] ∧
      (p.2.searchCurDir nameA = some (-1) ∧ p.2.searchCurDir nameB = some 1) ∧
      ¬p.2.curDir.Full ∧ (p.2.inode 1).size = 1 ∧
      p.2.superBlock.freeInodeCount = 510 ∧ p.2.superBlock.freeBlockCount = 3963)) = some true := by
  rw [format_eq, bitmaps_format.1, bitmaps_format.2]
  decide +kernel

theorem free_counters_exact_createRemove : ∃ fs, Reachable createRemove fs ∧
    fs.superBlock.freeBlockCount.toInt = clearBits fs.blockMap MAX_BLOCK ∧
      fs.superBlock.freeInodeCount.toInt = clearBits fs.inodeMap MAX_INODE ∧
      Succeeds fs (fileCreate Env.zeroed nameA 8000 fs) ∧
      Succeeds fs (fileCopy Env.zeroed nameB nameA fs) := by
  obtain ⟨⟨replies, fs⟩, hrun, hfacts⟩ := Option.map_eq_some_iff.mp run_createRemove
  obtain ⟨-, ⟨hmissing, hfound⟩, hroom, hsize, hinodes, hblocks⟩ := of_decide_eq_true hfacts
  dsimp only at hmissing hfound hroom hsize hinodes hblocks
  have hreach : Reachable createRemove fs := ⟨replies, hrun⟩
  obtain ⟨hfree, hfreeInodes, hcreate, hcopy⟩ := free_counters_exact hreach
  refine ⟨fs, hreach, hfree, hfreeInodes, hcreate _ _ _ ?_, hcopy _ _ _ ?_⟩
  · exact ⟨by decide, ⟨-1, hmissing, by decide⟩, hroom, by rw [hinodes]; decide,
      by rw [hblocks]; decide⟩
  · exact ⟨⟨1, hfound, by decide, by rw [hsize, hblocks]; decide⟩, ⟨-1, hmissing, by decide⟩,
      hroom, by rw [hinodes]; decide⟩
theorem failed_command_iff_mkdir_dot :
    format.getBlock.2 = format ↔ ¬TakesBlock (.mkdir dot) format :=
  failed_command_iff reachable_format mkdir_dot_refused rfl

theorem failed_command_changes_state :
    ¬∀ (inputs : List (Env × Command)) (fs : FileSystem), Reachable inputs fs →
      ∀ (env : Env) (cmd : Command) (r : Reply) (fs' : FileSystem), (∀ name, cmd ≠ .cat name) →
        execute fs (env, cmd) = some (r, fs') → r.ret = -1 → fs' = fs := by
  intro h
  have he := h [] format reachable_format Env.zeroed (.mkdir dot) _ _ (fun _ => by simp)
    mkdir_dot_refused rfl
  rcases getBlock_cases counted_format with ⟨h0, -⟩ | ⟨b, hb, hfresh, -, hg⟩
  · rw [format_eq] at h0
    exact absurd h0 (by decide)
  · rw [hg] at he
    apply hfresh
    rw [← he, usedBlocks_takeBlock hb]
    exact Finset.mem_insert_self _ _

end OperatingSystems.FS
