import OperatingSystems.FSOutcome

/-! What the directory commands can do. -/
namespace OperatingSystems.FS

variable {fs : FileSystem} {env : Env}

theorem blocks_of_size_one {nd : Inode} (h : nd.size = 1) : blocks nd = 1 := by
  rw [blocks, h]
  rfl

/-- A directory has the one block its first slot names. -/
theorem blocksOf_of_size_one (disk : ℤ → Block) {nd : Inode} (h : nd.size = 1) :
    blocksOf disk nd = [(nd.directBlock 0).toInt] := by
  have hs : ¬nd.size.toInt > 7680 := by
    rw [h]
    decide
  rw [blocksOf, dataBlocks, blocks_of_size_one h, indirectBlocks, if_neg hs]
  rfl

/-- The block that holds a directory. -/
def ownBlock (nd : Inode) : ℤ := (nd.directBlock 0).toInt

/-- A new inode of type directory with nothing but its entry and, if there was one, its block. -/
inductive MadeDir (env : Env) (fs : FileSystem) (n : ℤ) (nd : Inode) (fs₁ : FileSystem) : Prop
  | block (added : Added fs n nd fs₁)
      (content : fs₁.disk (ownBlock nd) =
        dentryLayout.encode (newDentry env (Int32.ofInt n) (fs₁.curDir.dentry 0).inode))
  | noBlock (full : fs.superBlock.freeBlockCount.toInt = 0) (range : 0 ≤ n ∧ n < 512)
      (fresh : n ∉ usedInodes fs) (first : ∀ m, 0 ≤ m → m < n → m ∈ usedInodes fs)
      (own : ownBlock nd = -1)
      (rest : fs₁ = { fs.takeInode n with
        inode := Function.update fs.inode n nd, curDir := fs₁.curDir })

/-- What `dir_make` does when it succeeds: `fs₁` is the state before its last write. -/
structure Makes (env : Env) (name : Name) (fs : FileSystem) (n : ℤ) (nd : Inode)
    (fs₁ fs' : FileSystem) : Prop where
  missing : ∃ f, fs.searchCurDir name = some f ∧ f < 0
  room : ¬fs.curDir.Full
  entry : fs.curDir.append name n = some fs₁.curDir
  type : nd.type = .directory
  size : nd.size = 1
  blockCount : nd.blockCount = 1
  own : ownBlock nd = fs.getBlock.1
  made : MadeDir env fs n nd fs₁
  rest : fs' = fs₁.writeDiskBlock fs.curDirInode (dentryLayout.encode fs₁.curDir)

/-- Why `dir_make` refuses. -/
def MakeRefused (name : Name) (fs : FileSystem) : Prop :=
  (∃ f, fs.searchCurDir name = some f ∧ f ≥ 0) ∨ fs.curDir.Full ∨
    fs.superBlock.freeInodeCount.toInt < 1

theorem getBlock_rest (hc : Counted fs) : fs.getBlock.2.curDir = fs.curDir ∧
    fs.getBlock.2.superBlock.freeInodeCount = fs.superBlock.freeInodeCount := by
  rcases getBlock_cases hc with ⟨-, hg⟩ | ⟨b, -, -, -, hg⟩
  · rw [hg]
    exact ⟨rfl, rfl⟩
  · rw [hg]
    exact ⟨rfl, rfl⟩

/-- The block is taken before the checks: a refusal leaves the state after `get_block`. -/
theorem dirMake_outcome (env : Env) (name : Name) (hc : Counted fs) :
    Outcome (¬fs.curDir.Fits) (MakeRefused name fs)
      (fun fs' => ∃ n nd fs₁, Makes env name fs n nd fs₁ fs') fs.getBlock.2
      (dirMake env name fs) := by
  obtain ⟨hcur, hcount⟩ := getBlock_rest hc
  unfold dirMake
  apply Outcome.search id
  intro f hs
  -- The checks look at a state from which a block has been taken; they see no difference.
  apply Outcome.check
  · intro hf
    exact Or.inl ⟨f, hs, hf⟩
  intro hf
  rw [hcur, hcount]
  apply Outcome.check
  · intro hroom
    exact Or.inr (Or.inl hroom)
  intro hroom
  apply Outcome.check
  · intro hi
    exact Or.inr (Or.inr hi)
  intro hi
  rcases getBlock_cases hc with ⟨h0, hg⟩ | ⟨b, hb, hbfresh, -, hg⟩
  · -- no block is left: the directory gets block -1 and the command goes on
    rcases getInode_cases hc with ⟨h1, -⟩ | ⟨n, hn, hfresh, hfirst, hgi⟩
    · omega
    simp only [hg, hgi]
    rw [if_neg (show ¬n < 0 by omega)]
    change Outcome _ _ _ _ ((fs.curDir.append name n).map _)
    cases ha : fs.curDir.append name n with
    | none => exact .undefined (append_ne_none hn hroom ha)
    | some dir =>
      let nd : Inode := { env.inode with
        type := .directory, size := 1, blockCount := 1
        directBlock := Function.update env.inode.directBlock 0 (Int32.ofInt (-1)) }
      let fs₁ : FileSystem := { fs.takeInode n with
        inode := Function.update fs.inode n nd, curDir := dir }
      refine .done _ (fs₁.writeDiskBlock fs.curDirInode (dentryLayout.encode dir)) rfl
        ⟨n, nd, fs₁, ⟨f, hs, by omega⟩, hroom, ha, rfl, rfl, rfl, by rw [hg]; rfl, ?_, rfl⟩
      exact .noBlock h0 hn hfresh hfirst rfl rfl
  · rcases getInode_cases (hc.takeBlock hb hbfresh) with ⟨h1, -⟩ | ⟨n, hn, hfresh, hfirst, hgi⟩
    · change fs.superBlock.freeInodeCount.toInt = 0 at h1
      omega
    simp only [hg, hgi]
    rw [if_neg (show ¬n < 0 by omega)]
    change Outcome _ _ _ _ ((fs.curDir.append name n).map _)
    cases ha : fs.curDir.append name n with
    | none => exact .undefined (append_ne_none hn hroom ha)
    | some dir =>
      let nd : Inode := { env.inode with
        type := .directory, size := 1, blockCount := 1
        directBlock := Function.update env.inode.directBlock 0 (Int32.ofInt b) }
      let buf := dentryLayout.encode (newDentry env (Int32.ofInt n) (dir.dentry 0).inode)
      let fs₂ := ((fs.takeInode n).takeBlock b).writeDiskBlock b buf
      let fs₁ := { (fs.takeInode n).takeBlock b with
        inode := Function.update fs.inode n nd, curDir := dir }.writeDiskBlock b buf
      have hown : (nd.directBlock 0).toInt = b := toInt_ofInt (by omega) hb.2
      have hblocks : blocksOf fs₂.disk nd = [b] := by rw [blocksOf_of_size_one fs₂.disk rfl, hown]
      have ht : Taken (fs.takeInode n) (blocksOf fs₂.disk nd) fs₂ := by
        rw [hblocks]
        exact (Taken.single (hc.takeInode hn hfresh) hb hbfresh).write
          (List.mem_singleton_self b) buf
      -- The source writes the inode before the block, `Taken` takes the block first: the same state.
      have hfs₁ : fs₁ = { fs₂ with inode := Function.update fs₂.inode n nd, curDir := dir } := by
        simp only [fs₁, fs₂, FileSystem.writeDiskBlock_of_range _ hb]
        rfl
      have hcur₁ : fs₁.curDir = dir := by rw [hfs₁]
      have hdir₁ : fs₁.curDirInode = fs.curDirInode := by
        simp only [fs₁, FileSystem.writeDiskBlock_of_range _ hb]
        rfl
      refine .done _ (fs₁.writeDiskBlock fs₁.curDirInode (dentryLayout.encode dir)) rfl
        ⟨n, nd, fs₁, ⟨f, hs, by omega⟩, hroom, ?_, rfl, rfl, rfl, by rw [hg]; exact hown, ?_, ?_⟩
      · rw [ha, hcur₁]
      · apply MadeDir.block
        · exact Added.of_taken hc hn hfresh hfirst rfl ht (by rw [hcur₁]; exact hfs₁)
        · rw [hcur₁, show ownBlock nd = b from hown]
          simp only [fs₁, FileSystem.writeDiskBlock_of_range _ hb]
          exact Function.update_self ..
      · rw [hcur₁, hdir₁]

namespace Makes

variable {fs' fs₁ : FileSystem} {name : Name} {n : ℤ} {nd : Inode}

/-- With a block or without, the directory gets the first free inode. -/
theorem first_free (hm : Makes env name fs n nd fs₁ fs') :
    (0 ≤ n ∧ n < 512) ∧ n ∉ usedInodes fs ∧ ∀ m, 0 ≤ m → m < n → m ∈ usedInodes fs := by
  have hmade := hm.made
  cases hmade with
  | block added => exact ⟨added.range, added.fresh, added.first⟩
  | noBlock full range fresh first => exact ⟨range, fresh, first⟩

theorem inode (hm : Makes env name fs n nd fs₁ fs') :
    fs'.inode = Function.update fs.inode n nd := by
  have hinode : fs₁.inode = Function.update fs.inode n nd := by
    have hmade := hm.made
    cases hmade with
    | block added => exact added.inode
    | noBlock full range fresh first own rest => rw [rest]
  rw [hm.rest, FileSystem.writeDiskBlock_inode, hinode]

theorem curDir (hm : Makes env name fs n nd fs₁ fs') : fs'.curDir = fs₁.curDir := by
  rw [hm.rest, fs₁.writeDiskBlock_rest]

theorem not_refused (hc : Counted fs) (hm : Makes env name fs n nd fs₁ fs') :
    ¬MakeRefused name fs := by
  obtain ⟨f, hf, hneg⟩ := hm.missing
  obtain ⟨hrange, hfresh, -⟩ := hm.first_free
  rintro (⟨f', hf', h0⟩ | hfull | hfew)
  · rw [hf, Option.some_inj] at hf'
    omega
  · exact hm.room hfull
  · have hcard := Bitmap.card_marked_le (fs.takeInode n).inodeMap MAX_INODE
    change (usedInodes (fs.takeInode n)).card ≤ _ at hcard
    rw [usedInodes_takeInode hrange, Finset.card_insert_of_notMem hfresh] at hcard
    have := hc.inodes
    omega

end Makes

/-- What `dir_remove` does when it succeeds. -/
structure RemovesDir (name : Name) (fs : FileSystem) (s : ℤ) (fs' : FileSystem) : Prop where
  found : fs.searchCurDir name = some s
  source : 0 ≤ s ∧ s < 512
  type : (fs.inode s).type = .directory
  ne_dot : dot.bytes ≠ name.bytes
  ne_dotDot : dotDot.bytes ≠ name.bytes
  empty : ∃ buffer, (dentryLayout.decode
    (fs.readDiskBlock (ownBlock (fs.inode s)) buffer)).numEntry.toInt ≤ 2
  entry : ∃ after, Dentry.remove after name fs.curDir.count 0 fs.curDir = some fs'.curDir
  rest : ∃ bs, Released fs s bs fs' ∧ (∀ b ∈ bs, 0 ≤ b ∧ b < 4096) ∧
    ((fs.inode s).size = 1 → (fs.inode s).blockCount = 1 →
      bs = (blocksOf fs.disk (fs.inode s)).toFinset)

/-- Why `dir_remove` refuses. -/
def RemoveDirRefused (name : Name) (fs : FileSystem) : Prop :=
  dot.bytes = name.bytes ∨ dotDot.bytes = name.bytes ∨
    ∃ s, fs.searchCurDir name = some s ∧ (s < 0 ∨ (fs.inode s).type ≠ .directory ∨
      ∃ buffer, (dentryLayout.decode
        (fs.readDiskBlock (ownBlock (fs.inode s)) buffer)).numEntry.toInt > 2)

theorem dirRemove_outcome (env : Env) (name : Name) :
    Outcome (¬fs.curDir.Fits ∨ OutOfTable name fs ∨ ∃ s, fs.searchCurDir name = some s ∧ 0 ≤ s ∧
        ((fs.inode s).size = 1 → (fs.inode s).blockCount = 1 → OutOfDisk (fs.inode s) fs))
      (RemoveDirRefused name fs) (fun fs' => ∃ s, RemovesDir name fs s fs') fs
      (dirRemove env name fs) := by
  unfold dirRemove
  apply Outcome.search Or.inl
  intro s hs
  apply Outcome.read hs fun hout => Or.inr (Or.inl hout)
  intro nd hread
  apply Outcome.check
  · intro hneg
    exact Or.inr (Or.inr ⟨s, hs, Or.inl hneg⟩)
  intro hneg
  obtain ⟨hrange, rfl⟩ := hread.resolve_left (by omega)
  apply Outcome.check
  · intro ht
    exact Or.inr (Or.inr ⟨s, hs, Or.inr (Or.inl ht)⟩)
  intro ht
  apply Outcome.check Or.inl
  intro hdot
  apply Outcome.check
  · intro hdots
    exact Or.inr (Or.inl hdots)
  intro hdots
  apply Outcome.check
  · intro hnum
    exact Or.inr (Or.inr ⟨s, hs, Or.inr (Or.inr ⟨_, hnum⟩)⟩)
  intro hnum
  cases hd : Dentry.remove env.afterDentry name fs.curDir.count 0 fs.curDir with
  | none => exact .undefined (Or.inl (remove_ne_none hd))
  | some dir =>
  simp only [Option.bind_some]
  let fs₁ : FileSystem := { fs with curDir := dir }
  change Outcome _ _ _ _ ((freeBlocks (fs.inode s).directBlock
    (fs.inode s).blockCount.toInt.toNat 0 fs₁).bind _)
  -- `dir_remove` frees as many slots as `blockCount` says, not as the size does; in a directory
  -- both say one.
  have hlist (h1 : (fs.inode s).size = 1) (hb : (fs.inode s).blockCount = 1) :
      (List.range (fs.inode s).blockCount.toInt.toNat).map (fun j => slot (fs.inode s).directBlock
        (0+j)) = blocksOf fs.disk (fs.inode s) := by
    rw [blocksOf_of_size_one fs.disk h1, hb]
    rfl
  cases hf : freeBlocks (fs.inode s).directBlock (fs.inode s).blockCount.toInt.toNat 0 fs₁ with
  | none =>
    refine .undefined (Or.inr (Or.inr ⟨s, hs, hrange.1, fun h1 hb => ?_⟩))
    by_contra hin
    obtain ⟨fs₂, h₂⟩ := freeBlocks_isSome (fs.inode s).directBlock
      (fs.inode s).blockCount.toInt.toNat 0 fs₁ (by rw [hb]; decide) fun j hj => by
        by_contra hn
        apply hin
        refine ⟨_, ?_, hn⟩
        rw [← hlist h1 hb]
        exact List.mem_map_of_mem (List.mem_range.mpr hj)
    rw [hf] at h₂
    cases h₂
  | some fs₂ =>
    have hfreed := freeBlocks_freed _ _ _ _ _ hf
    have hcur (bs : Finset ℤ) (fs₃ : FileSystem) (h : Freed fs₁ bs fs₃) :
        (fs₃.freeInode s).curDir = dir := by
      rw [freeInode_rest, h.rest]
    simp only [Option.bind_some]
    by_cases hbig : (fs.inode s).size.toInt > 7680
    · rw [if_pos hbig]
      have hne : (fs.inode s).size ≠ 1 := fun h1 => by
        rw [h1] at hbig
        exact absurd hbig (by decide)
      cases hi : fs₂.freeBlock (fs.inode s).indirectBlock.toInt with
      | none => exact .undefined (Or.inr (Or.inr ⟨s, hs, hrange.1, fun h1 => absurd h1 hne⟩))
      | some fs₃ =>
        have hfreed₃ := hfreed.trans (freeBlock_freed hi)
        exact .done _ _ rfl ⟨s, hs, hrange, not_not.mp ht, hdot, hdots, ⟨_, not_lt.mp hnum⟩,
          ⟨_, by rw [hd, hcur _ _ hfreed₃]⟩,
          ⟨_, Freed.released hrange rfl hfreed₃, hfreed₃.range, fun h1 => absurd h1 hne⟩⟩
    · rw [if_neg hbig]
      exact .done _ _ rfl ⟨s, hs, hrange, not_not.mp ht, hdot, hdots, ⟨_, not_lt.mp hnum⟩,
        ⟨_, by rw [hd, hcur _ _ hfreed]⟩,
        ⟨_, Freed.released hrange rfl hfreed, hfreed.range, fun h1 hb => by rw [hlist h1 hb]⟩⟩

/-- `dir_change` loads the directory of inode `t`, after writing the current one to the block
that inode `curDirInode` lists first. -/
structure Moves (env : Env) (fs : FileSystem) (t : ℤ) (fs' : FileSystem) : Prop where
  target : ∃ target current, fs.readInode env t = some target ∧
    fs.readInode env fs.curDirInode = some current ∧
    fs' = { fs with
      disk := (fs.writeDiskBlock (ownBlock current) (dentryLayout.encode fs.curDir)).disk
      curDir := dentryLayout.decode
        ((fs.writeDiskBlock (ownBlock current) (dentryLayout.encode fs.curDir)).readDiskBlock
          (ownBlock target) (dentryLayout.encode fs.curDir))
      curDirInode := t }

/-- The inode that `cd name` leads to, for a name other than `.`. -/
def Leads (name : Name) (fs : FileSystem) (t : ℤ) : Prop :=
  (name = dotDot ∧ t = (fs.curDir.dentry 1).inode.toInt) ∨
    (name ≠ dotDot ∧ fs.searchCurDir name = some t ∧ 0 ≤ t)

theorem moveTo_eq {t : ℤ} {target current : Inode}
    (hc : fs.readInode env fs.curDirInode = some current) :
    moveTo env t target fs = some (⟨0, []⟩, { fs with
      disk := (fs.writeDiskBlock (ownBlock current) (dentryLayout.encode fs.curDir)).disk
      curDir := dentryLayout.decode
        ((fs.writeDiskBlock (ownBlock current) (dentryLayout.encode fs.curDir)).readDiskBlock
          (ownBlock target) (dentryLayout.encode fs.curDir))
      curDirInode := t }) := by
  rw [show ownBlock current = (current.directBlock 0).toInt from rfl,
    show ownBlock target = (target.directBlock 0).toInt from rfl]
  by_cases h : (current.directBlock 0).toInt < 0 ∨ (current.directBlock 0).toInt ≥ MAX_BLOCK
  · simp only [moveTo, hc, Option.map_some, FileSystem.writeDiskBlock, if_pos h]
  · simp only [moveTo, hc, Option.map_some, FileSystem.writeDiskBlock, if_neg h]

theorem moveTo_outcome {n : ℤ} {target : Inode} {refused : Prop} {effect : FileSystem → Prop}
    (ht : fs.readInode env n = some target) (h : ∀ fs', Moves env fs n fs' → effect fs') :
    Outcome True refused effect fs (moveTo env n target fs) := by
  cases hcur : fs.readInode env fs.curDirInode with
  | none =>
    rw [moveTo, hcur]
    exact .undefined trivial
  | some current =>
    rw [moveTo_eq hcur]
    exact .done _ _ rfl (h _ ⟨target, current, ht, hcur, rfl⟩)

/-- A change of directory stays, is refused for a missing name, or moves. -/
theorem dirChange_outcome (env : Env) (name : Name) :
    Outcome True (∀ t, ¬Leads name fs t) (fun fs' => (name = dot ∧ fs' = fs) ∨
      (name ≠ dot ∧ ∃ t, Leads name fs t ∧ Moves env fs t fs')) fs (dirChange env name fs) := by
  unfold dirChange
  by_cases hdot : name.bytes = dot.bytes
  · rw [if_pos hdot]
    exact .done _ fs rfl (Or.inl ⟨Name.ext_bytes hdot, rfl⟩)
  have hne : name ≠ dot := fun h => hdot (congrArg Name.bytes h)
  rw [if_neg hdot]
  by_cases hdots : name.bytes = dotDot.bytes
  · rw [if_pos hdots]
    have hname : name = dotDot := Name.ext_bytes hdots
    -- `..` takes the second slot whatever it holds, without a look at the entry count.
    cases ht : fs.readInode env (fs.curDir.dentry 1).inode.toInt with
    | none =>
      simp only [ht, Option.bind_none]
      exact .undefined trivial
    | some target =>
      simp only [ht, Option.bind_some]
      apply moveTo_outcome ht
      intro fs' hm
      exact Or.inr ⟨hne, _, Or.inl ⟨hname, rfl⟩, hm⟩
  rw [if_neg hdots]
  have hname : name ≠ dotDot := fun h => hdots (congrArg Name.bytes h)
  apply Outcome.search fun _ => trivial
  intro t hs
  cases ht : fs.readInode env t with
  | none => exact .undefined trivial
  | some target =>
    apply Outcome.check
    · intro hneg
      rintro n (⟨hdd, -⟩ | ⟨-, hn, hpos⟩)
      · exact hname hdd
      · rw [hs, Option.some_inj] at hn
        omega
    intro h0
    apply moveTo_outcome ht
    intro fs' hm
    exact Or.inr ⟨hne, t, Or.inr ⟨hname, hs, by omega⟩, hm⟩

end OperatingSystems.FS
