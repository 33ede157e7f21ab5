import OperatingSystems.FSBlocks
import OperatingSystems.FSListing

/-! What each command can do: meet an undefined access, refuse, or have its effect. -/
namespace OperatingSystems.FS

/-- The three ways a command ends. A refusal answers -1 and leaves the state `fs`. -/
inductive Outcome (undefined refused : Prop) (effect : FileSystem → Prop) (fs : FileSystem) :
    Option (Reply × FileSystem) → Prop
  | undefined (why : undefined) : Outcome undefined refused effect fs none
  | refused (r : Reply) (ret : r.ret = -1) (why : refused) :
      Outcome undefined refused effect fs (some (r, fs))
  | done (r : Reply) (fs' : FileSystem) (ret : r.ret = 0) (what : effect fs') :
      Outcome undefined refused effect fs (some (r, fs'))

theorem Outcome.total {undefined refused : Prop} {effect : FileSystem → Prop} {fs : FileSystem}
    {o : Option (Reply × FileSystem)} (h : Outcome undefined refused effect fs o)
    (hu : ¬undefined) : (∃ r, o = some (r, fs) ∧ r.ret = -1 ∧ refused) ∨
      ∃ r fs', o = some (r, fs') ∧ r.ret = 0 ∧ effect fs' := by
  cases h with
  | undefined why => exact absurd why hu
  | refused r ret why => exact Or.inl ⟨r, rfl, ret, why⟩
  | done r fs' ret what => exact Or.inr ⟨r, fs', rfl, ret, what⟩

theorem Outcome.cases {undefined refused : Prop} {effect : FileSystem → Prop}
    {fs fs' : FileSystem} {r : Reply} {o : Option (Reply × FileSystem)}
    (h : Outcome undefined refused effect fs o) (ho : o = some (r, fs')) :
    (r.ret = -1 ∧ refused ∧ fs' = fs) ∨ (r.ret = 0 ∧ effect fs') := by
  subst ho
  cases h with
  | refused _ ret why => exact Or.inl ⟨ret, why, rfl⟩
  | done _ _ ret what => exact Or.inr ⟨ret, what⟩

theorem Outcome.of_ret_zero {undefined refused : Prop} {effect : FileSystem → Prop}
    {fs fs' : FileSystem} {r : Reply} {o : Option (Reply × FileSystem)}
    (h : Outcome undefined refused effect fs o) (ho : o = some (r, fs')) (hret : r.ret = 0) :
    effect fs' := by
  rcases h.cases ho with ⟨hfail, -⟩ | ⟨-, what⟩
  · rw [hret] at hfail
    exact absurd hfail (by decide)
  · exact what

theorem Outcome.of_ret_neg {undefined refused : Prop} {effect : FileSystem → Prop}
    {fs fs' : FileSystem} {r : Reply} {o : Option (Reply × FileSystem)}
    (h : Outcome undefined refused effect fs o) (ho : o = some (r, fs')) (hret : r.ret = -1) :
    fs' = fs := by
  rcases h.cases ho with ⟨-, -, he⟩ | ⟨hdone, -⟩
  · exact he
  · rw [hret] at hdone
    exact absurd hdone (by decide)

theorem Outcome.mono {undefined refused refused' : Prop} {effect : FileSystem → Prop}
    {fs : FileSystem} {o : Option (Reply × FileSystem)}
    (h : Outcome undefined refused effect fs o) (himp : refused → refused') :
    Outcome undefined refused' effect fs o := by
  cases h with
  | undefined why => exact .undefined why
  | refused r ret why => exact .refused r ret (himp why)
  | done r fs' ret what => exact .done r fs' ret what

/-- A check: what follows it may use that the check has passed. -/
theorem Outcome.check {undefined refused : Prop} {effect : FileSystem → Prop} {fs : FileSystem}
    {c : Prop} [Decidable c] {format : String} {args : List Arg} {o : Option (Reply × FileSystem)}
    (why : c → refused) (h : ¬c → Outcome undefined refused effect fs o) :
    Outcome undefined refused effect fs (if c then some (.error format args, fs) else o) := by
  by_cases hc : c
  · rw [if_pos hc]
    exact .refused _ rfl (why hc)
  · rw [if_neg hc]
    exact h hc

/-- Inode `n` was the first free one and is now `nd`, with fresh blocks that are all it lists. -/
structure Added (fs : FileSystem) (n : ℤ) (nd : Inode) (fs' : FileSystem) : Prop where
  range : 0 ≤ n ∧ n < 512
  fresh : n ∉ usedInodes fs
  first : ∀ m, 0 ≤ m → m < n → m ∈ usedInodes fs
  inodes : usedInodes fs' = insert n (usedInodes fs)
  inode : fs'.inode = Function.update fs.inode n nd
  nodup : (blocksOf fs'.disk nd).Nodup
  blocks_range : ∀ b ∈ blocksOf fs'.disk nd, 0 ≤ b ∧ b < 4096
  blocks_fresh : ∀ b ∈ blocksOf fs'.disk nd, b ∉ usedBlocks fs
  used : usedBlocks fs' = usedBlocks fs ∪ (blocksOf fs'.disk nd).toFinset
  disk : ∀ b, b ∉ blocksOf fs'.disk nd → fs'.disk b = fs.disk b
  curDirInode : fs'.curDirInode = fs.curDirInode
  magic : fs'.superBlock.magicNumber = fs.superBlock.magicNumber
  counted : Counted fs'

/-- What is assumed of any state: exact counters, and sizes that an inode can address. -/
structure Sane (fs : FileSystem) : Prop where
  counted : Counted fs
  size : ∀ n, 0 ≤ (fs.inode n).size.toInt ∧ (fs.inode n).size.toInt ≤ 73216

theorem Sane.size_update {fs : FileSystem} (h : Sane fs) (n : ℤ) {nd : Inode}
    (hs : 0 ≤ nd.size.toInt ∧ nd.size.toInt ≤ 73216) (m : ℤ) :
    0 ≤ (Function.update fs.inode n nd m).size.toInt ∧
      (Function.update fs.inode n nd m).size.toInt ≤ 73216 := by
  by_cases hm : m = n
  · subst hm
    rw [Function.update_self]
    exact hs
  · rw [Function.update_of_ne hm]
    exact h.size m

theorem Sane.added {fs fs' : FileSystem} {n : ℤ} {nd : Inode} (h : Sane fs)
    (ha : Added fs n nd fs') (hs : 0 ≤ nd.size.toInt ∧ nd.size.toInt ≤ 73216) : Sane fs' :=
  ⟨ha.counted, ha.inode ▸ h.size_update n hs⟩

theorem Added.disk_used {fs fs' : FileSystem} {n : ℤ} {nd : Inode} (h : Added fs n nd fs') {b : ℤ}
    (hb : b ∈ usedBlocks fs) : fs'.disk b = fs.disk b :=
  h.disk b fun hm => h.blocks_fresh b hm hb

/-- Blocks taken for inode `n` while it is handed out and written, whatever directory is current. -/
theorem Added.of_taken {fs fs₁ fs₂ fs' : FileSystem} {n : ℤ} {nd : Inode} (hc : Counted fs)
    (hn : 0 ≤ n ∧ n < 512) (hfree : n ∉ usedInodes fs)
    (hfirst : ∀ m, 0 ≤ m → m < n → m ∈ usedInodes fs)
    (h₁ : fs₁ = { fs.takeInode n with curDir := fs₁.curDir })
    (ht : Taken fs₁ (blocksOf fs₂.disk nd) fs₂)
    (h' : fs' = { fs₂ with inode := Function.update fs₂.inode n nd, curDir := fs'.curDir }) :
    Added fs n nd fs' := by
  have hused₁ : usedBlocks fs₁ = usedBlocks fs := by
    rw [h₁]
    rfl
  have hdisk₁ : fs₁.disk = fs.disk := by rw [h₁]; rfl
  have hinode₁ : fs₁.inode = fs.inode := by rw [h₁]; rfl
  have hdisk : fs'.disk = fs₂.disk := by rw [h']
  -- Taking blocks leaves the inode map alone, and writing the inode leaves both maps alone.
  have hinodes : usedInodes fs' = usedInodes (fs.takeInode n) := by
    rw [h', ht.rest, h₁]
    rfl
  have hblocks : usedBlocks fs' = usedBlocks fs₂ := by
    rw [h']
    rfl
  refine ⟨hn, hfree, hfirst, ?_, ?_, ?_, ?_, ?_, ?_, ?_, ?_, ?_, ?_⟩
  · rw [hinodes, usedInodes_takeInode hn]
  · rw [h', ht.rest, hinode₁]
  · rw [hdisk]
    exact ht.nodup
  · rw [hdisk]
    exact ht.range
  · rw [hdisk, ← hused₁]
    exact ht.fresh
  · rw [hdisk, hblocks, ht.used, hused₁]
  · rw [hdisk, ← hdisk₁]
    exact ht.disk
  · rw [h', ht.rest, h₁]
    rfl
  · rw [h', ht.rest, h₁]
    rfl
  · constructor
    · rw [hblocks, h']
      exact ht.counted.blocks
    · have := (hc.takeInode hn hfree).inodes
      rw [hinodes, h', ht.rest, h₁]
      exact this

variable {fs : FileSystem} {env : Env}

theorem search_ne_none {name : Name} (h : fs.searchCurDir name = none) : ¬fs.curDir.Fits := by
  intro hf
  rw [FileSystem.searchCurDir, Dentry.search_listing hf] at h
  cases h

/-- A search fails only if the number of entries is out of bounds. -/
theorem Outcome.search {undefined refused : Prop} {effect : FileSystem → Prop} {fs₀ : FileSystem}
    {name : Name} {next : ℤ → Option (Reply × FileSystem)} (hfits : ¬fs.curDir.Fits → undefined)
    (h : ∀ s, fs.searchCurDir name = some s → Outcome undefined refused effect fs₀ (next s)) :
    Outcome undefined refused effect fs₀ ((fs.searchCurDir name).bind next) := by
  cases hs : fs.searchCurDir name with
  | none => exact .undefined (hfits (search_ne_none hs))
  | some s => exact h s hs

theorem append_ne_none {d : Dentry} {name : Name} {n : ℤ} (hn : 0 ≤ n ∧ n < 512) (hroom : ¬d.Full)
    (h : d.append name n = none) : ¬d.Fits := by
  intro hf
  obtain ⟨d', hd, -⟩ := Dentry.append_listing hf hroom name (n := n) ⟨by omega, by omega⟩
  rw [hd] at h
  cases h

/-- What `file_create` does when it succeeds. -/
structure Creates (env : Env) (name : Name) (size : Int32) (fs : FileSystem) (n : ℤ) (nd : Inode)
    (fs' : FileSystem) : Prop extends Added fs n nd fs' where
  missing : ∃ f, fs.searchCurDir name = some f ∧ f < 0
  room : ¬fs.curDir.Full
  size_pos : 0 < size.toInt
  size_le : size.toInt ≤ 73216
  entry : fs.curDir.append name n = some fs'.curDir
  type : nd.type = .file
  size_eq : nd.size = size
  blockCount : nd.blockCount = Int32.ofInt (numBlock size.toInt)
  linkCount : nd.linkCount = 1
  data : ∀ i, i < blocks nd →
    fs'.disk (dataBlock fs'.disk nd i) = chunk (randString env size.toInt.toNat) i

/-- Why `file_create` refuses. -/
def CreateRefused (name : Name) (size : Int32) (fs : FileSystem) : Prop :=
  size.toInt ≤ 0 ∨ size.toInt > 73216 ∨ (∃ f, fs.searchCurDir name = some f ∧ f ≥ 0) ∨
    fs.curDir.Full ∨ fs.superBlock.freeInodeCount.toInt < 1 ∨
    fs.superBlock.freeBlockCount.toInt < numBlock size.toInt + 1

/-- `file_create` has passed all its checks. -/
structure CreatePasses (name : Name) (size : Int32) (fs : FileSystem) : Prop where
  range : ¬(size.toInt ≤ 0 ∨ size.toInt > 73216)
  missing : ∃ f, fs.searchCurDir name = some f ∧ ¬f ≥ 0
  room : ¬fs.curDir.Full
  inodes : ¬fs.superBlock.freeInodeCount.toInt < 1
  blocks : ¬(if size.toInt > 7680 then numBlock size.toInt + 1 else numBlock size.toInt) >
    fs.superBlock.freeBlockCount.toInt

/-- Past the checks nothing can fail. -/
theorem fileCreate_passed (env : Env) {name : Name} {size : Int32} (hc : Counted fs)
    (h : CreatePasses name size fs) :
    Outcome (¬fs.curDir.Fits) False (fun fs' => ∃ n nd, Creates env name size fs n nd fs') fs
      (fileCreate env name size fs) := by
  obtain ⟨hsize, ⟨f, hs, hf⟩, hroom, hi, hb⟩ := h
  unfold fileCreate
  simp only [hs, Option.bind_some]
  rw [if_neg hsize, if_neg hf, if_neg hroom, if_neg hi, if_neg hb]
  -- The counter says that an inode is free, so `get_inode` finds one.
  rcases getInode_cases hc with ⟨h0, -⟩ | ⟨n, hn, hfresh, hfirst, hg⟩
  · omega
  simp only [hg]
  rw [if_neg (show ¬n < 0 by omega)]
  change Outcome _ _ _ _ ((fs.curDir.append name n).bind _)
  cases hd : fs.curDir.append name n with
  | none => exact .undefined (append_ne_none hn hroom hd)
  | some dir =>
    let nd : Inode := { env.inode with
      type := .file, size := size, blockCount := Int32.ofInt (numBlock size.toInt)
      linkCount := 1 }
    let fs₁ : FileSystem := { fs.takeInode n with curDir := dir }
    have hc₁ : Counted fs₁ := by
      have := hc.takeInode hn hfresh
      exact ⟨this.blocks, this.inodes⟩
    have hcoe : (blocks nd : ℤ) = numBlock size.toInt := coe_blocks (by
      change 0 ≤ size.toInt
      omega)
    have hneed : (need nd : ℤ) ≤ fs₁.superBlock.freeBlockCount.toInt := by
      change _ ≤ fs.superBlock.freeBlockCount.toInt
      have : nd.size = size := rfl
      unfold need
      push_cast
      rw [this]
      split at hb <;> split <;> omega
    -- The blocks that the size asks for are free by the counter, so no `get_block` fails.
    obtain ⟨nd', fs₂, hrun, hfill⟩ := fillInode_spec env
      (fun _ i _ => chunk (randString env size.toInt.toNat) i)
      (fun _ _ i _ => chunk (randString env size.toInt.toNat) (i+15)) nd fs₁ hc₁
      (by change size.toInt ≤ 73216; omega) hneed
    rw [Option.bind_some]
    change Outcome _ _ _ _ ((fillInode env _ _ nd fs₁).map _)
    rw [hrun]
    refine .done ⟨0, _⟩ (fs₂.writeInode n nd') rfl ⟨n, nd', ?_, ⟨f, hs, by omega⟩, hroom, by omega,
      by omega, ?_, ?_, ?_, ?_, ?_, ?_⟩
    · exact Added.of_taken hc hn hfresh hfirst rfl hfill.taken rfl
    · rw [hd]
      change some dir = some fs₂.curDir
      rw [hfill.taken.rest]
    · rw [hfill.inode]
    · rw [hfill.inode]
    · rw [hfill.inode]
    · rw [hfill.inode]
    · have hblocks : blocks nd' = blocks nd := by
        rw [hfill.inode]
        rfl
      rw [hblocks]
      exact hfill.data _ ⟨fun _ _ _ _ _ => rfl, fun _ _ _ _ _ _ _ => rfl⟩

theorem fileCreate_outcome (env : Env) (name : Name) (size : Int32) (hc : Counted fs) :
    Outcome (¬fs.curDir.Fits) (CreateRefused name size fs)
      (fun fs' => ∃ n nd, Creates env name size fs n nd fs') fs (fileCreate env name size fs) := by
  -- Past all checks the command is done; otherwise the first check that fails refuses it.
  by_cases hpass : CreatePasses name size fs
  · exact (fileCreate_passed env hc hpass).mono False.elim
  unfold fileCreate
  apply Outcome.check
  · intro hsize
    unfold CreateRefused
    tauto
  intro hsize
  apply Outcome.search id
  intro f hs
  apply Outcome.check
  · intro hf
    exact Or.inr (Or.inr (Or.inl ⟨f, hs, hf⟩))
  intro hf
  apply Outcome.check
  · intro hroom
    exact Or.inr (Or.inr (Or.inr (Or.inl hroom)))
  intro hroom
  apply Outcome.check
  · intro hi
    exact Or.inr (Or.inr (Or.inr (Or.inr (Or.inl hi))))
  intro hi
  apply Outcome.check
  · intro hb
    refine Or.inr (Or.inr (Or.inr (Or.inr (Or.inr ?_))))
    split at hb <;> omega
  intro hb
  exact absurd ⟨hsize, ⟨f, hs, hf⟩, hroom, hi, hb⟩ hpass

/-- What `file_copy` does when it succeeds. -/
structure Copies (src dest : Name) (fs : FileSystem) (s n : ℤ) (nd : Inode) (fs' : FileSystem) :
    Prop extends Added fs n nd fs' where
  found : fs.searchCurDir src = some s
  source : 0 ≤ s ∧ s < 512
  missing : ∃ f, fs.searchCurDir dest = some f ∧ f < 0
  room : ¬fs.curDir.Full
  entry : fs.curDir.append dest n = some fs'.curDir
  type : nd.type = (fs.inode s).type
  size_eq : nd.size = (fs.inode s).size
  blockCount : nd.blockCount = (fs.inode s).blockCount
  linkCount : nd.linkCount = 1
  data : (∀ b ∈ blocksOf fs.disk (fs.inode s), b ∈ usedBlocks fs) → ∀ i, i < blocks nd →
    fs'.disk (dataBlock fs'.disk nd i) = fs.disk (dataBlock fs.disk (fs.inode s) i)

/-- Why `file_copy` refuses. -/
def CopyRefused (src dest : Name) (fs : FileSystem) : Prop :=
  (∃ s, fs.searchCurDir src = some s ∧
    (s < 0 ∨ fs.superBlock.freeBlockCount.toInt < numBlock (fs.inode s).size.toInt + 1)) ∨
    (∃ f, fs.searchCurDir dest = some f ∧ f ≥ 0) ∨ fs.curDir.Full ∨
    fs.superBlock.freeInodeCount.toInt < 1

/-- An entry names an inode outside the table. -/
def OutOfTable (name : Name) (fs : FileSystem) : Prop :=
  ∃ s, fs.searchCurDir name = some s ∧ s ≠ -1 ∧ ¬(0 ≤ s ∧ s < 512)

theorem readInode_of_range {s : ℤ} (hs : 0 ≤ s ∧ s < 512) :
    fs.readInode env s = some (fs.inode s) := by
  have hne : s ≠ -1 := by omega
  rw [FileSystem.readInode, if_neg hne]
  exact if_pos hs

theorem readInode_cases (env : Env) (name : Name) {s : ℤ} (hs : fs.searchCurDir name = some s) :
    (fs.readInode env s = none ∧ OutOfTable name fs) ∨
      (fs.readInode env s = some env.beforeInode ∧ s = -1) ∨
      (fs.readInode env s = some (fs.inode s) ∧ 0 ≤ s ∧ s < 512) := by
  by_cases h1 : s = -1
  · rw [FileSystem.readInode, if_pos h1]
    exact Or.inr (Or.inl ⟨rfl, h1⟩)
  · by_cases h2 : 0 ≤ s ∧ s < 512
    · exact Or.inr (Or.inr ⟨readInode_of_range h2, h2⟩)
    · rw [FileSystem.readInode, if_neg h1]
      exact Or.inl ⟨if_neg h2, s, hs, h1, h2⟩

/-- The inode of a searched name is read before any check: a missing name reads `inode[-1]`. -/
theorem Outcome.read {undefined refused : Prop} {effect : FileSystem → Prop} {fs₀ : FileSystem}
    {name : Name} {s : ℤ} (hs : fs.searchCurDir name = some s)
    {next : Inode → Option (Reply × FileSystem)} (hout : OutOfTable name fs → undefined)
    (h : ∀ nd, s = -1 ∨ ((0 ≤ s ∧ s < 512) ∧ nd = fs.inode s) →
      Outcome undefined refused effect fs₀ (next nd)) :
    Outcome undefined refused effect fs₀ ((fs.readInode env s).bind next) := by
  rcases readInode_cases env name hs with ⟨hr, ho⟩ | ⟨hr, h1⟩ | ⟨hr, hrange⟩
  · rw [hr]
    exact .undefined (hout ho)
  · rw [hr]
    exact h _ (Or.inl h1)
  · rw [hr]
    exact h _ (Or.inr ⟨hrange, rfl⟩)

/-- `file_copy` has passed all its checks. -/
structure CopyPasses (src dest : Name) (fs : FileSystem) : Prop where
  found : ∃ s, fs.searchCurDir src = some s ∧ (0 ≤ s ∧ s < 512) ∧
    ¬(((fs.inode s).size.toInt > 7680 ∧ numBlock (fs.inode s).size.toInt + 1 >
      fs.superBlock.freeBlockCount.toInt) ∨
      numBlock (fs.inode s).size.toInt > fs.superBlock.freeBlockCount.toInt)
  missing : ∃ f, fs.searchCurDir dest = some f ∧ ¬f ≥ 0
  room : ¬fs.curDir.Full
  inodes : ¬fs.superBlock.freeInodeCount.toInt < 1

theorem fileCopy_passed (env : Env) {src dest : Name} (hsane : Sane fs)
    (h : CopyPasses src dest fs) :
    Outcome (¬fs.curDir.Fits ∨ OutOfTable src fs) False
      (fun fs' => ∃ s n nd, Copies src dest fs s n nd fs') fs (fileCopy env src dest fs) := by
  have hc := hsane.counted
  obtain ⟨⟨s, hs, hrange, hb⟩, ⟨f, hd, hf⟩, hroom, hi⟩ := h
  unfold fileCopy
  simp only [hs, hd, readInode_of_range hrange, Option.bind_some]
  rw [if_neg (show ¬s < 0 by omega), if_neg hf, if_neg hroom, if_neg hi, if_neg hb]
  rcases getInode_cases hc with ⟨h0, -⟩ | ⟨n, hn, hfresh, hfirst, hg⟩
  · omega
  simp only [hg]
  rw [if_neg (show ¬n < 0 by omega)]
  let source := fs.inode s
  let nd : Inode := { env.inode with
    type := source.type, size := source.size, blockCount := source.blockCount, linkCount := 1 }
  have hsize := hsane.size s
  have hc₁ := hc.takeInode hn hfresh
  have hcoe : (blocks nd : ℤ) = numBlock (fs.inode s).size.toInt := coe_blocks hsize.1
  have hneed : (need nd : ℤ) ≤ (fs.takeInode n).superBlock.freeBlockCount.toInt := by
    change _ ≤ fs.superBlock.freeBlockCount.toInt
    have : nd.size = (fs.inode s).size := rfl
    unfold need
    push_cast
    rw [this]
    split <;> omega
  obtain ⟨nd', fs₂, hrun, hfill⟩ := fillInode_spec env
    (fun fs i buffer => fs.readDiskBlock (source.directBlock i).toInt buffer)
    (fun start =>
      let srcIndirectBlockMap := start.readIndirect env source.indirectBlock
      fun fs i buffer => fs.readDiskBlock (srcIndirectBlockMap i).toInt buffer)
    nd (fs.takeInode n) hc₁ hsize.2 hneed
  have hcur : fs₂.curDir = fs.curDir := by
    rw [hfill.taken.rest]
    rfl
  change Outcome _ _ _ _ ((fillInode env _ _ nd (fs.takeInode n)).bind _)
  rw [hrun]
  simp only [Option.bind_some, Bool.true_eq_false, ↓reduceIte, hcur]
  cases ha : fs.curDir.append dest n with
  | none => exact .undefined (Or.inl (append_ne_none hn hroom ha))
  | some dir =>
  refine .done _ _ rfl ⟨s, n, nd', ?_, hs, hrange, ⟨f, hd, by omega⟩, hroom, ?_, ?_, ?_, ?_, ?_, ?_⟩
  · exact Added.of_taken hc hn hfresh hfirst rfl hfill.taken rfl
  · rw [ha]
    rfl
  · rw [hfill.inode]
  · rw [hfill.inode]
  · rw [hfill.inode]
  · rw [hfill.inode]
  · intro hused i hi
    have hblocks : blocks nd' = blocks source := by
      rw [hfill.inode]
      rfl
    rw [hblocks] at hi
    -- the source's blocks are in use, so the copy has not touched them
    -- Hence each read of the copy loop still finds the old block of the source.
    have hin (j : ℕ) (hj : j < blocks source) := hused _ (dataBlock_mem fs.disk hj)
    refine hfill.data (fun j => fs.disk (dataBlock fs.disk source j)) ⟨?_, ?_⟩ i hi
    · intro fs'' j buffer hagree hj
      have he : dataBlock fs.disk source j = (source.directBlock j).toInt := by
        rw [dataBlock, if_pos j.isLt, slot_val]
      have hu := hin j hj
      rw [he] at hu ⊢
      rw [FileSystem.readDiskBlock_of_range _ (mem_usedBlocks_range hu)]
      exact hagree _ hu
    · intro start fs'' j buffer hstart hagree hj
      have hbig : source.size.toInt > 7680 := by
        by_contra hn
        have := blocks_le_iff.mpr (show source.size.toInt ≤ 7680 by omega)
        change j.val + 15 < blocks source at hj
        omega
      have hib := hused _ (indirectBlock_mem fs.disk hbig)
      have hmap : start.readIndirect env source.indirectBlock = indirectMap fs.disk source := by
        rw [FileSystem.readIndirect, FileSystem.readDiskBlock_of_range _ (mem_usedBlocks_range hib),
          indirectMap, hstart _ hib]
        rfl
      have he : dataBlock fs.disk source (j+15) = (indirectMap fs.disk source j).toInt := by
        rw [dataBlock, if_neg (by omega), Nat.add_sub_cancel, slot_val]
      have hu := hin (j+15) hj
      simp only [hmap]
      rw [he] at hu ⊢
      rw [FileSystem.readDiskBlock_of_range _ (mem_usedBlocks_range hu)]
      exact hagree _ hu

theorem fileCopy_outcome (env : Env) (src dest : Name) (hsane : Sane fs) :
    Outcome (¬fs.curDir.Fits ∨ OutOfTable src fs) (CopyRefused src dest fs)
      (fun fs' => ∃ s n nd, Copies src dest fs s n nd fs') fs (fileCopy env src dest fs) := by
  -- As for `create`: past all checks the copy is made.
  by_cases hpass : CopyPasses src dest fs
  · exact (fileCopy_passed env hsane hpass).mono False.elim
  unfold fileCopy
  apply Outcome.search Or.inl
  intro s hs
  apply Outcome.search Or.inl
  intro f hd
  apply Outcome.read hs Or.inr
  intro source hread
  apply Outcome.check
  · intro hneg
    exact Or.inl ⟨s, hs, Or.inl hneg⟩
  intro hneg
  obtain ⟨hrange, rfl⟩ := hread.resolve_left (by omega)
  apply Outcome.check
  · intro hf
    exact Or.inr (Or.inl ⟨f, hd, hf⟩)
  intro hf
  apply Outcome.check
  · intro hroom
    exact Or.inr (Or.inr (Or.inl hroom))
  intro hroom
  apply Outcome.check
  · intro hi
    exact Or.inr (Or.inr (Or.inr hi))
  intro hi
  apply Outcome.check
  · intro hb
    exact Or.inl ⟨s, hs, Or.inr (by omega)⟩
  intro hb
  exact absurd ⟨⟨s, hs, hrange, hb⟩, ⟨f, hd, hf⟩, hroom, hi⟩ hpass

/-- What `hard_link` does when it succeeds. -/
structure Links (src dest : Name) (fs : FileSystem) (s : ℤ) (fs' : FileSystem) : Prop where
  found : fs.searchCurDir src = some s
  source : 0 ≤ s ∧ s < 512
  missing : ∃ f, fs.searchCurDir dest = some f ∧ f < 0
  room : ¬fs.curDir.Full
  type : (fs.inode s).type = .file
  entry : fs.curDir.append dest s = some fs'.curDir
  rest : fs' = { fs with
    inode := Function.update fs.inode s
      { fs.inode s with linkCount := (fs.inode s).linkCount + 1 }
    curDir := fs'.curDir }

/-- Why `hard_link` refuses. -/
def LinkRefused (src dest : Name) (fs : FileSystem) : Prop :=
  (∃ s, fs.searchCurDir src = some s ∧ (s < 0 ∨ (fs.inode s).type = .directory ∨
    fs.superBlock.freeBlockCount.toInt < (fs.inode s).blockCount.toInt)) ∨
    (∃ f, fs.searchCurDir dest = some f ∧ f ≥ 0) ∨ fs.curDir.Full ∨
    fs.superBlock.freeInodeCount.toInt < 1

theorem hardLink_outcome (env : Env) (src dest : Name) :
    Outcome (¬fs.curDir.Fits ∨ OutOfTable src fs ∨ OutOfTable dest fs) (LinkRefused src dest fs)
      (fun fs' => ∃ s, Links src dest fs s fs') fs (hardLink env src dest fs) := by
  unfold hardLink
  apply Outcome.search Or.inl
  intro s hs
  apply Outcome.search Or.inl
  intro f hd
  apply Outcome.read hs fun hout => Or.inr (Or.inl hout)
  intro source hread
  apply Outcome.read hd fun hout => Or.inr (Or.inr hout)
  intro _ _
  apply Outcome.check
  · intro hneg
    exact Or.inl ⟨s, hs, Or.inl hneg⟩
  intro hneg
  obtain ⟨hrange, rfl⟩ := hread.resolve_left (by omega)
  apply Outcome.check
  · intro hf
    exact Or.inr (Or.inl ⟨f, hd, hf⟩)
  intro hf
  apply Outcome.check
  · intro ht
    exact Or.inl ⟨s, hs, Or.inr (Or.inl ht)⟩
  intro ht
  apply Outcome.check
  · intro hroom
    exact Or.inr (Or.inr (Or.inl hroom))
  intro hroom
  apply Outcome.check
  · intro hb
    exact Or.inl ⟨s, hs, Or.inr (Or.inr hb)⟩
  intro hb
  apply Outcome.check
  · intro hi
    exact Or.inr (Or.inr (Or.inr hi))
  intro hi
  change Outcome _ _ _ _ ((fs.curDir.append dest s).map _)
  cases ha : fs.curDir.append dest s with
  | none => exact .undefined (Or.inl (append_ne_none hrange hroom ha))
  | some dir =>
    exact .done _ _ rfl
      ⟨s, hs, hrange, ⟨f, hd, by omega⟩, hroom, TYPE.eq_file ht, ha, rfl⟩

/-- Inode `s` is given back, and with it the blocks `bs`. -/
structure Released (fs : FileSystem) (s : ℤ) (bs : Finset ℤ) (fs' : FileSystem) : Prop where
  inodes : usedInodes fs' = (usedInodes fs).erase s
  used : usedBlocks fs' = usedBlocks fs \ bs
  rest : fs' = { fs with
    inodeMap := fs'.inodeMap
    blockMap := fs'.blockMap
    curDir := fs'.curDir
    superBlock := { fs.superBlock with
      freeBlockCount := fs'.superBlock.freeBlockCount
      freeInodeCount := fs'.superBlock.freeInodeCount } }
  counted : Counted fs → Counted fs'

theorem Freed.released {fs₁ fs₂ : FileSystem} {bs : Finset ℤ} {s : ℤ} (hs : 0 ≤ s ∧ s < 512)
    (h₁ : fs₁ = { fs with curDir := fs₁.curDir }) (h : Freed fs₁ bs fs₂) :
    Released fs s bs (fs₂.freeInode s) := by
  have hinodes : usedInodes fs₂ = usedInodes fs := by
    rw [h.rest, h₁]
    rfl
  have hblocks : usedBlocks (fs₂.freeInode s) = usedBlocks fs₂ := by
    rw [freeInode_rest]
    rfl
  have hused₁ : usedBlocks fs₁ = usedBlocks fs := by
    rw [h₁]
    rfl
  refine ⟨?_, ?_, ?_, fun hc => ?_⟩
  · rw [usedInodes_freeInode _ hs, hinodes]
  · rw [hblocks, h.used, hused₁]
  · rw [freeInode_rest, h.rest, h₁]
  · apply Counted.freeInode _ hs
    apply h.counted
    rw [h₁]
    exact ⟨hc.blocks, hc.inodes⟩

/-- A block of an inode is outside the disk. -/
def OutOfDisk (nd : Inode) (fs : FileSystem) : Prop :=
  ∃ b ∈ blocksOf fs.disk nd, ¬(0 ≤ b ∧ b < 4096)

/-- What `file_remove` does when it succeeds: with the last link the inode goes too. -/
structure Unlinks (name : Name) (fs : FileSystem) (s : ℤ) (fs' : FileSystem) : Prop where
  found : fs.searchCurDir name = some s
  source : 0 ≤ s ∧ s < 512
  type : (fs.inode s).type = .file
  entry : ∃ after, Dentry.remove after name fs.curDir.count 0 fs.curDir = some fs'.curDir
  rest : ((fs.inode s).linkCount ≠ 1 ∧ fs' = { fs with
      inode := Function.update fs.inode s
        { fs.inode s with linkCount := (fs.inode s).linkCount - 1 }
      curDir := fs'.curDir }) ∨
    ((fs.inode s).linkCount = 1 ∧ ∃ bs, Released fs s bs fs' ∧
      (¬OutOfDisk (fs.inode s) fs → bs = (blocksOf fs.disk (fs.inode s)).toFinset))

/-- Why `file_remove` refuses. -/
def RemoveRefused (name : Name) (fs : FileSystem) : Prop :=
  ∃ s, fs.searchCurDir name = some s ∧
    (s < 0 ∨ (fs.inode s).type = .directory ∨ fs.curDir.numEntry = 0)

theorem remove_ne_none {d : Dentry} {after : DirectoryEntry} {name : Name}
    (h : Dentry.remove after name d.count 0 d = none) : ¬d.Fits := by
  intro hf
  obtain ⟨d', hd, -⟩ := Dentry.remove_listing after name hf
  rw [hd] at h
  cases h

theorem fileRemove_outcome (env : Env) (name : Name) (hsane : Sane fs) :
    Outcome (¬fs.curDir.Fits ∨ OutOfTable name fs ∨
        ∃ s, fs.searchCurDir name = some s ∧ 0 ≤ s ∧ OutOfDisk (fs.inode s) fs) (RemoveRefused name fs)
      (fun fs' => ∃ s, Unlinks name fs s fs') fs (fileRemove env name fs) := by
  unfold fileRemove
  apply Outcome.search Or.inl
  intro s hs
  apply Outcome.read hs fun hout => Or.inr (Or.inl hout)
  intro nd hread
  apply Outcome.check
  · intro hneg
    exact ⟨s, hs, Or.inl hneg⟩
  intro hneg
  obtain ⟨hrange, rfl⟩ := hread.resolve_left (by omega)
  apply Outcome.check
  · intro ht
    exact ⟨s, hs, Or.inr (Or.inl ht)⟩
  intro ht
  apply Outcome.check
  · intro h0
    exact ⟨s, hs, Or.inr (Or.inr h0)⟩
  intro h0
  have hfile := TYPE.eq_file ht
  cases hd : Dentry.remove env.afterDentry name fs.curDir.count 0 fs.curDir with
  | none => exact .undefined (Or.inl (remove_ne_none hd))
  | some dir =>
  simp only [Option.bind_some]
  by_cases hl : (fs.inode s).linkCount = 1
  · rw [if_pos hl]
    let fs₁ : FileSystem := { fs with curDir := dir }
    change Outcome _ _ _ _ ((freeFileBlocks env (fs.inode s) fs₁).map _)
    -- The last link: the blocks go, and the inode after them.
    have hspec (hin : ¬OutOfDisk (fs.inode s) fs) := freeFileBlocks_spec env (fs.inode s) fs₁
      (hsane.size s).2 fun b hb => by
        by_contra hn
        exact hin ⟨b, hb, hn⟩
    cases hf : freeFileBlocks env (fs.inode s) fs₁ with
    | none =>
      apply Outcome.undefined
      refine Or.inr (Or.inr ⟨s, hs, hrange.1, ?_⟩)
      by_contra hin
      obtain ⟨fs₂, h₂, -⟩ := hspec hin
      rw [hf] at h₂
      cases h₂
    | some fs₂ =>
      have hcur (bs : Finset ℤ) (h : Freed fs₁ bs fs₂) : (fs₂.freeInode s).curDir = dir := by
        rw [freeInode_rest, h.rest]
      obtain ⟨bs, hfreed, hexact⟩ : ∃ bs, Freed fs₁ bs fs₂ ∧
          (¬OutOfDisk (fs.inode s) fs → bs = (blocksOf fs.disk (fs.inode s)).toFinset) := by
        by_cases hin : OutOfDisk (fs.inode s) fs
        · obtain ⟨bs, h⟩ := freeFileBlocks_freed hf
          exact ⟨bs, h, fun hn => absurd hin hn⟩
        · obtain ⟨fs₃, h₃, hfreed⟩ := hspec hin
          rw [hf, Option.some_inj] at h₃
          exact ⟨_, h₃ ▸ hfreed, fun _ => rfl⟩
      exact .done _ _ rfl ⟨s, hs, hrange, hfile, ⟨_, by rw [hd, hcur bs hfreed]⟩,
        Or.inr ⟨hl, bs, Freed.released hrange rfl hfreed, hexact⟩⟩
  · rw [if_neg hl]
    exact .done _ _ rfl ⟨s, hs, hrange, hfile, ⟨_, hd⟩, Or.inl ⟨hl, rfl⟩⟩

/-- Where the last link goes, all blocks that the inode lists are given back. -/
theorem Unlinks.released {name : Name} {fs' : FileSystem} {s : ℤ} (hu : Unlinks name fs s fs')
    {r : Reply} (hx : fileRemove env name fs = some (r, fs')) (hret : r.ret = 0)
    (hlast : (fs.inode s).linkCount = 1) :
    Released fs s (blocksOf fs.disk (fs.inode s)).toFinset fs' := by
  have hne : ¬(fs.inode s).type = .directory := by
    rw [hu.type]
    decide
  -- The command has returned 0, so the loops that free the blocks have run to their end.
  have hin : ¬OutOfDisk (fs.inode s) fs := by
    simp only [fileRemove, hu.found, readInode_of_range hu.source, Option.bind_some] at hx
    rw [if_neg (not_lt.mpr hu.source.1), if_neg hne] at hx
    by_cases h0 : fs.curDir.numEntry = 0
    · rw [if_pos h0, Option.some_inj] at hx
      have hfail : r.ret = -1 := (congrArg (fun p => p.1.ret) hx).symm
      rw [hret] at hfail
      exact absurd hfail (by decide)
    · rw [if_neg h0] at hx
      obtain ⟨dir, -, hx⟩ := Option.bind_eq_some_iff.mp hx
      rw [if_pos hlast] at hx
      obtain ⟨fs₂, hfree, -⟩ := Option.map_eq_some_iff.mp hx
      rintro ⟨b, hb, hout⟩
      exact hout (freeFileBlocks_range hfree hb)
  rcases hu.rest with ⟨hmore, -⟩ | ⟨-, bs, hr, hexact⟩
  · exact absurd hlast hmore
  · rw [← hexact hin]
    exact hr

end OperatingSystems.FS
