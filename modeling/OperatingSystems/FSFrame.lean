import OperatingSystems.FSTree

/-! Which blocks the directory commands write. `dir_make` takes `curDirInode` for the number of a
block, `dir_change` takes it for the number of an inode. -/
namespace OperatingSystems.FS

variable {fs fs' : FileSystem} {env : Env} {name : Name}

/-- The blocks that the commands of a directory concern: its own, and for `dir_make` the new
one. -/
def Concerns (fs : FileSystem) : Command → ℤ → Prop
  | .mkdir _, b => b = ownBlock (fs.inode fs.here) ∨ b = fs.getBlock.1
  | _, b => b = ownBlock (fs.inode fs.here)

/-- A write of `d` to block `b` changes nothing: there is no such block, or it holds these
bytes. -/
def Harmless (fs : FileSystem) (b : ℤ) (d : Dentry) : Prop :=
  b < 0 ∨ b ≥ MAX_BLOCK ∨ fs.disk b = dentryLayout.encode d

/-- The block that a directory command takes for that of the current directory is one that the
command concerns, or the write to it changes nothing. -/
def Confined (env : Env) (fs : FileSystem) : Command → Prop
  | .mkdir name => MakeRefused name fs ∨ Concerns fs (.mkdir name) fs.curDirInode ∨
      ∀ d, fs.curDir.append name fs.getInode.1 = some d → Harmless fs fs.curDirInode d
  | .cd name => name = dot ∨ (∀ t, ¬Leads name fs t) ∨
      ∀ nd, fs.readInode env fs.curDirInode = some nd →
        Concerns fs (.cd name) (ownBlock nd) ∨ Harmless fs (ownBlock nd) fs.curDir
  | _ => True

def Command.OnDirs : Command → Prop
  | .mkdir _ | .cd _ => True
  | _ => False

/-- One write changes the blocks outside a set exactly when it is harmless or goes to the set. -/
theorem write_outside_iff (fs : FileSystem) (b : ℤ) (d : Dentry) (own : ℤ → Prop) :
    (∀ a, ¬own a → (fs.writeDiskBlock b (dentryLayout.encode d)).disk a = fs.disk a) ↔
      own b ∨ Harmless fs b d := by
  constructor
  · intro h
    -- Otherwise the written block is one of those that must not change: it holds these bytes already,
    -- or there is no such block.
    by_cases hown : own b
    · exact Or.inl hown
    · by_cases hrange : 0 ≤ b ∧ b < 4096
      · have hb := h b hown
        rw [fs.writeDiskBlock_of_range hrange] at hb
        simp only [Function.update_self] at hb
        exact Or.inr (Or.inr (Or.inr hb.symm))
      · right
        simp only [Harmless, MAX_BLOCK]
        omega
  · rintro (hown | hharm) a ha
    · apply fs.writeDiskBlock_disk_of_ne
      rintro rfl
      exact ha hown
    · by_cases hab : a = b
      · subst hab
        rcases hharm with hlo | hhi | heq
        · rw [FileSystem.writeDiskBlock, if_pos (Or.inl hlo)]
        · rw [FileSystem.writeDiskBlock, if_pos (Or.inr hhi)]
        · rw [FileSystem.writeDiskBlock]
          split
          · rfl
          · rw [← heq]
            exact congrFun (Function.update_eq_self a fs.disk) a
      · exact fs.writeDiskBlock_disk_of_ne hab _

/-- The inode that `get_inode` hands out is the first clear one. -/
theorem getInode_eq_of_first {n : ℤ} (hn : 0 ≤ n ∧ n < 512) (hfresh : n ∉ usedInodes fs)
    (hfirst : ∀ m, 0 ≤ m → m < n → m ∈ usedInodes fs) : fs.getInode.1 = n := by
  have hclear : fs.inodeMap.bit n = false := by
    by_contra hset
    apply hfresh
    rw [usedInodes, Bitmap.mem_marked]
    exact ⟨hn, by simpa using hset⟩
  -- The scan passes the inodes below `n`, all in use, and stops at `n`.
  have hfind : findClear fs.inodeMap MAX_INODE 0 = n := by
    apply findClear_first _ _ _ _ hn.1
    · simp only [MAX_INODE]
      omega
    · intro m h0 hm
      exact (Bitmap.mem_marked.mp (hfirst m h0 hm)).2
    · exact hclear
  rw [FileSystem.getInode, hfind]
  simp only [show ¬n = -1 by omega, ↓reduceIte]

theorem getBlock_disk (hc : Counted fs) : fs.getBlock.2.disk = fs.disk := by
  rcases getBlock_cases hc with ⟨-, hg⟩ | ⟨b, -, -, -, hg⟩
  · rw [hg]
  · rw [hg]
    rfl

theorem getBlock_fresh (hc : Counted fs) : fs.getBlock.1 ∉ usedBlocks fs := by
  rcases getBlock_cases hc with ⟨-, hg⟩ | ⟨b, -, hfresh, -, hg⟩
  · rw [hg]
    intro hb
    have : (0 : ℤ) ≤ -1 := (mem_usedBlocks_range hb).1
    omega
  · rw [hg]
    exact hfresh

/-- Before its last write `dir_make` has written the new block only. -/
theorem Makes.disk_of_ne {n : ℤ} {nd : Inode} {fs₁ : FileSystem}
    (hm : Makes env name fs n nd fs₁ fs') {b : ℤ} (hb : b ≠ fs.getBlock.1) :
    fs₁.disk b = fs.disk b := by
  have hmade := hm.made
  cases hmade with
  | block added content =>
    apply added.disk
    rw [blocksOf_of_size_one fs₁.disk hm.size, List.mem_singleton]
    intro he
    apply hb
    rw [he, ← hm.own]
    rfl
  | noBlock full range fresh first own rest =>
    rw [rest]
    rfl

theorem Makes.getInode_eq {n : ℤ} {nd : Inode} {fs₁ : FileSystem}
    (hm : Makes env name fs n nd fs₁ fs') : fs.getInode.1 = n := by
  obtain ⟨hrange, hfresh, hfirst⟩ := hm.first_free
  exact getInode_eq_of_first hrange hfresh hfirst

/-- The blocks in use that a command may write all the same. -/
def Rewrites (env : Env) (fs : FileSystem) : Command → ℤ → Prop
  | .mkdir _, b => b = fs.curDirInode
  | .cd _, b => ∃ nd, fs.readInode env fs.curDirInode = some nd ∧ b = ownBlock nd
  | _, _ => False

/-- Every other block in use keeps its contents. -/
theorem execute_disk (h : Sane fs) {cmd : Command} {r : Reply}
    (hx : execute fs (env, cmd) = some (r, fs')) {b : ℤ} (hb : b ∈ usedBlocks fs)
    (hne : ¬Rewrites env fs cmd b) : fs'.disk b = fs.disk b := by
  -- Only `mkdir` and a moving `cd` write a block that was in use.
  cases h.does hx with
  | refused cmd r ret make => rfl
  | cats name r => rfl
  | creates name size n nd r fs' ret what => exact what.disk_used hb
  | unlinks name s r fs' ret what =>
    rcases what.rest with ⟨-, hr⟩ | ⟨-, bs, hr, -⟩
    · rw [hr]
    · rw [hr.rest]
  | takesBlock name r ret why => rw [getBlock_disk h.counted]
  | makes name n nd fs₁ r fs' ret what =>
    rw [what.rest, fs₁.writeDiskBlock_disk_of_ne hne]
    apply what.disk_of_ne
    rintro rfl
    exact getBlock_fresh h.counted hb
  | removesDir name s r fs' ret what =>
    obtain ⟨bs, hr, -⟩ := what.rest
    rw [hr.rest]
  | remains r ret => rfl
  | moves name t r fs' ret other leads what =>
    obtain ⟨target, current, -, hcur, rest⟩ := what.target
    rw [rest]
    apply fs.writeDiskBlock_disk_of_ne
    intro he
    exact hne ⟨current, hcur, he⟩
  | links src dest s r fs' ret what => rw [what.rest]
  | copies src dest s n nd r fs' ret what => exact what.disk_used hb

theorem dirMake_confined_iff (hc : Counted fs) {r : Reply}
    (hx : dirMake env name fs = some (r, fs')) :
    (∀ b, ¬Concerns fs (.mkdir name) b → fs'.disk b = fs.disk b) ↔
      Confined env fs (.mkdir name) := by
  rcases (dirMake_outcome _ name hc).cases hx with ⟨-, hrefused, he⟩ | ⟨-, n, nd, fs₁, hm⟩
  · have hdisk : fs'.disk = fs.disk := by rw [he, getBlock_disk hc]
    simp only [hdisk, implies_true, true_iff]
    exact Or.inl hrefused
  · -- The new block aside, only the last write counts.
    have hdisk (b : ℤ) (hb : ¬Concerns fs (.mkdir name) b) : fs₁.disk b = fs.disk b := by
      apply hm.disk_of_ne
      intro he
      exact hb (Or.inr he)
    have hiff := write_outside_iff fs₁ fs.curDirInode fs₁.curDir (Concerns fs (.mkdir name))
    have hleft : (∀ b, ¬Concerns fs (.mkdir name) b → fs'.disk b = fs.disk b) ↔
        Concerns fs (.mkdir name) fs.curDirInode ∨ Harmless fs₁ fs.curDirInode fs₁.curDir := by
      rw [← hiff, hm.rest]
      apply forall₂_congr
      intro b hb
      rw [hdisk b hb]
    rw [hleft, Confined, hm.getInode_eq, hm.entry]
    simp only [Option.some_inj, forall_eq', hm.not_refused hc, false_or]
    by_cases hown : Concerns fs (.mkdir name) fs.curDirInode
    · simp only [hown, true_or]
    · simp only [hown, false_or, Harmless, hdisk _ hown]

theorem dirChange_confined_iff {r : Reply} (hx : dirChange env name fs = some (r, fs')) :
    (∀ b, ¬Concerns fs (.cd name) b → fs'.disk b = fs.disk b) ↔ Confined env fs (.cd name) := by
  rcases (dirChange_outcome _ name).cases hx with
    ⟨-, hno, rfl⟩ | ⟨-, ⟨hdot, rfl⟩ | ⟨hname, t, hl, hm⟩⟩
  · simp only [implies_true, true_iff]
    exact Or.inr (Or.inl hno)
  · simp only [implies_true, true_iff]
    exact Or.inl hdot
  · obtain ⟨target, current, -, hcur, rest⟩ := hm.target
    have hdisk : fs'.disk =
        (fs.writeDiskBlock (ownBlock current) (dentryLayout.encode fs.curDir)).disk := by
      rw [rest]
    rw [hdisk, write_outside_iff fs (ownBlock current) fs.curDir (Concerns fs (.cd name))]
    constructor
    · intro h
      refine Or.inr (Or.inr fun nd hnd => ?_)
      rw [hcur, Option.some_inj] at hnd
      rw [← hnd]
      exact h
    · rintro (hdot | hno | h)
      · exact absurd hdot hname
      · exact absurd hl (hno t)
      · exact h current hcur

/-- A directory command leaves every block alone that it does not concern exactly when the block
it takes for that of the current directory is one of those, or the write changes nothing. -/
theorem directory_writes_confined_iff {inputs : List (Env × Command)} (hreach : Reachable inputs fs)
    {cmd : Command} (hcmd : cmd.OnDirs) {r : Reply} (hx : execute fs (env, cmd) = some (r, fs')) :
    (∀ b, ¬Concerns fs cmd b → fs'.disk b = fs.disk b) ↔ Confined env fs cmd := by
  cases cmd with
  | mkdir name => exact dirMake_confined_iff (sane_of_reachable hreach).counted hx
  | cd name => exact dirChange_confined_iff hx
  | _ => exact hcmd.elim

/-- On the fresh disk `cd ..` stays in the root. -/
theorem cd_up_format : ∃ r fs', execute format (Env.zeroed, .cd dotDot) = some (r, fs') := by
  have hsome : (execute format (Env.zeroed, .cd dotDot)).isSome = true := by
    rw [format_eq]
    decide +kernel
  obtain ⟨⟨r, fs'⟩, hx⟩ := Option.isSome_iff_exists.mp hsome
  exact ⟨r, fs', hx⟩

theorem directory_writes_confined_iff_up : ∃ r fs',
    execute format (Env.zeroed, .cd dotDot) = some (r, fs') ∧
      ((∀ b, ¬Concerns format (.cd dotDot) b → fs'.disk b = format.disk b) ↔
        Confined Env.zeroed format (.cd dotDot)) := by
  obtain ⟨r, fs', hx⟩ := cd_up_format
  have hcmd : (Command.cd dotDot).OnDirs := trivial
  exact ⟨r, fs', hx, directory_writes_confined_iff reachable_format hcmd hx⟩

/-- The number 131 of the root's block is taken for that of an inode, never used, whose first
block is 0. -/
theorem directory_writes_escape : ¬∀ (inputs : List (Env × Command)) (fs : FileSystem),
    Reachable inputs fs → ∀ (env : Env) (cmd : Command) (r : Reply) (fs' : FileSystem),
      cmd.OnDirs → execute fs (env, cmd) = some (r, fs') →
        ∀ b, ¬Concerns fs cmd b → fs'.disk b = fs.disk b := by
  intro hall
  obtain ⟨r, fs', hx⟩ := cd_up_format
  have hconf := (dirChange_confined_iff hx).mp (hall _ _ reachable_format _ _ _ _ trivial hx)
  have hcur : format.readInode Env.zeroed format.curDirInode = some (zeroed.inode 131) := by
    rw [format_eq]
    rfl
  have hown : ownBlock (format.inode format.here) = 131 := by
    rw [format_eq]
    decide
  rcases hconf with hdot | hno | hcd
  · exact absurd hdot (by decide)
  · exact hno _ (Or.inl ⟨rfl, rfl⟩)
  · rcases hcd _ hcur with hsame | hlo | hhi | hdisk
    · have he : ownBlock (zeroed.inode 131) = ownBlock (format.inode format.here) := hsame
      rw [hown] at he
      exact absurd he (by decide)
    · exact absurd hlo (by decide)
    · exact absurd hhi (by decide)
    · -- Block 0 of the fresh disk is all zero, and the root has an entry.
      have hnum := congrArg (fun b => (dentryLayout.decode b).numEntry) hdisk
      simp only [dentryLayout.decode_encode] at hnum
      rw [format_eq] at hnum
      exact absurd hnum (by decide)

end OperatingSystems.FS
