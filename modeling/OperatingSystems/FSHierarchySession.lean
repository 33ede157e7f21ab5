import OperatingSystems.FSHierarchyStep
import OperatingSystems.FSSession

/-! One run of the program after the other on the same disk file, with directories. -/
namespace OperatingSystems.FS

variable {fs fs' : FileSystem} {t t' : Hierarchy}

namespace Hierarchy

/-- A request, if the tables say what the program does. -/
def serve (t : Hierarchy) (i : Context × Request) : Option (Reply × Hierarchy) :=
  if t.Served i.2 then some (t.step i) else none

/-- Before the first move, unmounting writes the root to its block. -/
def save (t : Hierarchy) : Hierarchy := { t with stored := t.stored.map fun _ => t.kids }

/-- `main` with the hierarchy in place of the disk. What a process that has moved leaves, no other
can mount. -/
def main (t : Hierarchy) (p : Process) : Option (List (String × List Arg) × Hierarchy) :=
  if t.stored = none then none
  else (commandLoop serve p.context 0 t (inputs p.stdin.length p.stdin)).map fun q =>
    (sizes :: ("%% ", []) :: q.1, q.2.save)

end Hierarchy

namespace Carries

/-- The loop over the lines, as far as the tables go. -/
theorem commandLoop (h : Carries fs t) (context : ℕ → Context) (i : ℕ) {lines : List (List Byte)}
    {printed : List (String × List Arg)}
    (hrun : FS.commandLoop Hierarchy.serve context i t lines = some (printed, t')) :
    ∃ fs', FS.commandLoop perform context i fs lines = some (printed, fs') ∧ Carries fs' t' := by
  induction lines generalizing fs t i printed with
  | nil =>
    obtain ⟨rfl, rfl⟩ := Prod.mk.inj (Option.some.inj hrun)
    exact ⟨fs, rfl, h⟩
  | cons input lines ih =>
    rw [FS.commandLoop] at hrun ⊢
    obtain ⟨words, hwords, hrun⟩ := Option.bind_eq_some_iff.mp hrun
    rw [hwords, Option.bind_some]
    split_ifs at hrun ⊢ with hquit
    · obtain ⟨rfl, rfl⟩ := Prod.mk.inj (Option.some.inj hrun)
      exact ⟨fs, rfl, h⟩
    obtain ⟨p, hserve, hrun⟩ := Option.bind_eq_some_iff.mp hrun
    obtain ⟨q, hrest, hq⟩ := Option.map_eq_some_iff.mp hrun
    obtain ⟨rfl, rfl⟩ := Prod.mk.inj hq
    unfold executeCommand Hierarchy.serve at hserve
    split_ifs at hserve with hserved
    obtain rfl := Option.some.inj hserve
    obtain ⟨fs₁, hstep, h₁⟩ := h.step _ hserved
    obtain ⟨fs', hloop, h'⟩ := ih h₁ (i+1) hrest
    rw [executeCommand, hstep, Option.bind_some, hloop, Option.map_some]
    exact ⟨fs', rfl, h'⟩

/-- A directory of the tree is as it was. -/
theorem dirOf_remounted (h : Carries fs t) (hr : Remounted fs fs') (hat : AtFormat t.tree fs)
    {n : ℤ} (hn : n ∈ t.tree.dirs) : dirOf fs' n = dirOf fs n := by
  by_cases hne : n = fs.here
  · rw [hne, dirOf_here, ← hr.here_eq, dirOf_here, hr.curDir]
  · have hnode := hr.inode_used (h.tree.used hn)
    apply dirOf_eq hne hr.here_eq
    · rw [hnode]
    · apply hr.disk
      -- the block is a data block, and below 132 only the root has one
      have hfar := h.tree.stale n (hat.here ▸ hne) (h.tree.good.dir n hn).2
      have hown := (h.tree.directory hn).2.2.2.1
      omega

theorem tree_remounted (h : Carries fs t) (hr : Remounted fs fs') (hat : AtFormat t.tree fs) :
    Tree (usedInodes fs') t.tree fs' ∧ AtFormat t.tree fs' := by
  have hroot := h.tree.good.dir 0 h.tree.good.root_mem
  have hheld := hr.held h.tree.held hroot.1 hroot.2 h.tree.root
  have hat' : AtFormat t.tree fs' := by
    refine ⟨hr.curDirInode, hr.here_eq.trans hat.here, ?_, hat.empty⟩
    rw [hr.inode 131 (by decide) (by decide), hat.unused]
  refine ⟨⟨hheld, fun m hm hout => absurd hm hout, ?_, ?_, ?_, ?_, ?_, ?_, Or.inr hat', ?_⟩, hat'⟩
  · rw [hr.usedInodes_eq]
    exact h.tree.good.congr (fun m hm => hr.isDir_iff hm) fun m hm => hr.linkCount_eq hm
  · rw [hr.usedInodes_eq]
    exact h.tree.dirs
  · rw [hr.inode_used hroot.1, h.tree.root]
  · rw [hr.here_eq]
    exact h.tree.here
  · intro n hn
    rw [h.dirOf_remounted hr hat hn]
    exact h.tree.lists n hn
  · intro n h0 hd
    by_cases hn : 0 ≤ n ∧ n < 512
    · rw [FileSystem.isDir, hr.inode n hn.1 hn.2] at hd
      rw [hr.inode n hn.1 hn.2]
      exact h.tree.stale n h0 hd
    · -- beyond the table a new process finds zeros
      rw [FileSystem.isDir, hr.beyond n hn] at hd
      cases hd
  · rw [hr.superBlock, h.tree.magic]

theorem remounted (h : Carries fs t) {l : List (List Byte × ℤ)} (hl : t.stored = some l)
    (hr : Remounted fs fs') : Carries fs' t.save := by
  have hat := (h.stored l hl).1
  obtain ⟨htree, hat'⟩ := h.tree_remounted hr hat
  have hroot := h.tree.good.dir 0 h.tree.good.root_mem
  have hinodes := hr.usedInodes_eq
  refine ⟨htree, hr.here_eq.trans h.here, ?_, ?_, ?_, ?_, ?_, ?_⟩
  · intro m hm hd
    rw [hinodes] at hm
    exact h.dirs m hm ((hr.isDir_iff hm).mp hd)
  · intro m hm hd
    rw [hinodes] at hm
    have h0 : m ≠ 0 := fun he => hd (he ▸ h.tree.good.root_mem)
    rw [hr.content_eq h.tree.held hroot.1 hroot.2 h.tree.root hm h0, hr.inode_used hm]
    exact h.file m hm hd
  · intro m hm
    rw [hr.linkCount_eq (h.tree.used hm)]
    exact h.linkCount m hm
  · have hneed : ∑ m ∈ usedInodes fs, need (fs'.inode m) =
        ∑ m ∈ usedInodes fs, need (fs.inode m) := by
      apply Finset.sum_congr rfl
      intro m hm
      rw [hr.inode_used hm]
    rw [hr.superBlock, h.blocks, hinodes, hneed]
    rfl
  · intro hmoved
    rw [Hierarchy.save, hl] at hmoved
    cases hmoved
  · intro l' hl'
    obtain ⟨_, -, rfl⟩ := Option.map_eq_some_iff.mp hl'
    refine ⟨hat', ?_⟩
    -- unmounting has written the current directory, which is the root, to block 131
    have hcur := h.tree.curDir
    rw [hat.here, listingOf, heading, if_pos rfl] at hcur
    rw [hr.root, Hierarchy.kids, ← h.here, hat.here]
    exact hcur

end Carries

/-- Mounting the disk file gives a file system that carries the hierarchy, unless the last process
has moved. -/
def Bears (disk : Option (ℤ → Block)) (t : Hierarchy) : Prop :=
  t.stored ≠ none → ∃ fs, disk.elim (some format) fsMount = some fs ∧ Carries fs t

theorem Bears.main {disk : Option (ℤ → Block)} (h : Bears disk t) (p : Process)
    {printed : List (String × List Arg)} (hrun : t.main p = some (printed, t')) :
    ∃ disk', FS.main disk p = some (printed, disk') ∧ Bears disk' t' := by
  unfold Hierarchy.main at hrun
  split_ifs at hrun with hmoved
  obtain ⟨fs, hmount, hfs⟩ := h hmoved
  obtain ⟨q, hloop, hq⟩ := Option.map_eq_some_iff.mp hrun
  obtain ⟨rfl, rfl⟩ := Prod.mk.inj hq
  obtain ⟨fs₁, hloop', h₁⟩ := hfs.commandLoop p.context 0 hloop
  refine ⟨some (fsUmount p.behind fs₁).disk, ?_, ?_⟩
  · rw [FS.main, hmount]
    simp only [hloop', Option.map_some]
  · intro hstays
    obtain ⟨l, hl⟩ := Option.ne_none_iff_exists'.mp hstays
    obtain ⟨l', hl', -⟩ := Option.map_eq_some_iff.mp hl
    obtain ⟨fs', hmount', hr⟩ := remounts (h₁.stored l' hl').1.block h₁.tree.root h₁.tree.magic
      p.behind
    exact ⟨fs', hmount', h₁.remounted hl' hr⟩

/-- However often the program is run on one disk file, what it prints is what the hierarchy says:
of the tree of directories, where it stands in it, the names, the sizes, the contents, the link
counts and what is free; whatever bytes `inode[-1]` and the heap behind a short file hold. -/
theorem sessions_print_hierarchy {processes : List Process}
    {texts : List (List (String × List Arg))}
    (hrun : Mealy.run Hierarchy.main Hierarchy.empty processes = some (texts, t)) :
    ∃ disk, Mealy.run main none processes = some (texts, disk) ∧ Bears disk t := by
  apply Mealy.simulates main (fun t disk => Bears disk t) _ _ hrun
  · intro t disk p printed t' h hmain
    exact h.main p hmain
  · intro _
    exact ⟨format, rfl, carries_format⟩

/-- Files and directories in one run; in the next, a directory entered, left and removed. -/
def inDirA : List Process :=
  [⟨CStrings.ascii "create a 600\nmkdir dirB\nmkdir dirB\ndf\n", fun _ => ⟨Env.zeroed, 0⟩, fun _ => 0⟩,
    ⟨CStrings.ascii "mkdir dirA\ncd dirA\ncreate b 9\nls\nrmdir ..\ncd ..\nrmdir dirB\n",
      fun _ => ⟨Env.zeroed, 0⟩, fun _ => 0⟩]

theorem sessions_print_hierarchy_inDirA : ∃ texts t disk,
    Mealy.run Hierarchy.main Hierarchy.empty inDirA = some (texts, t) ∧
      Mealy.run main none inDirA = some (texts, disk) ∧ Bears disk t := by
  have hserved : (Mealy.run Hierarchy.main Hierarchy.empty inDirA).isSome = true := by
    decide +kernel
  obtain ⟨⟨texts, t⟩, hrun⟩ := Option.isSome_iff_exists.mp hserved
  obtain ⟨disk, hmain, hbears⟩ := sessions_print_hierarchy hrun
  exact ⟨texts, t, disk, hrun, hmain, hbears⟩

end OperatingSystems.FS
