import OperatingSystems.FSTableStep
import OperatingSystems.FSMount

/-! One run of the program after the other on the same disk file. -/
namespace OperatingSystems.FS

variable {fs fs' : FileSystem} {t : Table}

/-! ### Mounting what was unmounted -/

theorem marked_eq {a b : Bitmap} {n : ℕ} (h : ∀ i : ℤ, 0 ≤ i → i < n → a.byte i = b.byte i) :
    a.marked (8*n) = b.marked (8*n) := by
  ext i
  rw [Bitmap.mem_marked, Bitmap.mem_marked]
  apply and_congr_right
  intro hi
  rw [Bitmap.bit, Bitmap.bit, h (i/8) (by omega) (by omega)]

namespace Remounted

theorem usedInodes_eq (hr : Remounted fs fs') : usedInodes fs' = usedInodes fs :=
  marked_eq (n := 64) hr.inodeMap

theorem usedBlocks_eq (hr : Remounted fs fs') : usedBlocks fs' = usedBlocks fs :=
  marked_eq (n := 512) hr.blockMap

theorem inode_used (hr : Remounted fs fs') {n : ℤ} (hn : n ∈ usedInodes fs) :
    fs'.inode n = fs.inode n :=
  hr.inode n (mem_usedInodes_range hn).1 (mem_usedInodes_range hn).2

theorem isDir_iff (hr : Remounted fs fs') {n : ℤ} (hn : n ∈ usedInodes fs) :
    fs'.isDir n ↔ fs.isDir n := by
  rw [FileSystem.isDir, FileSystem.isDir, hr.inode_used hn]

theorem linkCount_eq (hr : Remounted fs fs') {n : ℤ} (hn : n ∈ usedInodes fs) :
    fs'.linkCount n = fs.linkCount n := by
  rw [FileSystem.linkCount, FileSystem.linkCount, hr.inode_used hn]

/-! With the root in block 131 nothing else is written over. -/

variable (hr : Remounted fs fs') (h : Held (usedInodes fs) fs) (hroot : 0 ∈ usedInodes fs)
  (hdir : fs.isDir 0) (hown : ownBlock (fs.inode 0) = 131)

include h hroot hdir hown in
theorem far {n : ℤ} (hn : n ∈ usedInodes fs) (h0 : n ≠ 0) {b : ℤ}
    (hb : b ∈ blocksOf fs.disk (fs.inode n)) : 132 ≤ b := by
  have hblock : 131 ∈ blocksOf fs.disk (fs.inode 0) := by
    rw [blocksOf_of_size_one fs.disk (h.directory 0 hroot hdir).1]
    exact List.mem_singleton.mpr hown.symm
  have hge := (h.data n hn b hb).1
  have hne : b ≠ 131 := by
    rintro rfl
    exact h.disjoint n hn 0 hroot h0 131 hb hblock
  omega

include hr h hroot hdir hown

theorem blocksOf_eq {n : ℤ} (hn : n ∈ usedInodes fs) :
    blocksOf fs'.disk (fs'.inode n) = blocksOf fs.disk (fs.inode n) := by
  rw [hr.inode_used hn]
  apply blocksOf_eq_of
  intro hbig
  by_cases h0 : n = 0
  · rw [h0, (h.directory 0 hroot hdir).1] at hbig
    exact absurd hbig (by decide)
  · exact hr.disk _ (far h hroot hdir hown hn h0 (indirectBlock_mem fs.disk hbig))

theorem content_eq {n : ℤ} (hn : n ∈ usedInodes fs) (h0 : n ≠ 0) :
    content fs'.disk (fs'.inode n) = content fs.disk (fs.inode n) := by
  rw [hr.inode_used hn]
  exact content_frame h.sane fun _ hb => hr.disk _ (far h hroot hdir hown hn h0 hb)

theorem held : Held (usedInodes fs') fs' := by
  have hinodes := hr.usedInodes_eq
  have hblocks := hr.usedBlocks_eq
  have hof {n : ℤ} (hn : n ∈ usedInodes fs) := hr.blocksOf_eq h hroot hdir hown hn
  rw [hinodes]
  refine ⟨⟨⟨?_, ?_⟩, ?_⟩, hinodes.superset, ?_, ?_, ?_, ?_, ?_, ?_⟩
  · rw [hr.superBlock, hblocks]
    exact h.sane.counted.blocks
  · rw [hr.superBlock, hinodes]
    exact h.sane.counted.inodes
  · intro n
    by_cases hn : 0 ≤ n ∧ n < 512
    · rw [hr.inode n hn.1 hn.2]
      exact h.sane.size n
    · rw [hr.beyond n hn]
      exact (show 0 ≤ (0 : Int32).toInt ∧ (0 : Int32).toInt ≤ 73216 by decide)
  · rw [hblocks]
    exact h.metadata
  · intro n hn
    rw [hof hn]
    exact h.nodup n hn
  · intro n hn
    rw [hof hn, hblocks]
    exact h.data n hn
  · intro n hn m hm hne
    rw [hof hn, hof hm]
    exact h.disjoint n hn m hm hne
  · intro n hn
    rw [hr.inode_used hn]
    exact h.size_pos n hn
  · intro n hn
    rw [hr.inode_used hn]
    exact h.directory n hn

end Remounted

namespace Holds

theorem clean_remounted (h : Holds fs t) (hr : Remounted fs fs') : Clean fs' := by
  have hheld := h.clean.toHeld
  have hroot := h.clean.root_used
  have hinodes := hr.usedInodes_eq
  refine ⟨⟨hr.held hheld hroot h.clean.root h.rootBlock⟩, ⟨?_, ?_, ?_, ?_, ?_, ?_⟩, ?_⟩
  · rw [hr.curDir]
    exact h.clean.fits
  · rw [hr.curDir]
    exact h.clean.head
  · rw [hr.curDir]
    exact h.clean.names
  · rw [hinodes, hr.curDir]
    exact h.clean.allocated
  · intro n hn
    rw [hinodes] at hn
    rw [hr.curDir, hr.inode_used hn]
    exact h.clean.links n hn
  · rw [hr.inode_used h.clean.root_used]
    exact h.clean.root
  · intro b hb h131
    rw [hr.usedBlocks_eq] at hb
    obtain ⟨n, hn, hbn⟩ := h.clean.noLeak b hb h131
    refine ⟨n, hinodes.superset hn, ?_⟩
    rwa [hr.blocksOf_eq hheld hroot h.clean.root h.rootBlock hn]

theorem remounted (h : Holds fs t) (hr : Remounted fs fs') : Holds fs' t := by
  have hroot := hr.inode_used h.clean.root_used
  refine ⟨h.clean_remounted hr, ?_, ?_, h.rootName, ?_, ?_, hr.curDirInode, ?_⟩
  · rw [hr.curDir]
    exact h.listing
  · intro n hn hn0
    have hused := h.mem_used.mpr hn
    obtain ⟨htype, hcount, hcontent, hzero⟩ := h.file n hn hn0
    rw [hr.content_eq h.clean.toHeld h.clean.root_used h.clean.root h.rootBlock hused (by omega),
      hr.inode_used hused]
    exact ⟨htype, hcount, hcontent, hzero⟩
  · rw [hroot]
    exact h.rootLinks
  · rw [hroot]
    exact h.rootBlock
  · rw [hr.superBlock]
    exact h.magic

end Holds

/-! ### Processes -/

namespace Table

/-- `main` with the table in place of the disk. -/
def main (t : Table) (p : Process) : Option (List (String × List Arg) × Table) :=
  (commandLoop (fun t i => some (t.step i)) p.context 0 t (inputs p.stdin.length p.stdin)).map
    fun q => (sizes :: ("%% ", []) :: q.1, q.2)

end Table

/-- A line that fits its buffers and asks for nothing outside the root. -/
def Plain (input : List Byte) : Prop :=
  match scanWords input with
  | none => False
  | some words => Table.InRoot (dispatch words.comm words.arg1 words.arg2 words.numArg)

instance (input : List Byte) : Decidable (Plain input) := by
  unfold Plain
  split <;> infer_instance

theorem plain_iff {input : List Byte} : Plain input ↔ ∃ words, scanWords input = some words ∧
    Table.InRoot (dispatch words.comm words.arg1 words.arg2 words.numArg) := by
  unfold Plain
  cases scanWords input with
  | none => simp
  | some words => simp

/-- The loop over the lines: as the single requests. -/
theorem Holds.commandLoop (h : Holds fs t) (context : ℕ → Context) (i : ℕ)
    (lines : List (List Byte)) (hplain : ∀ input ∈ lines, Plain input) :
    ∃ printed fs' t', FS.commandLoop perform context i fs lines = some (printed, fs') ∧
      FS.commandLoop (fun t i => some (t.step i)) context i t lines = some (printed, t') ∧
      Holds fs' t' := by
  induction lines generalizing fs t i with
  | nil => exact ⟨[], fs, t, rfl, rfl, h⟩
  | cons input lines ih =>
    obtain ⟨words, hwords, hroot⟩ := plain_iff.mp (hplain input List.mem_cons_self)
    rw [FS.commandLoop, FS.commandLoop, hwords, Option.bind_some, Option.bind_some]
    split_ifs with hquit
    · exact ⟨_, fs, t, rfl, rfl, h⟩
    obtain ⟨fs₁, hstep, h₁⟩ := h.step (context i, dispatch words.comm words.arg1 words.arg2
      words.numArg) hroot
    obtain ⟨printed, fs', t', hrun, hrun', h'⟩ := ih h₁ (i+1) fun input hin =>
      hplain input (List.mem_cons_of_mem _ hin)
    rw [executeCommand, executeCommand, hstep, Option.bind_some, Option.bind_some, hrun, hrun']
    exact ⟨_, fs', t', rfl, rfl, h'⟩

/-- Mounting the disk file gives a file system that holds the table. -/
def Stores (disk : Option (ℤ → Block)) (t : Table) : Prop :=
  ∃ fs, disk.elim (some format) fsMount = some fs ∧ Holds fs t

theorem Stores.main {disk : Option (ℤ → Block)} (h : Stores disk t) (p : Process)
    (hplain : ∀ input ∈ inputs p.stdin.length p.stdin, Plain input) :
    ∃ printed disk' t', FS.main disk p = some (printed, disk') ∧
      t.main p = some (printed, t') ∧ Stores disk' t' := by
  obtain ⟨fs, hmount, hfs⟩ := h
  obtain ⟨printed, fs₁, t', hrun, hrun', h₁⟩ := hfs.commandLoop p.context 0 _ hplain
  obtain ⟨fs', hmount', hremount⟩ := remounts h₁.curDirInode h₁.rootBlock h₁.magic p.behind
  refine ⟨sizes :: ("%% ", []) :: printed, some (fsUmount p.behind fs₁).disk, t', ?_, ?_, fs',
    hmount', h₁.remounted hremount⟩
  · rw [FS.main, hmount]
    simp only [hrun, Option.map_some]
  · rw [Table.main, hrun', Option.map_some]

/-- However often the program is run on one disk file, and whatever lines about regular files in
the root it is given, if they fit its buffers, every run prints to the letter what the table prints:
nothing is undefined but the bytes that `inode[-1]` and the heap behind a short file hold, and what
`cat`, `ls`, `stat` and `df` report is what the table holds. -/
theorem sessions_print_table (processes : List Process)
    (hplain : ∀ p ∈ processes, ∀ input ∈ inputs p.stdin.length p.stdin, Plain input) :
    ∃ texts disk t, Mealy.run main none processes = some (texts, disk) ∧
      Mealy.run Table.main Table.empty processes = some (texts, t) ∧ Stores disk t := by
  obtain ⟨texts, disk, texts', t, hrun, hrun', hsame, h⟩ := Mealy.lockstep Table.main Eq
    (fun _ p => ∀ input ∈ inputs p.stdin.length p.stdin, Plain input) Stores
    (fun disk t p h hp => by
      obtain ⟨printed, disk', t', hmain, hmain', h'⟩ := h.main p hp
      exact ⟨printed, disk', printed, t', hmain, hmain', rfl, h'⟩)
    ⟨format, rfl, holds_format⟩
    (Mealy.meets_of_forall main _ none processes fun _ p hp => hplain p hp)
  rw [List.forall₂_eq_eq_eq] at hsame
  subst hsame
  exact ⟨texts, disk, t, hrun, hrun', h⟩

/-- A file made in one run and read in the next under the name that is left. -/
def keepAlias : List Process :=
  [⟨CStrings.ascii "create a 9000\nln a b\nrm a\nquit\n", fun _ => ⟨Env.zeroed, 0⟩, fun _ => 0⟩,
    ⟨CStrings.ascii "ls\ncat b\nstat b\ndf\n", fun _ => ⟨Env.zeroed, 0⟩, fun _ => 0⟩]

theorem sessions_print_table_keepAlias : ∃ texts disk t,
    Mealy.run main none keepAlias = some (texts, disk) ∧
      Mealy.run Table.main Table.empty keepAlias = some (texts, t) ∧ Stores disk t :=
  sessions_print_table keepAlias (by decide +kernel)

end OperatingSystems.FS
