import OperatingSystems.FSReturn
import OperatingSystems.FSFrame

/-! What `cd` enters: by name anything that the name leads to, by `..` what the second entry slot
names. -/
namespace OperatingSystems.FS

variable {S : Finset ℤ} {t : NameTree (List Byte) ℤ} {fs fs' : FileSystem} {env : Env}
  {d : Dentry} {name : Name} {n : ℤ}

theorem reachable_of_track {inputs : List (Env × Command)} {replies : List Reply} {D : Finset ℤ}
    (hrun : Mealy.run track start inputs = some (replies, fs, D)) : Reachable inputs fs := by
  refine ⟨replies, ?_⟩
  rw [Mealy.run_noted_iff]
  exact ⟨D, hrun⟩

/-! ### Entering by name -/

/-- A directory: `.` comes first, and no two entries have the same name. -/
structure WellFormed (d : Dentry) : Prop where
  count : 1 ≤ d.numEntry.toInt ∧ d.numEntry.toInt ≤ MAX_DIR_ENTRY
  first : cString (d.dentry 0).name = dot.bytes
  names : (d.listing.map Prod.fst).Nodup

theorem Lists.wellFormed {l : List (List Byte × ℤ)} (h : Lists d ((dot.bytes, n) :: l)) :
    WellFormed d := by
  have hlen := congrArg List.length h.listing
  rw [Dentry.length_listing, List.length_cons] at hlen
  have hcount := h.fits.coe_count
  have hle := h.fits.2
  refine ⟨⟨by omega, by simp only [MAX_DIR_ENTRY]; omega⟩, ?_, ?_⟩
  · -- The first entry of the list is the first slot.
    obtain ⟨k, hk⟩ : ∃ k, d.count = k + 1 := ⟨l.length, hlen⟩
    have hfirst := h.listing
    rw [Dentry.listing, hk, Dentry.segment_succ, Dentry.entryAt_of_lt (by decide)] at hfirst
    exact congrArg Prod.fst (List.cons.inj hfirst).1
  · rw [h.listing]
    exact h.names

theorem Tree.wellFormed (h : Tree S t fs) : WellFormed fs.curDir := by
  have hl := h.curDir
  obtain ⟨r, hr⟩ := heading_eq t fs.here
  rw [listingOf, hr, List.cons_append] at hl
  exact hl.wellFormed

/-- What a search finds is an entry, and the only one of its name. -/
theorem Tree.mem_listing_iff (h : Tree S t fs) :
    (name.bytes, n) ∈ fs.curDir.listing ↔ fs.searchCurDir name = some n ∧ 0 ≤ n := by
  have hl := h.curDir
  have hnames := hl.names
  rw [hl.search, hl.listing, Option.some_inj]
  -- The search stops at the first entry of the name, and names are distinct.
  rcases Dentry.find_cases (listingOf t fs.here) name with
    ⟨hfind, hmissing⟩ | ⟨l₁, l₂, s, hsplit, -, hfind, -⟩
  · rw [hfind]
    constructor
    · intro hmem
      exact absurd (List.mem_map_of_mem (f := Prod.fst) hmem) hmissing
    · rintro ⟨rfl, h0⟩
      exact absurd h0 (by decide)
  · rw [hfind]
    have hmem : (name.bytes, s) ∈ listingOf t fs.here := by
      rw [hsplit]
      simp
    constructor
    · intro hn
      have he := List.inj_on_of_nodup_map hnames hmem hn rfl
      have hs : s = n := congrArg Prod.snd he
      have hused := h.entry_used (e := (name.bytes, n)) (hl.listing ▸ hn)
      exact ⟨hs, (mem_usedInodes_range hused).1⟩
    · rintro ⟨rfl, -⟩
      exact hmem

/-- `cd name` returns 0 for every name that is found, whatever it names. -/
theorem Tree.cd_succeeds (h : Tree S t fs) (env : Env) (hname : name ≠ dot ∧ name ≠ dotDot)
    (hs : fs.searchCurDir name = some n) (h0 : 0 ≤ n) :
    ∃ fs', execute fs (env, .cd name) = some (⟨0, []⟩, fs') := by
  have hdot : ¬name.bytes = dot.bytes := fun he => hname.1 (Name.ext_bytes he)
  have hdots : ¬name.bytes = dotDot.bytes := fun he => hname.2 (Name.ext_bytes he)
  have hrange := mem_usedInodes_range (h.found_used hs h0)
  have hcur : fs.readInode env fs.curDirInode = some (fs.inode fs.curDirInode) :=
    readInode_of_range h.curDirInode_range
  rw [execute, dirChange, if_neg hdot, if_neg hdots]
  simp only [hs, readInode_of_range hrange, Option.bind_some]
  rw [if_neg (by omega), moveTo_eq hcur]
  exact ⟨_, rfl⟩

/-- In a run that enters real directories only and keeps the current one when it moves, the current
directory is well formed, and `cd name` succeeds on directories only exactly if the name is not
that of a file: it never looks at the type. -/
theorem cd_enters_directory_iff {inputs : List (Env × Command)} {replies : List Reply}
    {D : Finset ℤ} (hrun : Mealy.run track start inputs = some (replies, fs, D))
    (hok : Mealy.Meets track (fun s i => Enters s.2 s.1 i.2 ∧ Keeps s.1 i.2) start inputs)
    (env : Env) (hname : name ≠ dot ∧ name ≠ dotDot) :
    WellFormed fs.curDir ∧
      ((∀ r fs', execute fs (env, .cd name) = some (r, fs') → r.ret = 0 →
        ∃ n, (name.bytes, n) ∈ fs.curDir.listing ∧ n ∈ usedInodes fs ∧ fs.isDir n) ↔
      ∀ n, fs.searchCurDir name = some n → 0 ≤ n → fs.isDir n) := by
  obtain ⟨S₀, t₀, hstart, hdirs, -⟩ := tree_start
  obtain ⟨S, t, h, rfl⟩ := hstart.of_run hdirs hrun hok
  refine ⟨h.wellFormed, ?_⟩
  constructor
  · intro henters n hs h0
    obtain ⟨fs', hx⟩ := h.cd_succeeds env hname hs h0
    obtain ⟨m, hmem, -, hdir⟩ := henters _ _ hx rfl
    rw [h.mem_listing_iff, hs, Option.some_inj] at hmem
    rw [hmem.1]
    exact hdir
  · intro hfound r fs' hx hret
    rcases (dirChange_outcome _ name).of_ret_zero hx hret with ⟨hdot, -⟩ | ⟨-, n, hleads, -⟩
    · exact absurd hdot hname.1
    · obtain ⟨-, hs, h0⟩ := hleads.resolve_left fun hl => hname.2 hl.1
      exact ⟨n, h.mem_listing_iff.mpr ⟨hs, h0⟩, h.found_used hs h0, hfound n hs h0⟩

def createOne : List (Env × Command) := [(Env.zeroed, .create nameA 1)]

theorem run_createOne : ((Mealy.run track start createOne).map fun p => decide (
    p.2.1.searchCurDir nameA = some 1 ∧ (p.2.1.inode 1).type = .file)) = some true := by
  rw [start, format_eq, bitmaps_format.1, bitmaps_format.2]
  decide +kernel

theorem meets_createOne : Mealy.Meets track (fun s i => Enters s.2 s.1 i.2 ∧ Keeps s.1 i.2) start
    createOne := by
  obtain ⟨S, t, hstart, hdirs, hm⟩ := tree_start
  exact hstart.meets_of_stay hdirs hm (by simp [createOne])

theorem cd_enters_directory_iff_createOne : ∃ fs, fs.searchCurDir nameA = some 1 ∧
    WellFormed fs.curDir ∧
      ¬∀ r fs', execute fs (Env.zeroed, .cd nameA) = some (r, fs') → r.ret = 0 →
        ∃ n, (nameA.bytes, n) ∈ fs.curDir.listing ∧ n ∈ usedInodes fs ∧ fs.isDir n := by
  obtain ⟨⟨replies, fs, D⟩, hrun, hfacts⟩ := Option.map_eq_some_iff.mp run_createOne
  obtain ⟨hs, htype⟩ := of_decide_eq_true hfacts
  dsimp only at hs htype
  obtain ⟨hform, hiff⟩ := cd_enters_directory_iff hrun meets_createOne Env.zeroed
    (show nameA ≠ dot ∧ nameA ≠ dotDot by decide)
  refine ⟨fs, hs, hform, hiff.not.mpr fun hall => ?_⟩
  have hdir := hall 1 hs (by decide)
  rw [FileSystem.isDir, htype] at hdir
  cases hdir

/-- A file is entered like a directory. -/
theorem cd_enters_file : ¬∀ (inputs : List (Env × Command)) (fs : FileSystem),
    Reachable inputs fs → ∀ (env : Env) (name : Name) (r : Reply) (fs' : FileSystem),
      name ≠ dot ∧ name ≠ dotDot → execute fs (env, .cd name) = some (r, fs') → r.ret = 0 →
        ∃ n, (name.bytes, n) ∈ fs.curDir.listing ∧ n ∈ usedInodes fs ∧ fs.isDir n := by
  intro hall
  obtain ⟨⟨replies, fs, D⟩, hrun, hfacts⟩ := Option.map_eq_some_iff.mp run_createOne
  obtain ⟨hs, htype⟩ := of_decide_eq_true hfacts
  dsimp only at hs htype
  obtain ⟨S₀, t₀, hstart, hdirs, -⟩ := tree_start
  obtain ⟨S, t, h, rfl⟩ := hstart.of_run hdirs hrun meets_createOne
  have hname : nameA ≠ dot ∧ nameA ≠ dotDot := by decide
  obtain ⟨fs', hx⟩ := h.cd_succeeds Env.zeroed hname hs (by decide)
  have hreach : Reachable createOne fs := reachable_of_track hrun
  obtain ⟨n, hmem, -, hdir⟩ := hall _ _ hreach _ _ _ _ hname hx rfl
  rw [h.mem_listing_iff, hs, Option.some_inj] at hmem
  rw [← hmem.1, FileSystem.isDir, htype] at hdir
  cases hdir

/-! ### Going up -/

/-- For each directory that `mkdir` made, the one that was current then. -/
def madeIn (up : ℤ → ℤ) (fs fs' : FileSystem) (r : Reply) : Command → ℤ → ℤ
  | .mkdir name => if r.ret = 0 then Function.update up (fs'.lookup name) fs.here else up
  | _ => up

/-- The file system with its real directories and where they were made. -/
def trackUp : (FileSystem × Finset ℤ) × (ℤ → ℤ) → Env × Command →
    Option (Reply × (FileSystem × Finset ℤ) × (ℤ → ℤ)) :=
  Mealy.noted track fun up s i r s' => madeIn up s.1 s'.1 r i.2

/-- Directory `p` is the current one. -/
def Current (fs : FileSystem) (p : ℤ) : Prop := fs.here = p ∧ fs.curDirInode = p

/-- As long as the number of the root's block is in `curDirInode`, that block names the root. -/
def RootStored (fs : FileSystem) : Prop :=
  fs.curDirInode = 131 → fs.here = 0 →
    ((dentryLayout.decode (fs.disk 131)).dentry 0).inode.toInt = 0

/-- The directories lie in those in which they were made. -/
structure Placed (fs : FileSystem) (D : Finset ℤ) (up : ℤ → ℤ) : Prop where
  tree : ∃ S t, Tree S t fs ∧ t.dirs = D ∧ ∀ n ∈ D, n ≠ 0 → t.up n = up n
  root : RootStored fs

/-- `mkdir` gives its directory an inode that was free. -/
theorem Tree.made_fresh (h : Tree S t fs) {r : Reply}
    (hx : execute fs (env, .mkdir name) = some (r, fs')) (hret : r.ret = 0) :
    fs'.lookup name ∉ usedInodes fs := by
  obtain ⟨n, nd, fs₁, hm⟩ := (dirMake_outcome _ name h.held.sane.counted).of_ret_zero hx hret
  rw [(h.lookup_made hm).1]
  exact hm.first_free.2.1

/-- The notes agree with where the tree puts the directories. -/
theorem Tree.madeIn_eq (h : Tree S t fs) {up : ℤ → ℤ} {cmd : Command} {r : Reply}
    (hup : ∀ n ∈ t.dirs, n ≠ 0 → t.up n = up n) (hx : execute fs (env, cmd) = some (r, fs'))
    (hn : n ∈ realDirs t.dirs fs fs' r cmd) (h0 : n ≠ 0) :
    (if n ∈ t.dirs then t.up n else fs.here) = madeIn up fs fs' r cmd n := by
  by_cases hold : n ∈ t.dirs
  · rw [if_pos hold, hup n hold h0]
    cases cmd with
    | mkdir name =>
      simp only [madeIn]
      by_cases hret : r.ret = 0
      · -- The inode of an old directory is not handed out again.
        have hne : n ≠ fs'.lookup name := by
          rintro rfl
          exact h.made_fresh hx hret (h.used hold)
        rw [if_pos hret, Function.update_of_ne hne]
      · rw [if_neg hret]
    | _ => rfl
  · rw [if_neg hold]
    cases cmd with
    | mkdir name =>
      simp only [realDirs] at hn
      by_cases hmade : r.ret = 0 ∧ 0 ≤ ownBlock (fs'.inode (fs'.lookup name))
      · rw [if_pos hmade] at hn
        have he : n = fs'.lookup name := (Finset.mem_insert.mp hn).resolve_right hold
        simp only [madeIn]
        rw [if_pos hmade.1, he, Function.update_self]
      · rw [if_neg hmade] at hn
        exact absurd hn hold
    | rmdir name =>
      simp only [realDirs] at hn
      split at hn
      · exact absurd (Finset.mem_of_mem_erase hn) hold
      · exact absurd hn hold
    | _ => exact absurd hn hold

theorem Tree.root_used (h : Tree S t fs) : (131 : ℤ) ∈ usedBlocks fs := by
  have hown := (h.directory h.good.root_mem).2.2.2.2
  rw [h.root] at hown
  exact hown

/-- Where the root stays current, its block keeps the entry, and `mkdir` writes it there again. -/
theorem Tree.rootStored (h : Tree S t fs) (hroot : RootStored fs) {cmd : Command} {r : Reply}
    (henters : Enters t.dirs fs cmd) (hkeeps : Keeps fs cmd)
    (hx : execute fs (env, cmd) = some (r, fs')) : RootStored fs' := by
  intro hcur' hhere'
  have hsane := h.held.sane
  -- A command that neither moves nor writes the block leaves all three as they are.
  have hstay (hstays : Stays fs cmd) (hdisk : fs'.disk 131 = fs.disk 131) :
      ((dentryLayout.decode (fs'.disk 131)).dentry 0).inode.toInt = 0 := by
    obtain ⟨-, hhere, hcur⟩ := h.turn hstays hkeeps hx
    rw [hdisk]
    exact hroot (hcur ▸ hcur') (hhere ▸ hhere')
  cases cmd with
  | mkdir name =>
    rcases (dirMake_outcome _ name hsane.counted).cases hx with ⟨-, -, he⟩ | ⟨-, n, nd, fs₁, hm⟩
    · apply hstay trivial
      rw [he, getBlock_disk hsane.counted]
    · obtain ⟨-, -, hcur⟩ := h.turn (show Stays fs (.mkdir name) from trivial) hkeeps hx
      have hdisk : fs'.disk 131 = dentryLayout.encode fs'.curDir := by
        rw [hm.curDir, hm.rest, ← hcur, hcur', fs₁.writeDiskBlock_of_range (by decide)]
        simp only [Function.update_self]
      rw [hdisk, dentryLayout.decode_encode]
      exact hhere'
  | cd name =>
    rcases (dirChange_outcome _ name).cases hx with
      ⟨-, hno, rfl⟩ | ⟨-, ⟨hdot, rfl⟩ | ⟨hname, n, hl, hm⟩⟩
    · exact hroot hcur' hhere'
    · exact hroot hcur' hhere'
    · -- Inode 131 as a directory: then `.` would name it, not the root.
      obtain ⟨S', t', h', -⟩ := h.of_step henters hkeeps hx
      obtain ⟨target, current, -, -, rest⟩ := hm.target
      have hn : n ∈ t.dirs := henters.resolve_left hname n hl
      have hcur : fs'.curDirInode = n := by rw [rest]
      obtain rfl : n = 131 := hcur.symm.trans hcur'
      rcases h'.mode with hmode | hmode
      · rw [hcur', hhere'] at hmode
        exact absurd hmode (by decide)
      · have hunused := hmode.unused
        have hinode : fs'.inode = fs.inode := by rw [rest]
        have hown := (h.directory hn).2.2.2.1
        rw [hinode] at hunused
        omega
  | _ => exact hstay trivial (execute_disk hsane hx h.root_used id)

theorem Placed.of_step {D D' : Finset ℤ} {up up' : ℤ → ℤ} (h : Placed fs D up) {cmd : Command}
    {r : Reply} (henters : Enters D fs cmd) (hkeeps : Keeps fs cmd)
    (hx : trackUp ((fs, D), up) (env, cmd) = some (r, (fs', D'), up')) : Placed fs' D' up' := by
  obtain ⟨htrack, rfl⟩ := (Mealy.noted_eq_some_iff track _ _ _ _ _ _ _).mp hx
  obtain ⟨hexec, rfl⟩ := (Mealy.noted_eq_some_iff execute _ _ _ _ _ _ _).mp htrack
  obtain ⟨⟨S, t, htree, rfl, hup⟩, hroot⟩ := h
  -- The tree moves on by grafting only, so a directory that stays keeps its place and a new one lies
  -- below the current one, as the notes say.
  obtain ⟨S', t', htree', hd, hgrafts⟩ := htree.of_step henters hkeeps hexec
  refine ⟨⟨S', t', htree', hd, ?_⟩, htree.rootStored hroot henters hkeeps hexec⟩
  intro n hn h0
  rw [hgrafts n (hd ▸ hn)]
  exact htree.madeIn_eq hup hexec hn h0

theorem placed_start : Placed start.1 start.2 fun _ => 0 := by
  unfold start
  dsimp only
  refine ⟨⟨_, _, tree_format, rfl, ?_⟩, ?_⟩
  · intro n hn h0
    exact absurd (Finset.mem_singleton.mp hn) h0
  · intro _ _
    rw [disk_format, Function.update_self, dentryLayout.decode_encode]
    decide

theorem Placed.of_run {inputs : List (Env × Command)} {replies : List Reply} {D : Finset ℤ}
    {up : ℤ → ℤ}
    (hrun : Mealy.run trackUp (start, fun _ => 0) inputs = some (replies, (fs, D), up))
    (hok : Mealy.Meets trackUp (fun s i => Enters s.1.2 s.1.1 i.2 ∧ Keeps s.1.1 i.2)
      (start, fun _ => 0) inputs) : Placed fs D up := by
  apply Mealy.invariant (fun s i => Enters s.1.2 s.1.1 i.2 ∧ Keeps s.1.1 i.2)
    (fun s => Placed s.1.1 s.1.2 s.2) _ placed_start hok hrun
  rintro ⟨⟨fs, D⟩, up⟩ ⟨env, cmd⟩ r ⟨⟨fs', D'⟩, up'⟩ h ⟨henters, hkeeps⟩ hx
  exact h.of_step henters hkeeps hx

/-- The directory in which `n` was made; the root is in itself. -/
def above (up : ℤ → ℤ) (n : ℤ) : ℤ := if n = 0 then 0 else up n

/-- From a directory that `mkdir` made, `..` leads back to where it was made; from the root it
stays there exactly if the second entry slot, which no `..` fills, names the root. -/
theorem Placed.up_iff {D : Finset ℤ} {up : ℤ → ℤ} (h : Placed fs D up) (env : Env) :
    (∃ fs', execute fs (env, .cd dotDot) = some (⟨0, []⟩, fs') ∧
      Current fs' (above up fs.here)) ↔
      (fs.here = 0 → (fs.curDir.dentry 1).inode = 0) := by
  obtain ⟨⟨S, t, htree, rfl, hup⟩, hroot⟩ := h
  constructor
  · rintro ⟨fs', hx, -, hcur⟩ h0
    rw [above, if_pos h0] at hcur
    rcases (dirChange_outcome _ dotDot).of_ret_zero hx rfl with ⟨hdot, -⟩ | ⟨-, n, hl, hm⟩
    · exact absurd hdot (by decide)
    · obtain ⟨target, current, -, -, rest⟩ := hm.target
      rcases hl with ⟨-, hn⟩ | ⟨hne, -⟩
      · have hzero : n = 0 := by rw [← hcur, rest]
        apply Int32.toInt_inj.mp
        rw [← hn, hzero]
        rfl
      · exact absurd rfl hne
  · intro hslot
    -- What `..` reads, and what the move finds there.
    have hmove (n : ℤ) (hn : n ∈ t.dirs) (hslot : (fs.curDir.dentry 1).inode.toInt = n)
        (hhere : (moved fs n).here = n) : ∃ fs',
        execute fs (env, .cd dotDot) = some (⟨0, []⟩, fs') ∧ Current fs' n := by
      have hown := (htree.directory hn).2.2.2.2
      exact ⟨moved fs n, dirChange_moved (by decide) (Or.inl ⟨rfl, hslot.symm⟩)
        (mem_usedInodes_range (htree.used hn)) htree.curDirInode_range
        (mem_usedBlocks_range hown), hhere, rfl⟩
    by_cases h0 : fs.here = 0
    · rw [above, if_pos h0]
      apply hmove 0 htree.good.root_mem
      · rw [hslot h0]
        rfl
      · have hdisk := htree.disk_own
        rw [h0, htree.root] at hdisk
        change ((dentryLayout.decode _).dentry 0).inode.toInt = 0
        rw [htree.root, hdisk]
        split
        · exact h0
        · rename_i hne
          rcases htree.writeBack_cases with ⟨hm, -⟩ | ⟨-, hm, -⟩
          · exact absurd (hm.trans h0) hne
          · exact hroot hm.block h0
    · have hplace := htree.good.up _ htree.here h0
      have hl := htree.curDir
      rw [listingOf, heading, if_neg h0] at hl
      rw [above, if_neg h0, ← hup _ htree.here h0]
      apply hmove _ hplace.1
      · exact hl.entry (i := 1) (by decide) (e := (dotDot.bytes, t.up fs.here)) rfl
      · exact here_eq (htree.moved_curDir hplace.1 hplace.2.1)

theorem up_is_parent_iff {inputs : List (Env × Command)} {replies : List Reply} {D : Finset ℤ}
    {up : ℤ → ℤ}
    (hrun : Mealy.run trackUp (start, fun _ => 0) inputs = some (replies, (fs, D), up))
    (hok : Mealy.Meets trackUp (fun s i => Enters s.1.2 s.1.1 i.2 ∧ Keeps s.1.1 i.2)
      (start, fun _ => 0) inputs) (env : Env) :
    (∃ fs', execute fs (env, .cd dotDot) = some (⟨0, []⟩, fs') ∧
      Current fs' (above up fs.here)) ↔
      (fs.here = 0 → (fs.curDir.dentry 1).inode = 0) :=
  (Placed.of_run hrun hok).up_iff env

/-- The file that was created is in the slot for `..`. -/
theorem run_createOne_up : ((Mealy.run trackUp (start, fun _ => 0) createOne).map fun p => decide (
    p.2.1.1.here = 0 ∧ (p.2.1.1.curDir.dentry 1).inode ≠ 0)) = some true := by
  rw [start, format_eq, bitmaps_format.1, bitmaps_format.2]
  decide +kernel

theorem up_is_parent_iff_createOne : ∃ fs up, fs.here = 0 ∧
    ¬∃ fs', execute fs (Env.zeroed, .cd dotDot) = some (⟨0, []⟩, fs') ∧
      Current fs' (above up fs.here) := by
  obtain ⟨⟨replies, ⟨fs, D⟩, up⟩, hrun, hfacts⟩ := Option.map_eq_some_iff.mp run_createOne_up
  obtain ⟨hhere, hslot⟩ := of_decide_eq_true hfacts
  have hiff := up_is_parent_iff hrun ((Mealy.meets_noted_iff _ _).mpr meets_createOne) Env.zeroed
  exact ⟨fs, up, hhere, hiff.not.mpr fun h => hslot (h hhere)⟩

/-- `cd` by name is applied to directories, and nothing is copied. -/
def Walks (fs : FileSystem) : Command → Prop
  | .cd name => name = dot ∨ name = dotDot ∨ ∀ n, fs.searchCurDir name = some n → 0 ≤ n → fs.isDir n
  | .cp _ _ => False
  | _ => True

/-- With a file in the root `cd ..` leaves the root. -/
theorem up_enters_file : ¬∀ (inputs : List (Env × Command)) (replies : List Reply)
    (fs : FileSystem) (D : Finset ℤ) (up : ℤ → ℤ),
    Mealy.run trackUp (start, fun _ => 0) inputs = some (replies, (fs, D), up) →
    Mealy.Meets trackUp (fun s i => Walks s.1.1 i.2) (start, fun _ => 0) inputs →
    ∀ env : Env, ∃ fs', execute fs (env, .cd dotDot) = some (⟨0, []⟩, fs') ∧
      Current fs' (above up fs.here) := by
  intro hall
  obtain ⟨⟨replies, ⟨fs, D⟩, up⟩, hrun, hfacts⟩ := Option.map_eq_some_iff.mp run_createOne_up
  obtain ⟨hhere, hslot⟩ := of_decide_eq_true hfacts
  have hplaced := Placed.of_run hrun ((Mealy.meets_noted_iff _ _).mpr meets_createOne)
  have hwalks : Mealy.Meets trackUp (fun s i => Walks s.1.1 i.2) (start, fun _ => 0) createOne :=
    ⟨trivial, fun _ _ _ => trivial⟩
  exact hslot ((hplaced.up_iff Env.zeroed).mp (hall _ _ _ _ _ hrun hwalks Env.zeroed) hhere)

end OperatingSystems.FS
