import OperatingSystems.FSNavigate

/-! Entering a directory and coming back, and what navigation leaves intact. -/
namespace OperatingSystems.FS

def FileSystem.lookup (fs : FileSystem) (name : Name) : ℤ := (fs.searchCurDir name).getD (-1)

/-- The real directories: the root, and what `mkdir` made with a block until `rmdir` removes it.
A copy of a directory is none, for its `.` names the original. -/
def realDirs (D : Finset ℤ) (fs fs' : FileSystem) (r : Reply) : Command → Finset ℤ
  | .mkdir name =>
    if r.ret = 0 ∧ 0 ≤ ownBlock (fs'.inode (fs'.lookup name)) then insert (fs'.lookup name) D else D
  | .rmdir name => if r.ret = 0 then D.erase (fs.lookup name) else D
  | _ => D

/-- A command that fails makes and removes no directory. -/
theorem realDirs_of_ne {D : Finset ℤ} {fs fs' : FileSystem} {r : Reply} {cmd : Command}
    (h : r.ret ≠ 0) : realDirs D fs fs' r cmd = D := by
  cases cmd with
  | mkdir name => exact if_neg fun hn => h hn.1
  | rmdir name => exact if_neg h
  | _ => rfl

/-- The file system with its real directories noted beside it. -/
def track : FileSystem × Finset ℤ → Env × Command → Option (Reply × FileSystem × Finset ℤ) :=
  Mealy.noted execute fun D fs i r fs' => realDirs D fs fs' r i.2

/-- `cd` leads to a real directory. -/
def Enters (D : Finset ℤ) (fs : FileSystem) : Command → Prop
  | .cd name => name = dot ∨ ∀ n, Leads name fs n → n ∈ D
  | _ => True

/-- `cd` moves from a directory that is saved or goes to its own block, and `mkdir` does not write
the current directory over a block of another inode, the new one's included. -/
def Keeps (fs : FileSystem) : Command → Prop
  | .cd name => name = dot ∨ (∀ n, ¬Leads name fs n) ∨ fs.curDirInode = fs.here ∨ Saved fs
  | .mkdir name => MakeRefused name fs ∨
      (Spares fs fs.curDirInode ∧ fs.curDirInode ≠ fs.getBlock.1)
  | _ => True

/-- The command does not leave the current directory. -/
def Stays (fs : FileSystem) : Command → Prop
  | .cd name => name = dot ∨ ∀ n, ¬Leads name fs n
  | _ => True

variable {S : Finset ℤ} {t : NameTree (List Byte) ℤ} {fs fs' : FileSystem} {env : Env}
  {name : Name} {n s : ℤ}

namespace Tree

/-- After `mkdir` its name leads to the new inode. -/
theorem lookup_made (h : Tree S t fs) {nd : Inode} {fs₁ : FileSystem}
    (hm : Makes env name fs n nd fs₁ fs') : fs'.lookup name = n ∧ fs'.inode n = nd := by
  have hl := h.append hm.missing hm.room hm.first_free.1 hm.entry
  have hmissing := h.missing hm.missing
  constructor
  · rw [FileSystem.lookup, FileSystem.searchCurDir, hm.curDir, Dentry.search_listing hl.fits,
      hl.listing, ← List.append_assoc]
    exact Dentry.find_append_new hmissing n
  · rw [hm.inode, Function.update_self]

/-- A command that does not move keeps the tree, and the real directories are its directories. -/
theorem turn (h : Tree S t fs) {cmd : Command} {r : Reply} (hstays : Stays fs cmd)
    (hkeeps : Keeps fs cmd) (hx : execute fs (env, cmd) = some (r, fs')) :
    Turns t (realDirs t.dirs fs fs' r cmd) fs fs' := by
  cases h.held.sane.does hx with
  | refused cmd r ret make =>
    rw [realDirs_of_ne (by rw [ret]; decide)]
    exact h.turns_self
  | cats name r => exact h.turns_self
  | creates name size n nd r fs' ret what => exact h.creates what
  | unlinks name s r fs' ret what => exact h.unlinks what
  | takesBlock name r ret why =>
    rw [realDirs_of_ne (by rw [ret]; decide)]
    exact h.getBlock
  | makes name n nd fs₁ r fs' ret what =>
    obtain ⟨hspare, hne⟩ := hkeeps.resolve_left (what.not_refused h.held.sane.counted)
    obtain ⟨hlookup, hnode⟩ := h.lookup_made what
    simp only [realDirs, ret, hlookup, hnode, true_and]
    exact h.makes what hspare hne
  | removesDir name s r fs' ret what =>
    have hlookup : fs.lookup name = s := by rw [FileSystem.lookup, what.found, Option.getD_some]
    simp only [realDirs, ret, hlookup, ↓reduceIte]
    exact h.removesDir what
  | remains r ret => exact h.turns_self
  | moves name n r fs' ret other leads what => exact absurd leads (hstays.resolve_left other n)
  | links src dest s r fs' ret what => exact h.links what
  | copies src dest s n nd r fs' ret what => exact h.copies what

theorem of_stay (h : Tree S t fs) {cmd : Command} {r : Reply} (hstays : Stays fs cmd)
    (hkeeps : Keeps fs cmd) (hx : execute fs (env, cmd) = some (r, fs')) :
    Becomes (realDirs t.dirs fs fs' r cmd) fs fs' :=
  (h.turn hstays hkeeps hx).becomes

/-- One command: the file system holds a tree of the real directories. -/
theorem of_step (h : Tree S t fs) {cmd : Command} {r : Reply} (henters : Enters t.dirs fs cmd)
    (hkeeps : Keeps fs cmd) (hx : execute fs (env, cmd) = some (r, fs')) :
    ∃ S' t', Tree S' t' fs' ∧ t'.dirs = realDirs t.dirs fs fs' r cmd ∧ t.Grafts t' fs.here := by
  have hsame := NameTree.grafts_of_subset (Finset.Subset.refl t.dirs) rfl fs.here
  by_cases hstays : Stays fs cmd
  · exact (h.turn hstays hkeeps hx).1
  cases cmd with
  | cd name =>
    rcases (dirChange_outcome _ name).cases hx with ⟨-, -, rfl⟩ | ⟨-, ⟨-, rfl⟩ | ⟨hname, n, hl, hm⟩⟩
    · exact ⟨S, t, h, rfl, hsame⟩
    · exact ⟨S, t, h, rfl, hsame⟩
    · have hn : n ∈ t.dirs := henters.resolve_left hname n hl
      have hs := (hkeeps.resolve_left hname).resolve_left fun hno => hno n hl
      obtain ⟨target, current, ht, hc, hr⟩ := hm.target
      rw [readInode_of_range (mem_usedInodes_range (h.used hn)), Option.some_inj] at ht
      rw [readInode_of_range h.curDirInode_range, Option.some_inj] at hc
      subst ht hc
      have hmoved : fs' = moved fs n := by
        rw [hr, FileSystem.readDiskBlock_of_range _
          (mem_usedBlocks_range (h.directory hn).2.2.2.2)]
        rfl
      rw [hmoved]
      exact ⟨S, t, h.move hn hs, rfl, hsame⟩
  | _ => exact absurd trivial hstays

end Tree

theorem tree_format : Tree {0} ⟨{0}, fun _ => [], fun _ => 0⟩ format := by
  have hzero (m : ℤ) (hm : m ≠ 0) : format.inode m = zeroed.inode m := by
    rw [inode_format, Function.update_of_ne hm]
  have hroot : format.inode 0 = rootInode := by rw [inode_format, Function.update_self]
  have hlist : Lists format.curDir [(dot.bytes, 0)] := by
    rw [curDir_format]
    refine ⟨?_, by decide, by decide⟩
    exact (show 0 ≤ (1 : Int32).toInt ∧ (1 : Int32).toInt ≤ 21 by decide)
  have hhere : format.here = 0 := hlist.here
  -- The root is the only inode in use, so it is all there is to check.
  have hmem (m : ℤ) (hm : m ∈ usedInodes format) : m = 0 := by
    rwa [usedInodes_format, Finset.mem_singleton] at hm
  refine ⟨?_, ?_, ?_, Finset.Subset.rfl, ?_, ?_, ?_, ?_, ?_, ?_⟩
  · have := owned_format.toHeld
    rwa [usedInodes_format] at this
  · exact fun m hm hn => absurd (Finset.mem_singleton.mpr (hmem m hm)) hn
  · refine ⟨Finset.mem_singleton_self 0, ?_, ?_, ?_, ?_, ?_, ?_⟩
    · intro m hm
      rw [Finset.mem_singleton.mp hm, usedInodes_format, FileSystem.isDir, hroot]
      exact ⟨Finset.mem_singleton_self 0, rfl⟩
    · exact fun _ _ m hm => absurd hm List.not_mem_nil
    · exact fun m hm hne => absurd (Finset.mem_singleton.mp hm) hne
    · exact fun m hm hne => absurd (hmem m hm) hne
    · intro m _ _
      rw [NameTree.links, Finset.sum_singleton]
      exact Nat.zero_le 1
    · intro m hm hd
      rw [hmem m hm, FileSystem.isDir, hroot] at hd
      exact absurd rfl hd
  · rw [hroot]
    decide
  · rw [hhere]
    exact Finset.mem_singleton_self 0
  · intro m hm
    obtain rfl : m = 0 := Finset.mem_singleton.mp hm
    have hd : dirOf format 0 = format.curDir := if_pos hhere.symm
    rw [hd]
    exact hlist
  · intro m hm hd
    rw [FileSystem.isDir, hzero m hm] at hd
    cases hd
  · right
    refine ⟨curDirInode_format, hhere, ?_, fun _ _ _ => rfl⟩
    rw [hzero 131 (by decide)]
    rfl
  · rw [format_eq]

theorem atFormat_format : AtFormat ⟨{0}, fun _ => [], fun _ => 0⟩ format := by
  have hhere := tree_format.here
  refine tree_format.mode.resolve_left ?_
  rw [Finset.mem_singleton.mp hhere, curDirInode_format]
  decide

/-- Runs that enter real directories only, and keep the current one when they move. -/
theorem Tree.of_run {s : FileSystem × Finset ℤ} (h : Tree S t s.1) (hd : t.dirs = s.2)
    {inputs : List (Env × Command)} {replies : List Reply} {D : Finset ℤ}
    (hrun : Mealy.run track s inputs = some (replies, fs, D))
    (hok : Mealy.Meets track (fun s i => Enters s.2 s.1 i.2 ∧ Keeps s.1 i.2) s inputs) :
    ∃ S t, Tree S t fs ∧ t.dirs = D := by
  apply Mealy.invariant (fun s i => Enters s.2 s.1 i.2 ∧ Keeps s.1 i.2)
    (fun s => ∃ S t, Tree S t s.1 ∧ t.dirs = s.2) _ ⟨S, t, h, hd⟩ hok hrun
  rintro ⟨fs, D⟩ ⟨env, cmd⟩ r s' ⟨S, t, h, rfl⟩ ⟨henters, hkeeps⟩ hx
  obtain ⟨fs', D⟩ := s'
  obtain ⟨hexec, rfl⟩ := (Mealy.noted_eq_some_iff execute _ _ _ _ _ _ _).mp hx
  obtain ⟨S', t', h', hd, -⟩ := h.of_step henters hkeeps hexec
  exact ⟨S', t', h', hd⟩

/-- Until the first move `mkdir` writes the root to its own block. -/
theorem Tree.keeps (h : Tree S t fs) (hm : AtFormat t fs) {cmd : Command} (hstays : Stays fs cmd) :
    Keeps fs cmd := by
  have hown := h.directory h.good.root_mem
  rw [h.root] at hown
  cases cmd with
  | cd name =>
    rcases hstays with hdot | hno
    · exact Or.inl hdot
    · exact Or.inr (Or.inl hno)
  | mkdir name =>
    right
    rw [hm.block]
    constructor
    · intro m hmem hne hb
      rw [hm.here] at hne
      by_cases hmS : m ∈ S
      · apply h.held.disjoint m hmS 0 hown.1 hne 131 hb
        rw [hown.2.2.1]
        exact List.mem_singleton_self _
      · have hnd := h.blockless m hmem hmS
        rw [blocksOf_of_size_one fs.disk hnd.2.1, List.mem_singleton] at hb
        have hlack : ownBlock (fs.inode m) = -1 := hnd.2.2.2
        rw [ownBlock] at hlack
        omega
    · rcases getBlock_cases h.held.sane.counted with ⟨-, hg⟩ | ⟨b, -, hfresh, -, hg⟩
      · rw [hg]
        exact (by decide : (131 : ℤ) ≠ -1)
      · rw [hg]
        rintro rfl
        exact hfresh hown.2.2.2.2
  | _ => trivial

theorem Tree.stay_step (h : Tree S t fs) (hm : AtFormat t fs) {cmd : Command} {r : Reply}
    (hstays : Stays fs cmd) (hx : execute fs (env, cmd) = some (r, fs')) :
    ∃ S' t', Tree S' t' fs' ∧ AtFormat t' fs' ∧ t'.dirs = realDirs t.dirs fs fs' r cmd := by
  obtain ⟨⟨S', t', h', hd⟩, hhere, hcur⟩ := h.of_stay hstays (h.keeps hm hstays) hx
  refine ⟨S', t', h', h'.mode.resolve_left ?_, hd⟩
  rw [hhere, hcur, hm.block, hm.here]
  decide

/-- Without `cd` nothing is asked of a run that starts at the root. -/
theorem Tree.meets_of_stay {s : FileSystem × Finset ℤ} {inputs : List (Env × Command)}
    (h : Tree S t s.1) (hd : t.dirs = s.2) (hm : AtFormat t s.1)
    (hcd : ∀ i ∈ inputs, ∀ name, i.2 ≠ .cd name) :
    Mealy.Meets track (fun s i => Enters s.2 s.1 i.2 ∧ Keeps s.1 i.2) s inputs := by
  induction inputs generalizing S t s with
  | nil => trivial
  | cons i inputs ih =>
    obtain ⟨fs, D⟩ := s
    obtain ⟨env, cmd⟩ := i
    have hne : ∀ name, cmd ≠ .cd name := hcd (env, cmd) List.mem_cons_self
    have hstays : Stays fs cmd := by
      cases cmd with
      | cd name => exact absurd rfl (hne name)
      | _ => trivial
    have henters : Enters D fs cmd := by
      cases cmd with
      | cd name => exact absurd rfl (hne name)
      | _ => trivial
    refine ⟨⟨henters, h.keeps hm hstays⟩, ?_⟩
    intro r s hx
    obtain ⟨fs', D'⟩ := s
    obtain ⟨hexec, rfl⟩ := (Mealy.noted_eq_some_iff execute _ _ _ _ _ _ _).mp hx
    obtain ⟨S', t', h', hm', hd'⟩ := h.stay_step hm hstays hexec
    rw [hd] at hd'
    exact ih h' hd' hm' fun i hi => hcd i (List.mem_cons_of_mem _ hi)

/-- The fresh disk with its only directory. -/
def start : FileSystem × Finset ℤ := (format, {0})

theorem tree_start : ∃ S t, Tree S t start.1 ∧ t.dirs = start.2 ∧ AtFormat t start.1 := by
  unfold start
  dsimp only
  exact ⟨_, _, tree_format, rfl, atFormat_format⟩

/-! ### Entering a directory and coming back -/

/-- A directory entered by name leads back by its second entry. -/
theorem Tree.up_moved (h : Tree S t fs) (hname : name ≠ dot ∧ name ≠ dotDot)
    (hs : fs.searchCurDir name = some n) (hn : n ∈ t.dirs) :
    n ≠ fs.here ∧ ((moved fs n).curDir.dentry 1).inode.toInt = fs.here := by
  have hrange := mem_usedInodes_range (h.used hn)
  have hchild : n ∈ t.children fs.here := by
    rcases h.found hs hrange.1 with ⟨-, hd⟩ | ⟨l₁, l₂, hk, -⟩
    · exact absurd hd (not_or.mpr hname)
    · rw [NameTree.children, hk]
      simp
  have hne : n ≠ fs.here := h.good.ne_of_mem h.here hn hchild
  have h0 : n ≠ 0 := (h.good.kid _ h.here n hchild).2
  have hlists := h.moved_curDir hn hne
  rw [listingOf, heading, if_neg h0] at hlists
  have hup := hlists.entry (i := 1) (by decide) (e := (dotDot.bytes, t.up n)) rfl
  rw [← h.good.up_eq h.here hn hchild]
  exact ⟨h.good.up_eq h.here hn hchild ▸ hne, hup⟩

/-- What `cd name` and `cd ..` leave of the current directory: it comes back from its block. -/
theorem Tree.cd_back (h : Tree S t fs) (env env' : Env) (hname : name ≠ dot ∧ name ≠ dotDot)
    (hs : fs.searchCurDir name = some n) (hn : n ∈ t.dirs) :
    dirChange env name fs = some (⟨0, []⟩, moved fs n) ∧
      dirChange env' dotDot (moved fs n) = some (⟨0, []⟩, moved (moved fs n) fs.here) ∧
      (moved (moved fs n) fs.here).curDir = if fs.curDirInode = fs.here then fs.curDir
        else dentryLayout.decode (fs.disk (ownBlock (fs.inode fs.here))) := by
  have hrange := mem_usedInodes_range (h.used hn)
  obtain ⟨hne, hup⟩ := h.up_moved hname hs hn
  have hblock := mem_usedBlocks_range (h.directory hn).2.2.2.2
  have hhome := mem_usedBlocks_range (h.directory h.here).2.2.2.2
  refine ⟨?_, ?_, ?_⟩
  · exact dirChange_moved hname.1 (Or.inr ⟨hname.2, hs, hrange.1⟩) hrange h.curDirInode_range hblock
  · exact dirChange_moved (by decide) (Or.inl ⟨rfl, hup.symm⟩) h.here_range hrange hhome
  · rw [← h.disk_own]
    apply congrArg dentryLayout.decode
    apply (moved fs n).writeDiskBlock_disk_of_ne
    exact h.own_ne h.here hn (Ne.symm hne)

/-! ### Two directories of which one is removed -/

def nameD : Name := ⟨[100], by decide, by decide⟩

def makeTwo : List (Env × Command) := [(Env.zeroed, .mkdir nameA), (Env.zeroed, .mkdir nameD)]

def removeOne : List (Env × Command) := makeTwo ++ [(Env.zeroed, .rmdir nameA)]

theorem run_makeTwo : ((Mealy.run track start makeTwo).map fun p => decide (
    (p.2.1.curDirInode = 131 ∧ p.2.1.here = 0) ∧ p.2.1.searchCurDir nameA = some 1 ∧
      (p.2.1.inode 1).type = .directory ∧ ownBlock (p.2.1.inode 1) = 132 ∧
      p.2.1.curDir.listing = [(dot.bytes, 0), (nameA.bytes, 1), (nameD.bytes, 2)] ∧
      (dentryLayout.decode (p.2.1.disk 131)).listing =
        [(dot.bytes, 0), (nameA.bytes, 1), (nameD.bytes, 2)] ∧
      (dentryLayout.decode (p.2.1.disk 132)).numEntry = 2 ∧ 2 ∈ p.2.2)) = some true := by
  rw [start, format_eq, bitmaps_format.1, bitmaps_format.2]
  decide +kernel

/-- An empty directory with a block is removed. -/
theorem Tree.rmdir_succeeds (h : Tree S t fs) (env : Env) (hname : dot.bytes ≠ name.bytes ∧
    dotDot.bytes ≠ name.bytes) (hs : fs.searchCurDir name = some s) (h0 : 0 ≤ s)
    (hdir : fs.isDir s) (hown : 0 ≤ ownBlock (fs.inode s) ∧ ownBlock (fs.inode s) < 4096)
    (hempty : (dentryLayout.decode (fs.disk (ownBlock (fs.inode s)))).numEntry.toInt ≤ 2) :
    ∃ r fs', execute fs (env, .rmdir name) = some (r, fs') ∧ r.ret = 0 ∧
      RemovesDir name fs s fs' := by
  have hused := h.found_used hs h0
  -- Nothing that the command does is undefined, and none of its checks refuses.
  have hout : ¬(¬fs.curDir.Fits ∨ OutOfTable name fs ∨ ∃ s, fs.searchCurDir name = some s ∧ 0 ≤ s ∧
      ((fs.inode s).size = 1 → (fs.inode s).blockCount = 1 → OutOfDisk (fs.inode s) fs)) := by
    rintro (hw | ⟨s', hs', -, hw⟩ | ⟨s', hs', -, hw⟩)
    · exact hw h.curDir.fits
    · obtain rfl : s = s' := Option.some_inj.mp (hs.symm.trans hs')
      exact hw (mem_usedInodes_range hused)
    · obtain rfl : s = s' := Option.some_inj.mp (hs.symm.trans hs')
      obtain ⟨hsize, hcount⟩ := (h.size hused).2 hdir
      obtain ⟨b, hb, hbout⟩ := hw hsize hcount
      rw [blocksOf_of_size_one fs.disk hsize, List.mem_singleton] at hb
      exact hbout (hb ▸ hown)
  rcases (dirRemove_outcome _ name).total hout with ⟨r, -, -, hw⟩ | ⟨r, fs', hx, hret, s', hr⟩
  · exfalso
    rcases hw with hw | hw | ⟨s', hs', hw⟩
    · exact hname.1 hw
    · exact hname.2 hw
    · obtain rfl : s = s' := Option.some_inj.mp (hs.symm.trans hs')
      rcases hw with hw | hw | ⟨buffer, hw⟩
      · omega
      · exact hw hdir
      · rw [fs.readDiskBlock_of_range hown] at hw
        omega
  · obtain rfl : s = s' := Option.some_inj.mp (hs.symm.trans hr.found)
    exact ⟨r, fs', hx, hret, hr⟩

/-- After the removal the root in memory has an entry less than its block. -/
theorem run_removeOne : ∃ replies fs D S t,
    Mealy.run track start removeOne = some (replies, fs, D) ∧
      Mealy.Meets track (fun s i => Enters s.2 s.1 i.2 ∧ Keeps s.1 i.2) start removeOne ∧
      (Tree S t fs ∧ AtFormat t fs ∧ t.dirs = D) ∧
      fs.searchCurDir nameD = some 2 ∧ 2 ∈ D ∧ 1 ∉ usedInodes fs ∧
      fs.curDir.listing = [(dot.bytes, 0), (nameD.bytes, 2)] ∧
      (dentryLayout.decode (fs.disk 131)).listing =
        [(dot.bytes, 0), (nameA.bytes, 1), (nameD.bytes, 2)] := by
  obtain ⟨⟨replies, fs, D⟩, hrun, hfacts⟩ := Option.map_eq_some_iff.mp run_makeTwo
  obtain ⟨⟨hcur, hhere⟩, hs, htype, hown, hlist, hdisk, hnum, h2⟩ := of_decide_eq_true hfacts
  dsimp only at hcur hhere hs htype hown hlist hdisk hnum h2
  obtain ⟨S₀, t₀, hstart, hdirs, hm₀⟩ := tree_start
  have hmeets : Mealy.Meets track (fun s i => Enters s.2 s.1 i.2 ∧ Keeps s.1 i.2) start
      removeOne := hstart.meets_of_stay hdirs hm₀ (by simp [removeOne, makeTwo])
  obtain ⟨S, t, h, rfl⟩ := hstart.of_run hdirs hrun
    ((Mealy.meets_append_iff track _ start makeTwo _).mp hmeets).1
  have hm : AtFormat t fs := h.mode.resolve_left (by rw [hcur, hhere]; decide)
  obtain ⟨r, fs', hx, hret, hr⟩ := h.rmdir_succeeds Env.zeroed (by decide) hs
    (by decide) htype (by rw [hown]; decide) (by rw [hown, hnum]; decide)
  obtain ⟨S', t', h', hm', hd⟩ := h.stay_step hm (show Stays fs (.rmdir nameA) from trivial) hx
  have hlookup : fs.lookup nameA = 1 := by rw [FileSystem.lookup, hs, Option.getD_some]
  simp only [realDirs, hret, hlookup, ↓reduceIte] at hd
  -- The entry goes from the current directory in memory only.
  obtain ⟨bs, hrel, -⟩ := hr.rest
  obtain ⟨after, he⟩ := hr.entry
  have hl := h.curDir.remove he
  rw [← h.curDir.listing, hlist] at hl
  have herase : [(dot.bytes, (0 : ℤ)), (nameA.bytes, 1), (nameD.bytes, 2)].eraseP
      (fun e => e.1 == nameA.bytes) = [(dot.bytes, 0), (nameD.bytes, 2)] := by decide
  rw [herase] at hl
  refine ⟨replies ++ [r], fs', t.dirs.erase 1, S', t', ?_, hmeets, ⟨h', hm', hd⟩, ?_, ?_, ?_,
    hl.listing, ?_⟩
  · apply (Mealy.run_append_iff track start _ makeTwo _ _).mpr
    refine ⟨replies, (fs, t.dirs), [r], hrun, ?_, rfl⟩
    apply (Mealy.run_cons_iff track _ _ _ _ _).mpr
    refine ⟨r, (fs', t.dirs.erase 1), [], ?_, rfl, rfl⟩
    apply (Mealy.noted_eq_some_iff execute _ _ _ _ _ _ _).mpr
    refine ⟨hx, ?_⟩
    simp only [realDirs, hret, hlookup, ↓reduceIte]
  · rw [hl.search]
    decide
  · exact Finset.mem_erase.mpr ⟨by decide, h2⟩
  · rw [hrel.inodes]
    exact Finset.notMem_erase 1 _
  · rw [hrel.rest]
    exact hdisk

/-- In a run that keeps the current directory whenever it moves, entering a made directory and
coming back is lossless exactly when it does so again. -/
theorem cd_back_lossless_iff {inputs : List (Env × Command)} {replies : List Reply} {D : Finset ℤ}
    (hrun : Mealy.run track start inputs = some (replies, fs, D))
    (hok : Mealy.Meets track (fun s i => Enters s.2 s.1 i.2 ∧ Keeps s.1 i.2) start inputs)
    (env env' : Env) (hname : name ≠ dot ∧ name ≠ dotDot)
    (hs : fs.searchCurDir name = some n) (hn : n ∈ D) :
    (∃ r₁ fs₁ r₂ fs₂, execute fs (env, .cd name) = some (r₁, fs₁) ∧ r₁.ret = 0 ∧
      execute fs₁ (env', .cd dotDot) = some (r₂, fs₂) ∧ r₂.ret = 0 ∧
      SameEntries fs₂.curDir fs.curDir) ↔ fs.curDirInode = fs.here ∨ Saved fs := by
  obtain ⟨S₀, t₀, hstart, hdirs, -⟩ := tree_start
  obtain ⟨S, t, h, rfl⟩ := hstart.of_run hdirs hrun hok
  obtain ⟨h₁, h₂, hcur⟩ := h.cd_back env env' hname hs hn
  constructor
  · rintro ⟨r₁, fs₁, r₂, fs₂, hx₁, -, hx₂, -, hsame⟩
    rw [execute, h₁, Option.some_inj] at hx₁
    obtain ⟨rfl, rfl⟩ := Prod.mk.inj hx₁
    rw [execute, h₂, Option.some_inj] at hx₂
    obtain ⟨rfl, rfl⟩ := Prod.mk.inj hx₂
    by_cases hm : fs.curDirInode = fs.here
    · exact Or.inl hm
    · rw [hcur, if_neg hm] at hsame
      exact Or.inr hsame
  · intro hs
    refine ⟨_, _, _, _, h₁, rfl, h₂, rfl, ?_⟩
    rw [hcur]
    by_cases hm : fs.curDirInode = fs.here
    · rw [if_pos hm]
      exact ⟨rfl, rfl⟩
    · rw [if_neg hm]
      exact hs.resolve_left hm

/-- Of the two entries on the block, one is left in memory. -/
theorem not_saved_removeOne (hcur : fs.curDirInode = 131) (hhere : fs.here = 0)
    (hroot : ownBlock (fs.inode 0) = 131)
    (hlist : fs.curDir.listing = [(dot.bytes, 0), (nameD.bytes, 2)])
    (hdisk : (dentryLayout.decode (fs.disk 131)).listing =
      [(dot.bytes, 0), (nameA.bytes, 1), (nameD.bytes, 2)]) :
    ¬(fs.curDirInode = fs.here ∨ Saved fs) := by
  rintro (heq | hsaved)
  · rw [hcur, hhere] at heq
    exact absurd heq (by decide)
  · have hl := hsaved.2
    rw [hhere, hroot, hdisk, hlist] at hl
    exact absurd hl (by decide)

theorem cd_back_lossless_iff_removeOne : ∃ fs, fs.searchCurDir nameD = some 2 ∧
    ¬∃ r₁ fs₁ r₂ fs₂, execute fs (Env.zeroed, .cd nameD) = some (r₁, fs₁) ∧ r₁.ret = 0 ∧
      execute fs₁ (Env.zeroed, .cd dotDot) = some (r₂, fs₂) ∧ r₂.ret = 0 ∧
      SameEntries fs₂.curDir fs.curDir := by
  obtain ⟨replies, fs, D, S, t, hrun, hok, ⟨h, hm, -⟩, hs, h2, -, hlist, hdisk⟩ := run_removeOne
  have hiff := cd_back_lossless_iff hrun hok Env.zeroed Env.zeroed (by decide) hs h2
  exact ⟨fs, hs, hiff.not.mpr (not_saved_removeOne hm.block hm.here h.root hlist hdisk)⟩

/-- A directory removed since the last write of the root is there again. -/
theorem cd_back_loses : ¬∀ (inputs : List (Env × Command)) (replies : List Reply)
    (fs : FileSystem) (D : Finset ℤ), Mealy.run track start inputs = some (replies, fs, D) →
    Mealy.Meets track (fun s i => Enters s.2 s.1 i.2) start inputs →
    ∀ (env env' : Env) (name : Name) (n : ℤ), name ≠ dot ∧ name ≠ dotDot →
      fs.searchCurDir name = some n → n ∈ D →
      ∃ r₁ fs₁ r₂ fs₂, execute fs (env, .cd name) = some (r₁, fs₁) ∧ r₁.ret = 0 ∧
        execute fs₁ (env', .cd dotDot) = some (r₂, fs₂) ∧ r₂.ret = 0 ∧
        SameEntries fs₂.curDir fs.curDir := by
  intro hall
  obtain ⟨replies, fs, D, S, t, hrun, hok, ⟨h, hm, rfl⟩, hs, h2, -, hlist, hdisk⟩ := run_removeOne
  have henters := Mealy.meets_imp track (fun _ _ _ hok => hok.1) hok
  obtain ⟨r₁, fs₁, r₂, fs₂, hx₁, -, hx₂, -, hsame⟩ :=
    hall _ _ _ _ hrun henters Env.zeroed Env.zeroed nameD 2 (by decide) hs h2
  obtain ⟨h₁, h₂, hcur⟩ := h.cd_back Env.zeroed Env.zeroed (by decide) hs h2
  rw [execute, h₁, Option.some_inj] at hx₁
  obtain ⟨rfl, rfl⟩ := Prod.mk.inj hx₁
  rw [execute, h₂, Option.some_inj] at hx₂
  obtain ⟨rfl, rfl⟩ := Prod.mk.inj hx₂
  have hnot := not_saved_removeOne hm.block hm.here h.root hlist hdisk
  rw [hcur, if_neg (not_or.mp hnot).1] at hsame
  exact hnot (Or.inr hsame)

/-- In such a run every entry of the current directory names an allocated inode, and every block
that an inode lists is in use and its own. -/
theorem navigation_sound {inputs : List (Env × Command)} {replies : List Reply} {D : Finset ℤ}
    (hrun : Mealy.run track start inputs = some (replies, fs, D))
    (hok : Mealy.Meets track (fun s i => Enters s.2 s.1 i.2 ∧ Keeps s.1 i.2) start inputs) :
    (∀ e ∈ fs.curDir.listing, e.2 ∈ usedInodes fs) ∧
      ∀ n ∈ usedInodes fs, ∀ b ∈ blocksOf fs.disk (fs.inode n), 0 ≤ b → b ∈ usedBlocks fs ∧
        ∀ m ∈ usedInodes fs, m ≠ n → b ∉ blocksOf fs.disk (fs.inode m) := by
  obtain ⟨S₀, t₀, hstart, hdirs, -⟩ := tree_start
  obtain ⟨S, t, h, -⟩ := hstart.of_run hdirs hrun hok
  have hheld (n : ℤ) (hn : n ∈ usedInodes fs) (b : ℤ) (hb : b ∈ blocksOf fs.disk (fs.inode n))
      (h0 : 0 ≤ b) : n ∈ S := by
    by_contra hS
    have hnd := h.blockless n hn hS
    rw [blocksOf_of_size_one fs.disk hnd.2.1, List.mem_singleton] at hb
    have hown : ownBlock (fs.inode n) = -1 := hnd.2.2.2
    rw [ownBlock] at hown
    omega
  constructor
  · exact fun e he => h.entry_used he
  · intro n hn b hb h0
    have hS := hheld n hn b hb h0
    refine ⟨(h.held.data n hS b hb).2, ?_⟩
    intro m hm hne hbm
    exact h.held.disjoint n hS m (hheld m hm b hbm h0) (Ne.symm hne) b hb hbm

theorem navigation_sound_removeOne : ∃ fs, fs.searchCurDir nameD = some 2 ∧
    (∀ e ∈ fs.curDir.listing, e.2 ∈ usedInodes fs) ∧
      ∀ n ∈ usedInodes fs, ∀ b ∈ blocksOf fs.disk (fs.inode n), 0 ≤ b → b ∈ usedBlocks fs ∧
        ∀ m ∈ usedInodes fs, m ≠ n → b ∉ blocksOf fs.disk (fs.inode m) := by
  obtain ⟨replies, fs, D, S, t, hrun, hok, -, hs, -⟩ := run_removeOne
  exact ⟨fs, hs, navigation_sound hrun hok⟩

/-- The commands that make, remove and enter, without links and copies. -/
def Navigates : Command → Prop
  | .create _ _ | .rm _ | .mkdir _ | .rmdir _ | .cd _ => True
  | _ => False

theorem Tree.track_cd_back (h : Tree S t fs) (env : Env) (hname : name ≠ dot ∧ name ≠ dotDot)
    (hs : fs.searchCurDir name = some n) (hn : n ∈ t.dirs) :
    Mealy.run track (fs, t.dirs) [(env, .cd name), (env, .cd dotDot)] =
        some ([⟨0, []⟩, ⟨0, []⟩], moved (moved fs n) fs.here, t.dirs) ∧
      Mealy.Meets track (fun s i => Enters s.2 s.1 i.2 ∧ Navigates i.2) (fs, t.dirs)
        [(env, .cd name), (env, .cd dotDot)] := by
  obtain ⟨h₁, h₂, -⟩ := h.cd_back env env hname hs hn
  have hx₁ : track (fs, t.dirs) (env, .cd name) = some (⟨0, []⟩, moved fs n, t.dirs) := by
    rw [track, Mealy.noted, execute, h₁, Option.map_some]
    rfl
  have hx₂ : track (moved fs n, t.dirs) (env, .cd dotDot) =
      some (⟨0, []⟩, moved (moved fs n) fs.here, t.dirs) := by
    rw [track, Mealy.noted, execute, h₂, Option.map_some]
    rfl
  constructor
  · rw [Mealy.run, hx₁, Option.bind_some, Mealy.run, hx₂, Option.bind_some, Mealy.run]
    rfl
  · refine ⟨⟨Or.inr ?_, trivial⟩, ?_⟩
    · rintro m (⟨rfl, -⟩ | ⟨-, hm, -⟩)
      · exact absurd rfl hname.2
      · rw [hs, Option.some_inj] at hm
        exact hm ▸ hn
    intro r s hx
    rw [hx₁, Option.some_inj] at hx
    obtain ⟨rfl, rfl⟩ := Prod.mk.inj hx
    refine ⟨⟨Or.inr ?_, trivial⟩, fun _ _ _ => trivial⟩
    rintro m (⟨-, rfl⟩ | ⟨hne, -⟩)
    · rw [(h.up_moved hname hs hn).2]
      exact h.here
    · exact absurd rfl hne

/-- The directory that came back names a free inode. -/
theorem navigation_dangles : ¬∀ (inputs : List (Env × Command)) (replies : List Reply)
    (fs : FileSystem) (D : Finset ℤ), Mealy.run track start inputs = some (replies, fs, D) →
    Mealy.Meets track (fun s i => Enters s.2 s.1 i.2 ∧ Navigates i.2) start inputs →
    (∀ e ∈ fs.curDir.listing, e.2 ∈ usedInodes fs) ∧
      ∀ n ∈ usedInodes fs, ∀ b ∈ blocksOf fs.disk (fs.inode n), 0 ≤ b → b ∈ usedBlocks fs ∧
        ∀ m ∈ usedInodes fs, m ≠ n → b ∉ blocksOf fs.disk (fs.inode m) := by
  intro hall
  obtain ⟨replies, fs, D, S, t, hrun, hok, ⟨h, hm, rfl⟩, hs, h2, hfree, hlist, hdisk⟩ :=
    run_removeOne
  obtain ⟨hback, hnav⟩ := h.track_cd_back Env.zeroed (by decide) hs h2
  obtain ⟨-, -, hcur⟩ := h.cd_back Env.zeroed Env.zeroed (by decide) hs h2
  have hrun' := (Mealy.run_append_iff track start _ removeOne _ _).mpr
    ⟨_, _, _, hrun, hback, rfl⟩
  refine absurd ((hall _ _ _ _ hrun' ?_).1 (nameA.bytes, 1) ?_) hfree
  · apply (Mealy.meets_append_iff track _ start removeOne _).mpr
    constructor
    · refine Mealy.meets_imp track (fun i hi _ hok => ⟨hok.1, ?_⟩) hok
      simp only [removeOne, makeTwo, List.cons_append, List.nil_append, List.mem_cons,
        List.not_mem_nil, or_false] at hi
      rcases hi with rfl | rfl | rfl <;> trivial
    · intro rs u hu
      rw [hrun, Option.some_inj] at hu
      obtain ⟨-, rfl⟩ := Prod.mk.inj hu
      exact hnav
  · have hne : fs.curDirInode ≠ fs.here := by
      rw [hm.block, hm.here]
      decide
    rw [hcur, if_neg hne, hm.here, h.root, hdisk]
    decide

end OperatingSystems.FS
