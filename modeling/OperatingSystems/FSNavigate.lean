import OperatingSystems.FSTree

/-! What each command does to the tree of directories, as long as the current directory is
written to a block of its own. -/
namespace OperatingSystems.FS

variable {S : Finset ℤ} {t : NameTree (List Byte) ℤ} {fs fs' : FileSystem} {env : Env}
  {l : List (List Byte × ℤ)} {name : Name} {n s : ℤ}

/-- Two directories have the same entries in the same order. -/
def SameEntries (d d' : Dentry) : Prop := d.numEntry = d'.numEntry ∧ d.listing = d'.listing

theorem SameEntries.lists {d d' : Dentry} (h : SameEntries d d') (hd : Lists d' l) : Lists d l := by
  refine ⟨?_, h.2.trans hd.listing, hd.names⟩
  unfold Dentry.Fits
  rw [h.1]
  exact hd.fits

/-- The block of the current directory holds its entries. -/
def Saved (fs : FileSystem) : Prop :=
  SameEntries (dentryLayout.decode (fs.disk (ownBlock (fs.inode fs.here)))) fs.curDir

/-- Block `b` belongs to no inode but that of the current directory. -/
def Spares (fs : FileSystem) (b : ℤ) : Prop :=
  ∀ m ∈ usedInodes fs, m ≠ fs.here → b ∉ blocksOf fs.disk (fs.inode m)

/-- The same directory is current, and the file system holds a tree with the directories `D`. -/
def Becomes (D : Finset ℤ) (fs fs' : FileSystem) : Prop :=
  (∃ S t, Tree S t fs' ∧ t.dirs = D) ∧ fs'.here = fs.here ∧ fs'.curDirInode = fs.curDirInode

/-- `Becomes`, and in the new tree the directories lie where they lay in `t`, a new one below the
current one. -/
def Turns (t : NameTree (List Byte) ℤ) (D : Finset ℤ) (fs fs' : FileSystem) : Prop :=
  (∃ S t', Tree S t' fs' ∧ t'.dirs = D ∧ t.Grafts t' fs.here) ∧ fs'.here = fs.here ∧
    fs'.curDirInode = fs.curDirInode

theorem Turns.becomes {D : Finset ℤ} (h : Turns t D fs fs') : Becomes D fs fs' := by
  obtain ⟨⟨S, t', h', hd, -⟩, hhere, hcur⟩ := h
  exact ⟨⟨S, t', h', hd⟩, hhere, hcur⟩

/-- The block to which a change of directory writes the current one. -/
def writeBack (fs : FileSystem) : ℤ := ownBlock (fs.inode fs.curDirInode)

namespace Tree

/-- Neither inodes nor entries change, whatever is current and wherever it lies. -/
theorem reload (h : Tree S t fs) (hheld : Held S fs') (hinodes : usedInodes fs' = usedInodes fs)
    (hinode : fs'.inode = fs.inode) (hmagic : fs'.superBlock.magicNumber = fs.superBlock.magicNumber)
    (hhere : fs'.here ∈ t.dirs) (hlists : ∀ n ∈ t.dirs, Lists (dirOf fs' n) (listingOf t n))
    (hmode : fs'.curDirInode = fs'.here ∨ AtFormat t fs') : Tree S t fs' := by
  refine ⟨hheld, ?_, ?_, h.dirs, ?_, hhere, hlists, ?_, hmode, hmagic.trans h.magic⟩
  · rw [hinodes, hinode]
    exact h.blockless
  · have hd : fs'.isDir = fs.isDir := by
      funext m
      rw [FileSystem.isDir, FileSystem.isDir, hinode]
    have hc : fs'.linkCount = fs.linkCount := by
      funext m
      rw [FileSystem.linkCount, FileSystem.linkCount, hinode]
    rw [hinodes, hd, hc]
    exact h.good
  · rw [hinode, h.root]
  · intro m hm hd
    rw [FileSystem.isDir, hinode] at hd
    rw [hinode]
    exact h.stale m hm hd

theorem atFormat_congr (hm : AtFormat t fs) (hhere : fs'.here = fs.here)
    (hinode : fs'.inode = fs.inode) (hcur : fs'.curDirInode = fs.curDirInode) : AtFormat t fs' :=
  ⟨hcur.trans hm.block, hhere.trans hm.here, by rw [hinode]; exact hm.unused, hm.empty⟩

theorem turns_self (h : Tree S t fs) : Turns t t.dirs fs fs :=
  ⟨⟨S, t, h, rfl, NameTree.grafts_of_subset (Finset.Subset.refl t.dirs) rfl fs.here⟩, rfl, rfl⟩

/-- A block is taken and not used. -/
theorem tookBlock (h : Tree S t fs) : Tree S t fs.getBlock.2 ∧
    fs.getBlock.2.here = fs.here ∧ fs.getBlock.2.curDirInode = fs.curDirInode := by
  rcases getBlock_cases h.held.sane.counted with ⟨-, hg⟩ | ⟨b, hb, hfresh, -, hg⟩
  · rw [hg]
    exact ⟨h, rfl, rfl⟩
  · rw [hg]
    have hheld : Held S (fs.takeBlock b) := by
      apply h.held.of_eq
      · have := h.held.sane.getBlock
        rwa [hg] at this
      · rw [usedBlocks_takeBlock hb]
        exact Finset.subset_insert b _
      · exact h.held.subset
      · exact fun _ _ => rfl
      · exact fun _ _ => ⟨rfl, rfl, rfl⟩
    refine ⟨h.reload hheld rfl rfl rfl h.here h.lists ?_, rfl, rfl⟩
    rcases h.mode with hm | hm
    · exact Or.inl hm
    · exact Or.inr (atFormat_congr hm rfl rfl rfl)

theorem getBlock (h : Tree S t fs) : Turns t t.dirs fs fs.getBlock.2 := by
  obtain ⟨h', hhere, hcur⟩ := h.tookBlock
  have hup := NameTree.grafts_of_subset (Finset.Subset.refl t.dirs) rfl fs.here
  exact ⟨⟨S, t, h', rfl, hup⟩, hhere, hcur⟩

/-- The current directory is written to a block of its own. -/
theorem write (h : Tree S t fs) {b : ℤ} (hb : ∀ m ∈ S, m ≠ fs.here → b ∉ blocksOf fs.disk (fs.inode m)) :
    Tree S t (fs.writeDiskBlock b (dentryLayout.encode fs.curDir)) := by
  have hrest := fs.writeDiskBlock_rest b (dentryLayout.encode fs.curDir)
  have hcur : (fs.writeDiskBlock b (dentryLayout.encode fs.curDir)).curDir = fs.curDir := by
    rw [hrest]
  have hhere : (fs.writeDiskBlock b (dentryLayout.encode fs.curDir)).here = fs.here := by
    rw [FileSystem.here, hcur, FileSystem.here]
  -- The block is no map of another inode, and the current directory is too small to have one.
  have hheld : Held S (fs.writeDiskBlock b (dentryLayout.encode fs.curDir)) := by
    apply h.held.write
    intro m hm hs
    by_cases hne : m = fs.here
    · subst hne
      rw [(h.held.directory _ hm (h.directory h.here).2.1).1] at hs
      exact absurd hs (by decide)
    · intro he
      exact hb m hm hne (he ▸ indirectBlock_mem fs.disk hs)
  apply h.reload hheld (by rw [hrest]; rfl) (by rw [hrest]) (by rw [hrest]) (by rw [hhere]; exact h.here)
  · intro m hm
    by_cases hne : m = fs.here
    · subst hne
      rw [← hhere, dirOf_here, hcur, hhere]
      exact h.curDir
    · have hdisk : (fs.writeDiskBlock b (dentryLayout.encode fs.curDir)).disk
          (ownBlock (fs.inode m)) = fs.disk (ownBlock (fs.inode m)) := by
        apply fs.writeDiskBlock_disk_of_ne
        rintro rfl
        apply hb m (h.dirs hm) hne
        rw [(h.directory hm).2.2.1]
        exact List.mem_singleton_self _
      rw [dirOf_eq hne hhere (by rw [hrest]) hdisk]
      exact h.lists m hm
  · rcases h.mode with hm | hm
    · left
      rw [hhere, hrest]
      exact hm
    · exact Or.inr (atFormat_congr hm hhere (by rw [hrest]) (by rw [hrest]))

/-- A named inode of type directory, whose block says so, becomes a directory of the tree. -/
theorem adopt (h : Tree S t fs) (hn : n ∈ S) (hdir : fs.isDir n) (hnew : n ∉ t.dirs)
    (hnamed : n ∈ t.children fs.here)
    (hlists : Lists (dentryLayout.decode (fs.disk (ownBlock (fs.inode n))))
      [(dot.bytes, n), (dotDot.bytes, fs.here)]) : Tree S (t.adopt n fs.here) fs := by
  have hne : n ≠ fs.here := fun he => hnew (he ▸ h.here)
  have h0 : n ≠ 0 := (h.good.kid _ h.here n hnamed).2
  -- The old directories keep their places and entries.
  have hlist (m : ℤ) (hm : m ∈ t.dirs) : listingOf (t.adopt n fs.here) m = listingOf t m := by
    have hmn : m ≠ n := fun he => hnew (he ▸ hm)
    have hup : (t.adopt n fs.here).up m = t.up m := Function.update_of_ne hmn ..
    have hkids : (t.adopt n fs.here).kids m = t.kids m := Function.update_of_ne hmn ..
    rw [listingOf, listingOf, heading, heading, hup, hkids]
  refine ⟨h.held, h.blockless, ?_, ?_, h.root, Finset.mem_insert_of_mem h.here, ?_, h.stale, ?_,
    h.magic⟩
  · exact h.good.adopt ⟨h.held.subset hn, hdir⟩ hnew h.here hnamed
  · intro m hm
    rcases Finset.mem_insert.mp hm with rfl | hm
    · exact hn
    · exact h.dirs hm
  · intro m hm
    rcases Finset.mem_insert.mp hm with rfl | hm
    · have hup : (t.adopt m fs.here).up m = fs.here := Function.update_self ..
      have hkids : (t.adopt m fs.here).kids m = [] := Function.update_self ..
      rw [dirOf_of_ne hne, listingOf, heading, if_neg h0, hup, hkids, List.append_nil]
      exact hlists
    · rw [hlist m hm]
      exact h.lists m hm
  · rcases h.mode with hm | hm
    · exact Or.inl hm
    · right
      refine ⟨hm.block, hm.here, hm.unused, ?_⟩
      intro m hmem hm0
      rcases Finset.mem_insert.mp hmem with rfl | hmem
      · exact Function.update_self ..
      · have hmn : m ≠ n := fun he => hnew (he ▸ hmem)
        rw [NameTree.kids_adopt, Function.update_of_ne hmn]
        exact hm.empty m hmem hm0

/-- An empty directory other than the current one leaves the tree, and stays an inode. -/
theorem disown (h : Tree S t fs) (hn : n ∈ t.dirs) (h0 : n ≠ 0) (hne : n ≠ fs.here)
    (hempty : t.kids n = []) : Tree S (t.disown n) fs := by
  have hlist (m : ℤ) : listingOf (t.disown n) m = listingOf t m := rfl
  refine ⟨h.held, h.blockless, h.good.disown hn h0 hempty, ?_, h.root, ?_, ?_, h.stale, ?_, h.magic⟩
  · exact (Finset.erase_subset n t.dirs).trans h.dirs
  · exact Finset.mem_erase.mpr ⟨Ne.symm hne, h.here⟩
  · intro m hm
    rw [hlist m]
    exact h.lists m (Finset.mem_of_mem_erase hm)
  · rcases h.mode with hm | hm
    · exact Or.inl hm
    · exact Or.inr ⟨hm.block, hm.here, hm.unused,
        fun m hmem hm0 => hm.empty m (Finset.mem_of_mem_erase hmem) hm0⟩

/-- An inode is released together with its only entry, which is in the current directory. -/
theorem released (h : Tree S t fs) {l₁ l₂ : List (List Byte × ℤ)} {a : List Byte}
    (hs : s ∈ S) (hdirs : s ∉ t.dirs) (hsplit : t.kids fs.here = l₁ ++ (a, s) :: l₂)
    (hone : t.links s = 1)
    (hr : Released fs s (blocksOf fs.disk (fs.inode s)).toFinset fs')
    (hlists : Lists fs'.curDir (heading t fs.here ++ (l₁ ++ l₂))) :
    Tree (S.erase s) (t.setKids fs.here (l₁ ++ l₂)) fs' := by
  have hinode : fs'.inode = fs.inode := by rw [hr.rest]
  have hdisk : fs'.disk = fs.disk := by rw [hr.rest]
  apply h.edit (h.held.released hs hr)
  · intro m hm hmS
    rw [hr.inodes, Finset.mem_erase] at hm
    rw [hinode]
    exact h.blockless m hm.2 fun hc => hmS (Finset.mem_erase.mpr ⟨hm.1, hc⟩)
  · have hd : fs'.isDir = fs.isDir := by
      funext m
      rw [FileSystem.isDir, FileSystem.isDir, hinode]
    rw [hd]
    apply h.good.dropKid h.here hsplit hdirs
    · intro m hm
      rw [hr.inodes, Finset.mem_erase]
      exact and_iff_right hm
    · intro m _
      rw [FileSystem.linkCount, FileSystem.linkCount, hinode]
    · left
      rw [hr.inodes]
      exact ⟨hone, Finset.notMem_erase s _⟩
  · intro m hm
    exact Finset.mem_erase.mpr ⟨fun he => hdirs (he ▸ hm), h.dirs hm⟩
  · exact hlists
  · intro m _
    rw [hinode]
  · intro m _ _
    rw [hdisk]
  · intro m hm hd
    rw [FileSystem.isDir, hinode] at hd
    rw [hinode]
    exact h.stale m hm hd
  · rw [hr.rest]
  · intro hm
    rw [hinode]
    exact hm.unused
  · rw [hr.rest]

/-- A file of the current directory gets another link count and entry, or loses one. -/
theorem relinked (h : Tree S t fs) {c : Int32}
    (hr : fs' = { fs with
      inode := Function.update fs.inode s { fs.inode s with linkCount := c }
      curDir := fs'.curDir })
    (hgood : (t.setKids fs.here l).Good 0 (usedInodes fs) fs.isDir fs'.linkCount)
    (hlists : Lists fs'.curDir (heading t fs.here ++ l)) :
    Tree S (t.setKids fs.here l) fs' := by
  have hinode : fs'.inode = Function.update fs.inode s { fs.inode s with linkCount := c } := by rw [hr]
  have hnode := inode_relinked hinode
  have htype (m : ℤ) : (fs'.inode m).type = (fs.inode m).type := by rw [hnode m]
  have hown (m : ℤ) : ownBlock (fs'.inode m) = ownBlock (fs.inode m) := by
    rw [hnode m]
    rfl
  have hinodes : usedInodes fs' = usedInodes fs := by
    rw [hr]
    rfl
  have hdir : fs'.isDir = fs.isDir := by
    funext m
    rw [FileSystem.isDir, FileSystem.isDir, htype m]
  apply h.edit (h.held.relinked hr)
  · intro m hm hmS
    rw [hinodes] at hm
    have := h.blockless m hm hmS
    rw [hnode m]
    exact this
  · rw [hinodes, hdir]
    exact hgood
  · exact h.dirs
  · exact hlists
  · exact fun m _ => hown m
  · intro m _ _
    rw [hr]
  · intro m hm hd
    rw [hdir] at hd
    rw [hown m]
    exact h.stale m hm hd
  · rw [hr]
  · intro hm
    rw [hown 131]
    exact hm.unused
  · rw [hr]

theorem size (h : Tree S t fs) (hs : s ∈ usedInodes fs) :
    (0 < (fs.inode s).size.toInt ∧ (fs.inode s).size.toInt ≤ 73216) ∧
      (fs.isDir s → (fs.inode s).size = 1 ∧ (fs.inode s).blockCount = 1) := by
  by_cases hS : s ∈ S
  · exact ⟨⟨h.held.size_pos s hS, (h.held.sane.size s).2⟩, h.held.directory s hS⟩
  · have hb := h.blockless s hs hS
    refine ⟨⟨?_, (h.held.sane.size s).2⟩, fun _ => ⟨hb.2.1, hb.2.2.1⟩⟩
    rw [hb.2.1]
    decide

theorem creates (h : Tree S t fs) {size : Int32} {nd : Inode}
    (hc : Creates env name size fs n nd fs') : Turns t t.dirs fs fs' := by
  have hsize : 0 < nd.size.toInt ∧ nd.size.toInt ≤ 73216 := by
    rw [hc.size_eq]
    exact ⟨hc.size_pos, hc.size_le⟩
  have hfile : nd.type ≠ .directory := by
    rw [hc.type]
    decide
  have h' := h.added hc.toAdded hc.missing hc.room hc.entry hsize (fun hd => absurd hd hfile)
    (fun _ => hc.linkCount)
  exact ⟨⟨_, _, h', rfl, NameTree.grafts_of_subset Finset.Subset.rfl rfl _⟩,
    here_eq (h.append hc.missing hc.room hc.range hc.entry), hc.curDirInode⟩

theorem copies (h : Tree S t fs) {src dest : Name} {nd : Inode}
    (hc : Copies src dest fs s n nd fs') : Turns t t.dirs fs fs' := by
  have hs := h.size (h.found_used hc.found hc.source.1)
  rw [← hc.size_eq] at hs
  have h' := h.added hc.toAdded hc.missing hc.room hc.entry hs.1
    (by rw [hc.type, hc.blockCount]; exact hs.2) (fun _ => hc.linkCount)
  exact ⟨⟨_, _, h', rfl, NameTree.grafts_of_subset Finset.Subset.rfl rfl _⟩,
    here_eq (h.append hc.missing hc.room hc.range hc.entry), hc.curDirInode⟩

/-- No inode has more links than there are entries in all directories. -/
theorem links_le (h : Tree S t fs) (m : ℤ) : t.links m ≤ 10752 := by
  have hone : ∀ d ∈ t.dirs, (t.children d).count m ≤ 21 := by
    intro d hd
    have hl := (h.lists d hd).length_le
    have hc := List.count_le_length (l := t.children d) (a := m)
    rw [NameTree.children, List.length_map] at hc
    rw [listingOf, List.length_append] at hl
    exact hc.trans (by omega)
  have hdirs : t.dirs.card ≤ (usedInodes fs).card :=
    Finset.card_le_card (h.dirs.trans h.held.subset)
  calc t.links m ≤ t.dirs.card * 21 := Finset.sum_le_card_nsmul t.dirs _ 21 hone
    _ ≤ (usedInodes fs).card * 21 := Nat.mul_le_mul_right 21 hdirs
    _ ≤ MAX_INODE * 21 := Nat.mul_le_mul_right 21 (Bitmap.card_marked_le _ _)
    _ = 10752 := rfl

/-- A file of the current directory gets one more name. -/
theorem linked (h : Tree S t fs) {src dest : Name} (hl : Links src dest fs s fs') :
    Tree S (t.setKids fs.here (t.kids fs.here ++ [(dest.bytes, s)])) fs' := by
  have hs := h.found_used hl.found hl.source.1
  have hfile : ¬fs.isDir s := by
    rw [FileSystem.isDir, hl.type]
    decide
  have hne : s ≠ 0 := fun he => hfile (he ▸ (h.good.dir 0 h.good.root_mem).2)
  have hcount : fs.linkCount s = t.links s := h.good.linked s hs hfile
  have hlist := h.append hl.missing hl.room hl.source hl.entry
  refine h.relinked hl.rest ?_ hlist
  apply h.good.addKid h.here _ hne (Finset.insert_eq_of_mem hs).symm
  · intro m _
    refine ⟨Iff.rfl, fun hm => ?_⟩
    rw [FileSystem.linkCount, FileSystem.linkCount, hl.rest]
    simp only [Function.update_of_ne hm]
  · exact fun hd => absurd hd hfile
  · intro _
    have hle := h.links_le s
    rw [← hcount, FileSystem.linkCount, hl.rest]
    simp only [Function.update_self]
    rw [FileSystem.linkCount] at hcount
    rw [toInt_add_one (by omega) (by omega)]
    rfl

theorem links (h : Tree S t fs) {src dest : Name} (hl : Links src dest fs s fs') :
    Turns t t.dirs fs fs' :=
  ⟨⟨_, _, h.linked hl, rfl, NameTree.grafts_of_subset Finset.Subset.rfl rfl _⟩,
    here_eq (h.append hl.missing hl.room hl.source hl.entry), by rw [hl.rest]⟩

/-- The entry of a removed name is behind `.` and `..`. -/
theorem remove (h : Tree S t fs) (hs : fs.searchCurDir name = some s) (h0 : 0 ≤ s)
    (hne : s ∈ t.dirs → name ≠ dot ∧ name ≠ dotDot) {after : DirectoryEntry} {d : Dentry}
    (he : Dentry.remove after name fs.curDir.count 0 fs.curDir = some d) :
    ∃ l₁ l₂, t.kids fs.here = l₁ ++ (name.bytes, s) :: l₂ ∧
      Lists d (heading t fs.here ++ (l₁ ++ l₂)) := by
  have hlist := h.curDir.remove he
  rcases h.found hs h0 with ⟨hd, hname⟩ | ⟨l₁, l₂, hk, hl⟩
  · exact absurd hname (not_or.mpr (hne hd))
  · rw [hl] at hlist
    exact ⟨l₁, l₂, hk, hlist⟩

/-- A file of the current directory loses a name, and with the last one its blocks. -/
theorem unlinked (h : Tree S t fs) (hu : Unlinks name fs s fs') :
    ∃ l₁ l₂ S', t.kids fs.here = l₁ ++ (name.bytes, s) :: l₂ ∧
      (S = usedInodes fs → S' = usedInodes fs') ∧
      Lists fs'.curDir (heading t fs.here ++ (l₁ ++ l₂)) ∧
      Tree S' (t.setKids fs.here (l₁ ++ l₂)) fs' := by
  have hs := h.found_used hu.found hu.source.1
  -- A file is no node of the tree, but it holds its blocks.
  have hfile : ¬fs.isDir s := by
    rw [FileSystem.isDir, hu.type]
    decide
  have hdirs : s ∉ t.dirs := fun hd => hfile (h.good.dir s hd).2
  have hS : s ∈ S := by
    by_contra hS
    exact hfile (h.blockless s hs hS).1
  have hcount : (fs.inode s).linkCount.toInt = t.links s := h.good.linked s hs hfile
  obtain ⟨after, he⟩ := hu.entry
  obtain ⟨l₁, l₂, hk, hlist⟩ := h.remove hu.found hu.source.1 (fun hd => absurd hd hdirs) he
  rcases hu.rest with ⟨hl, hr⟩ | ⟨hl, bs, hr, hbs⟩
  · -- other entries keep the file
    have hmany : t.links s ≠ 1 := by
      intro h1
      apply hl
      apply Int32.toInt_inj.mp
      rw [hcount, h1]
      rfl
    have hle := h.links_le s
    have hinodes : usedInodes fs' = usedInodes fs := by
      rw [hr]
      rfl
    refine ⟨l₁, l₂, S, hk, fun he => he.trans hinodes.symm, hlist, h.relinked hr ?_ hlist⟩
    apply h.good.dropKid h.here hk hdirs (fun _ _ => Iff.rfl)
    · intro m hm
      rw [FileSystem.linkCount, FileSystem.linkCount, hr]
      simp only [Function.update_of_ne hm]
    · right
      refine ⟨hs, hfile, hs, hmany, ?_⟩
      rw [FileSystem.linkCount, FileSystem.linkCount, hr]
      simp only [Function.update_self]
      exact toInt_sub_one (by omega) (by omega)
  · have hone : t.links s = 1 := by
      rw [hl] at hcount
      have : (1 : Int32).toInt = 1 := rfl
      omega
    have hin : ¬OutOfDisk (fs.inode s) fs := by
      rintro ⟨b, hb, hout⟩
      exact hout (mem_usedBlocks_range (h.held.data s hS b hb).2)
    have hb := hbs hin
    subst hb
    refine ⟨l₁, l₂, S.erase s, hk, fun he => ?_, hlist, h.released hS hdirs hk hone hr hlist⟩
    rw [hr.inodes, he]

theorem unlinks (h : Tree S t fs) (hu : Unlinks name fs s fs') :
    Turns t t.dirs fs fs' := by
  obtain ⟨l₁, l₂, S', -, -, hlist, h'⟩ := h.unlinked hu
  refine ⟨⟨_, _, h', rfl, NameTree.grafts_of_subset Finset.Subset.rfl rfl _⟩, here_eq hlist, ?_⟩
  rcases hu.rest with ⟨-, hr⟩ | ⟨-, bs, hr, -⟩
  · rw [hr]
  · rw [hr.rest]

theorem newDentry_lists (env : Env) {n : ℤ} (hn : 0 ≤ n ∧ n < 512) (parent : Int32) :
    Lists (newDentry env (Int32.ofInt n) parent)
      [(dot.bytes, n), (dotDot.bytes, parent.toInt)] := by
  have h₀ : (newDentry env (Int32.ofInt n) parent).entryAt 0 = (dot.bytes, n) := by
    rw [Dentry.entryAt_of_lt (by decide)]
    simp only [newDentry]
    rw [Function.update_of_ne (by decide), show (⟨0, by decide⟩ : Fin 21) = 0 from rfl,
      Function.update_self, cString_store, toInt_ofInt (by omega) (by omega)]
  have h₁ : (newDentry env (Int32.ofInt n) parent).entryAt 1 = (dotDot.bytes, parent.toInt) := by
    rw [Dentry.entryAt_of_lt (by decide), show (⟨1, by decide⟩ : Fin 21) = 1 from rfl]
    simp only [newDentry]
    rw [Function.update_self, cString_store]
  refine ⟨?_, ?_, ?_⟩
  · exact (show 0 ≤ (2 : Int32).toInt ∧ (2 : Int32).toInt ≤ 21 by decide)
  · change Dentry.segment _ 0 2 = _
    rw [Dentry.segment_succ, Dentry.segment_succ, h₀, h₁]
    rfl
  · change [dot.bytes, dotDot.bytes].Nodup
    decide

/-- A new directory with a block of its own joins the tree. -/
theorem made (h : Tree S t fs) {nd : Inode} {fs₁ : FileSystem}
    (hm : Makes env name fs n nd fs₁ fs') (added : Added fs n nd fs₁)
    (content : fs₁.disk (ownBlock nd) =
      dentryLayout.encode (newDentry env (Int32.ofInt n) (fs₁.curDir.dentry 0).inode))
    (hspare : Spares fs fs.curDirInode) (hne : fs.curDirInode ≠ ownBlock nd) :
    Tree (insert n S)
        ((t.setKids fs.here (t.kids fs.here ++ [(name.bytes, n)])).adopt n fs.here) fs' ∧
      fs'.here = fs.here ∧ fs'.curDirInode = fs.curDirInode := by
  have hspare : ∀ m ∈ S, m ≠ fs.here → fs.curDirInode ∉ blocksOf fs.disk (fs.inode m) :=
    fun m hS => hspare m (h.held.subset hS)
  have hcur := hm.curDir
  have hcurInode : fs'.curDirInode = fs₁.curDirInode := by
    rw [hm.rest, fs₁.writeDiskBlock_rest]
  have hb := blocksOf_of_size_one fs₁.disk hm.size
  have hnew : fs₁.inode n = nd := by rw [added.inode, Function.update_self]
  -- Three steps: the entry for `n`, its adoption as a directory, and the write of the current one.
  have h₁ := h.added added hm.missing hm.room hm.entry (by rw [hm.size]; decide)
    (fun _ => ⟨hm.size, hm.blockCount⟩) (fun hd => absurd hm.type hd)
  have hhere : fs₁.here = fs.here := here_eq (h.append hm.missing hm.room added.range hm.entry)
  have hdir : n ∉ t.dirs := fun hd => added.fresh (h.used hd)
  have hnamed : n ∈ (t.setKids fs.here (t.kids fs.here ++ [(name.bytes, n)])).children fs₁.here := by
    rw [hhere, NameTree.children_setKids_self]
    simp
  have hlists : Lists (dentryLayout.decode (fs₁.disk (ownBlock (fs₁.inode n))))
      [(dot.bytes, n), (dotDot.bytes, fs₁.here)] := by
    rw [hnew, content, dentryLayout.decode_encode]
    exact newDentry_lists env added.range _
  have h₂ := h₁.adopt (Finset.mem_insert_self n S) (by rw [FileSystem.isDir, hnew, hm.type]) hdir
    hnamed hlists
  have hspare₁ : ∀ m ∈ insert n S, m ≠ fs₁.here →
      fs.curDirInode ∉ blocksOf fs₁.disk (fs₁.inode m) := by
    intro m hmS hmne
    rcases Finset.mem_insert.mp hmS with rfl | hmS
    · rw [hnew, hb, List.mem_singleton]
      exact hne
    · have hmn : m ≠ n := fun he => added.fresh (he ▸ h.held.subset hmS)
      have hinode : fs₁.inode m = fs.inode m := by rw [added.inode, Function.update_of_ne hmn]
      rw [hinode, h.held.blocksOf_eq (fun b hb => added.disk_used hb) hmS]
      exact hspare m hmS (hhere ▸ hmne)
  have h₃ := h₂.write hspare₁
  rw [← hm.rest] at h₃
  rw [hhere] at h₃
  refine ⟨h₃, ?_, hcurInode.trans added.curDirInode⟩
  rw [FileSystem.here, hcur]
  exact hhere

theorem makes_block (h : Tree S t fs) {nd : Inode} {fs₁ : FileSystem}
    (hm : Makes env name fs n nd fs₁ fs') (added : Added fs n nd fs₁)
    (content : fs₁.disk (ownBlock nd) =
      dentryLayout.encode (newDentry env (Int32.ofInt n) (fs₁.curDir.dentry 0).inode))
    (hspare : Spares fs fs.curDirInode) (hne : fs.curDirInode ≠ ownBlock nd) :
    Turns t (insert n t.dirs) fs fs' := by
  obtain ⟨h', hhere, hcur⟩ := h.made hm added content hspare hne
  have hdir : n ∉ t.dirs := fun hd => added.fresh (h.used hd)
  have hup := (t.setKids fs.here (t.kids fs.here ++ [(name.bytes, n)])).grafts_adopt hdir fs.here
  exact ⟨⟨_, _, h', rfl, hup⟩, hhere, hcur⟩

/-- With no block left, `dir_make` names an inode of type directory that owns no block. -/
theorem makes_noBlock (h : Tree S t fs) {nd : Inode} {fs₁ : FileSystem}
    (hm : Makes env name fs n nd fs₁ fs') (hspare : Spares fs fs.curDirInode)
    (range : 0 ≤ n ∧ n < 512) (fresh : n ∉ usedInodes fs)
    (first : ∀ m, 0 ≤ m → m < n → m ∈ usedInodes fs) (own : ownBlock nd = -1)
    (rest : fs₁ = { fs.takeInode n with
      inode := Function.update fs.inode n nd, curDir := fs₁.curDir }) :
    Turns t t.dirs fs fs' := by
  have hspare : ∀ m ∈ S, m ≠ fs.here → fs.curDirInode ∉ blocksOf fs.disk (fs.inode m) :=
    fun m hS => hspare m (h.held.subset hS)
  have hcur := hm.curDir
  have hcurInode : fs'.curDirInode = fs₁.curDirInode := by
    rw [hm.rest, fs₁.writeDiskBlock_rest]
  have hinodes : usedInodes fs₁ = insert n (usedInodes fs) := by
    rw [rest]
    exact usedInodes_takeInode range
  have hinode : fs₁.inode = Function.update fs.inode n nd := by rw [rest]
  have hdisk : fs₁.disk = fs.disk := by
    rw [rest]
    rfl
  have hold (m : ℤ) (hmS : m ∈ S) : fs₁.inode m = fs.inode m := by
    rw [hinode, Function.update_of_ne]
    rintro rfl
    exact fresh (h.held.subset hmS)
  have hsane : Sane fs₁ := by
    have hc := h.held.sane.counted.takeInode range fresh
    rw [rest]
    exact ⟨⟨hc.blocks, hc.inodes⟩, h.held.sane.size_update n (by rw [hm.size]; decide)⟩
  have hused : usedBlocks fs₁ = usedBlocks fs := by
    rw [rest]
    rfl
  have hheld : Held S fs₁ := by
    apply h.held.of_eq hsane hused.symm.subset
    · rw [hinodes]
      exact h.held.subset.trans (Finset.subset_insert n _)
    · intro m hmS
      rw [hold m hmS, hdisk]
    · intro m hmS
      rw [hold m hmS]
      exact ⟨rfl, rfl, rfl⟩
  -- The tree gains a leaf that is no directory of it, and then the current one is written.
  have h₁ := h.joined hheld Finset.Subset.rfl range fresh first hinodes hinode
    (fun b _ => by rw [hdisk]) (by rw [rest]; rfl) (by rw [rest]; rfl) hm.missing hm.room hm.entry
    (fun _ => ⟨hm.type, hm.size, hm.blockCount, own⟩) (fun hd => absurd hm.type hd)
    (fun _ => by omega)
  have hhere : fs₁.here = fs.here := here_eq (h.append hm.missing hm.room range hm.entry)
  have hspare₁ : ∀ m ∈ S, m ≠ fs₁.here →
      fs.curDirInode ∉ blocksOf fs₁.disk (fs₁.inode m) := by
    intro m hmS hmne
    rw [hold m hmS, hdisk]
    exact hspare m hmS (hhere ▸ hmne)
  have h₂ := h₁.write hspare₁
  rw [← hm.rest] at h₂
  refine ⟨⟨_, _, h₂, rfl, NameTree.grafts_of_subset Finset.Subset.rfl rfl _⟩, ?_,
    hcurInode.trans (by rw [rest]; rfl)⟩
  rw [FileSystem.here, hcur]
  exact hhere

/-- A new directory joins the tree if it has a block to hold it. -/
theorem makes (h : Tree S t fs) {nd : Inode} {fs₁ : FileSystem}
    (hm : Makes env name fs n nd fs₁ fs') (hspare : Spares fs fs.curDirInode)
    (hne : fs.curDirInode ≠ fs.getBlock.1) :
    Turns t (if 0 ≤ ownBlock nd then insert n t.dirs else t.dirs) fs fs' := by
  rw [← hm.own] at hne
  have hmade := hm.made
  cases hmade with
  | block added content =>
    have hown : 0 ≤ ownBlock nd := by
      apply (added.blocks_range (ownBlock nd) _).1
      rw [blocksOf_of_size_one fs₁.disk hm.size]
      exact List.mem_singleton_self _
    rw [if_pos hown]
    exact h.makes_block hm added content hspare hne
  | noBlock full range fresh first own rest =>
    rw [if_neg (by omega)]
    exact h.makes_noBlock hm hspare range fresh first own rest

/-- What `rmdir` takes is named once, and has its own block. -/
theorem removal (h : Tree S t fs) (hr : RemovesDir name fs s fs') :
    ∃ l₁ l₂, t.kids fs.here = l₁ ++ (name.bytes, s) :: l₂ ∧ s ∈ S ∧ t.links s = 1 ∧
      Released fs s (blocksOf fs.disk (fs.inode s)).toFinset fs' ∧
      Lists fs'.curDir (heading t fs.here ++ (l₁ ++ l₂)) := by
  have hs := h.found_used hr.found hr.source.1
  have hsize := (h.size hs).2 hr.type
  obtain ⟨after, he⟩ := hr.entry
  obtain ⟨l₁, l₂, hk, hlist⟩ := h.remove hr.found hr.source.1
    (fun _ => ⟨fun he => hr.ne_dot (he ▸ rfl), fun he => hr.ne_dotDot (he ▸ rfl)⟩) he
  have hchild : s ∈ t.children fs.here := by
    rw [NameTree.children, hk]
    simp
  have hone : t.links s = 1 := by
    have h₁ := h.good.once s hs hr.type
    have h₂ := NameTree.links_pos_iff.mpr ⟨fs.here, h.here, hchild⟩
    omega
  obtain ⟨bs, hrel, hrange, hbs⟩ := hr.rest
  have hb := hbs hsize.1 hsize.2
  subst hb
  have hS : s ∈ S := by
    by_contra hS
    -- a directory without a block cannot be removed: its block would be freed
    have hown := (h.blockless s hs hS).2.2.2
    have := hrange (ownBlock (fs.inode s)) (by
      rw [blocksOf_of_size_one fs.disk hsize.1, List.mem_toFinset]
      exact List.mem_singleton_self _)
    omega
  exact ⟨l₁, l₂, hk, hS, hone, hrel, hlist⟩

/-- A directory that has only its heading goes with its name and its block. -/
theorem removedDir (h : Tree S t fs) (hr : RemovesDir name fs s fs') (hdirs : s ∈ t.dirs) :
    ∃ l₁ l₂, t.kids fs.here = l₁ ++ (name.bytes, s) :: l₂ ∧
      Released fs s (blocksOf fs.disk (fs.inode s)).toFinset fs' ∧
      Lists fs'.curDir (heading t fs.here ++ (l₁ ++ l₂)) ∧
      Tree (S.erase s) ((t.disown s).setKids fs.here (l₁ ++ l₂)) fs' := by
  obtain ⟨l₁, l₂, hk, hS, hone, hrel, hlist⟩ := h.removal hr
  have hchild : s ∈ t.children fs.here := by
    rw [NameTree.children, hk]
    simp
  have h0 : s ≠ 0 := (h.good.kid fs.here h.here s hchild).2
  have hne : s ≠ fs.here := h.good.ne_of_mem h.here hdirs hchild
  have hempty : t.kids s = [] := by
    obtain ⟨buffer, hnum⟩ := hr.empty
    have hown := h.directory hdirs
    rw [fs.readDiskBlock_of_range (mem_usedBlocks_range hown.2.2.2.2), ← dirOf_of_ne hne] at hnum
    have hl := h.lists s hdirs
    have hc := hl.fits.coe_count
    have hlen := congrArg List.length hl.listing
    rw [Dentry.length_listing, listingOf, heading, if_neg h0, List.length_append] at hlen
    simp only [List.length_cons, List.length_nil] at hlen
    apply List.eq_nil_of_length_eq_zero
    omega
  have h₁ := h.disown hdirs h0 hne hempty
  refine ⟨l₁, l₂, hk, hrel, hlist, h₁.released hS (Finset.notMem_erase s _) hk ?_ hrel hlist⟩
  rw [← hone, t.links_eq_add hdirs s, NameTree.children, hempty, List.map_nil, List.count_nil,
    Nat.zero_add]
  rfl

theorem removesDir (h : Tree S t fs) (hr : RemovesDir name fs s fs') :
    Turns t (t.dirs.erase s) fs fs' := by
  by_cases hdirs : s ∈ t.dirs
  · obtain ⟨l₁, l₂, -, hrel, hlist, h'⟩ := h.removedDir hr hdirs
    have hup : t.Grafts ((t.disown s).setKids fs.here (l₁ ++ l₂)) fs.here := by
      apply NameTree.grafts_of_subset
      · exact Finset.erase_subset s t.dirs
      · rfl
    exact ⟨⟨_, _, h', rfl, hup⟩, here_eq hlist, by rw [hrel.rest]⟩
  · obtain ⟨l₁, l₂, hk, hS, hone, hrel, hlist⟩ := h.removal hr
    refine ⟨⟨_, _, h.released hS hdirs hk hone hrel hlist, ?_,
      NameTree.grafts_of_subset Finset.Subset.rfl rfl _⟩, here_eq hlist, by rw [hrel.rest]⟩
    rw [Finset.erase_eq_of_notMem hdirs]
    rfl

end Tree

/-- The state after a move to directory `n`. -/
def moved (fs : FileSystem) (n : ℤ) : FileSystem :=
  let disk := (fs.writeDiskBlock (writeBack fs) (dentryLayout.encode fs.curDir)).disk
  { fs with
    disk := disk
    curDir := dentryLayout.decode (disk (ownBlock (fs.inode n)))
    curDirInode := n }

theorem dirChange_moved (hdot : name ≠ dot) (hl : Leads name fs n) (hn : 0 ≤ n ∧ n < 512)
    (hcur : 0 ≤ fs.curDirInode ∧ fs.curDirInode < 512)
    (hown : 0 ≤ ownBlock (fs.inode n) ∧ ownBlock (fs.inode n) < 4096) :
    dirChange env name fs = some (⟨0, []⟩, moved fs n) := by
  have hmove : moveTo env n (fs.inode n) fs = some (⟨0, []⟩, moved fs n) := by
    rw [moveTo_eq (readInode_of_range hcur), FileSystem.readDiskBlock_of_range _ hown]
    rfl
  have hbytes : ¬name.bytes = dot.bytes := fun he => hdot (Name.ext_bytes he)
  unfold dirChange
  rw [if_neg hbytes]
  rcases hl with ⟨rfl, rfl⟩ | ⟨hname, hs, h0⟩
  · rw [if_pos rfl]
    simp only [readInode_of_range hn, Option.bind_some]
    exact hmove
  · have hdots : ¬name.bytes = dotDot.bytes := fun he => hname (Name.ext_bytes he)
    rw [if_neg hdots]
    simp only [hs, readInode_of_range hn, Option.bind_some]
    rw [if_neg (by omega)]
    exact hmove

namespace Tree

theorem curDirInode_range (h : Tree S t fs) : 0 ≤ fs.curDirInode ∧ fs.curDirInode < 512 := by
  rcases h.mode with hm | hm
  · rw [hm]
    exact h.here_range
  · rw [hm.block]
    decide

/-- The current directory goes to its own block, or to block 0 before the first move. -/
theorem writeBack_cases (h : Tree S t fs) :
    (fs.curDirInode = fs.here ∧ writeBack fs = ownBlock (fs.inode fs.here)) ∨
      (fs.curDirInode ≠ fs.here ∧ AtFormat t fs ∧ writeBack fs = 0) := by
  by_cases hm : fs.curDirInode = fs.here
  · left
    rw [writeBack, hm]
    exact ⟨rfl, rfl⟩
  · right
    have hf := h.mode.resolve_left hm
    refine ⟨hm, hf, ?_⟩
    rw [writeBack, hf.block, hf.unused]

theorem writeBack_ne (h : Tree S t fs) (hn : n ∈ t.dirs) (hne : n ≠ fs.here) :
    ownBlock (fs.inode n) ≠ writeBack fs := by
  rcases h.writeBack_cases with ⟨-, hw⟩ | ⟨-, -, hw⟩
  · rw [hw]
    exact h.own_ne hn h.here hne
  · rw [hw]
    have := (h.directory hn).2.2.2.1
    omega

/-- What the block of the current directory holds once it has been written back. -/
theorem disk_own (h : Tree S t fs) :
    dentryLayout.decode ((fs.writeDiskBlock (writeBack fs) (dentryLayout.encode fs.curDir)).disk
      (ownBlock (fs.inode fs.here))) = if fs.curDirInode = fs.here then fs.curDir
        else dentryLayout.decode (fs.disk (ownBlock (fs.inode fs.here))) := by
  have hown := (h.directory h.here).2.2.2
  rcases h.writeBack_cases with ⟨hm, hw⟩ | ⟨hm, -, hw⟩
  · rw [if_pos hm, hw, fs.writeDiskBlock_of_range (mem_usedBlocks_range hown.2)]
    simp only [Function.update_self, dentryLayout.decode_encode]
  · rw [if_neg hm, hw, fs.writeDiskBlock_disk_of_ne (by omega)]

theorem moved_curDir (h : Tree S t fs) (hn : n ∈ t.dirs) (hne : n ≠ fs.here) :
    Lists (moved fs n).curDir (listingOf t n) := by
  have hd : (moved fs n).curDir = dirOf fs n := by
    rw [dirOf_of_ne hne]
    exact congrArg dentryLayout.decode (fs.writeDiskBlock_disk_of_ne (h.writeBack_ne hn hne) _)
  rw [hd]
  exact h.lists n hn

/-- A move keeps the tree if the current directory has been saved. -/
theorem move (h : Tree S t fs) (hn : n ∈ t.dirs) (hs : fs.curDirInode = fs.here ∨ Saved fs) :
    Tree S t (moved fs n) := by
  let fs₁ := fs.writeDiskBlock (writeBack fs) (dentryLayout.encode fs.curDir)
  have hrest : fs₁ = { fs with disk := fs₁.disk } := fs.writeDiskBlock_rest _ _
  -- The block written is that of the current directory, or lies outside the data region.
  have h₁ : Tree S t fs₁ := by
    apply h.write
    intro m hm hne
    rcases h.writeBack_cases with ⟨-, hw⟩ | ⟨-, -, hw⟩
    · rw [hw]
      apply h.held.disjoint fs.here (h.dirs h.here) m hm (Ne.symm hne)
      rw [(h.directory h.here).2.2.1]
      exact List.mem_singleton_self _
    · rw [hw]
      intro hb
      have := (h.held.data m hm 0 hb).1
      omega
  have hown (m : ℤ) (hm : m ∈ t.dirs) :
      Lists (dentryLayout.decode (fs₁.disk (ownBlock (fs.inode m)))) (listingOf t m) := by
    by_cases hne : m = fs.here
    · -- The current directory is loaded from its block again: it was written there, or saved before.
      subst hne
      rw [h.disk_own]
      split
      · exact h.curDir
      · rename_i hm
        exact (hs.resolve_left hm).lists h.curDir
    · have hd : fs₁.disk (ownBlock (fs.inode m)) = fs.disk (ownBlock (fs.inode m)) :=
        fs.writeDiskBlock_disk_of_ne (h.writeBack_ne hm hne) _
      rw [hd, ← dirOf_of_ne hne]
      exact h.lists m hm
  have hhere : (moved fs n).here = n := here_eq (hown n hn)
  have hheld : Held S (moved fs n) := by
    apply h₁.held.of_eq
    · exact h₁.held.sane.of_eq (by rw [hrest]; rfl) (by rw [hrest]; rfl) (by rw [hrest]; rfl)
        (fun m => by rw [hrest]; rfl)
    · rw [hrest]
      exact Finset.Subset.rfl
    · exact h.held.subset
    · intro m _
      rw [hrest]
      rfl
    · intro m _
      rw [hrest]
      exact ⟨rfl, rfl, rfl⟩
  apply h.reload hheld rfl rfl rfl (by rw [hhere]; exact hn)
  · intro m hm
    by_cases hmn : m = n
    · have hd : dirOf (moved fs n) m = (moved fs n).curDir := if_pos (hmn.trans hhere.symm)
      rw [hd, hmn]
      exact hown n hn
    · have hne : m ≠ (moved fs n).here := by
        rw [hhere]
        exact hmn
      rw [dirOf_of_ne hne]
      exact hown m hm
  · exact Or.inl hhere.symm

end Tree

end OperatingSystems.FS
