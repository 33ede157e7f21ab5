import OperatingSystems.FSHierarchy
import OperatingSystems.FSReturn

/-! The commands on the disk and on the hierarchy: the same texts, and the disk goes on carrying
the hierarchy. -/
namespace OperatingSystems.FS

variable {fs fs' fs₁ : FileSystem} {t : Hierarchy} {ctx : Context} {n s : ℤ} {name : Name}

/-! ### Counting -/

/-- A new inode takes as many blocks as it needs. -/
theorem Added.free {nd : Inode} (ha : Added fs n nd fs') (hc : Counted fs) :
    fs'.superBlock.freeBlockCount.toInt = fs.superBlock.freeBlockCount.toInt - need nd := by
  have hnew : (blocksOf fs'.disk nd).toFinset.card = need nd := by
    rw [List.toFinset_card_of_nodup ha.nodup, length_blocksOf, need]
  have hapart : Disjoint (usedBlocks fs) (blocksOf fs'.disk nd).toFinset := by
    apply Finset.disjoint_right.mpr
    intro b hb
    exact ha.blocks_fresh b (List.mem_toFinset.mp hb)
  have hcard : (usedBlocks fs').card = (usedBlocks fs).card + need nd := by
    rw [ha.used, Finset.card_union_of_disjoint hapart, hnew]
  have hbefore := hc.blocks
  have hafter := ha.counted.blocks
  omega

/-- A released inode gives its blocks back. -/
theorem Held.free_released {S : Finset ℤ} (h : Held S fs) (hs : s ∈ S)
    (hr : Released fs s (blocksOf fs.disk (fs.inode s)).toFinset fs') :
    fs'.superBlock.freeBlockCount.toInt =
      fs.superBlock.freeBlockCount.toInt + need (fs.inode s) := by
  have hown : (blocksOf fs.disk (fs.inode s)).toFinset.card = need (fs.inode s) := by
    rw [List.toFinset_card_of_nodup (h.nodup s hs), length_blocksOf, need]
  have hsub : (blocksOf fs.disk (fs.inode s)).toFinset ⊆ usedBlocks fs := fun b hb =>
    (h.data s hs b (List.mem_toFinset.mp hb)).2
  have hcard : (usedBlocks fs').card + need (fs.inode s) = (usedBlocks fs).card := by
    rw [hr.used, ← hown]
    exact Finset.card_sdiff_add_card_eq_card hsub
  have hbefore := h.sane.counted.blocks
  have hafter := (hr.counted h.sane.counted).blocks
  omega

/-- Where every entry has a name of its own, the first of a name is the one. -/
theorem eraseP_named {l l₁ l₂ : List (List Byte × ℤ)} {a : List Byte}
    (hl : (l.map Prod.fst).Nodup) (hsplit : l = l₁ ++ (a, s) :: l₂) :
    (l.eraseP fun e => e.1 == a) = l₁ ++ l₂ := by
  subst hsplit
  rw [List.map_append, List.map_cons] at hl
  have hfirst : a ∉ l₁.map Prod.fst := fun ha =>
    (List.nodup_append.mp hl).2.2 a ha a List.mem_cons_self rfl
  rw [List.eraseP_append_right]
  · rw [List.eraseP_cons_of_pos (by simp)]
  · intro e he hea
    exact hfirst (beq_iff_eq.mp hea ▸ List.mem_map_of_mem he)

namespace Carries

/-- `get_inode` takes the least number that is free. -/
theorem fresh_eq (h : Carries fs t) (hrange : 0 ≤ n ∧ n < 512) (hfresh : n ∉ usedInodes fs)
    (hfirst : ∀ m, 0 ≤ m → m < n → m ∈ usedInodes fs) : n = t.fresh := by
  obtain ⟨k, rfl⟩ := Int.eq_ofNat_of_zero_le hrange.1
  have hfind : (List.range 512).find? (fun m : ℕ => (m : ℤ) ∉ t.nodes) = some k := by
    rw [List.find?_range_eq_some]
    refine ⟨?_, List.mem_range.mpr (by omega), ?_⟩
    · rw [decide_eq_true_eq, h.mem_nodes]
      exact hfresh
    · intro m hm
      have hused := hfirst m (Int.natCast_nonneg m) (by omega)
      simp [h.mem_nodes.mpr hused]
  rw [Hierarchy.fresh, hfind]
  rfl

/-- Whatever is done without a move, `curDirInode` says as much as before. -/
theorem place (h : Carries fs t) {S : Finset ℤ} {T : NameTree (List Byte) ℤ}
    (htree : Tree S T fs') (hhere : fs'.here = fs.here) (hcur : fs'.curDirInode = fs.curDirInode) :
    (t.stored = none → fs'.curDirInode = fs'.here) ∧
      ∀ l, t.stored = some l → AtFormat T fs' := by
  constructor
  · intro hmoved
    rw [hcur, hhere]
    exact h.numbered hmoved
  · intro l hl
    have hm := (h.stored l hl).1
    apply htree.mode.resolve_left
    rw [hcur, hhere, hm.block, hm.here]
    decide

/-- The root's block is in use. -/
theorem root_used (h : Carries fs t) : 131 ∈ usedBlocks fs := by
  have hown := (h.tree.directory h.tree.good.root_mem).2.2.2.2
  rwa [h.tree.root] at hown

/-- The inodes that were in use are as they were. -/
theorem old_inode (h : Carries fs t) {nd : Inode} (ha : Added fs n nd fs₁) {m : ℤ}
    (hm : m ∈ usedInodes fs) : m ≠ t.fresh ∧ fs₁.inode m = fs.inode m := by
  have hne : m ≠ n := fun he => ha.fresh (he ▸ hm)
  refine ⟨?_, by rw [ha.inode, Function.update_of_ne hne]⟩
  rwa [← h.fresh_eq ha.range ha.fresh ha.first]

/-- What a new inode leaves free. -/
theorem blocks_added (h : Carries fs t) {nd : Inode} (ha : Added fs n nd fs₁) :
    fs₁.superBlock.freeBlockCount.toInt =
      3965 - ((∑ m ∈ usedInodes fs₁, need (fs₁.inode m) : ℕ) : ℤ) - t.lost := by
  have hsum : ∑ m ∈ usedInodes fs₁, need (fs₁.inode m) =
      need nd + ∑ m ∈ usedInodes fs, need (fs.inode m) := by
    have hold : ∑ m ∈ usedInodes fs, need (fs₁.inode m) =
        ∑ m ∈ usedInodes fs, need (fs.inode m) := by
      apply Finset.sum_congr rfl
      intro m hm
      rw [(h.old_inode ha hm).2]
    rw [ha.inodes, Finset.sum_insert ha.fresh, hold, ha.inode, Function.update_self]
  have hfree := ha.free h.tree.held.sane.counted
  have hblocks := h.blocks
  rw [hsum]
  omega

/-- A file of its own behind a fresh name. -/
theorem added (h : Carries fs t) {nd : Inode} {c : List Byte} (ha : Added fs n nd fs')
    (hmissing : ∃ f, fs.searchCurDir name = some f ∧ f < 0) (hroom : ¬fs.curDir.Full)
    (hentry : fs.curDir.append name n = some fs'.curDir) (htype : nd.type = .file)
    (hsize : 0 < nd.size.toInt ∧ nd.size.toInt ≤ 73216) (hlinks : nd.linkCount = 1)
    (hcount : nd.blockCount = Int32.ofInt (numBlock nd.size.toInt))
    (hcontent : content fs'.disk nd = c) (h0 : 0 ∉ c) : Carries fs' (t.add name c) := by
  have hn := h.fresh_eq ha.range ha.fresh ha.first
  have hfile : nd.type ≠ .directory := by
    rw [htype]
    decide
  have htree : Tree (usedInodes fs') (t.add name c).tree fs' := by
    have h' := h.tree.added ha hmissing hroom hentry hsize (fun hd => absurd hd hfile)
      fun _ => hlinks
    rw [← ha.inodes, h.here, hn] at h'
    exact h'
  have hhere : fs'.here = fs.here := here_eq (h.tree.append hmissing hroom ha.range hentry)
  have hnew : fs'.inode n = nd := by rw [ha.inode, Function.update_self]
  have hcases (m : ℤ) (hm : m ∈ usedInodes fs') : m = n ∨ m ∈ usedInodes fs := by
    rwa [ha.inodes, Finset.mem_insert] at hm
  obtain ⟨hmoved, hformat⟩ := h.place htree hhere ha.curDirInode
  refine ⟨htree, hhere.trans h.here, ?_, ?_, ?_, h.blocks_added ha, hmoved, ?_⟩
  · intro m hm hd
    rcases hcases m hm with rfl | hm
    · rw [FileSystem.isDir, hnew] at hd
      exact absurd hd hfile
    · rw [FileSystem.isDir, (h.old_inode ha hm).2] at hd
      exact h.dirs m hm hd
  · intro m hm hd
    rcases hcases m hm with rfl | hm
    · rw [hnew, Hierarchy.add]
      simp only [← hn, Function.update_self]
      exact ⟨hcount, hcontent, h0⟩
    · obtain ⟨hne, hinode⟩ := h.old_inode ha hm
      have hsame := h.owned.content_eq (fun b hb => ha.disk_used hb) hm
      rw [hinode, Hierarchy.add]
      simp only [Function.update_of_ne hne]
      rw [hsame]
      exact h.file m hm hd
  · intro m hm
    rw [FileSystem.linkCount, (h.old_inode ha (h.tree.used hm)).2]
    exact h.linkCount m hm
  · intro l hl
    refine ⟨hformat l hl, ?_⟩
    rw [ha.disk_used h.root_used]
    exact (h.stored l hl).2

/-- Entries and link counts change, and the files that stay are as they were. -/
theorem edited (h : Carries fs t) {u : Hierarchy} (htree : Tree (usedInodes fs') u.tree fs')
    (hu : u = { t with tree := u.tree }) (hhere : fs'.here = fs.here)
    (hsub : usedInodes fs' ⊆ usedInodes fs)
    (hdirs : ∀ m ∈ usedInodes fs', m ∈ u.tree.dirs ↔ m ∈ t.tree.dirs)
    (hdisk : fs'.disk = fs.disk) (hcur : fs'.curDirInode = fs.curDirInode)
    (hsame : ∀ m, fs'.inode m = { fs.inode m with linkCount := (fs'.inode m).linkCount })
    (hlinks : ∀ m ∈ u.tree.dirs, fs'.linkCount m = fs.linkCount m)
    (hfree : fs'.superBlock.freeBlockCount.toInt +
      ((∑ m ∈ usedInodes fs', need (fs.inode m) : ℕ) : ℤ) =
        fs.superBlock.freeBlockCount.toInt +
          ((∑ m ∈ usedInodes fs, need (fs.inode m) : ℕ) : ℤ)) : Carries fs' u := by
  have hcontent : u.content = t.content := by rw [hu]
  have hstored : u.stored = t.stored := by rw [hu]
  have hlost : u.lost = t.lost := by rw [hu]
  obtain ⟨hmoved, hformat⟩ := h.place htree hhere hcur
  refine ⟨htree, ?_, ?_, ?_, ?_, ?_, ?_, ?_⟩
  · rw [hhere, h.here, hu]
  · intro m hm hd
    rw [FileSystem.isDir, hsame m] at hd
    exact (hdirs m hm).mpr (h.dirs m (hsub hm) hd)
  · intro m hm hd
    have hfile := h.file m (hsub hm) (mt (hdirs m hm).mpr hd)
    rw [hsame m, hdisk, hcontent]
    exact hfile
  · intro m hm
    have hold := (hdirs m (htree.used hm)).mp hm
    rw [hlinks m hm, h.linkCount m hold, hu]
  · have hneed : ∑ m ∈ usedInodes fs', need (fs'.inode m) =
        ∑ m ∈ usedInodes fs', need (fs.inode m) := by
      apply Finset.sum_congr rfl
      intro m _
      rw [hsame m]
      rfl
    have hblocks := h.blocks
    rw [hneed, hlost]
    omega
  · rw [hstored]
    exact hmoved
  · intro l hl
    rw [hstored] at hl
    rw [hdisk]
    exact ⟨hformat l hl, (h.stored l hl).2⟩

theorem linked (h : Carries fs t) {src dest : Name} (hk : Links src dest fs s fs') :
    Carries fs' (t.link dest s) := by
  have hinodes : usedInodes fs' = usedInodes fs := by
    rw [hk.rest]
    rfl
  have hinode : fs'.inode = Function.update fs.inode s
      { fs.inode s with linkCount := (fs.inode s).linkCount + 1 } := by rw [hk.rest]
  have htree : Tree (usedInodes fs') (t.link dest s).tree fs' := by
    have h' := h.tree.linked hk
    rw [h.here, ← hinodes] at h'
    exact h'
  apply h.edited htree rfl (here_eq (h.tree.append hk.missing hk.room hk.source hk.entry))
  · rw [hinodes]
  · exact fun m _ => Iff.rfl
  · rw [hk.rest]
  · rw [hk.rest]
  · exact inode_relinked hinode
  · intro m hm
    have hne : m ≠ s := by
      rintro rfl
      have hdir := (h.tree.good.dir m hm).2
      rw [FileSystem.isDir, hk.type] at hdir
      cases hdir
    rw [FileSystem.linkCount, hinode, Function.update_of_ne hne]
    rfl
  · rw [hinodes, hk.rest]

/-- The blocks of what is released are free again. -/
theorem free_released (h : Carries fs t) (hs : s ∈ usedInodes fs)
    (hr : Released fs s (blocksOf fs.disk (fs.inode s)).toFinset fs') :
    fs'.superBlock.freeBlockCount.toInt + ((∑ m ∈ usedInodes fs', need (fs.inode m) : ℕ) : ℤ) =
      fs.superBlock.freeBlockCount.toInt +
        ((∑ m ∈ usedInodes fs, need (fs.inode m) : ℕ) : ℤ) := by
  have hfree := h.tree.held.free_released hs hr
  have hsum := Finset.add_sum_erase (usedInodes fs) (fun m => need (fs.inode m)) hs
  rw [hr.inodes, ← hsum]
  omega

/-- What is left of a directory when a name goes. -/
theorem kids_removed (h : Carries fs t) {l₁ l₂ : List (List Byte × ℤ)}
    (hk : t.tree.kids fs.here = l₁ ++ (name.bytes, s) :: l₂) :
    (t.kids.eraseP fun e => e.1 == name.bytes) = l₁ ++ l₂ := by
  rw [h.here] at hk
  apply eraseP_named _ hk
  have hnames := h.lists.names
  rw [Hierarchy.listing, listingOf, List.map_append] at hnames
  exact (List.nodup_append.mp hnames).2.1

theorem unlinked (h : Carries fs t) (hu : Unlinks name fs s fs') :
    Carries fs' (t.remove name) := by
  obtain ⟨l₁, l₂, S', hk, hS, hlist, h'⟩ := h.tree.unlinked hu
  have hs := h.tree.found_used hu.found hu.source.1
  have htree : Tree (usedInodes fs') (t.remove name).tree fs' := by
    rw [hS rfl, h.here] at h'
    rw [Hierarchy.remove, h.kids_removed hk]
    exact h'
  have hhere : fs'.here = fs.here := here_eq hlist
  -- the last name gives the blocks back, another one only counts down
  rcases hu.rest with ⟨-, hr⟩ | ⟨-, bs, hr, hbs⟩
  · have hinodes : usedInodes fs' = usedInodes fs := by
      rw [hr]
      rfl
    have hinode : fs'.inode = Function.update fs.inode s
        { fs.inode s with linkCount := (fs.inode s).linkCount - 1 } := by rw [hr]
    apply h.edited htree rfl hhere
    · rw [hinodes]
    · exact fun m _ => Iff.rfl
    · rw [hr]
    · rw [hr]
    · exact inode_relinked hinode
    · intro m hm
      have hne : m ≠ s := by
        rintro rfl
        have hdir := (h.tree.good.dir m hm).2
        rw [FileSystem.isDir, hu.type] at hdir
        cases hdir
      rw [FileSystem.linkCount, hinode, Function.update_of_ne hne]
      rfl
    · rw [hinodes, hr]
  · have hb := hbs (h.tree.held.not_outOfDisk hs)
    subst hb
    have hinode : fs'.inode = fs.inode := by rw [hr.rest]
    apply h.edited htree rfl hhere
    · rw [hr.inodes]
      exact Finset.erase_subset s _
    · exact fun m _ => Iff.rfl
    · rw [hr.rest]
    · rw [hr.rest]
    · intro m
      rw [hinode]
    · intro m _
      rw [FileSystem.linkCount, hinode]
      rfl
    · exact h.free_released hs hr

theorem removedDir (h : Carries fs t) (hr : RemovesDir name fs s fs') :
    Carries fs' (t.removeDir name s) := by
  have hs := h.tree.found_used hr.found hr.source.1
  have hdirs := (h.isDir_iff hs).mp hr.type
  obtain ⟨l₁, l₂, hk, hrel, hlist, h'⟩ := h.tree.removedDir hr hdirs
  have hinode : fs'.inode = fs.inode := by rw [hrel.rest]
  have htree : Tree (usedInodes fs') (t.removeDir name s).tree fs' := by
    rw [← hrel.inodes, h.here] at h'
    have hkids := h.kids_removed hk
    rw [Hierarchy.removeDir, Hierarchy.remove]
    change Tree _ ((t.tree.disown s).setKids t.here (t.kids.eraseP _)) fs'
    rw [hkids]
    exact h'
  apply h.edited htree rfl (here_eq hlist)
  · rw [hrel.inodes]
    exact Finset.erase_subset s _
  · intro m hm
    rw [hrel.inodes] at hm
    change m ∈ t.tree.dirs.erase s ↔ _
    rw [Finset.mem_erase]
    exact and_iff_right (Finset.ne_of_mem_erase hm)
  · rw [hrel.rest]
  · rw [hrel.rest]
  · intro m
    rw [hinode]
  · intro m _
    rw [FileSystem.linkCount, hinode]
    rfl
  · exact h.free_released hs hrel

/-! ### Directories -/

/-- A block that is taken and not used is lost. -/
theorem lost (h : Carries fs t) : Carries fs.getBlock.2 t.lose := by
  obtain ⟨htree, hhere, hcur⟩ := h.tree.tookBlock
  obtain ⟨hmoved, hformat⟩ := h.place htree hhere hcur
  have hfree := h.freeBlocks_eq
  rcases getBlock_cases h.tree.held.sane.counted with ⟨h0, hg⟩ | ⟨b, hb, hfresh, hpos, hg⟩
  · have hnone : ¬0 < t.freeBlocks := by omega
    rw [hg, Hierarchy.lose, if_neg hnone]
    exact h
  · have hsome : 0 < t.freeBlocks := by omega
    rw [hg] at htree hhere hmoved hformat ⊢
    rw [Hierarchy.lose, if_pos hsome]
    refine ⟨htree, hhere.trans h.here, h.dirs, h.file, h.linkCount, ?_, hmoved, ?_⟩
    · have hless : (fs.takeBlock b).superBlock.freeBlockCount.toInt =
          fs.superBlock.freeBlockCount.toInt - 1 := by
        have hrange := h.tree.held.sane.counted.blocks_range
        exact toInt_sub_one (by omega) (by omega)
      have hblocks := h.blocks
      rw [hless, hblocks]
      change _ = 3965 - ((∑ m ∈ usedInodes fs, need (fs.inode m) : ℕ) : ℤ) - ((t.lost + 1 : ℕ) : ℤ)
      omega
    · intro l hl
      exact ⟨hformat l hl, (h.stored l hl).2⟩

/-- Below 131 there are no data blocks. -/
theorem spares_of_lt (h : Carries fs t) {b : ℤ} (hb : b < 131) : Spares fs b := by
  intro m hm _ hmem
  have hdata := (h.tree.held.data m hm b hmem).1
  omega

/-- `dir_make` writes the current directory over nothing else. -/
theorem spares (h : Carries fs t) {env : Env} {nd : Inode}
    (hm : Makes env name fs n nd fs₁ fs') (hplace : t.stored = none → t.here < 131)
    (hpos : 0 < t.freeBlocks) :
    Spares fs fs.curDirInode ∧ fs.curDirInode ≠ ownBlock nd := by
  rw [hm.own]
  cases hstored : t.stored with
  | some l =>
    have hkeeps : Keeps fs (.mkdir name) := h.tree.keeps (h.stored l hstored).1 trivial
    exact hkeeps.resolve_left (hm.not_refused h.tree.held.sane.counted)
  | none =>
    have hcur : fs.curDirInode < 131 := by
      rw [h.numbered hstored, h.here]
      exact hplace hstored
    refine ⟨h.spares_of_lt hcur, ?_⟩
    have hfree := h.freeBlocks_eq
    rcases getBlock_cases h.tree.held.sane.counted with ⟨h0, -⟩ | ⟨b, hb, hfresh, -, hg⟩
    · omega
    · have hdata := h.tree.fresh_block hb.1 hfresh
      rw [hg]
      change fs.curDirInode ≠ b
      omega

theorem made (h : Carries fs t) {env : Env} {nd : Inode} (hm : Makes env name fs n nd fs₁ fs')
    (ha : Added fs n nd fs₁) (hblock : fs₁.disk (ownBlock nd) =
      dentryLayout.encode (newDentry env (Int32.ofInt n) (fs₁.curDir.dentry 0).inode))
    (hplace : t.stored = none → t.here < 131) (hpos : 0 < t.freeBlocks)
    (hlinks : nd.linkCount = env.inode.linkCount) : Carries fs' (t.make env name) := by
  obtain ⟨hspare, hne⟩ := h.spares hm hplace hpos
  obtain ⟨h', hhere, hcur⟩ := h.tree.made hm ha hblock hspare hne
  have hn := h.fresh_eq ha.range ha.fresh ha.first
  have hrest := fs₁.writeDiskBlock_rest fs.curDirInode (dentryLayout.encode fs₁.curDir)
  rw [← hm.rest] at hrest
  have hinodes : usedInodes fs' = insert n (usedInodes fs) := by
    rw [hrest]
    exact ha.inodes
  have htree : Tree (usedInodes fs') (t.make env name).tree fs' := by
    rw [← hinodes, h.here, hn] at h'
    exact h'
  have hnew : fs'.inode n = nd := by rw [hm.inode, Function.update_self]
  have hold (m : ℤ) (hm' : m ∈ usedInodes fs) : m ≠ n ∧ fs'.inode m = fs.inode m := by
    have hne : m ≠ n := fun he => ha.fresh (he ▸ hm')
    exact ⟨hne, by rw [hm.inode, Function.update_of_ne hne]⟩
  have hcases (m : ℤ) (hm' : m ∈ usedInodes fs') : m = n ∨ m ∈ usedInodes fs := by
    rwa [hinodes, Finset.mem_insert] at hm'
  have hdirs (m : ℤ) : m ∈ (t.make env name).tree.dirs ↔ m = n ∨ m ∈ t.tree.dirs := by
    rw [hn]
    exact Finset.mem_insert
  obtain ⟨hmoved, hformat⟩ := h.place htree hhere hcur
  refine ⟨htree, hhere.trans h.here, ?_, ?_, ?_, ?_, ?_, ?_⟩
  · intro m hm' hd
    rw [hdirs]
    rcases hcases m hm' with rfl | hm'
    · exact Or.inl rfl
    · rw [FileSystem.isDir, (hold m hm').2] at hd
      exact Or.inr (h.dirs m hm' hd)
  · intro m hm' hd
    rw [hdirs, not_or] at hd
    have hused := (hcases m hm').resolve_left hd.1
    -- The block written is none of the file's.
    have hsame : content fs'.disk (fs.inode m) = content fs.disk (fs.inode m) := by
      apply content_frame h.tree.held.sane
      intro b hb
      have hother : m ≠ fs.here := fun he => hd.2 (he ▸ h.tree.here)
      have hbne : b ≠ fs.curDirInode := fun he => hspare m hused hother (he ▸ hb)
      rw [hm.rest, fs₁.writeDiskBlock_disk_of_ne hbne]
      exact ha.disk_used (h.tree.held.data m hused b hb).2
    rw [(hold m hused).2, hsame]
    exact h.file m hused hd.2
  · intro m hm'
    rcases (hdirs m).mp hm' with rfl | hm'
    · rw [FileSystem.linkCount, hnew, hlinks, Hierarchy.make]
      simp only [← hn, Function.update_self]
    · obtain ⟨hne, hinode⟩ := hold m (h.tree.used hm')
      rw [FileSystem.linkCount, hinode, Hierarchy.make]
      simp only [← hn, Function.update_of_ne hne]
      exact h.linkCount m hm'
  · have hblocks := h.blocks_added ha
    rw [hrest]
    exact hblocks
  · intro hstored
    exact hmoved (Option.map_eq_none_iff.mp hstored)
  · intro l hl
    obtain ⟨l', hl', rfl⟩ := Option.map_eq_some_iff.mp hl
    have hat := (h.stored l' hl').1
    refine ⟨hformat l' hl', ?_⟩
    have hlist := h.tree.append hm.missing hm.room ha.range hm.entry
    rw [hat.here, heading, if_pos rfl] at hlist
    have hkids : t.kids = t.tree.kids 0 := by rw [Hierarchy.kids, ← h.here, hat.here]
    rw [hm.rest, hat.block, FileSystem.writeDiskBlock_of_range _ (by decide)]
    simp only [Function.update_self, dentryLayout.decode_encode]
    rw [hkids, ← hn]
    exact hlist

/-- The root's block holds what it should for a move. -/
theorem saved (h : Carries fs t) (hs : t.Settled) : fs.curDirInode = fs.here ∨ Saved fs := by
  rcases hs with hs | hs
  · exact Or.inl (h.numbered hs)
  · right
    obtain ⟨hat, hlists⟩ := h.stored _ hs
    have hcur := h.tree.curDir
    rw [hat.here, listingOf, heading, if_pos rfl] at hcur
    rw [Hierarchy.kids, ← h.here, hat.here] at hlists
    rw [Saved, hat.here, h.tree.root]
    have hlisting := hlists.listing.trans hcur.listing.symm
    refine ⟨?_, hlisting⟩
    have hlen := congrArg List.length hlisting
    rw [Dentry.length_listing, Dentry.length_listing] at hlen
    apply Int32.toInt_inj.mp
    rw [← hlists.fits.coe_count, ← hcur.fits.coe_count, hlen]

theorem entered (h : Carries fs t) (hs : t.Settled) (hn : n ∈ t.tree.dirs) (hne : n ≠ fs.here) :
    Carries (moved fs n) (t.enter n) := by
  have htree := h.tree.move hn (h.saved hs)
  have hhere : (moved fs n).here = n := here_eq (h.tree.moved_curDir hn hne)
  refine ⟨htree, hhere, h.dirs, ?_, h.linkCount, h.blocks, fun _ => hhere.symm, nofun⟩
  intro m hm hd
  have hother : m ≠ fs.here := fun he => hd (he ▸ h.tree.here)
  have hsame : content (moved fs n).disk (fs.inode m) = content fs.disk (fs.inode m) := by
    apply content_frame h.tree.held.sane
    intro b hb
    apply fs.writeDiskBlock_disk_of_ne
    rcases h.tree.writeBack_cases with ⟨-, hw⟩ | ⟨-, -, hw⟩
    · -- the block of the current directory is its own
      rw [hw]
      rintro rfl
      apply h.tree.held.disjoint m hm fs.here (h.tree.used h.tree.here) hother _ hb
      rw [(h.tree.directory h.tree.here).2.2.1]
      exact List.mem_singleton_self _
    · have hdata := (h.tree.held.data m hm b hb).1
      omega
  change _ ∧ content (moved fs n).disk (fs.inode m) = _ ∧ _
  rw [hsame]
  exact h.file m hm hd

end Carries

/-! ### The texts -/

theorem dirMake_text {env : Env} {r : Reply} (hx : dirMake env name fs = some (r, fs'))
    (hret : r.ret = 0) (hblock : 0 ≤ fs.getBlock.1) : r = ⟨0, []⟩ ∧
      (fs'.inode fs.getBlock.2.getInode.1).linkCount = env.inode.linkCount := by
  unfold dirMake at hx
  obtain ⟨f, -, hx⟩ := Option.bind_eq_some_iff.mp hx
  dsimp only at hx
  split_ifs at hx
  any_goals
    obtain ⟨rfl, -⟩ := Prod.mk.inj (Option.some.inj hx)
    cases hret
  · omega
  · obtain ⟨curDir, -, hx⟩ := Option.map_eq_some_iff.mp hx
    obtain ⟨rfl, rfl⟩ := Prod.mk.inj hx
    refine ⟨rfl, ?_⟩
    rw [FileSystem.writeDiskBlock_inode, FileSystem.writeDiskBlock_inode]
    simp only [FileSystem.writeInode, Function.update_self]

theorem dirRemove_text {env : Env} {r : Reply} (hx : dirRemove env name fs = some (r, fs'))
    (hret : r.ret = 0) : r = ⟨0, []⟩ := by
  unfold dirRemove at hx
  obtain ⟨s, -, hx⟩ := Option.bind_eq_some_iff.mp hx
  obtain ⟨nd, -, hx⟩ := Option.bind_eq_some_iff.mp hx
  dsimp only at hx
  split_ifs at hx
  any_goals
    obtain ⟨rfl, -⟩ := Prod.mk.inj (Option.some.inj hx)
    cases hret
  all_goals
    obtain ⟨curDir, -, hx⟩ := Option.bind_eq_some_iff.mp hx
    obtain ⟨fs₁, -, hx⟩ := Option.bind_eq_some_iff.mp hx
    obtain ⟨fs₂, -, hx⟩ := Option.map_eq_some_iff.mp hx
    exact (Prod.mk.inj hx).1.symm

namespace Carries

theorem getInode_eq (h : Carries fs t) (hrange : 0 ≤ n ∧ n < 512) (hfresh : n ∉ usedInodes fs)
    (hfirst : ∀ m, 0 ≤ m → m < n → m ∈ usedInodes fs) : fs.getInode.1 = n := by
  rcases getInode_cases h.tree.held.sane.counted with ⟨h0, -⟩ | ⟨m, hm, hfresh', hfirst', hg⟩
  · -- an inode is free
    have hcounted := h.tree.held.sane.counted.inodes
    have hsub : insert n (usedInodes fs) ⊆ Finset.Ico (0 : ℤ) 512 := by
      intro m hm
      rw [Finset.mem_Ico]
      rcases Finset.mem_insert.mp hm with rfl | hm
      · exact hrange
      · exact mem_usedInodes_range hm
    have hcard := Finset.card_le_card hsub
    rw [Finset.card_insert_of_notMem hfresh, Int.card_Ico] at hcard
    simp only [MAX_INODE] at hcounted
    omega
  · rw [hg]
    exact (h.fresh_eq hm hfresh' hfirst').trans (h.fresh_eq hrange hfresh hfirst).symm

/-- Every name can be searched, and the inode read that the search answers. -/
theorem searched (h : Carries fs t) (env : Env) (name : Name) : ∃ s nd,
    fs.searchCurDir name = some s ∧ fs.readInode env s = some nd ∧
      (s ≥ 0 ↔ (t.lookup name).isSome = true) ∧
      ∀ n, t.lookup name = some n → s = n ∧ nd = fs.inode n := by
  cases hl : t.lookup name with
  | none =>
    refine ⟨-1, env.beforeInode, h.search_none hl, ?_, by simp, nofun⟩
    rw [FileSystem.readInode, if_pos rfl]
  | some n =>
    have hrange := mem_usedInodes_range (h.lookup_used hl)
    refine ⟨n, fs.inode n, h.search_some hl, readInode_of_range hrange, ?_, ?_⟩
    · simp [hrange.1]
    · intro m hm
      rw [← Option.some.inj hm]
      exact ⟨rfl, rfl⟩

theorem not_outOfTable (h : Carries fs t) (name : Name) : ¬OutOfTable name fs := by
  rintro ⟨s, hs, hne, hout⟩
  cases hl : t.lookup name with
  | none =>
    rw [h.search_none hl, Option.some_inj] at hs
    exact hne hs.symm
  | some n =>
    rw [h.search_some hl, Option.some_inj] at hs
    exact hout (hs ▸ mem_usedInodes_range (h.lookup_used hl))

/-! ### The commands -/

/-- The check of `file_create` and `file_copy`: a map block more past 7680 bytes. -/
theorem taken_eq {size : ℤ} (h0 : 0 ≤ size) :
    (if size > 7680 then numBlock size + 1 else numBlock size) =
      Hierarchy.blocksTaken size.toNat := by
  have hnum := numBlock_spec size
  unfold Hierarchy.blocksTaken Hierarchy.blocksFor
  split_ifs <;> omega

theorem passes (h : Carries fs t) {name : Name} (hl : ¬(t.lookup name).isSome = true) :
    ∃ f, fs.searchCurDir name = some f ∧ ¬f ≥ 0 := by
  rw [Option.not_isSome_iff_eq_none] at hl
  exact ⟨-1, h.search_none hl, by decide⟩

theorem create_step (h : Carries fs t) (env : Env) (name : Name) (size : Int32) :
    ∃ fs', fileCreate env name size fs = some ((t.create env name size).1, fs') ∧
      Carries fs' (t.create env name size).2 := by
  unfold Hierarchy.create
  by_cases hsize : size.toInt ≤ 0 ∨ size.toInt > 73216
  · rw [if_pos hsize]
    exact ⟨fs, by rw [fileCreate, if_pos hsize], h⟩
  rw [if_neg hsize]
  obtain ⟨s, _, hs, -, hsome, -⟩ := h.searched env name
  have hblocks := taken_eq (show 0 ≤ size.toInt by omega)
  rw [← h.freeInodes_eq, ← h.freeBlocks_eq, ← hblocks]
  -- The checks one after the other, in the source's order.
  by_cases hl : (t.lookup name).isSome = true
  · rw [if_pos hl, fileCreate, if_neg hsize, hs, Option.bind_some, if_pos (hsome.mpr hl)]
    exact ⟨fs, rfl, h⟩
  have hneg : ¬s ≥ 0 := mt hsome.mp hl
  rw [if_neg hl]
  by_cases hfull : t.Full
  · rw [if_pos hfull, fileCreate, if_neg hsize, hs, Option.bind_some, if_neg hneg,
      if_pos (h.full_iff.mpr hfull)]
    exact ⟨fs, rfl, h⟩
  have hroom : ¬fs.curDir.Full := mt h.full_iff.mp hfull
  rw [if_neg hfull]
  by_cases hinodes : fs.superBlock.freeInodeCount.toInt < 1
  · rw [if_pos hinodes, fileCreate, if_neg hsize, hs, Option.bind_some, if_neg hneg, if_neg hroom,
      if_pos hinodes]
    exact ⟨fs, rfl, h⟩
  rw [if_neg hinodes]
  by_cases hfew : fs.superBlock.freeBlockCount.toInt <
      if size.toInt > 7680 then numBlock size.toInt + 1 else numBlock size.toInt
  · rw [if_pos hfew, fileCreate, if_neg hsize, hs, Option.bind_some, if_neg hneg, if_neg hroom,
      if_neg hinodes]
    exact ⟨fs, if_pos hfew, h⟩
  rw [if_neg hfew]
  have hpass : CreatePasses name size fs :=
    ⟨hsize, h.passes hl, hroom, hinodes, hfew⟩
  rcases (fileCreate_passed env h.tree.held.sane.counted hpass).total (not_not.mpr h.lists.fits)
    with ⟨-, -, -, hfalse⟩ | ⟨r, fs', hx, hret, n, nd, hn⟩
  · exact hfalse.elim
  have htext := fileCreate_text hpass hx hret
  have hfresh := h.fresh_eq hn.range hn.fresh hn.first
  rw [h.getInode_eq hn.range hn.fresh hn.first, hfresh] at htext
  have hcontent : content fs'.disk nd = generated env size := by
    have hpos := hn.size_pos
    rw [content_of_chunks (by rw [hn.size_eq]; omega) hn.data, hn.size_eq]
    rfl
  refine ⟨fs', by rw [hx, htext], ?_⟩
  apply h.added hn.toAdded hn.missing hn.room hn.entry hn.type _ hn.linkCount _ hcontent
    (zero_not_mem_generated env size)
  · rw [hn.size_eq]
    exact ⟨hn.size_pos, hn.size_le⟩
  · rw [hn.blockCount, hn.size_eq]

theorem cat_step (h : Carries fs t) (env : Env) (name : Name) :
    fileCat env name fs = some (t.cat name, fs) := by
  obtain ⟨s, nd, hs, hread, hsome, hval⟩ := h.searched env name
  unfold Hierarchy.cat
  cases hl : t.lookup name with
  | none =>
    have hneg : s < 0 := by simpa [hl] using hsome
    rw [fileCat, hs, Option.bind_some, hread, Option.bind_some]
    exact if_pos hneg
  | some n =>
    obtain ⟨rfl, rfl⟩ := hval n hl
    have hn := h.lookup_used hl
    have hpos := (mem_usedInodes_range hn).1
    by_cases hd : s ∈ t.tree.dirs
    · rw [fileCat, hs, Option.bind_some, hread, Option.bind_some]
      dsimp only
      rw [if_neg (by omega), if_pos ((h.isDir_iff hn).mpr hd), if_pos hd]
    · obtain ⟨-, hcontent, hzero⟩ := h.file s hn hd
      have hall : (t.content s).takeWhile (· ≠ 0) = t.content s := by
        apply List.takeWhile_eq_self_iff.mpr
        intro b hb
        have hne : b ≠ 0 := fun he => hzero (he ▸ hb)
        simpa using hne
      rw [fileCat_file h.owned hs hn (TYPE.eq_file (mt (h.isDir_iff hn).mp hd)), hcontent, hall]
      dsimp only
      rw [if_neg hd]

theorem ln_step (h : Carries fs t) (env : Env) (src dest : Name) :
    ∃ fs', hardLink env src dest fs = some ((t.ln src dest).1, fs') ∧
      Carries fs' (t.ln src dest).2 := by
  obtain ⟨s, nd, hs, hread, hsome, hval⟩ := h.searched env src
  obtain ⟨f, _, hd, hread', hsome', -⟩ := h.searched env dest
  unfold Hierarchy.ln
  rw [hardLink]
  simp only [hs, hd, hread, hread', Option.bind_some]
  cases hl : t.lookup src with
  | none =>
    have hneg : s < 0 := by simpa [hl] using hsome
    rw [if_pos hneg]
    exact ⟨fs, rfl, h⟩
  | some n =>
    obtain ⟨rfl, rfl⟩ := hval n hl
    have hn := h.lookup_used hl
    have hrange := mem_usedInodes_range hn
    dsimp only
    rw [if_neg (by omega), ← h.freeBlocks_eq, ← h.freeInodes_eq, ← h.blockCount_eq hn]
    by_cases hbound : (t.lookup dest).isSome = true
    · rw [if_pos (hsome'.mpr hbound), if_pos hbound]
      exact ⟨fs, rfl, h⟩
    have hf : ¬f ≥ 0 := mt hsome'.mp hbound
    rw [if_neg hf, if_neg hbound]
    by_cases hdir : s ∈ t.tree.dirs
    · rw [if_pos ((h.isDir_iff hn).mpr hdir), if_pos hdir]
      exact ⟨fs, rfl, h⟩
    have hfile := mt (h.isDir_iff hn).mp hdir
    rw [if_neg hfile, if_neg hdir]
    by_cases hfull : t.Full
    · rw [if_pos (h.full_iff.mpr hfull), if_pos hfull]
      exact ⟨fs, rfl, h⟩
    have hroom : ¬fs.curDir.Full := mt h.full_iff.mp hfull
    rw [if_neg hroom, if_neg hfull]
    by_cases hfew : fs.superBlock.freeBlockCount.toInt < (fs.inode s).blockCount.toInt
    · rw [if_pos hfew, if_pos hfew]
      exact ⟨fs, rfl, h⟩
    rw [if_neg hfew, if_neg hfew]
    by_cases hinodes : fs.superBlock.freeInodeCount.toInt < 1
    · rw [if_pos hinodes, if_pos hinodes]
      exact ⟨fs, rfl, h⟩
    rw [if_neg hinodes, if_neg hinodes]
    obtain ⟨dir, hdir', -⟩ := Dentry.append_listing h.lists.fits hroom dest (n := s)
      ⟨by omega, by omega⟩
    have hlinks : Links src dest fs s { fs.writeInode s
        { fs.inode s with linkCount := (fs.inode s).linkCount + 1 } with curDir := dir } :=
      ⟨hs, hrange, ⟨f, hd, by omega⟩, hroom, TYPE.eq_file hfile, hdir', rfl⟩
    exact ⟨_, congrArg (Option.map _) hdir', h.linked hlinks⟩

theorem rm_step (h : Carries fs t) (env : Env) (name : Name) :
    ∃ fs', fileRemove env name fs = some ((t.rm name).1, fs') ∧ Carries fs' (t.rm name).2 := by
  obtain ⟨s, nd, hs, hread, hsome, hval⟩ := h.searched env name
  unfold Hierarchy.rm
  cases hl : t.lookup name with
  | none =>
    have hneg : s < 0 := by simpa [hl] using hsome
    refine ⟨fs, ?_, h⟩
    rw [fileRemove, hs, Option.bind_some, hread, Option.bind_some]
    exact if_pos hneg
  | some n =>
    obtain ⟨rfl, rfl⟩ := hval n hl
    have hn := h.lookup_used hl
    have hpos := (mem_usedInodes_range hn).1
    dsimp only
    by_cases hd : s ∈ t.tree.dirs
    · rw [if_pos hd]
      refine ⟨fs, ?_, h⟩
      rw [fileRemove, hs, Option.bind_some, hread, Option.bind_some]
      rw [if_neg (by omega), if_pos ((h.isDir_iff hn).mpr hd)]
    rw [if_neg hd]
    have hdefined : ¬(¬fs.curDir.Fits ∨ OutOfTable name fs ∨
        ∃ s, fs.searchCurDir name = some s ∧ 0 ≤ s ∧ OutOfDisk (fs.inode s) fs) := by
      rintro (hfits | hout | ⟨m, hm, -, hout⟩)
      · exact hfits h.lists.fits
      · exact h.not_outOfTable name hout
      · obtain rfl : s = m := Option.some.inj (hs.symm.trans hm)
        exact h.tree.held.not_outOfDisk hn hout
    rcases (fileRemove_outcome env name h.tree.held.sane).total hdefined
      with ⟨-, -, -, m, hm, hwhy⟩ | ⟨r, fs', hx, hret, m, hu⟩
    · -- the inode is a file's, and the directory has at least its own entry
      exfalso
      obtain rfl : s = m := Option.some.inj (hs.symm.trans hm)
      have hcoe := h.lists.fits.coe_count
      have hlisting := congrArg List.length h.lists.listing
      rw [Dentry.length_listing] at hlisting
      have hlen : 0 < t.listing.length := by
        obtain ⟨e, he, -⟩ := Option.map_eq_some_iff.mp hl
        exact List.length_pos_of_mem (List.mem_of_find?_eq_some he)
      rcases hwhy with hw | hw | hw
      · omega
      · exact hd ((h.isDir_iff hn).mp hw)
      · rw [hw] at hcoe
        change _ = (0 : ℤ) at hcoe
        omega
    · have htext := fileRemove_text hx hret
      exact ⟨fs', by rw [hx, htext], h.unlinked hu⟩

theorem cp_step (h : Carries fs t) (env : Env) {src : Name}
    (hsrc : (t.lookup src).all (· ∉ t.tree.dirs) = true) (dest : Name) :
    ∃ fs', fileCopy env src dest fs = some ((t.cp src dest).1, fs') ∧
      Carries fs' (t.cp src dest).2 := by
  obtain ⟨s, nd, hs, hread, hsome, hval⟩ := h.searched env src
  obtain ⟨f, _, hd, -, hsome', -⟩ := h.searched env dest
  unfold Hierarchy.cp
  cases hl : t.lookup src with
  | none =>
    have hneg : s < 0 := by simpa [hl] using hsome
    refine ⟨fs, ?_, h⟩
    rw [fileCopy, hs, Option.bind_some, hd, Option.bind_some, hread, Option.bind_some]
    exact if_pos hneg
  | some n =>
    obtain ⟨rfl, rfl⟩ := hval n hl
    have hn := h.lookup_used hl
    have hrange := mem_usedInodes_range hn
    have hfile : s ∉ t.tree.dirs := by simpa [hl] using hsrc
    have hsize := h.size_eq hn
    have hblocks := taken_eq (show 0 ≤ (fs.inode s).size.toInt by omega)
    have hnat : (fs.inode s).size.toInt.toNat = t.size s := by omega
    rw [hnat] at hblocks
    dsimp only
    rw [← h.freeInodes_eq, ← h.freeBlocks_eq, ← hblocks]
    have hneg : ¬s < 0 := by omega
    by_cases hbound : (t.lookup dest).isSome = true
    · rw [if_pos hbound, fileCopy, hs, Option.bind_some, hd, Option.bind_some, hread,
        Option.bind_some]
      dsimp only
      rw [if_neg hneg, if_pos (hsome'.mpr hbound)]
      exact ⟨fs, rfl, h⟩
    have hf : ¬f ≥ 0 := mt hsome'.mp hbound
    rw [if_neg hbound]
    by_cases hfull : t.Full
    · rw [if_pos hfull, fileCopy, hs, Option.bind_some, hd, Option.bind_some, hread,
        Option.bind_some]
      dsimp only
      rw [if_neg hneg, if_neg hf, if_pos (h.full_iff.mpr hfull)]
      exact ⟨fs, rfl, h⟩
    have hroom : ¬fs.curDir.Full := mt h.full_iff.mp hfull
    rw [if_neg hfull]
    by_cases hinodes : fs.superBlock.freeInodeCount.toInt < 1
    · rw [if_pos hinodes, fileCopy, hs, Option.bind_some, hd, Option.bind_some, hread,
        Option.bind_some]
      dsimp only
      rw [if_neg hneg, if_neg hf, if_neg hroom, if_pos hinodes]
      exact ⟨fs, rfl, h⟩
    rw [if_neg hinodes]
    have hfew_iff : (((fs.inode s).size.toInt > 7680 ∧ numBlock (fs.inode s).size.toInt + 1 >
          fs.superBlock.freeBlockCount.toInt) ∨
        numBlock (fs.inode s).size.toInt > fs.superBlock.freeBlockCount.toInt) ↔
          fs.superBlock.freeBlockCount.toInt < if (fs.inode s).size.toInt > 7680 then
            numBlock (fs.inode s).size.toInt + 1 else numBlock (fs.inode s).size.toInt := by
      split_ifs <;> omega
    by_cases hfew : fs.superBlock.freeBlockCount.toInt < if (fs.inode s).size.toInt > 7680 then
        numBlock (fs.inode s).size.toInt + 1 else numBlock (fs.inode s).size.toInt
    · rw [if_pos hfew, fileCopy, hs, Option.bind_some, hd, Option.bind_some, hread,
        Option.bind_some]
      dsimp only
      rw [if_neg hneg, if_neg hf, if_neg hroom, if_neg hinodes]
      exact ⟨fs, if_pos (hfew_iff.mpr hfew), h⟩
    rw [if_neg hfew]
    have hpass : CopyPasses src dest fs :=
      ⟨⟨s, hs, hrange, mt hfew_iff.mp hfew⟩, h.passes hbound, hroom, hinodes⟩
    rcases (fileCopy_passed env h.tree.held.sane hpass).total
        (not_or.mpr ⟨not_not.mpr h.lists.fits, h.not_outOfTable src⟩)
      with ⟨-, -, -, hfalse⟩ | ⟨r, fs', hx, hret, m, k, nd, hc⟩
    · exact hfalse.elim
    obtain rfl : s = m := Option.some.inj (hs.symm.trans hc.found)
    have htext := fileCopy_text hs hpass hx hret
    have hbig : (fs.inode s).size.toInt > 7680 ↔ 7680 < t.size s := by omega
    simp only [hbig] at htext
    obtain ⟨hcount, hcontent, hzero⟩ := h.file s hn hfile
    refine ⟨fs', by rw [hx, htext], ?_⟩
    apply h.added hc.toAdded hc.missing hc.room hc.entry
      (hc.type.trans (TYPE.eq_file (mt (h.isDir_iff hn).mp hfile))) _ hc.linkCount _ _ hzero
    · rw [hc.size_eq]
      exact ⟨h.tree.held.size_pos s hn, (h.tree.held.sane.size s).2⟩
    · rw [hc.blockCount, hc.size_eq]
      exact hcount
    · rw [← hcontent]
      apply content_of_blocks hc.size_eq (h.tree.held.sane.size s).1
      exact hc.data fun b hb => (h.tree.held.data s hn b hb).2

theorem mkdir_step (h : Carries fs t) (env : Env) (name : Name)
    (hserved : t.Served (.call (.mkdir name))) :
    ∃ fs', dirMake env name fs = some ((t.mkdir env name).1, fs') ∧
      Carries fs' (t.mkdir env name).2 := by
  have hc := h.tree.held.sane.counted
  obtain ⟨s, _, hs, -, hsome, -⟩ := h.searched env name
  obtain ⟨hcur, hcount⟩ := getBlock_rest hc
  unfold Hierarchy.mkdir
  rw [← h.freeInodes_eq]
  -- A refusal comes after `get_block`.
  by_cases hl : (t.lookup name).isSome = true
  · rw [if_pos hl, dirMake, hs, Option.bind_some]
    dsimp only
    rw [if_pos (hsome.mpr hl)]
    exact ⟨_, rfl, h.lost⟩
  have hneg : ¬s ≥ 0 := mt hsome.mp hl
  rw [if_neg hl]
  by_cases hfull : t.Full
  · rw [if_pos hfull, dirMake, hs, Option.bind_some]
    dsimp only
    rw [if_neg hneg, hcur, if_pos (h.full_iff.mpr hfull)]
    exact ⟨_, rfl, h.lost⟩
  have hroom : ¬fs.curDir.Full := mt h.full_iff.mp hfull
  rw [if_neg hfull]
  by_cases hinodes : fs.superBlock.freeInodeCount.toInt < 1
  · rw [if_pos hinodes, dirMake, hs, Option.bind_some]
    dsimp only
    rw [if_neg hneg, hcur, if_neg hroom, hcount, if_pos hinodes]
    exact ⟨_, rfl, h.lost⟩
  rw [if_neg hinodes]
  have hfew : ¬t.freeInodes < 1 := h.freeInodes_eq ▸ hinodes
  obtain ⟨hpos, hplace⟩ := ((hserved.resolve_left hl).resolve_left hfull).resolve_left hfew
  have hfree := h.freeBlocks_eq
  rcases (dirMake_outcome env name hc).total (not_not.mpr h.lists.fits)
    with ⟨-, -, -, hwhy⟩ | ⟨r, fs', hx, hret, n, nd, fs₁, hm⟩
  · exfalso
    rcases hwhy with ⟨f, hf, h0⟩ | hwhy | hwhy
    · obtain rfl : s = f := Option.some.inj (hs.symm.trans hf)
      exact hneg h0
    · exact hroom hwhy
    · exact hinodes hwhy
  · have hblock : 0 ≤ fs.getBlock.1 := by
      rcases getBlock_cases hc with ⟨h0, -⟩ | ⟨b, hb, -, -, hg⟩
      · omega
      · rw [hg]
        exact hb.1
    obtain ⟨rfl, hlinks⟩ := dirMake_text hx hret hblock
    -- the inode number that `get_inode` answers after `get_block`
    have hsame : usedInodes fs.getBlock.2 = usedInodes fs :=
      h.lost.nodes_eq.symm.trans h.nodes_eq
    obtain ⟨hrange, hfresh, hfirst⟩ := hm.first_free
    rw [← hsame] at hfresh hfirst
    rw [h.lost.getInode_eq hrange hfresh hfirst, hm.inode, Function.update_self] at hlinks
    have hmade := hm.made
    cases hmade with
    | block added content => exact ⟨fs', hx, h.made hm added content hplace hpos hlinks⟩
    | noBlock full => omega

/-- A name but `.` and `..` is behind the heading. -/
theorem lookup_kid (h : Carries fs t) {name : Name} (hname : name ≠ dot ∧ name ≠ dotDot)
    (hl : t.lookup name = some n) : n ∈ t.tree.children fs.here := by
  have hpos := (mem_usedInodes_range (h.lookup_used hl)).1
  rcases h.tree.found (h.search_some hl) hpos with ⟨-, hd⟩ | ⟨l₁, l₂, hk, -⟩
  · exact absurd hd (not_or.mpr hname)
  · rw [NameTree.children, hk]
    simp

/-- What `dir_remove` reads of a directory that is not the current one. -/
theorem numEntry_eq (h : Carries fs t) (hn : n ∈ t.tree.dirs) (hne : n ≠ fs.here) (h0 : n ≠ 0)
    (buffer : Block) : (dentryLayout.decode
      (fs.readDiskBlock (ownBlock (fs.inode n)) buffer)).numEntry.toInt =
        (t.tree.kids n).length + 2 := by
  have hown := (h.tree.directory hn).2.2.2.2
  have hlists := h.tree.lists n hn
  have hlen := congrArg List.length hlists.listing
  rw [Dentry.length_listing, listingOf, heading, if_neg h0, List.length_append] at hlen
  simp only [List.length_cons, List.length_nil] at hlen
  have hcoe := hlists.fits.coe_count
  rw [fs.readDiskBlock_of_range (mem_usedBlocks_range hown), ← dirOf_of_ne hne]
  omega

theorem rmdir_step (h : Carries fs t) (env : Env) (name : Name)
    (hserved : (t.lookup name).isSome = true) :
    ∃ fs', dirRemove env name fs = some ((t.rmdir name).1, fs') ∧
      Carries fs' (t.rmdir name).2 := by
  obtain ⟨s, nd, hs, hread, -, hval⟩ := h.searched env name
  obtain ⟨n, hl⟩ := Option.isSome_iff_exists.mp hserved
  obtain ⟨rfl, rfl⟩ := hval n hl
  have hn := h.lookup_used hl
  have hrange := mem_usedInodes_range hn
  have hneg : ¬s < 0 := by omega
  unfold Hierarchy.rmdir
  rw [hl]
  dsimp only
  by_cases hd : s ∉ t.tree.dirs
  · rw [if_pos hd, dirRemove, hs, Option.bind_some, hread, Option.bind_some]
    dsimp only
    rw [if_neg hneg, if_pos (mt (h.isDir_iff hn).mp hd)]
    exact ⟨fs, rfl, h⟩
  rw [if_neg hd]
  have hdirs : s ∈ t.tree.dirs := not_not.mp hd
  have htype : ¬(fs.inode s).type ≠ .directory := not_not.mpr ((h.isDir_iff hn).mpr hdirs)
  by_cases hdot : name = dot
  · rw [if_pos hdot, dirRemove, hs, Option.bind_some, hread, Option.bind_some]
    dsimp only
    rw [if_neg hneg, if_neg htype, if_pos (congrArg Name.bytes hdot).symm]
    exact ⟨fs, rfl, h⟩
  have hdot' : ¬dot.bytes = name.bytes := fun he => hdot (Name.ext_bytes he).symm
  rw [if_neg hdot]
  by_cases hdots : name = dotDot
  · rw [if_pos hdots, dirRemove, hs, Option.bind_some, hread, Option.bind_some]
    dsimp only
    rw [if_neg hneg, if_neg htype, if_neg hdot', if_pos (congrArg Name.bytes hdots).symm]
    exact ⟨fs, rfl, h⟩
  have hdots' : ¬dotDot.bytes = name.bytes := fun he => hdots (Name.ext_bytes he).symm
  rw [if_neg hdots]
  -- An entry behind the heading names neither the current directory nor the root.
  have hchild := h.lookup_kid ⟨hdot, hdots⟩ hl
  have hne : s ≠ fs.here := h.tree.good.ne_of_mem h.tree.here hdirs hchild
  have h0 : s ≠ 0 := (h.tree.good.kid _ h.tree.here s hchild).2
  have hnum := h.numEntry_eq hdirs hne h0
  by_cases hkids : t.tree.kids s ≠ []
  · have hlen := List.length_pos_of_ne_nil hkids
    rw [if_pos hkids, dirRemove, hs, Option.bind_some, hread, Option.bind_some]
    dsimp only
    rw [if_neg hneg, if_neg htype, if_neg hdot', if_neg hdots']
    refine ⟨fs, if_pos ?_, h⟩
    have hbuffer := hnum (dentryLayout.encode env.dentry)
    unfold ownBlock at hbuffer
    omega
  rw [if_neg hkids]
  have hlen : (t.tree.kids s).length = 0 := by rw [not_not.mp hkids, List.length_nil]
  have hdefined : ¬(¬fs.curDir.Fits ∨ OutOfTable name fs ∨
      ∃ m, fs.searchCurDir name = some m ∧ 0 ≤ m ∧
        ((fs.inode m).size = 1 → (fs.inode m).blockCount = 1 → OutOfDisk (fs.inode m) fs)) := by
    rintro (hfits | hout | ⟨m, hm, -, hout⟩)
    · exact hfits h.lists.fits
    · exact h.not_outOfTable name hout
    · obtain rfl : s = m := Option.some.inj (hs.symm.trans hm)
      obtain ⟨hsize, hcount⟩ := h.tree.held.directory s hn ((h.isDir_iff hn).mpr hdirs)
      exact h.tree.held.not_outOfDisk hn (hout hsize hcount)
  rcases (dirRemove_outcome env name).total hdefined
    with ⟨-, -, -, hwhy⟩ | ⟨r, fs', hx, hret, m, hr⟩
  · exfalso
    rcases hwhy with hwhy | hwhy | ⟨m, hm, hwhy⟩
    · exact hdot' hwhy
    · exact hdots' hwhy
    obtain rfl : s = m := Option.some.inj (hs.symm.trans hm)
    rcases hwhy with hwhy | hwhy | ⟨buffer, hwhy⟩
    · exact hneg hwhy
    · exact htype hwhy
    · rw [hnum buffer] at hwhy
      omega
  · obtain rfl : s = m := Option.some.inj (hs.symm.trans hr.found)
    rw [dirRemove_text hx hret] at hx
    exact ⟨fs', hx, h.removedDir hr⟩

/-- Where `cd` moves to. -/
theorem cd_moves (h : Carries fs t) (env : Env) {name : Name} (hdot : name ≠ dot)
    (hleads : Leads name fs n) (hn : n ∈ t.tree.dirs) (hne : n ≠ fs.here) (hs : t.Settled) :
    ∃ fs', dirChange env name fs = some (⟨0, []⟩, fs') ∧ Carries fs' (t.enter n) := by
  have hrange := mem_usedInodes_range (h.tree.used hn)
  have hown := mem_usedBlocks_range (h.tree.directory hn).2.2.2.2
  exact ⟨moved fs n, dirChange_moved hdot hleads hrange h.tree.curDirInode_range hown,
    h.entered hs hn hne⟩

theorem cd_step (h : Carries fs t) (env : Env) (name : Name)
    (hserved : t.Served (.call (.cd name))) :
    ∃ fs', dirChange env name fs = some ((t.cd name).1, fs') ∧ Carries fs' (t.cd name).2 := by
  unfold Hierarchy.cd
  by_cases hdot : name = dot
  · rw [if_pos hdot]
    exact ⟨fs, by rw [dirChange, if_pos (congrArg Name.bytes hdot)], h⟩
  rw [if_neg hdot]
  by_cases hdots : name = dotDot
  · rw [if_pos hdots]
    obtain ⟨-, h0, hs⟩ := (hserved.resolve_left hdot).resolve_right fun hd => hd.1 hdots
    obtain ⟨hup, hne, -⟩ := h.tree.good.up _ (h.here ▸ h.tree.here) h0
    -- The second entry of a directory below the root is `..`.
    have hsecond : t.listing[1]? = some (dotDot.bytes, t.tree.up t.here) := by
      rw [Hierarchy.listing, listingOf, heading, if_neg h0]
      rfl
    have hentry := h.lists.entry (by decide) hsecond
    exact h.cd_moves env hdot (Or.inl ⟨hdots, hentry.symm⟩) hup (h.here ▸ hne) hs
  rw [if_neg hdots]
  obtain ⟨s, nd, hs, hread, hsome, hval⟩ := h.searched env name
  cases hl : t.lookup name with
  | none =>
    have hneg : s < 0 := by simpa [hl] using hsome
    have hdot' : ¬name.bytes = dot.bytes := fun he => hdot (Name.ext_bytes he)
    have hdots' : ¬name.bytes = dotDot.bytes := fun he => hdots (Name.ext_bytes he)
    rw [dirChange, if_neg hdot', if_neg hdots', hs, Option.bind_some, hread, Option.bind_some,
      if_pos hneg]
    exact ⟨fs, rfl, h⟩
  | some n =>
    have hfound : ¬t.lookup name = none := by
      rw [hl]
      exact Option.some_ne_none n
    have hmoves := (((hserved.resolve_left hdot).resolve_left fun hd => hdots hd.1).2).resolve_left
      hfound
    have hn : n ∈ t.tree.dirs := by simpa [hl] using hmoves.1
    have hne := h.tree.good.ne_of_mem h.tree.here hn (h.lookup_kid ⟨hdot, hdots⟩ hl)
    have hpos := (mem_usedInodes_range (h.lookup_used hl)).1
    exact h.cd_moves env hdot (Or.inr ⟨hdots, h.search_some hl, hpos⟩) hn hne hmoves.2

theorem step (h : Carries fs t) (i : Context × Request) (hserved : t.Served i.2) :
    ∃ fs', perform fs i = some ((t.step i).1, fs') ∧ Carries fs' (t.step i).2 := by
  obtain ⟨ctx, q⟩ := i
  cases q with
  | call c =>
    cases c with
    | create name size => exact h.create_step ctx.toEnv name size
    | cat name => exact ⟨fs, h.cat_step ctx.toEnv name, h⟩
    | rm name => exact h.rm_step ctx.toEnv name
    | ln src dest => exact h.ln_step ctx.toEnv src dest
    | cp src dest => exact h.cp_step ctx.toEnv hserved dest
    | mkdir name => exact h.mkdir_step ctx.toEnv name hserved
    | rmdir name => exact h.rmdir_step ctx.toEnv name hserved
    | cd name => exact h.cd_step ctx.toEnv name hserved
  | ls => exact ⟨fs, h.ls_reply, h⟩
  | stat name => exact ⟨fs, h.stat_reply name, h⟩
  | df => exact ⟨fs, h.df_reply, h⟩
  | usage text => exact ⟨fs, rfl, h⟩
  | unknown comm => exact ⟨fs, rfl, h⟩

end Carries

theorem carries_format : Carries format Hierarchy.empty := by
  have hroot (m : ℤ) (hm : m ∈ usedInodes format) : m = 0 := by
    rwa [usedInodes_format, Finset.mem_singleton] at hm
  have htree : Tree (usedInodes format) Hierarchy.empty.tree format := by
    rw [usedInodes_format]
    exact tree_format
  have hnode : format.inode 0 = rootInode := by rw [inode_format, Function.update_self]
  refine ⟨htree, Finset.mem_singleton.mp tree_format.here, ?_, ?_, ?_, ?_, nofun, ?_⟩
  · intro m hm _
    exact Finset.mem_singleton.mpr (hroot m hm)
  · intro m hm hd
    exact absurd (Finset.mem_singleton.mpr (hroot m hm)) hd
  · intro m hm
    rw [Finset.mem_singleton.mp hm, FileSystem.linkCount, hnode]
    rfl
  · rw [usedInodes_format, Finset.sum_singleton, hnode, format_eq]
    rfl
  · rintro l ⟨⟩
    refine ⟨atFormat_format, ?_⟩
    have hcur := tree_format.curDir
    rw [Finset.mem_singleton.mp tree_format.here] at hcur
    rw [disk_format, Function.update_self, dentryLayout.decode_encode, ← curDir_format]
    exact hcur

end OperatingSystems.FS
