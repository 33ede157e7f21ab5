import OperatingSystems.FSFailure

/-! Which blocks belong to which inode, and that the commands keep this apart. -/
namespace OperatingSystems.FS

/-- The blocks of the inodes in `S` are in use, distinct, apart from each other and from the
metadata; a directory has the single block that its size says. -/
structure Held (S : Finset ℤ) (fs : FileSystem) : Prop where
  sane : Sane fs
  subset : S ⊆ usedInodes fs
  metadata : ∀ b, 0 ≤ b → b < 131 → b ∈ usedBlocks fs
  nodup : ∀ n ∈ S, (blocksOf fs.disk (fs.inode n)).Nodup
  data : ∀ n ∈ S, ∀ b ∈ blocksOf fs.disk (fs.inode n), 131 ≤ b ∧ b ∈ usedBlocks fs
  disjoint : ∀ n ∈ S, ∀ m ∈ S, n ≠ m →
    ∀ b ∈ blocksOf fs.disk (fs.inode n), b ∉ blocksOf fs.disk (fs.inode m)
  size_pos : ∀ n ∈ S, 0 < (fs.inode n).size.toInt
  directory : ∀ n ∈ S, (fs.inode n).type = .directory →
    (fs.inode n).size = 1 ∧ (fs.inode n).blockCount = 1

/-- Every allocated inode holds its blocks. -/
structure Owned (fs : FileSystem) : Prop extends Held (usedInodes fs) fs

variable {S : Finset ℤ} {fs fs' : FileSystem}

/-- A changed link count leaves the rest of every inode as it was. -/
theorem inode_relinked {s : ℤ} {l : Int32}
    (hr : fs'.inode = Function.update fs.inode s { fs.inode s with linkCount := l }) (n : ℤ) :
    fs'.inode n = { fs.inode n with linkCount := (fs'.inode n).linkCount } := by
  rw [hr]
  by_cases hn : n = s
  · subst hn
    simp only [Function.update_self]
  · simp only [Function.update_of_ne hn]

namespace Held

theorem indirect_used (h : Held S fs) {n : ℤ} (hn : n ∈ S)
    (hs : (fs.inode n).size.toInt > 7680) : (fs.inode n).indirectBlock.toInt ∈ usedBlocks fs :=
  (h.data n hn _ (indirectBlock_mem fs.disk hs)).2

/-- While the blocks in use keep their contents, so does the list of an inode's blocks. -/
theorem blocksOf_eq (h : Held S fs) (hagree : Agree fs fs') {n : ℤ} (hn : n ∈ S) :
    blocksOf fs'.disk (fs.inode n) = blocksOf fs.disk (fs.inode n) :=
  blocksOf_eq_of fun hs => hagree _ (h.indirect_used hn hs)

theorem not_outOfDisk (h : Held S fs) {n : ℤ} (hn : n ∈ S) :
    ¬OutOfDisk (fs.inode n) fs := by
  rintro ⟨b, hb, hr⟩
  exact hr (mem_usedBlocks_range (h.data n hn b hb).2)

/-- Ownership depends on the marks and on what the inodes list. -/
theorem of_eq (h : Held S fs) (hsane : Sane fs') (hused : usedBlocks fs ⊆ usedBlocks fs')
    (hinodes : S ⊆ usedInodes fs')
    (hblocks : ∀ n ∈ S, blocksOf fs'.disk (fs'.inode n) = blocksOf fs.disk (fs.inode n))
    (hsize : ∀ n ∈ S, (fs'.inode n).size = (fs.inode n).size ∧
      (fs'.inode n).type = (fs.inode n).type ∧
      (fs'.inode n).blockCount = (fs.inode n).blockCount) : Held S fs' := by
  refine ⟨hsane, hinodes, ?_, ?_, ?_, ?_, ?_, ?_⟩
  · exact fun b h0 h131 => hused (h.metadata b h0 h131)
  · intro n hn
    rw [hblocks n hn]
    exact h.nodup n hn
  · intro n hn b hb
    rw [hblocks n hn] at hb
    have := h.data n hn b hb
    exact ⟨this.1, hused this.2⟩
  · intro n hn m hm
    rw [hblocks n hn, hblocks m hm]
    exact h.disjoint n hn m hm
  · intro n hn
    rw [(hsize n hn).1]
    exact h.size_pos n hn
  · intro n hn
    rw [(hsize n hn).1, (hsize n hn).2.1, (hsize n hn).2.2]
    exact h.directory n hn

/-- A new inode with fresh blocks joins the others. -/
theorem added (h : Held S fs) {n : ℤ} {nd : Inode} (ha : Added fs n nd fs')
    (hsize : 0 < nd.size.toInt ∧ nd.size.toInt ≤ 73216)
    (hdir : nd.type = .directory → nd.size = 1 ∧ nd.blockCount = 1) : Held (insert n S) fs' := by
  have hnew : fs'.inode n = nd := by rw [ha.inode, Function.update_self]
  have hold (m : ℤ) (hm : m ∈ S) : fs'.inode m = fs.inode m := by
    rw [ha.inode, Function.update_of_ne]
    rintro rfl
    exact ha.fresh (h.subset hm)
  have hlist (m : ℤ) (hm : m ∈ S) :
      blocksOf fs'.disk (fs'.inode m) = blocksOf fs.disk (fs.inode m) := by
    rw [hold m hm]
    exact h.blocksOf_eq (fun b hb => ha.disk_used hb) hm
  have hcases (m : ℤ) (hm : m ∈ insert n S) : m = n ∨ m ∈ S := Finset.mem_insert.mp hm
  -- what the others list was in use before, what the new one lists was not
  have hapart (m : ℤ) (hm : m ∈ S) (b : ℤ)
      (hb : b ∈ blocksOf fs'.disk (fs'.inode m)) : b ∉ blocksOf fs'.disk (fs'.inode n) := by
    rw [hlist m hm] at hb
    rw [hnew]
    intro hbn
    exact ha.blocks_fresh b hbn (h.data m hm b hb).2
  refine ⟨h.sane.added ha ⟨hsize.1.le, hsize.2⟩, ?_, ?_, ?_, ?_, ?_, ?_, ?_⟩
  · rw [ha.inodes]
    exact Finset.insert_subset_insert n h.subset
  · intro b h0 h131
    rw [ha.used]
    exact Finset.mem_union_left _ (h.metadata b h0 h131)
  · intro m hm
    rcases hcases m hm with rfl | hm
    · rw [hnew]
      exact ha.nodup
    · rw [hlist m hm]
      exact h.nodup m hm
  · intro m hm b hb
    rw [ha.used]
    rcases hcases m hm with rfl | hm
    · rw [hnew] at hb
      have hr := ha.blocks_range b hb
      refine ⟨?_, Finset.mem_union_right _ (List.mem_toFinset.mpr hb)⟩
      by_contra hlt
      exact ha.blocks_fresh b hb (h.metadata b hr.1 (by omega))
    · rw [hlist m hm] at hb
      exact ⟨(h.data m hm b hb).1, Finset.mem_union_left _ (h.data m hm b hb).2⟩
  · intro m hm k hk hne b hb hbk
    rcases hcases m hm with rfl | hmS
    · rcases hcases k hk with rfl | hkS
      · exact hne rfl
      · exact hapart k hkS b hbk hb
    · rcases hcases k hk with rfl | hkS
      · exact hapart m hmS b hb hbk
      · rw [hlist m hmS] at hb
        rw [hlist k hkS] at hbk
        exact h.disjoint m hmS k hkS hne b hb hbk
  · intro m hm
    rcases hcases m hm with rfl | hm
    · rw [hnew]
      exact hsize.1
    · rw [hold m hm]
      exact h.size_pos m hm
  · intro m hm
    rcases hcases m hm with rfl | hm
    · rw [hnew]
      exact hdir
    · rw [hold m hm]
      exact h.directory m hm

/-- An inode goes with exactly its own blocks. -/
theorem released (h : Held S fs) {s : ℤ} (hs : s ∈ S)
    (hr : Released fs s (blocksOf fs.disk (fs.inode s)).toFinset fs') : Held (S.erase s) fs' := by
  have hinode : fs'.inode = fs.inode := by rw [hr.rest]
  have hdisk : fs'.disk = fs.disk := by rw [hr.rest]
  have hcases (m : ℤ) (hm : m ∈ S.erase s) : m ≠ s ∧ m ∈ S := Finset.mem_erase.mp hm
  refine ⟨h.sane.released hr, ?_, ?_, ?_, ?_, ?_, ?_, ?_⟩
  · rw [hr.inodes]
    exact Finset.erase_subset_erase s h.subset
  · intro b h0 h131
    rw [hr.used, Finset.mem_sdiff, List.mem_toFinset]
    refine ⟨h.metadata b h0 h131, fun hb => ?_⟩
    have := (h.data s hs b hb).1
    omega
  · intro m hm
    rw [hinode, hdisk]
    exact h.nodup m (hcases m hm).2
  · intro m hm b hb
    rw [hinode, hdisk] at hb
    have hd := h.data m (hcases m hm).2 b hb
    rw [hr.used, Finset.mem_sdiff, List.mem_toFinset]
    exact ⟨hd.1, hd.2, h.disjoint m (hcases m hm).2 s hs (hcases m hm).1 b hb⟩
  · intro m hm k hk hne
    rw [hinode, hdisk]
    exact h.disjoint m (hcases m hm).2 k (hcases k hk).2 hne
  · intro m hm
    rw [hinode]
    exact h.size_pos m (hcases m hm).2
  · intro m hm
    rw [hinode]
    exact h.directory m (hcases m hm).2

/-- A changed link count is of no concern, whatever directory becomes current. -/
theorem relinked (h : Held S fs) {s : ℤ} {l : Int32}
    (hr : fs' = { fs with
      inode := Function.update fs.inode s { fs.inode s with linkCount := l }
      curDir := fs'.curDir }) : Held S fs' := by
  have hsize : ∀ n, (fs'.inode n).size = (fs.inode n).size := by
    rw [hr]
    exact size_update_linkCount fs s l
  have hinode : fs'.inode = Function.update fs.inode s { fs.inode s with linkCount := l } := by rw [hr]
  have hnode := inode_relinked hinode
  have hused : usedBlocks fs' = usedBlocks fs := by
    rw [hr]
    rfl
  have hinodes : usedInodes fs' = usedInodes fs := by
    rw [hr]
    rfl
  refine h.of_eq (h.sane.of_eq (by rw [hr]) (by rw [hr]) (by rw [hr]) hsize) hused.symm.subset
    (by rw [hinodes]; exact h.subset) ?_ ?_
  · intro n _
    rw [hnode n, hr]
    rfl
  · intro n _
    rw [hnode n]
    exact ⟨rfl, rfl, rfl⟩

/-- A write to a block that is no indirect block leaves the ownership alone. -/
theorem write (h : Held S fs) (b : ℤ) (buf : Block)
    (hb : ∀ n ∈ S, (fs.inode n).size.toInt > 7680 →
      (fs.inode n).indirectBlock.toInt ≠ b) : Held S (fs.writeDiskBlock b buf) := by
  have hrest := fs.writeDiskBlock_rest b buf
  have hused : usedBlocks (fs.writeDiskBlock b buf) = usedBlocks fs := by
    rw [hrest]
    rfl
  have hinodes : usedInodes (fs.writeDiskBlock b buf) = usedInodes fs := by
    rw [hrest]
    rfl
  refine h.of_eq (h.sane.writeDiskBlock b buf) hused.symm.subset (by rw [hinodes]; exact h.subset) ?_ ?_
  · intro n hn
    rw [FileSystem.writeDiskBlock_inode]
    exact blocksOf_eq_of fun hs => fs.writeDiskBlock_disk_of_ne (hb n hn hs) buf
  · intro n _
    rw [FileSystem.writeDiskBlock_inode]
    exact ⟨rfl, rfl, rfl⟩

end Held

namespace Owned

theorem added (h : Owned fs) {n : ℤ} {nd : Inode} (ha : Added fs n nd fs')
    (hsize : 0 < nd.size.toInt ∧ nd.size.toInt ≤ 73216)
    (hdir : nd.type = .directory → nd.size = 1 ∧ nd.blockCount = 1) : Owned fs' := by
  have h' := h.toHeld.added ha hsize hdir
  rw [← ha.inodes] at h'
  exact ⟨h'⟩

theorem released (h : Owned fs) {s : ℤ} (hs : s ∈ usedInodes fs)
    (hr : Released fs s (blocksOf fs.disk (fs.inode s)).toFinset fs') : Owned fs' := by
  have h' := h.toHeld.released hs hr
  rw [← hr.inodes] at h'
  exact ⟨h'⟩

theorem relinked (h : Owned fs) {s : ℤ} {l : Int32}
    (hr : fs' = { fs with
      inode := Function.update fs.inode s { fs.inode s with linkCount := l }
      curDir := fs'.curDir }) : Owned fs' := by
  have hinodes : usedInodes fs' = usedInodes fs := by
    rw [hr]
    rfl
  have h' := h.toHeld.relinked hr
  rw [← hinodes] at h'
  exact ⟨h'⟩

end Owned

theorem owned_format : Owned format := by
  have hroot : blocksOf format.disk (format.inode 0) = [131] := by
    rw [blocksOf_of_size_one]
    · rw [inode_format, Function.update_self]
      decide
    · rw [inode_format, Function.update_self]
      rfl
  have hmem (n : ℤ) (hn : n ∈ usedInodes format) : n = 0 := by
    rwa [usedInodes_format, Finset.mem_singleton] at hn
  refine ⟨sane_format, Finset.Subset.rfl, ?_, ?_, ?_, ?_, ?_, ?_⟩
  · intro b h0 h131
    rw [mem_usedBlocks_format]
    omega
  · intro n hn
    rw [hmem n hn, hroot]
    exact List.nodup_singleton _
  · intro n hn b hb
    rw [hmem n hn, hroot, List.mem_singleton] at hb
    rw [mem_usedBlocks_format]
    omega
  · intro n hn m hm hne
    exact absurd ((hmem n hn).trans (hmem m hm).symm) hne
  · intro n hn
    rw [hmem n hn, inode_format, Function.update_self]
    decide
  · intro n hn _
    rw [hmem n hn, inode_format, Function.update_self]
    exact ⟨rfl, rfl⟩

end OperatingSystems.FS
