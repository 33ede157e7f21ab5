import OperatingSystems.FSEnter

/-! What becomes of the source of a copy when the copy is removed, or entered and changed. A file
is copied block by block; a directory too, so that the entries of its copy name the inodes that
the source names. -/
namespace OperatingSystems.FS

variable {fs fs₁ g g' : FileSystem} {env : Env} {src dest name : Name} {s m n : ℤ} {nd : Inode}

/-- Inode `m` is in use, and with a file its blocks are. -/
structure Allocated (fs : FileSystem) (m : ℤ) : Prop where
  inode : m ∈ usedInodes fs
  blocks : ¬fs.isDir m → ∀ b ∈ blocksOf fs.disk (fs.inode m), b ∈ usedBlocks fs

/-- What the source `s` of a copy refers to: itself, and the files that a directory names. -/
def Refers (fs : FileSystem) (s m : ℤ) : Prop :=
  m = s ∨ (fs.isDir s ∧ (∃ e ∈ (dirOf fs s).listing, e.2 = m) ∧ m ∈ usedInodes fs ∧ ¬fs.isDir m)

/-- What inode `m` of `fs` holds is still allocated in `g`, and `cat` prints the same for it. -/
structure Unharmed (fs : FileSystem) (m : ℤ) (g : FileSystem) : Prop where
  inode : m ∈ usedInodes fs → m ∈ usedInodes g
  blocks : ∀ b ∈ blocksOf fs.disk (fs.inode m), b ∈ usedBlocks fs → b ∈ usedBlocks g
  cat : ∀ (env : Env) (name : Name) (d : Dentry), d.search name d.count 0 = some m →
    (fileCat env name { g with curDir := d }).map Prod.fst =
      (fileCat env name { fs with curDir := d }).map Prod.fst

/-- The commands that are applied in the copy. -/
def Command.CreatesOrRemoves : Command → Prop
  | .create _ _ | .rm _ => True
  | _ => False

/-- The command removes the last link of an inode that is `m`, or that lists a block of it. -/
def TakesFrom (fs : FileSystem) (m : ℤ) (g : FileSystem) : Command → Prop
  | .rm name => ∃ k, g.searchCurDir name = some k ∧ 0 ≤ k ∧ (g.inode k).type = .file ∧
      (g.inode k).linkCount = 1 ∧ (k = m ∨ ∃ b ∈ blocksOf fs.disk (fs.inode m),
        b ∈ usedBlocks fs ∧ b ∈ blocksOf g.disk (g.inode k))
  | _ => False

/-- The block to which `cd` writes the current directory is none of file `m`, or the write changes
nothing. -/
def LeavesFile (fs : FileSystem) (m : ℤ) (env : Env) (g : FileSystem) : Prop :=
  ∀ nd, g.readInode env g.curDirInode = some nd → Harmless g (ownBlock nd) g.curDir ∨
    fs.isDir m ∨ ownBlock nd ∉ blocksOf fs.disk (fs.inode m)

/-! ### An inode and its blocks through the commands -/

/-- Inode `m` is as it was in `fs`, its link count aside, and what it holds is in use and has its
contents. -/
structure Kept (fs : FileSystem) (m : ℤ) (g : FileSystem) : Prop where
  used : m ∈ usedInodes g
  inode : g.inode m = { fs.inode m with linkCount := (g.inode m).linkCount }
  marked : ∀ b ∈ blocksOf fs.disk (fs.inode m), b ∈ usedBlocks fs → b ∈ usedBlocks g
  data : ¬fs.isDir m → ∀ b ∈ blocksOf fs.disk (fs.inode m),
    b ∈ usedBlocks g ∧ g.disk b = fs.disk b

namespace Kept

theorem refl (h : Allocated fs m) : Kept fs m fs :=
  ⟨h.inode, rfl, fun _ _ hu => hu, fun hfile b hb => ⟨h.blocks hfile b hb, rfl⟩⟩

theorem added (h : Kept fs m g) (ha : Added g n nd g') : Kept fs m g' := by
  have hmono (b : ℤ) (hb : b ∈ usedBlocks g) : b ∈ usedBlocks g' := by
    rw [ha.used]
    exact Finset.mem_union_left _ hb
  have hinode : g'.inode m = g.inode m := by
    rw [ha.inode, Function.update_of_ne]
    rintro rfl
    exact ha.fresh h.used
  refine ⟨?_, ?_, ?_, ?_⟩
  · rw [ha.inodes]
    exact Finset.mem_insert_of_mem h.used
  · rw [hinode]
    exact h.inode
  · exact fun b hb hu => hmono b (h.marked b hb hu)
  · intro hfile b hb
    obtain ⟨hu, hd⟩ := h.data hfile b hb
    exact ⟨hmono b hu, (ha.disk_used hu).trans hd⟩

theorem relinked (h : Kept fs m g) {k : ℤ} {l : Int32}
    (hr : g' = { g with
      inode := Function.update g.inode k { g.inode k with linkCount := l }
      curDir := g'.curDir }) : Kept fs m g' := by
  have hinode : g'.inode = Function.update g.inode k { g.inode k with linkCount := l } := by rw [hr]
  have hblocks : usedBlocks g' = usedBlocks g := by
    rw [hr]
    rfl
  have hdisk : g'.disk = g.disk := by rw [hr]
  refine ⟨?_, ?_, ?_, ?_⟩
  · rw [hr]
    exact h.used
  · have hlink := inode_relinked hinode m
    rw [h.inode] at hlink
    exact hlink
  · rw [hblocks]
    exact h.marked
  · rw [hblocks, hdisk]
    exact h.data

theorem released (h : Kept fs m g) {k : ℤ} {bs : Finset ℤ} (hr : Released g k bs g') (hne : m ≠ k)
    (hapart : ∀ b ∈ blocksOf fs.disk (fs.inode m), b ∈ usedBlocks fs → b ∉ bs)
    (halloc : Allocated fs m) : Kept fs m g' := by
  have hkeep (b : ℤ) (hb : b ∈ blocksOf fs.disk (fs.inode m)) (hu : b ∈ usedBlocks fs)
      (hg : b ∈ usedBlocks g) : b ∈ usedBlocks g' := by
    rw [hr.used]
    exact Finset.mem_sdiff.mpr ⟨hg, hapart b hb hu⟩
  have hinode : g'.inode = g.inode := by rw [hr.rest]
  have hdisk : g'.disk = g.disk := by rw [hr.rest]
  refine ⟨?_, ?_, ?_, ?_⟩
  · rw [hr.inodes]
    exact Finset.mem_erase.mpr ⟨hne, h.used⟩
  · rw [hinode]
    exact h.inode
  · exact fun b hb hu => hkeep b hb hu (h.marked b hb hu)
  · intro hfile b hb
    obtain ⟨hu, hd⟩ := h.data hfile b hb
    rw [hdisk]
    exact ⟨hkeep b hb (halloc.blocks hfile b hb) hu, hd⟩

theorem moves (h : Kept fs m g) {t : ℤ} (hm : Moves env g t g') (hleaves : LeavesFile fs m env g) :
    Kept fs m g' := by
  obtain ⟨target, current, -, hcur, rest⟩ := hm.target
  have hused : usedInodes g' = usedInodes g := by
    rw [rest]
    rfl
  have hblocks : usedBlocks g' = usedBlocks g := by
    rw [rest]
    rfl
  have hinode : g'.inode = g.inode := by rw [rest]
  have hdisk : g'.disk =
      (g.writeDiskBlock (ownBlock current) (dentryLayout.encode g.curDir)).disk := by rw [rest]
  refine ⟨?_, ?_, ?_, ?_⟩
  · rw [hused]
    exact h.used
  · rw [hinode]
    exact h.inode
  · rw [hblocks]
    exact h.marked
  · intro hfile b hb
    obtain ⟨hu, hd⟩ := h.data hfile b hb
    rw [hblocks, hdisk, ← hd]
    refine ⟨hu, ?_⟩
    -- A write that changes nothing may go to any block.
    have hout := (write_outside_iff g (ownBlock current) g.curDir fun a => a ≠ b).mpr
    apply hout
    · rcases hleaves current hcur with hharm | hdir | hmiss
      · exact Or.inr hharm
      · exact absurd hdir hfile
      · left
        rintro rfl
        exact hmiss hb
    · exact not_not.mpr rfl

end Kept

/-- A loop of `cat` sees of the disk only the blocks that its slots name. -/
theorem catBlocks_congr (fs g : FileSystem) {k₀ : ℕ} (slots : Fin k₀ → Int32) (base k i : ℕ)
    (buffer : Block) (size : ℤ) (str : ℕ → Byte)
    (h : ∀ j, j < k → g.disk (slot slots (i+j)) = fs.disk (slot slots (i+j))) :
    catBlocks g slots base k i buffer size str = catBlocks fs slots base k i buffer size str := by
  induction k generalizing i buffer size str with
  | zero => rfl
  | succ k ih =>
    by_cases hi : i < k₀
    · have hslot : slot slots (i+0) = (slots ⟨i, hi⟩).toInt := dif_pos hi
      have hfirst := h 0 (Nat.succ_pos k)
      rw [hslot] at hfirst
      have hread (buffer : Block) : g.readDiskBlock (slots ⟨i, hi⟩).toInt buffer =
          fs.readDiskBlock (slots ⟨i, hi⟩).toInt buffer := by
        rw [FileSystem.readDiskBlock, FileSystem.readDiskBlock, hfirst]
      have hrest (j : ℕ) (hj : j < k) :
          g.disk (slot slots (i+1+j)) = fs.disk (slot slots (i+1+j)) := by
        rw [Nat.add_assoc, Nat.add_comm 1 j]
        exact h (j+1) (by omega)
      simp only [catBlocks, dif_pos hi, hread]
      split
      · exact ih (i+1) _ _ _ hrest
      · exact ih (i+1) _ _ _ hrest
    · simp only [catBlocks, dif_neg hi]

/-- As long as an inode is kept, `cat` prints the same for it, whatever directory names it. -/
theorem Kept.unharmed (h : Kept fs m g) : Unharmed fs m g := by
  refine ⟨fun _ => h.used, h.marked, fun env name d hd => ?_⟩
  have hinode := h.inode
  have hdata := h.data
  have hrange := mem_usedInodes_range h.used
  obtain ⟨nd, hnd⟩ : ∃ nd, nd = fs.inode m := ⟨_, rfl⟩
  have hleft : FileSystem.readInode { g with curDir := d } env m = some (g.inode m) :=
    readInode_of_range hrange
  have hright : FileSystem.readInode { fs with curDir := d } env m = some (fs.inode m) :=
    readInode_of_range hrange
  have hsearch (fs : FileSystem) : FileSystem.searchCurDir { fs with curDir := d } name = some m := hd
  rw [fileCat, fileCat, hsearch, hsearch]
  simp only [Option.bind_some, hleft, hright]
  rw [hinode, ← hnd]
  rw [← hnd] at hdata
  rw [if_neg (not_lt.mpr hrange.1), if_neg (not_lt.mpr hrange.1)]
  by_cases hdir : nd.type = .directory
  · rw [if_pos hdir, if_pos hdir]
    rfl
  · rw [if_neg hdir, if_neg hdir]
    have hfile : ¬fs.isDir m := by
      rw [FileSystem.isDir, ← hnd]
      exact hdir
    -- `cat` reads blocks of the file only, and these hold the same bytes in both states.
    have hdirect (str : ℕ → Byte) := catBlocks_congr { fs with curDir := d } { g with curDir := d }
      nd.directBlock 0 (min 15 (blocks nd)) 0 env.buffer nd.size.toInt str fun j hj => by
        have he : dataBlock fs.disk nd j = slot nd.directBlock j := if_pos (by omega)
        rw [Nat.zero_add, ← he]
        exact (hdata hfile _ (dataBlock_mem fs.disk (by omega))).2
    simp only [show (numBlock nd.size.toInt).toNat = blocks nd from rfl, hdirect]
    by_cases hbig : nd.size.toInt > 7680
    · obtain ⟨hu, hib⟩ := hdata hfile _ (indirectBlock_mem fs.disk hbig)
      have hread (k : FileSystem) : FileSystem.readIndirect { k with curDir := d } env
          nd.indirectBlock = indirectMap k.disk nd := by
        rw [FileSystem.readIndirect, FileSystem.readDiskBlock_of_range _ (mem_usedBlocks_range hu),
          indirectMap]
      have hmap : indirectMap g.disk nd = indirectMap fs.disk nd := by
        rw [indirectMap, indirectMap, hib]
      have hindirect (size : ℤ) (str : ℕ → Byte) := catBlocks_congr { fs with curDir := d }
        { g with curDir := d } (indirectMap fs.disk nd) 15 (blocks nd - 15) 0 env.buffer size str
        fun j hj => by
          have he : dataBlock fs.disk nd (15+j) = slot (indirectMap fs.disk nd) j := by
            rw [dataBlock, if_neg (by omega), Nat.add_sub_cancel_left]
          rw [Nat.zero_add, ← he]
          exact (hdata hfile _ (dataBlock_mem fs.disk (by omega))).2
      simp only [if_pos hbig, hread, hmap, hindirect, Option.map_bind, Function.comp_def,
        Option.map_map]
    · simp only [if_neg hbig, Option.map_bind, Function.comp_def, Option.map_map]

/-! ### Commands in the copy -/

/-- In an empty directory nothing is found. -/
theorem numEntry_ne_zero {k : ℤ} (hs : g.searchCurDir name = some k) (h0 : 0 ≤ k) :
    g.curDir.numEntry ≠ 0 := by
  intro hempty
  have hcount : g.curDir.count = 0 := by
    rw [Dentry.count, hempty]
    rfl
  rw [FileSystem.searchCurDir, hcount, Dentry.search, Option.some_inj] at hs
  omega

/-- A removal that is not refused takes from `m`, or leaves all that it holds. -/
theorem Kept.remove (h : Kept fs m g) (halloc : Allocated fs m) (hsane : Sane g) {r : Reply}
    (hx : execute g (env, .rm name) = some (r, g')) :
    (¬TakesFrom fs m g (.rm name) → Kept fs m g') ∧
      (Unharmed fs m g' → ¬TakesFrom fs m g (.rm name)) := by
  -- A refused removal found no file, so there was nothing to take; a removal that is done gives
  -- inode and blocks back exactly if the link was the last one.
  rcases (fileRemove_outcome _ name hsane).cases hx with ⟨-, hrefused, rfl⟩ | ⟨hret, k, hu⟩
  · refine ⟨fun _ => h, ?_⟩
    rintro - ⟨k, hk, h0, hfile, -⟩
    obtain ⟨k', hk', hwhy⟩ := hrefused
    rw [hk, Option.some_inj] at hk'
    subst hk'
    rcases hwhy with hneg | hdir | hempty
    · omega
    · rw [hfile] at hdir
      cases hdir
    · exact numEntry_ne_zero hk h0 hempty
  · by_cases hlast : (g.inode k).linkCount = 1
    · have hr := hu.released hx hret hlast
      constructor
      · intro hnot
        apply h.released hr
        · rintro rfl
          exact hnot ⟨m, hu.found, hu.source.1, hu.type, hlast, Or.inl rfl⟩
        · intro b hb hused hmem
          exact hnot ⟨k, hu.found, hu.source.1, hu.type, hlast,
            Or.inr ⟨b, hb, hused, List.mem_toFinset.mp hmem⟩⟩
        · exact halloc
      · rintro hun ⟨k', hk', -, -, -, htakes⟩
        rw [hu.found, Option.some_inj] at hk'
        subst hk'
        rcases htakes with rfl | ⟨b, hb, hused, hmem⟩
        · have hin := hun.inode halloc.inode
          rw [hr.inodes] at hin
          exact Finset.notMem_erase k _ hin
        · have hin := hun.blocks b hb hused
          rw [hr.used] at hin
          exact (Finset.mem_sdiff.mp hin).2 (List.mem_toFinset.mpr hmem)
    · constructor
      · intro _
        rcases hu.rest with ⟨-, hr⟩ | ⟨hone, -⟩
        · exact h.relinked hr
        · exact absurd hone hlast
      · rintro - ⟨k', hk', -, -, hone, -⟩
        rw [hu.found, Option.some_inj] at hk'
        subst hk'
        exact hlast hone

/-- In the copy only a removal can do harm, and it does so exactly if it takes from `m`. -/
theorem Kept.step (h : Kept fs m g) (halloc : Allocated fs m) (hsane : Sane g) {cmd : Command}
    (hcmd : cmd.CreatesOrRemoves) {r : Reply} (hx : execute g (env, cmd) = some (r, g')) :
    (¬TakesFrom fs m g cmd → Kept fs m g') ∧ (Unharmed fs m g' → ¬TakesFrom fs m g cmd) := by
  cases cmd with
  | create name size =>
    refine ⟨fun _ => ?_, fun _ => id⟩
    rcases (fileCreate_outcome _ name size hsane.counted).cases hx with ⟨-, -, rfl⟩ | ⟨-, n, nd, hc⟩
    · exact h
    · exact h.added hc.toAdded
  | rm name => exact h.remove halloc hsane hx
  | _ => exact hcmd.elim

/-! ### Removing the copy -/

/-- A directory has one block. -/
def OneBlock (fs : FileSystem) : Prop :=
  ∀ n, fs.isDir n → (fs.inode n).size = 1 ∧ (fs.inode n).blockCount = 1

theorem OneBlock.update (h : OneBlock g) (hinode : g'.inode = Function.update g.inode n nd)
    (hnd : nd.type = .directory → nd.size = 1 ∧ nd.blockCount = 1) : OneBlock g' := by
  intro k hk
  rw [FileSystem.isDir] at hk
  rw [hinode] at hk ⊢
  by_cases hkn : k = n
  · subst hkn
    rw [Function.update_self] at hk ⊢
    exact hnd hk
  · rw [Function.update_of_ne hkn] at hk ⊢
    exact h k hk

theorem OneBlock.relinked (h : OneBlock g) {k : ℤ} {l : Int32}
    (hinode : g'.inode = Function.update g.inode k { g.inode k with linkCount := l }) :
    OneBlock g' :=
  h.update hinode (h k)

theorem OneBlock.of_inode (h : OneBlock g) (hinode : g'.inode = g.inode) : OneBlock g' := by
  intro k hk
  rw [FileSystem.isDir, hinode] at hk
  rw [hinode]
  exact h k hk

theorem OneBlock.of_step (h : OneBlock g) (hsane : Sane g) {cmd : Command} {r : Reply}
    (hx : execute g (env, cmd) = some (r, g')) : OneBlock g' := by
  -- Only `mkdir` and a copy of a directory make an inode of type directory.
  cases hsane.does hx with
  | refused cmd r ret make => exact h
  | cats name r => exact h
  | creates name size n nd r g' ret what =>
    apply h.update what.inode
    intro hdir
    rw [what.type] at hdir
    cases hdir
  | unlinks name k r g' ret what =>
    rcases what.rest with ⟨-, hr⟩ | ⟨-, bs, hr, -⟩
    · exact h.relinked (l := (g.inode k).linkCount - 1) (by rw [hr])
    · exact h.of_inode (by rw [hr.rest])
  | takesBlock name r ret why =>
    rcases getBlock_cases hsane.counted with ⟨-, hg⟩ | ⟨b, -, -, -, hg⟩
    · exact h.of_inode (by rw [hg])
    · exact h.of_inode (by rw [hg]; rfl)
  | makes name n nd fs₁ r g' ret what =>
    exact h.update what.inode fun _ => ⟨what.size, what.blockCount⟩
  | removesDir name k r g' ret what =>
    obtain ⟨bs, hr, -⟩ := what.rest
    exact h.of_inode (by rw [hr.rest])
  | remains r ret => exact h
  | moves name t r g' ret other leads what =>
    obtain ⟨target, current, -, -, rest⟩ := what.target
    exact h.of_inode (by rw [rest])
  | links src dest k r g' ret what =>
    exact h.relinked (l := (g.inode k).linkCount + 1) (by rw [what.rest])
  | copies src dest k n nd r g' ret what =>
    apply h.update what.inode
    rw [what.type, what.size_eq, what.blockCount]
    exact h k

theorem oneBlock_of_reachable {inputs : List (Env × Command)} (h : Reachable inputs fs) :
    OneBlock fs := by
  obtain ⟨replies, hrun⟩ := h
  have hstart : OneBlock format := by
    intro n hn
    rw [FileSystem.isDir, inode_format] at hn
    rw [inode_format]
    by_cases h0 : n = 0
    · subst h0
      rw [Function.update_self]
      exact ⟨rfl, rfl⟩
    · rw [Function.update_of_ne h0] at hn
      cases hn
  have hmeets : Mealy.Meets execute (fun _ _ => True) format inputs :=
    Mealy.meets_of_forall execute _ _ _ fun _ _ _ => trivial
  apply (Mealy.invariant (fun _ _ => True) (fun fs => Sane fs ∧ OneBlock fs) _
    ⟨sane_format, hstart⟩ hmeets hrun).2
  rintro s ⟨env, cmd⟩ r t ⟨hsane, hone⟩ - hx
  exact ⟨hsane.of_step hx, hone.of_step hsane hx⟩

section

variable {k : ℤ} {d' : Dentry}

theorem Copies.listing (hc : Copies src dest fs s n nd fs₁) : fs₁.curDir.Fits ∧
    fs₁.curDir.listing = fs.curDir.listing ++ [(dest.bytes, n)] := by
  exact Dentry.appended hc.entry hc.room hc.range

/-- What the name of the copy leads to is the copy, and it was not there before. -/
theorem Copies.search_dest (hc : Copies src dest fs s n nd fs₁)
    (hk : fs₁.searchCurDir dest = some k) (h0 : 0 ≤ k) :
    k = n ∧ dest.bytes ∉ fs.curDir.listing.map Prod.fst := by
  obtain ⟨hfits, hl⟩ := hc.listing
  obtain ⟨f, hf, hneg⟩ := hc.missing
  have hold := Dentry.append_fits hc.entry
  rw [FileSystem.searchCurDir, Dentry.search_listing hold, Option.some_inj] at hf
  rw [FileSystem.searchCurDir, Dentry.search_listing hfits, hl, Option.some_inj] at hk
  by_cases hmem : dest.bytes ∈ fs.curDir.listing.map Prod.fst
  · -- An entry of that name with a negative number comes first.
    rw [Dentry.find_append_of_mem hmem, hf] at hk
    omega
  · rw [Dentry.find_append_new hmem] at hk
    exact ⟨hk.symm, hmem⟩

theorem Copies.search_removed (hc : Copies src dest fs s n nd fs₁)
    (hmissing : dest.bytes ∉ fs.curDir.listing.map Prod.fst) {after : DirectoryEntry}
    (he : Dentry.remove after dest fs₁.curDir.count 0 fs₁.curDir = some d') :
    d'.search dest d'.count 0 = some (-1) := by
  obtain ⟨hfits, hl⟩ := hc.listing
  obtain ⟨hfits', hl'⟩ := Dentry.removed he hfits
  have hnone (e : List Byte × ℤ) (hmem : e ∈ fs.curDir.listing) : ¬(e.1 == dest.bytes) = true := by
    intro heq
    apply hmissing
    rw [← beq_iff_eq.mp heq]
    exact List.mem_map_of_mem hmem
  rw [Dentry.search_listing hfits', hl', hl, List.eraseP_append_right _ hnone,
    List.eraseP_cons_of_pos (by simp), List.append_nil, Dentry.find_of_not_mem hmissing]

/-- The inode of the copy and its blocks were free: giving them back takes nothing away. -/
theorem Copies.released (hc : Copies src dest fs s n nd fs₁) (halloc : Allocated fs m)
    (hr : Released fs₁ n (blocksOf fs₁.disk (fs₁.inode n)).toFinset g') : Kept fs m g' := by
  have hnew : fs₁.inode n = nd := by rw [hc.inode, Function.update_self]
  apply ((Kept.refl halloc).added hc.toAdded).released hr
  · rintro rfl
    exact hc.fresh halloc.inode
  · intro b _ hused hmem
    rw [hnew] at hmem
    exact hc.blocks_fresh b (List.mem_toFinset.mp hmem) hused
  · exact halloc

end

/-- While the copy is only removed: it is as it was made, or its name leads nowhere. -/
structure Remains (fs : FileSystem) (s : ℤ) (dest : Name) (fs₁ g : FileSystem) : Prop where
  sane : Sane g
  kept : ∀ m, Refers fs s m → Kept fs m g
  copy : g = fs₁ ∨ ∃ k, k < 0 ∧ g.searchCurDir dest = some k

theorem Remains.of_step (hc : Copies src dest fs s n nd fs₁) (hone : OneBlock fs)
    (halloc : ∀ m, Refers fs s m → Allocated fs m) (h : Remains fs s dest fs₁ g) {cmd : Command}
    (hcmd : cmd = .rm dest ∨ cmd = .rmdir dest) {r : Reply}
    (hx : execute g (env, cmd) = some (r, g')) : Remains fs s dest fs₁ g' := by
  suffices hrest : (∀ m, Refers fs s m → Kept fs m g') ∧
      (g' = fs₁ ∨ ∃ k, k < 0 ∧ g'.searchCurDir dest = some k) from
    ⟨h.sane.of_step hx, hrest.1, hrest.2⟩
  have hnew : fs₁.inode n = nd := by rw [hc.inode, Function.update_self]
  -- Only from the state of the copy can its name be found.
  have hfound {k : ℤ} (hk : g.searchCurDir dest = some k) (h0 : 0 ≤ k) :
      g = fs₁ ∧ k = n ∧ dest.bytes ∉ fs.curDir.listing.map Prod.fst := by
    rcases h.copy with rfl | ⟨k', hneg, hk'⟩
    · exact ⟨rfl, hc.search_dest hk h0⟩
    · rw [hk, Option.some_inj] at hk'
      omega
  have hgone (d' : Dentry) (hd : g'.curDir = d') (hs : d'.search dest d'.count 0 = some (-1)) :
      g' = fs₁ ∨ ∃ k, k < 0 ∧ g'.searchCurDir dest = some k := by
    subst hd
    exact Or.inr ⟨-1, by decide, hs⟩
  -- Of a file the copy has the only link; of a directory, the only block.
  rcases hcmd with rfl | rfl
  · rcases (fileRemove_outcome _ dest h.sane).cases hx with ⟨-, -, rfl⟩ | ⟨hret, k, hu⟩
    · exact ⟨h.kept, h.copy⟩
    · obtain ⟨rfl, rfl, hmissing⟩ := hfound hu.found hu.source.1
      obtain ⟨after, he⟩ := hu.entry
      refine ⟨fun m hm => ?_, hgone _ rfl (hc.search_removed hmissing he)⟩
      rcases hu.rest with ⟨-, hr⟩ | ⟨hlast, -⟩
      · exact (h.kept m hm).relinked hr
      · exact hc.released (halloc m hm) (hu.released hx hret hlast)
  · rcases (dirRemove_outcome _ dest).cases hx with ⟨-, -, rfl⟩ | ⟨-, k, hd⟩
    · exact ⟨h.kept, h.copy⟩
    · obtain ⟨rfl, rfl, hmissing⟩ := hfound hd.found hd.source.1
      obtain ⟨after, he⟩ := hd.entry
      refine ⟨fun m hm => ?_, hgone _ rfl (hc.search_removed hmissing he)⟩
      obtain ⟨bs, hr, -, hexact⟩ := hd.rest
      have hdir : fs.isDir s := by
        have htype := hd.type
        rw [hnew, hc.type] at htype
        exact htype
      obtain ⟨hsize, hcount⟩ := hone s hdir
      rw [hnew] at hexact
      have hbs := hexact (by rw [hc.size_eq, hsize]) (by rw [hc.blockCount, hcount])
      apply hc.released (halloc m hm)
      rw [hnew, ← hbs]
      exact hr

/-- No run of removals harms what the source refers to. -/
theorem Remains.of_run (hsane : Sane fs) (hone : OneBlock fs)
    (halloc : ∀ m, Refers fs s m → Allocated fs m) {r : Reply}
    (hcp : execute fs (env, .cp src dest) = some (r, fs₁)) (hret : r.ret = 0)
    (hs : fs.searchCurDir src = some s) {removals : List (Env × Command)}
    (hrem : ∀ i ∈ removals, i.2 = .rm dest ∨ i.2 = .rmdir dest) {replies : List Reply}
    (hrun : Mealy.run execute fs₁ removals = some (replies, g)) : Remains fs s dest fs₁ g := by
  obtain ⟨s', n, nd, hc⟩ := (fileCopy_outcome _ src dest hsane).of_ret_zero hcp hret
  have hsource := hc.found
  rw [hs, Option.some_inj] at hsource
  subst hsource
  have hstart : Remains fs s dest fs₁ fs₁ := by
    refine ⟨hsane.of_step hcp, fun m hm => ?_, Or.inl rfl⟩
    exact (Kept.refl (halloc m hm)).added hc.toAdded
  have hmeets : Mealy.Meets execute (fun _ i => i.2 = .rm dest ∨ i.2 = .rmdir dest) fs₁ removals :=
    Mealy.meets_of_forall execute _ _ _ fun _ => hrem
  apply Mealy.invariant _ (Remains fs s dest fs₁) _ hstart hmeets hrun
  rintro v ⟨env, cmd⟩ r w hv hcmd hx
  exact hv.of_step hc hone halloc hcmd hx

/-! ### In a tree -/

namespace Tree

variable {S : Finset ℤ} {t : NameTree (List Byte) ℤ}

theorem mem_of_file (h : Tree S t fs) (hm : m ∈ usedInodes fs) (hfile : ¬fs.isDir m) : m ∈ S := by
  by_contra hS
  exact hfile (h.blockless m hm hS).1

theorem allocated (h : Tree S t fs) (hm : m ∈ usedInodes fs) : Allocated fs m :=
  ⟨hm, fun hfile b hb => (h.held.data m (h.mem_of_file hm hfile) b hb).2⟩

theorem refers_allocated (h : Tree S t fs) (hs : fs.searchCurDir src = some s) (h0 : 0 ≤ s)
    (hm : Refers fs s m) : Allocated fs m := by
  rcases hm with rfl | ⟨-, -, hused, -⟩
  · exact h.allocated (h.found_used hs h0)
  · exact h.allocated hused

/-- The directory that is left has a block of its own. -/
theorem leavesFile (h : Tree S t g) (hk : Kept fs m g) (env : Env) : LeavesFile fs m env g := by
  intro nd hnd
  rw [readInode_of_range h.curDirInode_range, Option.some_inj] at hnd
  by_cases hdir : fs.isDir m
  · exact Or.inr (Or.inl hdir)
  · right
    right
    intro hb
    rw [← hnd] at hb
    have htype : (g.inode m).type = (fs.inode m).type := by rw [hk.inode]
    have hfile : ¬g.isDir m := by
      rw [FileSystem.isDir, htype]
      exact hdir
    -- The file has kept its inode and its map, so its blocks are those it had.
    have hS := h.mem_of_file hk.used hfile
    have hblocks : blocksOf g.disk (g.inode m) = blocksOf fs.disk (fs.inode m) := by
      rw [hk.inode]
      change blocksOf g.disk (fs.inode m) = _
      exact blocksOf_eq_of fun hbig => (hk.data hdir _ (indirectBlock_mem fs.disk hbig)).2
    rw [← hblocks] at hb
    rcases h.writeBack_cases with ⟨-, hw⟩ | ⟨-, -, hw⟩
    · -- The block of a directory is no block of a file.
      obtain ⟨hown, hisDir, hsingle, -⟩ := h.directory h.here
      have hne : g.here ≠ m := by
        rintro rfl
        exact hfile hisDir
      apply h.held.disjoint g.here hown m hS hne _ _ hb
      rw [hsingle, List.mem_singleton]
      exact hw
    · have hlow := (h.held.data m hS _ hb).1
      rw [writeBack] at hw
      omega

end Tree

/-- In a run that enters real directories only, and keeps the current one when it moves, what the
source refers to is allocated, and entering the copy overwrites none of it. -/
theorem copy_allocated {inputs : List (Env × Command)} {replies : List Reply} {D : Finset ℤ}
    (hrun : Mealy.run track start inputs = some (replies, fs, D))
    (hok : Mealy.Meets track (fun s i => Enters s.2 s.1 i.2 ∧ Keeps s.1 i.2) start inputs)
    {r : Reply} (hcp : execute fs (env, .cp src dest) = some (r, fs₁)) (hret : r.ret = 0)
    (hs : fs.searchCurDir src = some s) {removals : List (Env × Command)}
    (hrem : ∀ i ∈ removals, i.2 = .rm dest ∨ i.2 = .rmdir dest) {replies' : List Reply}
    (hrun' : Mealy.run execute fs₁ removals = some (replies', g)) (hm : Refers fs s m) (env' : Env) :
    Allocated fs m ∧ LeavesFile fs m env' g := by
  obtain ⟨S₀, t₀, hstart, hdirs, -⟩ := tree_start
  obtain ⟨S, t, h, rfl⟩ := hstart.of_run hdirs hrun hok
  have hreach : Reachable inputs fs := reachable_of_track hrun
  have h0 : 0 ≤ s := by
    obtain ⟨s', n, nd, hc⟩ := (fileCopy_outcome _ src dest h.held.sane).of_ret_zero hcp hret
    have hfound := hc.found
    rw [hs, Option.some_inj] at hfound
    rw [hfound]
    exact hc.source.1
  have halloc (k : ℤ) (hk : Refers fs s k) : Allocated fs k := h.refers_allocated hs h0 hk
  -- Neither the copy nor a removal moves.
  have hturn {S : Finset ℤ} {t : NameTree (List Byte) ℤ} {v w : FileSystem} {env : Env}
      {cmd : Command} {r : Reply} (hv : Tree S t v) (hstays : Stays v cmd) (hkeeps : Keeps v cmd)
      (hx : execute v (env, cmd) = some (r, w)) : ∃ S t, Tree S t w := by
    obtain ⟨⟨S', t', hw, -⟩, -⟩ := (hv.turn hstays hkeeps hx).becomes
    exact ⟨S', t', hw⟩
  have htree : ∃ S t, Tree S t g := by
    have hmeets : Mealy.Meets execute (fun _ i => i.2 = .rm dest ∨ i.2 = .rmdir dest) fs₁ removals :=
      Mealy.meets_of_forall execute _ _ _ fun _ => hrem
    apply Mealy.invariant _ (fun v => ∃ S t, Tree S t v) _
      (hturn h (show Stays fs (.cp src dest) from trivial) trivial hcp) hmeets hrun'
    rintro v ⟨env, cmd⟩ r w ⟨S, t, hv⟩ (rfl | rfl) hx
    · exact hturn hv (show Stays v (.rm dest) from trivial) trivial hx
    · exact hturn hv (show Stays v (.rmdir dest) from trivial) trivial hx
  obtain ⟨S', t', hg⟩ := htree
  have hremains := Remains.of_run h.held.sane (oneBlock_of_reachable hreach) halloc hcp hret hs hrem
    hrun'
  exact ⟨halloc m hm, hg.leavesFile (hremains.kept m hm) env'⟩

/-- Removing the copy harms nothing that the source refers to, and neither does entering it if the
current directory is not written over a file. In the copy all stays unharmed exactly as long as no
removal takes the last link of an inode that the source refers to. -/
theorem copy_independent_iff {inputs : List (Env × Command)} (hreach : Reachable inputs fs)
    {r : Reply} (hcp : execute fs (env, .cp src dest) = some (r, fs₁)) (hret : r.ret = 0)
    (hs : fs.searchCurDir src = some s) (halloc : ∀ m, Refers fs s m → Allocated fs m)
    {removals : List (Env × Command)} (hrem : ∀ i ∈ removals, i.2 = .rm dest ∨ i.2 = .rmdir dest)
    {replies : List Reply} (hrun : Mealy.run execute fs₁ removals = some (replies, g)) :
    (∀ m, Refers fs s m → Unharmed fs m g) ∧
      ∀ (env : Env) (r : Reply) (g' : FileSystem), execute g (env, .cd dest) = some (r, g') →
        (∀ m, Refers fs s m → LeavesFile fs m env g) →
        (∀ m, Refers fs s m → Unharmed fs m g') ∧
        ∀ (entered : List (Env × Command)) (replies : List Reply) (u : FileSystem),
          (∀ i ∈ entered, i.2.CreatesOrRemoves) →
          Mealy.run execute g' entered = some (replies, u) →
          ((∀ k qs v, Mealy.run execute g' (entered.take k) = some (qs, v) →
            ∀ m, Refers fs s m → Unharmed fs m v) ↔
          Mealy.Meets execute (fun v i => ∀ m, Refers fs s m → ¬TakesFrom fs m v i.2) g' entered) := by
  have hremains := Remains.of_run (sane_of_reachable hreach) (oneBlock_of_reachable hreach) halloc hcp
    hret hs hrem hrun
  refine ⟨fun m hm => (hremains.kept m hm).unharmed, ?_⟩
  intro env' r' g' hcd hleaves
  -- Entering writes one block and loads another; inodes and marks stay.
  have hkept (m : ℤ) (hm : Refers fs s m) : Kept fs m g' := by
    rcases (dirChange_outcome _ dest).cases hcd with
      ⟨-, -, rfl⟩ | ⟨-, ⟨-, rfl⟩ | ⟨-, t, -, hmoves⟩⟩
    · exact hremains.kept m hm
    · exact hremains.kept m hm
    · exact (hremains.kept m hm).moves hmoves (hleaves m hm)
  refine ⟨fun m hm => (hkept m hm).unharmed, ?_⟩
  intro entered replies' u hcmds hrun'
  -- From here on each step is harmless exactly if it takes nothing, which the exactness rule carries
  -- along the run.
  apply Mealy.always_iff_meets (fun v i => ∀ m, Refers fs s m → ¬TakesFrom fs m v i.2)
    (fun v => Sane v ∧ ∀ m, Refers fs s m → Kept fs m v)
    (fun v => ∀ m, Refers fs s m → Unharmed fs m v) _ _ ⟨hremains.sane.of_step hcd, hkept⟩ hrun'
  · rintro v ⟨env, cmd⟩ hi r w ⟨hv, hall⟩ hx
    have hstep (m : ℤ) (hm : Refers fs s m) :=
      (hall m hm).step (halloc m hm) hv (hcmds _ hi) hx
    constructor
    · intro hnot
      exact ⟨hv.of_step hx, fun m hm => (hstep m hm).1 (hnot m hm)⟩
    · intro hun m hm
      exact (hstep m hm).2 (hun m hm)
  · rintro v ⟨-, hall⟩ m hm
    exact (hall m hm).unharmed

/-! ### The root copied -/

def nameE : Name := ⟨[101], by decide, by decide⟩

/-- `mkdir` saves the root with the file in it. -/
def createMake : List (Env × Command) :=
  [(Env.zeroed, .create nameA 1), (Env.zeroed, .mkdir nameD)]

theorem run_createMake : ((Mealy.run track start createMake).map fun p => decide (
    (p.2.1.curDirInode = 131 ∧ p.2.1.here = 0) ∧
      (p.2.1.searchCurDir dot = some 0 ∧ p.2.1.searchCurDir nameE = some (-1) ∧
        ¬p.2.1.curDir.Full ∧ p.2.1.superBlock.freeInodeCount = 509 ∧
        p.2.1.superBlock.freeBlockCount = 3962) ∧
      (p.2.1.inodeMap.bit 1 = true ∧ (p.2.1.inode 1).type = .file ∧ (p.2.1.inode 1).linkCount = 1 ∧
        (p.2.1.inode 1).size = 1 ∧ ownBlock (p.2.1.inode 1) = 132) ∧
      (p.2.1.inode 0).type = .directory ∧ (p.2.1.inode 0).size = 1 ∧ ownBlock (p.2.1.inode 0) = 131 ∧
      p.2.1.curDir.listing = [(dot.bytes, 0), (nameA.bytes, 1), (nameD.bytes, 2)] ∧
      (dentryLayout.decode (p.2.1.disk 131)).numEntry = 3 ∧
      (dentryLayout.decode (p.2.1.disk 131)).listing =
        [(dot.bytes, 0), (nameA.bytes, 1), (nameD.bytes, 2)])) = some true := by
  rw [start, format_eq, bitmaps_format.1, bitmaps_format.2]
  decide +kernel

theorem meets_createMake : Mealy.Meets track (fun s i => Enters s.2 s.1 i.2 ∧ Keeps s.1 i.2) start
    createMake := by
  obtain ⟨S, t, hstart, hdirs, hm⟩ := tree_start
  exact hstart.meets_of_stay hdirs hm (by simp [createMake])

/-- Where the current directory is a root with no block of its own to be written to, the entries of
its copy are those of its block. -/
theorem Tree.enters_copy {S : Finset ℤ} {t : NameTree (List Byte) ℤ} (h : Tree S t fs)
    (hcur : fs.curDirInode = 131) (hhere : fs.here = 0)
    (hmissing : dest.bytes ∉ fs.curDir.listing.map Prod.fst) (hdest : dest ≠ dot ∧ dest ≠ dotDot)
    {r : Reply} (hcp : execute fs (env, .cp dot dest) = some (r, fs₁))
    (hc : Copies dot dest fs 0 n nd fs₁) (env' : Env) :
    execute fs₁ (env', .cd dest) = some (⟨0, []⟩, moved fs₁ n) ∧
      (moved fs₁ n).curDir = dentryLayout.decode (fs.disk 131) := by
  obtain ⟨-, hisDir, hsingle, -⟩ := h.directory h.good.root_mem
  obtain ⟨hsize, -⟩ := (h.size (h.used h.good.root_mem)).2 hisDir
  have hnd : fs₁.inode n = nd := by rw [hc.inode, Function.update_self]
  have hndsize : nd.size = 1 := hc.size_eq.trans hsize
  have hmem : ownBlock nd ∈ blocksOf fs₁.disk nd := by
    rw [blocksOf_of_size_one fs₁.disk hndsize]
    exact List.mem_singleton_self _
  have hcopied : fs₁.disk (ownBlock nd) = fs.disk 131 := by
    have hsource : ∀ b ∈ blocksOf fs.disk (fs.inode 0), b ∈ usedBlocks fs := by
      intro b hb
      rw [hsingle, List.mem_singleton, h.root] at hb
      rw [hb]
      exact h.root_used
    have hdata := hc.data hsource 0 (by rw [blocks_of_size_one hndsize]; decide)
    rw [← h.root]
    exact hdata
  have hsearch : fs₁.searchCurDir dest = some n := by
    obtain ⟨hfits, hl⟩ := hc.listing
    rw [FileSystem.searchCurDir, Dentry.search_listing hfits, hl, Option.some_inj]
    exact Dentry.find_append_new hmissing n
  obtain ⟨⟨S', t', h', -⟩, hhere', hcur'⟩ :=
    (h.turn (show Stays fs (.cp dot dest) from trivial) trivial hcp).becomes
  rw [hhere] at hhere'
  rw [hcur] at hcur'
  -- `cd` writes the root to block 0, where `inode[131]` says, and the copy is elsewhere.
  have hback : writeBack fs₁ = 0 := by
    rcases h'.writeBack_cases with ⟨hsame, -⟩ | ⟨-, -, hw⟩
    · rw [hcur', hhere'] at hsame
      exact absurd hsame (by decide)
    · exact hw
  have hne : ownBlock nd ≠ 0 := by
    intro h0
    have hfresh := hc.blocks_fresh _ hmem
    rw [h0] at hfresh
    exact hfresh (h.held.metadata 0 le_rfl (by decide))
  constructor
  · apply dirChange_moved hdest.1 (Or.inr ⟨hdest.2, hsearch, hc.range.1⟩) hc.range
      h'.curDirInode_range
    rw [hnd]
    exact hc.blocks_range _ hmem
  · rw [← hcopied]
    change dentryLayout.decode ((fs₁.writeDiskBlock (writeBack fs₁) _).disk
      (ownBlock (fs₁.inode n))) = _
    rw [hnd, hback, fs₁.writeDiskBlock_disk_of_ne hne]

/-- The removal of a last link is not refused, and gives the inode back. -/
theorem rm_last_succeeds (h : Sane g) (hfits : g.curDir.Fits) (hs : g.searchCurDir name = some n)
    (hn : 0 ≤ n ∧ n < 512) (htype : (g.inode n).type = .file) (hlast : (g.inode n).linkCount = 1)
    (hin : ¬OutOfDisk (g.inode n) g) (env : Env) :
    ∃ r u, execute g (env, .rm name) = some (r, u) ∧ n ∉ usedInodes u := by
  have hout : ¬(¬g.curDir.Fits ∨ OutOfTable name g ∨
      ∃ s, g.searchCurDir name = some s ∧ 0 ≤ s ∧ OutOfDisk (g.inode s) g) := by
    rintro (hno | ⟨s, hs', -, hno⟩ | ⟨s, hs', -, hno⟩)
    · exact hno hfits
    · obtain rfl : n = s := Option.some_inj.mp (hs.symm.trans hs')
      exact hno hn
    · obtain rfl : n = s := Option.some_inj.mp (hs.symm.trans hs')
      exact hin hno
  rcases (fileRemove_outcome env name h).total hout with
    ⟨r, -, -, s, hs', hwhy⟩ | ⟨r, u, hx, hret, s, hu⟩
  · obtain rfl : n = s := Option.some_inj.mp (hs.symm.trans hs')
    rcases hwhy with hneg | hdir | hempty
    · omega
    · rw [htype] at hdir
      cases hdir
    · exact absurd hempty (numEntry_ne_zero hs hn.1)
  · obtain rfl : n = s := Option.some_inj.mp (hs.symm.trans hu.found)
    refine ⟨r, u, hx, ?_⟩
    rw [(hu.released hx hret hlast).inodes]
    exact Finset.notMem_erase n _

def removeA : List (Env × Command) := [(Env.zeroed, .rm nameA)]

theorem createsOrRemoves_removeA : ∀ i ∈ removeA, i.2.CreatesOrRemoves := by
  intro i hi
  rw [List.mem_singleton.mp hi]
  trivial

/-- The root is copied, and the file removed in the copy. -/
theorem run_copyRoot : ∃ replies fs D r fs₁ g r' u,
    Mealy.run track start createMake = some (replies, fs, D) ∧
      execute fs (Env.zeroed, .cp dot nameE) = some (r, fs₁) ∧ r.ret = 0 ∧
      fs.searchCurDir dot = some 0 ∧ Refers fs 0 1 ∧
      execute fs₁ (Env.zeroed, .cd nameE) = some (⟨0, []⟩, g) ∧
      Mealy.run execute g removeA = some ([r'], u) ∧
      TakesFrom fs 1 g (.rm nameA) ∧ 1 ∈ usedInodes fs ∧ 1 ∉ usedInodes u := by
  obtain ⟨⟨replies, fs, D⟩, hrun, hfacts⟩ := Option.map_eq_some_iff.mp run_createMake
  obtain ⟨⟨hcur, hhere⟩, ⟨hdot, hnew, hroom, hinodes, hblocks⟩, ⟨hbit, htype, hlink, hsize₁, hown₁⟩,
    hroot, hsize, hown, hlist, hnum, hsaved⟩ := of_decide_eq_true hfacts
  dsimp only at hcur hhere hdot hnew hroom hinodes hblocks hbit htype hlink hsize₁ hown₁
  dsimp only at hroot hsize hown hlist hnum hsaved
  -- The run up to the copy is evaluated once; the rest follows from the outcomes.
  obtain ⟨S₀, t₀, hstart, hdirs, hm⟩ := tree_start
  obtain ⟨S, t, h, rfl⟩ := hstart.of_run hdirs hrun meets_createMake
  have hused : (1 : ℤ) ∈ usedInodes fs := Bitmap.mem_marked.mpr ⟨by decide, hbit⟩
  have hpass : CopyPasses dot nameE fs := by
    refine ⟨⟨0, hdot, by decide, ?_⟩, ⟨-1, hnew, by decide⟩, hroom, ?_⟩
    · rw [hsize, hblocks]
      decide
    · rw [hinodes]
      decide
  have hout : ¬(¬fs.curDir.Fits ∨ OutOfTable dot fs) := by
    rintro (hfits | ⟨s, hs, -, hrange⟩)
    · exact hfits h.curDir.fits
    · rw [hdot, Option.some_inj] at hs
      rw [← hs] at hrange
      exact hrange (by decide)
  obtain ⟨r, fs₁, hcp, hret, s, n, nd, hc⟩ : ∃ r fs₁, execute fs (Env.zeroed, .cp dot nameE) =
      some (r, fs₁) ∧ r.ret = 0 ∧ ∃ s n nd, Copies dot nameE fs s n nd fs₁ := by
    rcases (fileCopy_passed Env.zeroed h.held.sane hpass).total hout with ⟨r, -, -, hno⟩ | hdone
    · exact hno.elim
    · exact hdone
  obtain rfl : 0 = s := Option.some_inj.mp (hdot.symm.trans hc.found)
  obtain ⟨hcd, hdir⟩ := h.enters_copy hcur hhere (by rw [hlist]; decide) (by decide) hcp hc Env.zeroed
  have hsane : Sane (moved fs₁ n) := (h.held.sane.of_step hcp).of_step hcd
  have hinode : (moved fs₁ n).inode 1 = fs.inode 1 := by
    change fs₁.inode 1 = _
    rw [hc.inode, Function.update_of_ne]
    rintro rfl
    exact hc.fresh hused
  have hfits : (moved fs₁ n).curDir.Fits := by
    rw [hdir, Dentry.Fits, hnum]
    decide
  -- The copy holds the entries that `mkdir` saved, so `a` is found in it.
  have hfound : (moved fs₁ n).searchCurDir nameA = some 1 := by
    rw [FileSystem.searchCurDir, Dentry.search_listing hfits, hdir, hsaved]
    decide
  have hin : ¬OutOfDisk ((moved fs₁ n).inode 1) (moved fs₁ n) := by
    rw [hinode]
    rintro ⟨b, hb, hno⟩
    rw [blocksOf_of_size_one _ hsize₁, List.mem_singleton] at hb
    have hb : b = 132 := hb.trans hown₁
    omega
  have htype' : ((moved fs₁ n).inode 1).type = .file := by rw [hinode, htype]
  have hlink' : ((moved fs₁ n).inode 1).linkCount = 1 := by rw [hinode, hlink]
  obtain ⟨r', u, hx, hfreed⟩ := rm_last_succeeds hsane hfits hfound (by decide) htype' hlink' hin
    Env.zeroed
  have hrefers : Refers fs 0 1 := by
    refine Or.inr ⟨hroot, ⟨(nameA.bytes, 1), ?_, rfl⟩, hused, ?_⟩
    · rw [← hhere, dirOf_here, hlist]
      decide
    · rw [FileSystem.isDir, htype]
      decide
  have hrm : Mealy.run execute (moved fs₁ n) removeA = some ([r'], u) :=
    (Mealy.run_cons_iff execute _ _ _ _ _).mpr ⟨r', u, [], hx, rfl, rfl⟩
  exact ⟨replies, fs, t.dirs, r, fs₁, moved fs₁ n, r', u, hrun, hcp, hret, hdot, hrefers, hcd, hrm,
    ⟨1, hfound, by decide, htype', hlink', Or.inl rfl⟩, hused, hfreed⟩

theorem copy_independent_iff_root : ∃ fs g, Refers fs 0 1 ∧ ¬∀ k qs v,
    Mealy.run execute g (removeA.take k) = some (qs, v) →
      ∀ m, Refers fs 0 m → Unharmed fs m v := by
  obtain ⟨replies, fs, D, r, fs₁, g, r', u, hrun, hcp, hret, hdot, hrefers, hcd, hrm, htakes, -⟩ :=
    run_copyRoot
  have hnone : ∀ i ∈ ([] : List (Env × Command)), i.2 = .rm nameE ∨ i.2 = .rmdir nameE := by simp
  have hboth (m : ℤ) (hm : Refers fs 0 m) := copy_allocated hrun meets_createMake hcp hret hdot hnone
    (Mealy.run_nil execute fs₁) hm Env.zeroed
  have hrest := (copy_independent_iff (reachable_of_track hrun) hcp hret hdot
    (fun m hm => (hboth m hm).1) hnone (Mealy.run_nil execute fs₁)).2 Env.zeroed _ g hcd
    fun m hm => (hboth m hm).2
  refine ⟨fs, g, hrefers, (hrest.2 _ _ _ createsOrRemoves_removeA hrm).not.mpr fun hmeets => ?_⟩
  exact hmeets.1 1 hrefers htakes

/-- Removing a file in the copy of its directory frees the inode that the directory names. -/
theorem copy_not_independent : ¬∀ (inputs : List (Env × Command)) (fs : FileSystem),
    Reachable inputs fs → ∀ (env : Env) (src dest : Name) (r : Reply) (fs₁ : FileSystem) (s : ℤ),
      execute fs (env, .cp src dest) = some (r, fs₁) → r.ret = 0 → fs.searchCurDir src = some s →
      ∀ (env : Env) (r : Reply) (g : FileSystem), execute fs₁ (env, .cd dest) = some (r, g) →
        r.ret = 0 →
        ∀ (entered : List (Env × Command)) (replies : List Reply) (u : FileSystem),
          (∀ i ∈ entered, i.2.CreatesOrRemoves) →
          Mealy.run execute g entered = some (replies, u) →
          ∀ m, Refers fs s m → Unharmed fs m u := by
  intro hall
  obtain ⟨replies, fs, D, r, fs₁, g, r', u, hrun, hcp, hret, hdot, hrefers, hcd, hrm, -, hused,
    hfreed⟩ := run_copyRoot
  have hun := hall _ fs (reachable_of_track hrun) _ _ _ _ _ _ hcp hret hdot _ _ _ hcd rfl _ _ _
    createsOrRemoves_removeA hrm 1 hrefers
  exact hfreed (hun.inode hused)

end OperatingSystems.FS
