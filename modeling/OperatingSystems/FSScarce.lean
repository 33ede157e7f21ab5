import OperatingSystems.FSEnter

/-! What commands do when blocks, inodes or entries run out: a refused `mkdir` takes blocks until
none is left, `ln` asks for more than it uses, and `mkdir` goes on without a block. -/
namespace OperatingSystems.FS

variable {fs fs' : FileSystem} {env : Env} {name src dest : Name} {b n p s : ℤ}

/-! ### The lowest free number -/

/-- The number that `get_block` or `get_inode` hands out. -/
structure FirstFree (used : Finset ℤ) (max : ℕ) (n : ℤ) : Prop where
  range : 0 ≤ n ∧ n < max
  free : n ∉ used
  lowest : ∀ m, 0 ≤ m → m < n → m ∈ used

theorem FirstFree.unique {used : Finset ℤ} {max : ℕ} {m n : ℤ} (hm : FirstFree used max m)
    (hn : FirstFree used max n) : m = n := by
  rcases lt_trichotomy m n with h | h | h
  · exact absurd (hn.lowest m hm.range.1 h) hm.free
  · exact h
  · exact absurd (hm.lowest n hn.range.1 h) hn.free

theorem getBlock_firstFree (h0 : 0 ≤ fs.getBlock.1) :
    FirstFree (usedBlocks fs) MAX_BLOCK fs.getBlock.1 := by
  rcases findClear_spec fs.blockMap MAX_BLOCK 0 le_rfl with ⟨he, -⟩ | ⟨⟨hl, hu⟩, hbit, hlow⟩
  · have hneg : fs.getBlock.1 = -1 := by simp only [FileSystem.getBlock, he, ↓reduceIte]
    omega
  · have hne : findClear fs.blockMap MAX_BLOCK 0 ≠ -1 := by omega
    have hget : fs.getBlock.1 = findClear fs.blockMap MAX_BLOCK 0 := by
      simp only [FileSystem.getBlock, if_neg hne]
    rw [hget]
    refine ⟨⟨hl, by omega⟩, ?_, ?_⟩
    · intro hm
      rw [(Bitmap.mem_marked.mp hm).2] at hbit
      exact Bool.noConfusion hbit
    · intro m h0 hm
      exact Bitmap.mem_marked.mpr ⟨⟨h0, by omega⟩, hlow m h0 hm⟩

/-- Exact counters: a count of 0 leaves nothing free. -/
theorem Counted.no_block (hc : Counted fs) (h0 : fs.superBlock.freeBlockCount.toInt = 0) :
    ¬FirstFree (usedBlocks fs) MAX_BLOCK b := by
  intro hb
  exact hb.free (hc.mem_of_full h0 hb.range)

/-! ### A full disk -/

/-- `mkdir` of a name that exists does nothing but take a block. -/
theorem mkdir_exists (env : Env) (hs : fs.searchCurDir name = some s) (h0 : 0 ≤ s) :
    ∃ r, execute fs (env, .mkdir name) = some (r, fs.getBlock.2) := by
  refine ⟨.error "mkdir Error: %s already exists.\n" [.s name.bytes], ?_⟩
  simp only [execute, dirMake, hs, Option.bind_some]
  exact if_pos h0

/-- Only the block map and its counter differ. -/
def Drained (fs fs' : FileSystem) : Prop :=
  fs' = { fs with
    superBlock := { fs.superBlock with freeBlockCount := fs'.superBlock.freeBlockCount }
    blockMap := fs'.blockMap }

namespace Drained

theorem curDir (h : Drained fs fs') : fs'.curDir = fs.curDir := by rw [h]

theorem inode (h : Drained fs fs') : fs'.inode = fs.inode := by rw [h]

theorem freeInodeCount (h : Drained fs fs') :
    fs'.superBlock.freeInodeCount = fs.superBlock.freeInodeCount := by rw [h]

end Drained

/-- Enough of them leave no block free. -/
theorem Counted.drained (hc : Counted fs) (env : Env) (hs : fs.searchCurDir name = some s)
    (h0 : 0 ≤ s) : ∃ k replies fs', Mealy.run execute fs (List.replicate k (env, .mkdir name)) =
        some (replies, fs') ∧
      fs'.superBlock.freeBlockCount.toInt = 0 ∧ Drained fs fs' := by
  -- Induction on the number of free blocks.
  induction hk : fs.superBlock.freeBlockCount.toInt.toNat generalizing fs with
  | zero =>
    have hr := hc.blocks_range.1
    exact ⟨0, [], fs, rfl, by omega, rfl⟩
  | succ k ih =>
    rcases getBlock_cases hc with ⟨hzero, -⟩ | ⟨b, hb, hfresh, hpos, hg⟩
    · omega
    · obtain ⟨r, hx⟩ := mkdir_exists env hs h0
      rw [hg] at hx
      have hr := hc.blocks_range
      have hcount : (fs.takeBlock b).superBlock.freeBlockCount.toInt =
          fs.superBlock.freeBlockCount.toInt - 1 := toInt_sub_one (by omega) (by omega)
      obtain ⟨m, replies, fs', hrun, hfull, hd⟩ := ih (hc.takeBlock hb hfresh) hs (by omega)
      refine ⟨m + 1, r :: replies, fs', ?_, hfull, hd⟩
      rw [List.replicate_succ, Mealy.run_cons_iff]
      exact ⟨r, _, replies, hx, hrun, rfl⟩

/-! ### Hard links -/

/-- `src` names a regular file, `dest` nothing, and there is room for an entry. -/
structure Linkable (src dest : Name) (fs : FileSystem) (s : ℤ) : Prop where
  found : fs.searchCurDir src = some s
  range : 0 ≤ s ∧ s < 512
  file : (fs.inode s).type = .file
  missing : fs.searchCurDir dest = some (-1)
  room : fs.curDir.numEntry.toInt < MAX_DIR_ENTRY

/-- The last two checks of `hard_link`: there would be blocks and an inode for a copy. -/
def CopyAffordable (fs : FileSystem) (s : ℤ) : Prop :=
  (fs.inode s).blockCount.toInt ≤ fs.superBlock.freeBlockCount.toInt ∧
    1 ≤ fs.superBlock.freeInodeCount.toInt

/-- One more entry, for inode `s`, and one more link of it; nothing else changes. -/
structure LinkAdded (dest : Name) (fs : FileSystem) (s : ℤ) (fs' : FileSystem) : Prop where
  listing : fs'.curDir.listing = fs.curDir.listing ++ [(dest.bytes, s)]
  entry : fs.curDir.append dest s = some fs'.curDir
  rest : fs' = { fs with
    inode := Function.update fs.inode s
      { fs.inode s with linkCount := (fs.inode s).linkCount + 1 }
    curDir := fs'.curDir }

/-- A directory in which a search has found something has entries. -/
theorem numEntry_pos_of_found (hs : fs.searchCurDir name = some s) (h0 : 0 ≤ s) :
    0 < fs.curDir.numEntry.toInt := by
  by_contra hneg
  have hcount : fs.curDir.count = 0 := by
    unfold Dentry.count
    omega
  rw [FileSystem.searchCurDir, hcount, Dentry.search, Option.some_inj] at hs
  omega

theorem Linkable.fits (h : Linkable src dest fs s) : fs.curDir.Fits ∧ ¬fs.curDir.Full := by
  have hpos := numEntry_pos_of_found h.found h.range.1
  have hroom := h.room
  unfold Dentry.Full Dentry.Fits
  simp only [MAX_DIR_ENTRY] at hroom ⊢
  omega

/-- In any state a link succeeds exactly under these conditions. -/
theorem hardLink_succeeds_iff (env : Env) (src dest : Name) (fs : FileSystem) :
    (∃ r fs', hardLink env src dest fs = some (r, fs') ∧ r.ret = 0) ↔
      ∃ s, Linkable src dest fs s ∧ CopyAffordable fs s := by
  constructor
  · rintro ⟨r, fs', hx, hret⟩
    obtain ⟨s, hl⟩ := (hardLink_outcome env src dest).of_ret_zero hx hret
    obtain ⟨f, hd, hf⟩ := hl.missing
    have hs := hl.source.1
    have hroom := hl.room
    -- follow the run through its checks
    unfold hardLink at hx
    simp only [hl.found, hd, readInode_of_range hl.source, Option.bind_some] at hx
    obtain ⟨nd, hnd, hx⟩ := Option.bind_eq_some_iff.mp hx
    have hminus : f = -1 := by
      rcases readInode_cases env dest hd with ⟨hnone, -⟩ | ⟨-, h⟩ | ⟨-, h, -⟩
      · rw [hnone] at hnd
        cases hnd
      · exact h
      · omega
    rw [if_neg (by omega), if_neg (by omega), if_neg (by rw [hl.type]; decide),
      if_neg hroom] at hx
    split at hx
    · cases hx
      exact absurd hret (by decide)
    split at hx
    · cases hx
      exact absurd hret (by decide)
    rename_i hblocks hinodes
    unfold Dentry.Full at hroom
    exact ⟨s, ⟨hl.found, hl.source, hl.type, hminus ▸ hd, by omega⟩, by omega, by omega⟩
  · rintro ⟨s, hl, hblocks, hinodes⟩
    obtain ⟨hfits, hroom⟩ := hl.fits
    have hs := hl.range.1
    obtain ⟨dir, hdir, -⟩ := Dentry.append_listing hfits hroom dest (n := s)
      ⟨by omega, by have := hl.range.2; omega⟩
    have hminus : fs.readInode env (-1) = some env.beforeInode := if_pos rfl
    unfold hardLink
    simp only [hl.found, hl.missing, readInode_of_range hl.range, hminus, Option.bind_some]
    rw [if_neg (by omega), if_neg (by decide), if_neg (by rw [hl.file]; decide), if_neg hroom,
      if_neg (by omega), if_neg (by omega)]
    change ∃ (r : Reply) (fs' : FileSystem),
      Option.map _ (fs.curDir.append dest s) = some (r, fs') ∧ r.ret = 0
    rw [hdir]
    exact ⟨_, _, rfl, rfl⟩

/-- A hard link succeeds exactly if its source is a regular file, its name is free, the directory
has room, and blocks and an inode are free as for a copy; and then an entry and a link are all
that it adds. -/
theorem hard_link_needs_copy (env : Env) (src dest : Name) (fs : FileSystem) :
    ((∃ r fs', hardLink env src dest fs = some (r, fs') ∧ r.ret = 0) ↔
      ∃ s, Linkable src dest fs s ∧ CopyAffordable fs s) ∧
    ∀ r fs', hardLink env src dest fs = some (r, fs') → r.ret = 0 →
      ∃ s, fs.searchCurDir src = some s ∧ LinkAdded dest fs s fs' := by
  refine ⟨hardLink_succeeds_iff env src dest fs, fun r fs' hx hret => ?_⟩
  obtain ⟨s, hl⟩ := (hardLink_outcome env src dest).of_ret_zero hx hret
  exact ⟨s, hl.found, (Dentry.appended hl.entry hl.room hl.source).2, hl.entry, hl.rest⟩

theorem run_createOne_link : ((Mealy.run execute format createOne).map fun p => decide (
    p.2.searchCurDir nameA = some 1 ∧ p.2.searchCurDir nameD = some (-1) ∧
      p.2.searchCurDir dot = some 0 ∧ (p.2.inode 1).type = .file ∧ (p.2.inode 1).blockCount = 1 ∧
      p.2.curDir.numEntry = 2)) = some true := by
  rw [format_eq, bitmaps_format.1, bitmaps_format.2]
  decide +kernel

/-- On a full disk the second name of a file of one block is refused. -/
theorem hard_link_refused_full : ¬∀ (inputs : List (Env × Command)) (fs : FileSystem),
    Reachable inputs fs → ∀ (env : Env) (src dest : Name),
      (∃ r fs', hardLink env src dest fs = some (r, fs') ∧ r.ret = 0) ↔
        ∃ s, Linkable src dest fs s := by
  intro hall
  obtain ⟨⟨replies, fs⟩, hrun, hfacts⟩ := Option.map_eq_some_iff.mp run_createOne_link
  obtain ⟨hsrc, hdest, hdot, htype, hcount, hnum⟩ := of_decide_eq_true hfacts
  obtain ⟨k, replies', fs', hdrain, hfull, hd⟩ :=
    (sane_of_reachable ⟨replies, hrun⟩).counted.drained Env.zeroed hdot (by decide)
  have hcur := hd.curDir
  have hinode := hd.inode
  have hsearch (name : Name) : fs'.searchCurDir name = fs.searchCurDir name := by
    rw [FileSystem.searchCurDir, hcur]
    rfl
  have hreach : Reachable (createOne ++ List.replicate k (Env.zeroed, .mkdir dot)) fs' :=
    ⟨_, (Mealy.run_append_iff execute _ _ _ _ _).mpr ⟨replies, fs, replies', hrun, hdrain, rfl⟩⟩
  -- the file of one block could be linked but for the check of the blocks
  have hlinkable : Linkable nameA nameD fs' 1 := by
    refine ⟨(hsearch nameA).trans hsrc, by decide, by rw [hinode]; exact htype,
      (hsearch nameD).trans hdest, ?_⟩
    rw [hcur, hnum]
    decide
  have hsucc := (hall _ fs' hreach Env.zeroed nameA nameD).mpr ⟨1, hlinkable⟩
  obtain ⟨s, hl, hblocks, -⟩ := (hardLink_succeeds_iff _ _ _ _).mp hsucc
  obtain rfl : s = 1 := Option.some_inj.mp (hl.found.symm.trans hlinkable.found)
  rw [hinode, hcount, hfull] at hblocks
  exact absurd hblocks (by decide)

/-! ### New directories -/

/-- The inode of the current directory: the one entered last, at first the root's. -/
def entered (p : ℤ) (fs' : FileSystem) (r : Reply) : Command → ℤ
  | .cd name => if r.ret = 0 ∧ name ≠ dot then fs'.curDirInode else p
  | _ => p

/-- The file system with the inode of the current directory. -/
def trackCurrent : FileSystem × ℤ → Env × Command → Option (Reply × FileSystem × ℤ) :=
  Mealy.noted execute fun p _ i r fs' => entered p fs' r i.2

/-- The directory `name` with inode `n` that a `mkdir` in directory `p` leaves. -/
structure UsableDir (name : Name) (fs fs' : FileSystem) (p n : ℤ) : Prop where
  entry : fs'.curDir.listing = fs.curDir.listing ++ [(name.bytes, n)]
  inode : n ∉ usedInodes fs ∧ n ∈ usedInodes fs'
  type : (fs'.inode n).type = .directory
  range : 131 ≤ ownBlock (fs'.inode n) ∧ ownBlock (fs'.inode n) < MAX_BLOCK
  block : ownBlock (fs'.inode n) ∉ usedBlocks fs ∧ ownBlock (fs'.inode n) ∈ usedBlocks fs'
  content : (dentryLayout.decode (fs'.disk (ownBlock (fs'.inode n)))).listing =
    [(dot.bytes, n), (dotDot.bytes, p)]

/-- What is expected of `mkdir` in directory `p`: success leaves a usable directory, and without
a block or an inode it fails. -/
def MakesUsable (env : Env) (name : Name) (fs : FileSystem) (p : ℤ) : Prop :=
  (∀ r fs', dirMake env name fs = some (r, fs') → r.ret = 0 → ∃ n, UsableDir name fs fs' p n) ∧
    ((∀ b, ¬FirstFree (usedBlocks fs) MAX_BLOCK b) ∨ (∀ n, ¬FirstFree (usedInodes fs) MAX_INODE n) →
      ∃ r fs', dirMake env name fs = some (r, fs') ∧ r.ret = -1)

/-- The inode that `..` of a new directory `n` gets: the first entry's, which in a directory without
entries is the new one. -/
def parentEntry (fs : FileSystem) (n : ℤ) : ℤ := if fs.curDir.numEntry.toInt = 0 then n else fs.here

/-- The block `b` does for a new directory `n` in directory `p`: it is no block of the metadata, and
the current directory, which is written last, does not go there or looks the same. -/
def Suits (name : Name) (fs : FileSystem) (p b n : ℤ) : Prop :=
  131 ≤ b ∧ ((b ≠ fs.curDirInode ∧ parentEntry fs n = p) ∨
    (b = fs.curDirInode ∧ fs.curDir.listing = [(dot.bytes, n)] ∧ name = dotDot ∧ n = p))

theorem append_here (hn : 0 ≤ n ∧ n < 512) {d : Dentry} (h : fs.curDir.append name n = some d) :
    (d.dentry 0).inode.toInt = parentEntry fs n := by
  rw [Dentry.append] at h
  split at h
  · rename_i hslot
    cases h
    unfold parentEntry
    by_cases h0 : fs.curDir.numEntry.toInt = 0
    · have hzero : (⟨fs.curDir.numEntry.toInt.toNat, hslot.2⟩ : Fin 21) = 0 := by
        apply Fin.ext
        change fs.curDir.numEntry.toInt.toNat = 0
        omega
      simp only [hzero, Function.update_self]
      rw [if_pos h0, toInt_ofInt (by omega) (by omega)]
    · have hne : (0 : Fin 21) ≠ ⟨fs.curDir.numEntry.toInt.toNat, hslot.2⟩ := by
        intro he
        have hval := congrArg Fin.val he
        change 0 = fs.curDir.numEntry.toInt.toNat at hval
        omega
      simp only [Function.update_of_ne hne]
      rw [if_neg h0]
      rfl
  · cases h

/-- The refusals of `dir_make`, once the search for the name has ended. -/
theorem dirMake_refused (env : Env) (hc : Counted fs) (hs : fs.searchCurDir name ≠ none)
    (hr : MakeRefused name fs) :
    ∃ r, dirMake env name fs = some (r, fs.getBlock.2) ∧ r.ret = -1 := by
  obtain ⟨hcur, hcount⟩ := getBlock_rest hc
  obtain ⟨f, hf⟩ := Option.ne_none_iff_exists'.mp hs
  unfold dirMake
  simp only [hf, Option.bind_some, hcur, hcount]
  by_cases hexists : f ≥ 0
  · rw [if_pos hexists]
    exact ⟨_, rfl, rfl⟩
  rw [if_neg hexists]
  by_cases hroom : fs.curDir.Full
  · rw [if_pos hroom]
    exact ⟨_, rfl, rfl⟩
  rw [if_neg hroom]
  by_cases hi : fs.superBlock.freeInodeCount.toInt < 1
  · rw [if_pos hi]
    exact ⟨_, rfl, rfl⟩
  rcases hr with ⟨f', hf', h0⟩ | hfull | hfew
  · rw [hf, Option.some_inj] at hf'
    omega
  · exact absurd hfull hroom
  · exact absurd hfew hi

theorem concat_eq_pair_iff {α : Type*} {l : List α} {a b c : α} :
    l ++ [a] = [b, c] ↔ l = [b] ∧ a = c := by
  constructor
  · intro h
    obtain ⟨hl, hlast⟩ := List.append_inj' (show l ++ [a] = [b] ++ [c] from h) rfl
    exact ⟨hl, (List.cons.inj hlast).1⟩
  · rintro ⟨rfl, rfl⟩
    rfl

/-- What the block of the new directory holds in the end. -/
theorem Makes.content_iff {nd : Inode} {fs₁ : FileSystem} (hm : Makes env name fs n nd fs₁ fs')
    (ha : Added fs n nd fs₁) (hcontent : fs₁.disk (ownBlock nd) =
      dentryLayout.encode (newDentry env (Int32.ofInt n) (fs₁.curDir.dentry 0).inode)) :
    (dentryLayout.decode (fs'.disk (ownBlock nd))).listing = [(dot.bytes, n), (dotDot.bytes, p)] ↔
      (ownBlock nd ≠ fs.curDirInode ∧ parentEntry fs n = p) ∨
        (ownBlock nd = fs.curDirInode ∧ fs.curDir.listing = [(dot.bytes, n)] ∧ name = dotDot ∧
          n = p) := by
  have hn := hm.first_free.1
  have hb : 0 ≤ ownBlock nd ∧ ownBlock nd < 4096 := by
    apply ha.blocks_range
    rw [blocksOf_of_size_one fs₁.disk hm.size]
    exact List.mem_singleton_self _
  by_cases hcur : ownBlock nd = fs.curDirInode
  · -- the current directory is written over the new one
    have hdisk : fs'.disk (ownBlock nd) = dentryLayout.encode fs₁.curDir := by
      rw [hm.rest, ← hcur, fs₁.writeDiskBlock_of_range hb]
      exact Function.update_self _ _ _
    have hlist := (Dentry.appended hm.entry hm.room hn).2
    rw [hdisk, dentryLayout.decode_encode, hlist, concat_eq_pair_iff, Prod.mk.injEq]
    constructor
    · rintro ⟨hl, hname, hp⟩
      exact Or.inr ⟨hcur, hl, Name.ext_bytes hname, hp⟩
    · rintro (⟨hne, -⟩ | ⟨-, hl, rfl, hp⟩)
      · exact absurd hcur hne
      · exact ⟨hl, rfl, hp⟩
  · have hdisk : fs'.disk (ownBlock nd) = fs₁.disk (ownBlock nd) := by
      rw [hm.rest]
      unfold FileSystem.writeDiskBlock
      split_ifs
      · rfl
      · exact Function.update_of_ne hcur _ _
    rw [hdisk, hcontent, dentryLayout.decode_encode, (Tree.newDentry_lists env hn _).listing,
      append_here hn hm.entry]
    constructor
    · intro h
      have hp : parentEntry fs n = p := by simpa using h
      exact Or.inl ⟨hcur, hp⟩
    · rintro (⟨-, rfl⟩ | ⟨he, -⟩)
      · rfl
      · exact absurd he hcur

/-- A `mkdir` that succeeds leaves a usable directory exactly if its block does for one. -/
theorem Makes.usable_iff (hc : Counted fs) {nd : Inode} {fs₁ : FileSystem}
    (hm : Makes env name fs n nd fs₁ fs') :
    (∃ m, UsableDir name fs fs' p m) ↔
      ∃ b, FirstFree (usedBlocks fs) MAX_BLOCK b ∧ Suits name fs p b n := by
  have hn := hm.first_free.1
  have hlist : fs'.curDir.listing = fs.curDir.listing ++ [(name.bytes, n)] := by
    rw [hm.curDir]
    exact (Dentry.appended hm.entry hm.room hn).2
  have hinode : fs'.inode n = nd := by
    rw [hm.inode]
    exact Function.update_self _ _ _
  have hsame {m : ℤ} (hu : UsableDir name fs fs' p m) : m = n := by
    have he := hu.entry.symm.trans hlist
    simpa using he
  have hmade := hm.made
  cases hmade with
  | noBlock full range fresh first own rest =>
    -- no block is free, and the inode lists block -1
    constructor
    · rintro ⟨m, hu⟩
      obtain rfl := hsame hu
      have hrange := hu.range.1
      rw [hinode, own] at hrange
      exact absurd hrange (by decide)
    · rintro ⟨b, hb, -⟩
      exact absurd hb (hc.no_block full)
  | block added content =>
    have hblocks := blocksOf_of_size_one fs₁.disk hm.size
    have hmem : ownBlock nd ∈ blocksOf fs₁.disk nd := by
      rw [hblocks]
      exact List.mem_singleton_self _
    have hrange := added.blocks_range _ hmem
    have hfirst : FirstFree (usedBlocks fs) MAX_BLOCK (ownBlock nd) := by
      rw [hm.own]
      apply getBlock_firstFree
      rw [← hm.own]
      exact hrange.1
    have hused : usedBlocks fs' = usedBlocks fs₁ ∧ usedInodes fs' = usedInodes fs₁ := by
      rw [hm.rest, fs₁.writeDiskBlock_rest]
      exact ⟨rfl, rfl⟩
    have hcontent := hm.content_iff (p := p) added content
    constructor
    · rintro ⟨m, hu⟩
      obtain rfl := hsame hu
      have hlow := hu.range.1
      have hlast := hu.content
      rw [hinode] at hlow hlast
      exact ⟨_, hfirst, hlow, hcontent.mp hlast⟩
    · rintro ⟨b, hb, hlow, hlast⟩
      obtain rfl := hb.unique hfirst
      refine ⟨n, hlist, ⟨added.fresh, ?_⟩, ?_, ?_, ?_, ?_⟩
      · rw [hused.2, added.inodes]
        exact Finset.mem_insert_self _ _
      · rw [hinode]
        exact hm.type
      · rw [hinode]
        exact ⟨hlow, hrange.2⟩
      · rw [hinode, hused.1, added.used]
        refine ⟨hfirst.free, Finset.mem_union_right _ ?_⟩
        exact List.mem_toFinset.mpr hmem
      · rw [hinode]
        exact hcontent.mpr hlast

/-- Where `mkdir` is safe: it is refused by one of its checks, or a block and an inode are free and
the lowest ones will do. -/
def MakeSafe (name : Name) (fs : FileSystem) (p : ℤ) : Prop :=
  (fs.searchCurDir name ≠ none ∧ MakeRefused name fs) ∨
    ∃ b n, FirstFree (usedBlocks fs) MAX_BLOCK b ∧ FirstFree (usedInodes fs) MAX_INODE n ∧
      (fs.curDir.Fits → Suits name fs p b n)

theorem usable_of_refused (hc : Counted fs) (hs : fs.searchCurDir name ≠ none)
    (hwhy : MakeRefused name fs) : MakesUsable env name fs p := by
  obtain ⟨r, hx, hret⟩ := dirMake_refused env hc hs hwhy
  constructor
  · intro r' fs' hx' hret'
    rw [hx, Option.some_inj, Prod.mk.injEq] at hx'
    rw [← hx'.1, hret] at hret'
    exact absurd hret' (by decide)
  · intro _
    exact ⟨r, _, hx, hret⟩

/-- The search runs out of the array, or the entry would be written outside it: then nothing is
promised but the refusal for want of a block or an inode. -/
theorem usable_iff_of_undefined (hc : Counted fs)
    (hcheck : ¬(fs.searchCurDir name ≠ none ∧ MakeRefused name fs))
    (hx : dirMake env name fs = none) : MakesUsable env name fs p ↔ MakeSafe name fs p := by
  have hfits : ¬fs.curDir.Fits := by
    intro hfits
    rcases (dirMake_outcome env name hc).total (not_not.mpr hfits) with
      ⟨r, hx', -⟩ | ⟨r, fs', hx', -⟩
    · rw [hx] at hx'
      cases hx'
    · rw [hx] at hx'
      cases hx'
  constructor
  · rintro ⟨-, hfail⟩
    by_contra hsafe
    have hlack : (∀ b, ¬FirstFree (usedBlocks fs) MAX_BLOCK b) ∨
        ∀ n, ¬FirstFree (usedInodes fs) MAX_INODE n := by
      by_contra hfree
      push Not at hfree
      obtain ⟨⟨b, hb⟩, n, hn⟩ := hfree
      exact hsafe (Or.inr ⟨b, n, hb, hn, fun h => absurd h hfits⟩)
    obtain ⟨r, fs', hx', -⟩ := hfail hlack
    rw [hx] at hx'
    cases hx'
  · rintro (h | ⟨b, n, hb, hn, -⟩)
    · exact absurd h hcheck
    · constructor
      · intro r fs' hx'
        rw [hx] at hx'
        cases hx'
      · rintro (hno | hno)
        · exact absurd hb (hno b)
        · exact absurd hn (hno n)

theorem Makes.makesUsable_iff (hc : Counted fs)
    (hcheck : ¬(fs.searchCurDir name ≠ none ∧ MakeRefused name fs)) {r : Reply}
    (hx : dirMake env name fs = some (r, fs')) (hret : r.ret = 0) {nd : Inode} {fs₁ : FileSystem}
    (hm : Makes env name fs n nd fs₁ fs') : MakesUsable env name fs p ↔ MakeSafe name fs p := by
  have hn : FirstFree (usedInodes fs) MAX_INODE n :=
    ⟨hm.first_free.1, hm.first_free.2.1, hm.first_free.2.2⟩
  have hfits : fs.curDir.Fits := Dentry.append_fits hm.entry
  constructor
  · rintro ⟨hgood, -⟩
    obtain ⟨b, hb, hsuits⟩ := (hm.usable_iff hc).mp (hgood r fs' hx hret)
    exact Or.inr ⟨b, n, hb, hn, fun _ => hsuits⟩
  · rintro (h | ⟨b, m, hb, hm', hsuits⟩)
    · exact absurd h hcheck
    obtain rfl := hm'.unique hn
    constructor
    · intro r' fs'' hx' _
      rw [hx, Option.some_inj, Prod.mk.injEq] at hx'
      rw [← hx'.2]
      exact (hm.usable_iff hc).mpr ⟨b, hb, hsuits hfits⟩
    · rintro (hno | hno)
      · exact absurd hb (hno b)
      · exact absurd hn (hno _)

/-- For every run from the format: a `mkdir` that returns 0 leaves a usable directory, and returns -1
for want of a block or an inode, exactly if it is safe. -/
theorem mkdir_usable_iff {inputs : List (Env × Command)} {replies : List Reply}
    (hrun : Mealy.run trackCurrent (format, 0) inputs = some (replies, fs, p)) (env : Env)
    (name : Name) : MakesUsable env name fs p ↔ MakeSafe name fs p := by
  have hreach : Reachable inputs fs := by
    refine ⟨replies, ?_⟩
    rw [Mealy.run_noted_iff]
    exact ⟨p, hrun⟩
  have hc := (sane_of_reachable hreach).counted
  by_cases hcheck : fs.searchCurDir name ≠ none ∧ MakeRefused name fs
  · exact ⟨fun _ => Or.inl hcheck, fun _ => usable_of_refused hc hcheck.1 hcheck.2⟩
  · cases hx : dirMake env name fs with
    | none => exact usable_iff_of_undefined hc hcheck hx
    | some q =>
      obtain ⟨r, fs'⟩ := q
      have hsearch : fs.searchCurDir name ≠ none := by
        intro hnone
        rw [dirMake, hnone, Option.bind_none] at hx
        cases hx
      rcases (dirMake_outcome env name hc).cases hx with ⟨-, hwhy, -⟩ | ⟨hret, n, nd, fs₁, hm⟩
      · exact absurd ⟨hsearch, hwhy⟩ hcheck
      · exact hm.makesUsable_iff hc hcheck hx hret

/-- The first directory on a fresh disk. -/
theorem mkdir_usable_iff_format : MakesUsable Env.zeroed nameA format 0 := by
  have hrun : Mealy.run trackCurrent (format, 0) [] = some ([], format, 0) := rfl
  refine (mkdir_usable_iff hrun Env.zeroed nameA).mpr (Or.inr ⟨132, 1, ?_, ?_, ?_⟩)
  · refine ⟨by decide, ?_, ?_⟩
    · rw [mem_usedBlocks_format]
      decide
    · intro m h0 hm
      exact mem_usedBlocks_format.mpr ⟨h0, hm⟩
  · refine ⟨by decide, ?_, ?_⟩
    · rw [usedInodes_format]
      decide
    · intro m h0 hm
      rw [usedInodes_format, Finset.mem_singleton]
      omega
  · intro _
    refine ⟨by decide, Or.inl ⟨?_, ?_⟩⟩
    · rw [curDirInode_format]
      decide
    · rw [parentEntry, FileSystem.here, curDir_format]
      decide

/-- On a full disk `mkdir` returns 0 all the same, and its directory has no block. -/
theorem mkdir_without_block : ¬∀ (inputs : List (Env × Command)) (replies : List Reply)
    (fs : FileSystem) (p : ℤ), Mealy.run trackCurrent (format, 0) inputs = some (replies, fs, p) →
      ∀ (env : Env) (name : Name), MakesUsable env name fs p := by
  intro hall
  have hdot : format.searchCurDir dot = some 0 := by
    rw [format_eq]
    decide +kernel
  obtain ⟨k, replies, fs, hrun, hfull, hd⟩ := counted_format.drained Env.zeroed hdot (by decide)
  obtain ⟨p, hnoted⟩ := (Mealy.run_noted_iff execute
    (fun p _ i r fs' => entered p fs' r i.2) _ _ 0 _ _).mp hrun
  have hc : Counted fs := (sane_of_reachable ⟨replies, hrun⟩).counted
  obtain ⟨r, fs', hx, hret⟩ := (hall _ _ _ _ hnoted Env.zeroed nameA).2
    (Or.inl fun _ => hc.no_block hfull)
  rcases (dirMake_outcome Env.zeroed nameA hc).cases hx with ⟨-, hwhy, -⟩ | ⟨hzero, -⟩
  · -- but none of the checks refuses
    have hcur : fs.curDir = rootDir := hd.curDir.trans curDir_format
    have hcount := hd.freeInodeCount
    rcases hwhy with ⟨f, hf, h0⟩ | hroom | hfew
    · rw [FileSystem.searchCurDir, hcur, show rootDir.search nameA rootDir.count 0 = some (-1) by
        decide, Option.some_inj] at hf
      omega
    · rw [hcur] at hroom
      exact absurd hroom (by decide)
    · rw [hcount, format_eq] at hfew
      exact absurd hfew (by decide)
  · rw [hret] at hzero
    exact absurd hzero (by decide)

end OperatingSystems.FS
