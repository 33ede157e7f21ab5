import OperatingSystems.FSOwned
import OperatingSystems.NameTree

/-! The tree of directories that the file system holds: the current one in memory, the others in
their blocks. Commands that stay in a directory change its entries and no other's. -/
namespace OperatingSystems.FS

/-- The inode that `.` of the current directory names. -/
def FileSystem.here (fs : FileSystem) : ℤ := (fs.curDir.dentry 0).inode.toInt

/-- Directory `n`: the current one is in memory, any other in its block. -/
def dirOf (fs : FileSystem) (n : ℤ) : Dentry :=
  if n = fs.here then fs.curDir else dentryLayout.decode (fs.disk (ownBlock (fs.inode n)))

/-- A directory that is in order and has the entries `l`. -/
structure Lists (d : Dentry) (l : List (List Byte × ℤ)) : Prop where
  fits : d.Fits
  listing : d.listing = l
  names : (l.map Prod.fst).Nodup

/-- `.`, and for all but the root `..`. -/
def heading (t : NameTree (List Byte) ℤ) (n : ℤ) : List (List Byte × ℤ) :=
  if n = 0 then [(dot.bytes, 0)] else [(dot.bytes, n), (dotDot.bytes, t.up n)]

def listingOf (t : NameTree (List Byte) ℤ) (n : ℤ) : List (List Byte × ℤ) :=
  heading t n ++ t.kids n

/-- A directory that `mkdir` made without a block, which it says it lacks. -/
def Blockless (nd : Inode) : Prop :=
  nd.type = .directory ∧ nd.size = 1 ∧ nd.blockCount = 1 ∧ ownBlock nd = -1

def FileSystem.isDir (fs : FileSystem) (n : ℤ) : Prop := (fs.inode n).type = .directory

def FileSystem.linkCount (fs : FileSystem) (n : ℤ) : ℤ := (fs.inode n).linkCount.toInt

/-- Since the format the current directory has been the root, `curDirInode` is the number of its
block, and only the root has entries. -/
structure AtFormat (t : NameTree (List Byte) ℤ) (fs : FileSystem) : Prop where
  block : fs.curDirInode = 131
  here : fs.here = 0
  unused : ownBlock (fs.inode 131) = 0
  empty : ∀ n ∈ t.dirs, n ≠ 0 → t.kids n = []

/-- The file system holds the tree `t`; the inodes in `S` hold their blocks. -/
structure Tree (S : Finset ℤ) (t : NameTree (List Byte) ℤ) (fs : FileSystem) : Prop where
  held : Held S fs
  blockless : ∀ n ∈ usedInodes fs, n ∉ S → Blockless (fs.inode n)
  good : t.Good 0 (usedInodes fs) fs.isDir fs.linkCount
  dirs : t.dirs ⊆ S
  root : ownBlock (fs.inode 0) = 131
  here : fs.here ∈ t.dirs
  lists : ∀ n ∈ t.dirs, Lists (dirOf fs n) (listingOf t n)
  stale : ∀ n, n ≠ 0 → fs.isDir n → ¬(0 ≤ ownBlock (fs.inode n) ∧ ownBlock (fs.inode n) < 132)
  mode : fs.curDirInode = fs.here ∨ AtFormat t fs
  magic : fs.superBlock.magicNumber = MAGIC_NUMBER

variable {S : Finset ℤ} {t : NameTree (List Byte) ℤ} {fs fs' : FileSystem} {d : Dentry}
  {l : List (List Byte × ℤ)} {name : Name} {n s : ℤ}

/-! ### One directory -/

namespace Lists

theorem search (h : Lists fs.curDir l) (name : Name) :
    fs.searchCurDir name = some (Dentry.find l name) := by
  rw [FileSystem.searchCurDir, Dentry.search_listing h.fits, h.listing]

theorem length_le (h : Lists d l) : l.length ≤ 21 := by
  have := h.fits.count_le
  rw [← Dentry.length_listing, h.listing] at this
  exact this

theorem append (h : Lists d l) (hroom : ¬d.Full) (hn : 0 ≤ n ∧ n < 512)
    (hnew : name.bytes ∉ l.map Prod.fst) {d' : Dentry} (he : d.append name n = some d') :
    Lists d' (l ++ [(name.bytes, n)]) := by
  obtain ⟨hfits, hl⟩ := Dentry.appended he hroom hn
  refine ⟨hfits, ?_, Dentry.nodup_concat h.names hnew n⟩
  rw [hl, h.listing]

theorem remove (h : Lists d l) {after : DirectoryEntry} {d' : Dentry}
    (he : Dentry.remove after name d.count 0 d = some d') :
    Lists d' (l.eraseP fun e => e.1 == name.bytes) := by
  obtain ⟨hfits, hl⟩ := Dentry.removed he h.fits
  refine ⟨hfits, by rw [hl, h.listing], ?_⟩
  exact h.names.sublist ((List.eraseP_sublist ..).map _)

theorem entry (h : Lists d l) {i : ℕ} (hi : i < 21) {e : List Byte × ℤ} (he : l[i]? = some e) :
    (d.dentry ⟨i, hi⟩).inode.toInt = e.2 := by
  rw [← h.listing, Dentry.listing, Dentry.segment, List.getElem?_map, Option.map_eq_some_iff] at he
  obtain ⟨j, hj, rfl⟩ := he
  obtain ⟨-, rfl⟩ := List.getElem?_eq_some_iff.mp hj
  rw [List.getElem_range, Nat.zero_add, Dentry.entryAt_of_lt hi]

theorem here {a : List Byte} (h : Lists fs.curDir ((a, n) :: l)) : fs.here = n :=
  h.entry (by decide) (e := (a, n)) rfl

end Lists

theorem heading_eq (t : NameTree (List Byte) ℤ) (n : ℤ) :
    ∃ r, heading t n = (dot.bytes, n) :: r := by
  unfold heading
  split
  · rename_i h
    subst h
    exact ⟨[], rfl⟩
  · exact ⟨_, rfl⟩

theorem here_eq (h : Lists fs.curDir (heading t n ++ l)) : fs.here = n := by
  obtain ⟨r, hr⟩ := heading_eq t n
  rw [hr, List.cons_append] at h
  exact h.here

theorem dirOf_here (fs : FileSystem) : dirOf fs fs.here = fs.curDir := if_pos rfl

theorem dirOf_of_ne (h : n ≠ fs.here) :
    dirOf fs n = dentryLayout.decode (fs.disk (ownBlock (fs.inode n))) := if_neg h

/-- A directory other than the current one is what its block holds. -/
theorem dirOf_eq (hne : n ≠ fs.here) (hhere : fs'.here = fs.here)
    (hown : ownBlock (fs'.inode n) = ownBlock (fs.inode n))
    (hdisk : fs'.disk (ownBlock (fs.inode n)) = fs.disk (ownBlock (fs.inode n))) :
    dirOf fs' n = dirOf fs n := by
  rw [dirOf_of_ne hne, dirOf_of_ne (hhere ▸ hne), hown, hdisk]

/-! ### What holds of the tree -/

namespace Tree

theorem curDir (h : Tree S t fs) : Lists fs.curDir (listingOf t fs.here) := by
  rw [← dirOf_here]
  exact h.lists fs.here h.here

theorem directory (h : Tree S t fs) (hn : n ∈ t.dirs) : n ∈ S ∧ fs.isDir n ∧
    blocksOf fs.disk (fs.inode n) = [ownBlock (fs.inode n)] ∧
    131 ≤ ownBlock (fs.inode n) ∧ ownBlock (fs.inode n) ∈ usedBlocks fs := by
  have hS := h.dirs hn
  have hdir := (h.good.dir n hn).2
  have hb := blocksOf_of_size_one fs.disk (h.held.directory n hS hdir).1
  have hd := h.held.data n hS (ownBlock (fs.inode n)) (by rw [hb]; exact List.mem_singleton_self _)
  exact ⟨hS, hdir, hb, hd⟩

theorem own_ne (h : Tree S t fs) (hn : n ∈ t.dirs) (hs : s ∈ t.dirs) (hne : n ≠ s) :
    ownBlock (fs.inode n) ≠ ownBlock (fs.inode s) := by
  intro he
  obtain ⟨hnS, -, hb, -⟩ := h.directory hn
  obtain ⟨hsS, -, hb', -⟩ := h.directory hs
  apply h.held.disjoint n hnS s hsS hne (ownBlock (fs.inode n))
  · rw [hb]
    exact List.mem_singleton_self _
  · rw [hb', he]
    exact List.mem_singleton_self _

theorem used (h : Tree S t fs) (hn : n ∈ t.dirs) : n ∈ usedInodes fs := (h.good.dir n hn).1

/-- What a search finds is `.` or `..`, or an entry behind them. -/
theorem found (h : Tree S t fs) (hs : fs.searchCurDir name = some s) (h0 : 0 ≤ s) :
    (s ∈ t.dirs ∧ (name = dot ∨ name = dotDot)) ∨
      ∃ l₁ l₂, t.kids fs.here = l₁ ++ (name.bytes, s) :: l₂ ∧
        ((listingOf t fs.here).eraseP fun e => e.1 == name.bytes) =
          heading t fs.here ++ (l₁ ++ l₂) := by
  have hl := h.curDir
  rw [hl.search, Option.some_inj] at hs
  -- The search meets the heading first: `.`, and `..` but in the root.
  by_cases hhead : name.bytes ∈ (heading t fs.here).map Prod.fst
  · left
    unfold listingOf heading at hs
    unfold heading at hhead
    by_cases h0 : fs.here = 0
    · rw [if_pos h0, List.map_singleton, List.mem_singleton] at hhead
      rw [if_pos h0, List.singleton_append, Dentry.find_cons, if_pos hhead.symm] at hs
      exact ⟨hs ▸ h.good.root_mem, Or.inl (Name.ext_bytes hhead)⟩
    · simp only [if_neg h0, List.map_cons, List.map_nil, List.mem_cons, List.not_mem_nil,
        or_false] at hhead
      rw [if_neg h0, List.cons_append, Dentry.find_cons] at hs
      rcases hhead with hd | hd
      · rw [if_pos hd.symm] at hs
        exact ⟨hs ▸ h.here, Or.inl (Name.ext_bytes hd)⟩
      · have hne : ¬dot.bytes = name.bytes := by
          rw [hd]
          decide
        rw [if_neg hne, List.cons_append, Dentry.find_cons, if_pos hd.symm] at hs
        exact ⟨hs ▸ (h.good.up _ h.here h0).1, Or.inr (Name.ext_bytes hd)⟩
  · right
    have hfind : ∀ l' : List (List Byte × ℤ), name.bytes ∉ l'.map Prod.fst →
        Dentry.find (l' ++ t.kids fs.here) name = Dentry.find (t.kids fs.here) name := by
      intro l' hn
      induction l' with
      | nil => rfl
      | cons e l' ih =>
        rw [List.map_cons, List.mem_cons, not_or] at hn
        rw [List.cons_append, Dentry.find_cons, if_neg fun he => hn.1 he.symm, ih hn.2]
    rw [listingOf, hfind _ hhead] at hs
    rcases Dentry.find_cases (t.kids fs.here) name with ⟨hf, -⟩ | ⟨l₁, l₂, s', hk, -, hf, he⟩
    · omega
    · obtain rfl : s' = s := hf.symm.trans hs
      refine ⟨l₁, l₂, hk, ?_⟩
      rw [listingOf, List.eraseP_append_right, he]
      intro e hmem hp
      exact hhead (beq_iff_eq.mp hp ▸ List.mem_map_of_mem hmem)

theorem found_used (h : Tree S t fs) (hs : fs.searchCurDir name = some s) (h0 : 0 ≤ s) :
    s ∈ usedInodes fs := by
  rcases h.found hs h0 with ⟨hd, -⟩ | ⟨l₁, l₂, hk, -⟩
  · exact h.used hd
  · apply (h.good.kid fs.here h.here s _).1
    rw [NameTree.children, hk]
    simp

theorem entry_used (h : Tree S t fs) {e : List Byte × ℤ} (he : e ∈ fs.curDir.listing) :
    e.2 ∈ usedInodes fs := by
  rw [h.curDir.listing, listingOf, List.mem_append] at he
  rcases he with he | he
  · unfold heading at he
    by_cases h0 : fs.here = 0
    · rw [if_pos h0, List.mem_singleton] at he
      rw [he]
      exact h.used h.good.root_mem
    · simp only [if_neg h0, List.mem_cons, List.not_mem_nil, or_false] at he
      rcases he with rfl | rfl
      · exact h.used h.here
      · exact h.used (h.good.up _ h.here h0).1
  · exact (h.good.kid _ h.here e.2 (List.mem_map_of_mem he)).1

/-- A name that is not found can be added. -/
theorem missing (h : Tree S t fs) (hs : ∃ f, fs.searchCurDir name = some f ∧ f < 0) :
    name.bytes ∉ (listingOf t fs.here).map Prod.fst := by
  obtain ⟨f, hf, hneg⟩ := hs
  rw [h.curDir.search, Option.some_inj] at hf
  rcases Dentry.find_cases (listingOf t fs.here) name with ⟨-, hn⟩ | ⟨l₁, l₂, s, hl, -, hs, -⟩
  · exact hn
  · have hfound : fs.searchCurDir name = some s := by rw [h.curDir.search, hs]
    -- an entry names an allocated inode
    have hused : s ∈ usedInodes fs := by
      apply h.entry_used (e := (name.bytes, s))
      rw [h.curDir.listing, hl]
      simp
    have := (mem_usedInodes_range hused).1
    omega

theorem here_range (h : Tree S t fs) : 0 ≤ fs.here ∧ fs.here < 512 :=
  mem_usedInodes_range (h.used h.here)

/-- The entries of the current directory change, and no other directory. -/
theorem edit (h : Tree S t fs) {S' : Finset ℤ} (hheld : Held S' fs')
    (hblockless : ∀ n ∈ usedInodes fs', n ∉ S' → Blockless (fs'.inode n))
    (hgood : (t.setKids fs.here l).Good 0 (usedInodes fs') fs'.isDir fs'.linkCount)
    (hdirs : t.dirs ⊆ S') (hlists : Lists fs'.curDir (heading t fs.here ++ l))
    (hown : ∀ n ∈ t.dirs, ownBlock (fs'.inode n) = ownBlock (fs.inode n))
    (hdisk : ∀ n ∈ t.dirs, n ≠ fs.here →
      fs'.disk (ownBlock (fs.inode n)) = fs.disk (ownBlock (fs.inode n)))
    (hstale : ∀ n, n ≠ 0 → fs'.isDir n →
      ¬(0 ≤ ownBlock (fs'.inode n) ∧ ownBlock (fs'.inode n) < 132))
    (hcur : fs'.curDirInode = fs.curDirInode)
    (hunused : AtFormat t fs → ownBlock (fs'.inode 131) = 0)
    (hmagic : fs'.superBlock.magicNumber = fs.superBlock.magicNumber) :
    Tree S' (t.setKids fs.here l) fs' := by
  have hhere : fs'.here = fs.here := here_eq hlists
  refine ⟨hheld, hblockless, hgood, hdirs, ?_, ?_, ?_, hstale, ?_, ?_⟩
  · rw [hown 0 h.good.root_mem, h.root]
  · rw [hhere]
    exact h.here
  · intro n hn
    change Lists _ (heading t n ++ Function.update t.kids fs.here l n)
    by_cases hne : n = fs.here
    · subst hne
      rw [Function.update_self, ← hhere, dirOf_here, hhere]
      exact hlists
    · rw [Function.update_of_ne hne, dirOf_eq hne hhere (hown n hn) (hdisk n hn hne)]
      exact h.lists n hn
  · rw [hcur, hhere]
    rcases h.mode with hm | hm
    · exact Or.inl hm
    · right
      refine ⟨hcur.trans hm.block, hhere.trans hm.here, hunused hm, ?_⟩
      intro n hn hne
      change Function.update t.kids fs.here l n = []
      rw [Function.update_of_ne (by rw [hm.here]; exact hne)]
      exact hm.empty n hn hne
  · rw [hmagic, h.magic]

/-- A fresh block is none of the metadata and not the root's. -/
theorem fresh_block (h : Tree S t fs) {b : ℤ} (h0 : 0 ≤ b) (hb : b ∉ usedBlocks fs) : 132 ≤ b := by
  by_contra hlt
  by_cases h131 : b < 131
  · exact hb (h.held.metadata b h0 h131)
  · obtain rfl : b = 131 := by omega
    apply hb
    have hown := (h.directory h.good.root_mem).2.2.2.2
    rw [h.root] at hown
    exact hown

/-- Until the first move at most 21 inodes are in use, so inode 131 is not handed out. -/
theorem first_ne (h : Tree S t fs) (hm : AtFormat t fs)
    (hfirst : ∀ m, 0 ≤ m → m < n → m ∈ usedInodes fs) : n ≠ 131 := by
  -- Before the first `cd` only the root has entries, at most twenty, so inode 131 is out of reach.
  have hsub : usedInodes fs ⊆ insert 0 (t.children 0).toFinset := by
    intro m hmem
    rw [Finset.mem_insert, List.mem_toFinset]
    by_cases h0 : m = 0
    · exact Or.inl h0
    · right
      obtain ⟨k, hk, hmk⟩ := NameTree.links_pos_iff.mp (h.good.named m hmem h0)
      by_cases hk0 : k = 0
      · exact hk0 ▸ hmk
      · rw [NameTree.children, hm.empty k hk hk0] at hmk
        exact absurd hmk List.not_mem_nil
  have hlen : (t.children 0).length ≤ 20 := by
    have hle := h.curDir.length_le
    rw [hm.here] at hle
    simp only [listingOf, heading, ↓reduceIte, List.length_append, List.length_singleton] at hle
    rw [NameTree.children, List.length_map]
    omega
  rintro rfl
  have hico : Finset.Ico (0 : ℤ) 131 ⊆ usedInodes fs := by
    intro m hmem
    have := Finset.mem_Ico.mp hmem
    exact hfirst m this.1 this.2
  have hcard : 131 ≤ 21 := by
    calc 131 = (Finset.Ico (0 : ℤ) 131).card := by rw [Int.card_Ico]; rfl
      _ ≤ (usedInodes fs).card := Finset.card_le_card hico
      _ ≤ (insert 0 (t.children 0).toFinset).card := Finset.card_le_card hsub
      _ ≤ (t.children 0).toFinset.card + 1 := Finset.card_insert_le _ _
      _ ≤ (t.children 0).length + 1 := Nat.succ_le_succ (t.children 0).toFinset_card_le
      _ ≤ 21 := by omega
  exact absurd hcard (by decide)

theorem append (h : Tree S t fs) (hmissing : ∃ f, fs.searchCurDir name = some f ∧ f < 0)
    (hroom : ¬fs.curDir.Full) (hn : 0 ≤ n ∧ n < 512) {d : Dentry}
    (hentry : fs.curDir.append name n = some d) :
    Lists d (heading t fs.here ++ (t.kids fs.here ++ [(name.bytes, n)])) := by
  rw [← List.append_assoc]
  exact h.curDir.append hroom hn (h.missing hmissing) hentry

/-- A new inode gets the last entry of the current directory. -/
theorem joined (h : Tree S t fs) {S' : Finset ℤ} {nd : Inode} (hheld : Held S' fs')
    (hS : S ⊆ S') (hn : 0 ≤ n ∧ n < 512) (hfresh : n ∉ usedInodes fs)
    (hfirst : ∀ m, 0 ≤ m → m < n → m ∈ usedInodes fs)
    (hinodes : usedInodes fs' = insert n (usedInodes fs))
    (hinode : fs'.inode = Function.update fs.inode n nd)
    (hdisk : ∀ b ∈ usedBlocks fs, fs'.disk b = fs.disk b)
    (hcur : fs'.curDirInode = fs.curDirInode)
    (hmagic : fs'.superBlock.magicNumber = fs.superBlock.magicNumber)
    (hmissing : ∃ f, fs.searchCurDir name = some f ∧ f < 0) (hroom : ¬fs.curDir.Full)
    (hentry : fs.curDir.append name n = some fs'.curDir)
    (hblockless : n ∉ S' → Blockless nd) (hlinks : nd.type ≠ .directory → nd.linkCount = 1)
    (hstale : nd.type = .directory → ¬(0 ≤ ownBlock nd ∧ ownBlock nd < 132)) :
    Tree S' (t.setKids fs.here (t.kids fs.here ++ [(name.bytes, n)])) fs' := by
  -- The new inode was free, so what the tree speaks of is as it was.
  have hnew : fs'.inode n = nd := by rw [hinode, Function.update_self]
  have hold (m : ℤ) (hm : m ≠ n) : fs'.inode m = fs.inode m := by
    rw [hinode, Function.update_of_ne hm]
  have hne (m : ℤ) (hm : m ∈ usedInodes fs) : m ≠ n := fun he => hfresh (he ▸ hm)
  apply h.edit hheld
  · intro m hm hmS
    rw [hinodes, Finset.mem_insert] at hm
    rcases hm with rfl | hm
    · rw [hnew]
      exact hblockless hmS
    · rw [hold m (hne m hm)]
      exact h.blockless m hm fun hc => hmS (hS hc)
  · apply h.good.addKid h.here name.bytes (m := n) _ hinodes
    · intro m hm
      simp only [FileSystem.isDir, FileSystem.linkCount, hold m (hne m hm), true_and, implies_true]
    · exact fun _ => hfresh
    · intro hd
      rw [FileSystem.isDir, hnew] at hd
      rw [FileSystem.linkCount, hnew, hlinks hd, h.good.links_eq_zero (Or.inl hfresh)]
      rfl
    · exact (hne 0 (h.used h.good.root_mem)).symm
  · exact h.dirs.trans hS
  · exact h.append hmissing hroom hn hentry
  · intro m hm
    rw [hold m (hne m (h.used hm))]
  · intro m hm _
    exact hdisk _ (h.directory hm).2.2.2.2
  · intro m hm hd
    rw [FileSystem.isDir] at hd
    by_cases hmn : m = n
    · subst hmn
      rw [hnew] at hd ⊢
      exact hstale hd
    · rw [hold m hmn] at hd ⊢
      exact h.stale m hm hd
  · exact hcur
  · intro hm
    rw [hold 131 (h.first_ne hm hfirst).symm]
    exact hm.unused
  · exact hmagic

theorem added (h : Tree S t fs) {nd : Inode} (ha : Added fs n nd fs')
    (hmissing : ∃ f, fs.searchCurDir name = some f ∧ f < 0) (hroom : ¬fs.curDir.Full)
    (hentry : fs.curDir.append name n = some fs'.curDir)
    (hsize : 0 < nd.size.toInt ∧ nd.size.toInt ≤ 73216)
    (hdir : nd.type = .directory → nd.size = 1 ∧ nd.blockCount = 1)
    (hlinks : nd.type ≠ .directory → nd.linkCount = 1) :
    Tree (insert n S) (t.setKids fs.here (t.kids fs.here ++ [(name.bytes, n)])) fs' := by
  apply h.joined (h.held.added ha hsize hdir) (Finset.subset_insert n S) ha.range ha.fresh ha.first
    ha.inodes ha.inode (fun b hb => ha.disk_used hb) ha.curDirInode ha.magic hmissing hroom hentry
  · exact fun hc => absurd (Finset.mem_insert_self n S) hc
  · exact hlinks
  · intro hd
    have hmem : ownBlock nd ∈ blocksOf fs'.disk nd := by
      rw [blocksOf_of_size_one fs'.disk (hdir hd).1]
      exact List.mem_singleton_self _
    have h0 := (ha.blocks_range _ hmem).1
    have := h.fresh_block h0 (ha.blocks_fresh _ hmem)
    omega

end Tree

end OperatingSystems.FS
