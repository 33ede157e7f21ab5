import OperatingSystems.FSContent
import Mathlib.Data.List.Count

/-! The file commands in the root directory keep the disk clean: no block is shared, in use
without an owner, or owned without being in use, and links are counted. -/
namespace OperatingSystems.FS

/-- The inode numbers that the entries of a directory name, in order. -/
def named (d : Dentry) : List ℤ := d.listing.map Prod.snd

theorem length_named (d : Dentry) : (named d).length = d.count := by
  rw [named, List.length_map, Dentry.length_listing]

theorem named_concat {d d' : Dentry} {a : List Byte} {n : ℤ}
    (h : d'.listing = d.listing ++ [(a, n)]) : named d' = named d ++ [n] := by
  rw [named, h, List.map_append]
  rfl

/-- The current directory is the root, and its entries account for the allocated inodes. -/
structure RootListing (fs : FileSystem) : Prop where
  fits : fs.curDir.Fits
  head : fs.curDir.listing.head? = some (dot.bytes, 0)
  names : (fs.curDir.listing.map Prod.fst).Nodup
  allocated : ∀ n, n ∈ usedInodes fs ↔ n ∈ named fs.curDir
  links : ∀ n ∈ usedInodes fs, (fs.inode n).type = .file →
    (fs.inode n).linkCount.toInt = (named fs.curDir).count n
  root : (fs.inode 0).type = .directory

/-- Every block from 131 on that is in use belongs to an allocated inode. -/
def NoLeak (fs : FileSystem) : Prop :=
  ∀ b ∈ usedBlocks fs, 131 ≤ b → ∃ n ∈ usedInodes fs, b ∈ blocksOf fs.disk (fs.inode n)

structure Clean (fs : FileSystem) : Prop extends Owned fs, RootListing fs where
  noLeak : NoLeak fs

variable {fs fs' : FileSystem} {env : Env}

namespace Clean

theorem search (h : Clean fs) (name : Name) :
    fs.searchCurDir name = some (Dentry.find fs.curDir.listing name) :=
  Dentry.search_listing h.fits name

theorem mem_named {d : Dentry} {e : List Byte × ℤ} (he : e ∈ d.listing) : e.2 ∈ named d :=
  List.mem_map_of_mem he

/-- A search that finds nothing means that the name is free. -/
theorem missing (h : Clean fs) {name : Name} {f : ℤ} (hs : fs.searchCurDir name = some f)
    (hf : f < 0) : name.bytes ∉ fs.curDir.listing.map Prod.fst := by
  rw [h.search, Option.some_inj] at hs
  rcases Dentry.find_cases fs.curDir.listing name with ⟨-, hn⟩ | ⟨l₁, l₂, s, hl, -, hfound, -⟩
  · exact hn
  · have hmem : s ∈ named fs.curDir := by
      apply mem_named (e := (name.bytes, s))
      rw [hl]
      simp
    have := mem_usedInodes_range ((h.allocated s).mpr hmem)
    omega

/-- A name that is found splits the listing at its entry. -/
theorem found (h : Clean fs) {name : Name} {s : ℤ} (hs : fs.searchCurDir name = some s)
    (h0 : 0 ≤ s) : s ∈ usedInodes fs ∧ ∃ l₁ l₂, fs.curDir.listing = l₁ ++ (name.bytes, s) :: l₂ ∧
      name.bytes ∉ l₁.map Prod.fst ∧
      (fs.curDir.listing.eraseP fun e => e.1 == name.bytes) = l₁ ++ l₂ := by
  rw [h.search, Option.some_inj] at hs
  rcases Dentry.find_cases fs.curDir.listing name with ⟨hf, -⟩ | ⟨l₁, l₂, s', hl, hn, hf, he⟩
  · omega
  · obtain rfl : s' = s := hf.symm.trans hs
    refine ⟨(h.allocated s').mpr (mem_named (e := (name.bytes, s')) ?_), l₁, l₂, hl, hn, he⟩
    rw [hl]
    simp

theorem not_outOfTable (h : Clean fs) (name : Name) : ¬OutOfTable name fs := by
  rintro ⟨s, hs, hne, hr⟩
  rw [h.search, Option.some_inj] at hs
  rcases Dentry.find_cases fs.curDir.listing name with ⟨hf, -⟩ | ⟨l₁, l₂, s', hl, -, hf, -⟩
  · omega
  · apply hr
    apply mem_usedInodes_range ((h.allocated s).mpr _)
    apply mem_named (e := (name.bytes, s))
    rw [hl, ← hs, hf]
    simp

theorem root_used (h : Clean fs) : 0 ∈ usedInodes fs := by
  rw [h.allocated, named]
  obtain ⟨rest, hr⟩ := List.head?_eq_some_iff.mp h.head
  rw [hr]
  exact List.mem_cons_self

theorem ne_root (h : Clean fs) {s : ℤ} (htype : (fs.inode s).type = .file) : s ≠ 0 := by
  rintro rfl
  rw [h.root] at htype
  cases htype

/-- `create` and `cp`: a fresh inode behind a fresh name. -/
theorem added (h : Clean fs) {name : Name} {n : ℤ} {nd : Inode} (ha : Added fs n nd fs')
    (hmissing : ∃ f, fs.searchCurDir name = some f ∧ f < 0) (hroom : ¬fs.curDir.Full)
    (hentry : fs.curDir.append name n = some fs'.curDir) (hlinks : nd.linkCount = 1)
    (hsize : 0 < nd.size.toInt ∧ nd.size.toInt ≤ 73216)
    (hdir : nd.type = .directory → nd.size = 1 ∧ nd.blockCount = 1) : Clean fs' := by
  obtain ⟨f, hf, hneg⟩ := hmissing
  obtain ⟨hfits, hl⟩ := Dentry.appended hentry hroom ha.range
  have hnamed := named_concat hl
  -- The new inode was free, so those allocated before are as they were.
  have hold (m : ℤ) (hm : m ∈ usedInodes fs) : m ≠ n ∧ fs'.inode m = fs.inode m := by
    have hne : m ≠ n := by
      rintro rfl
      exact ha.fresh hm
    exact ⟨hne, by rw [ha.inode, Function.update_of_ne hne]⟩
  have howned := h.toOwned.added ha hsize hdir
  refine ⟨howned, ⟨hfits, ?_, ?_, ?_, ?_, ?_⟩, ?_⟩
  · rw [hl, List.head?_append, h.head]
    rfl
  · rw [hl]
    exact Dentry.nodup_concat h.names (h.missing hf hneg) n
  · intro m
    rw [ha.inodes, Finset.mem_insert, hnamed, List.mem_append, List.mem_singleton, h.allocated,
      or_comm]
  · intro m hm htype
    rw [hnamed, List.count_append]
    rw [ha.inodes, Finset.mem_insert] at hm
    rcases hm with rfl | hm
    · have hzero : (named fs.curDir).count m = 0 :=
        List.count_eq_zero_of_not_mem (mt (h.allocated m).mpr ha.fresh)
      rw [ha.inode, Function.update_self, hlinks, hzero, List.count_singleton_self]
      decide
    · obtain ⟨hne, he⟩ := hold m hm
      rw [he] at htype ⊢
      rw [List.count_singleton, if_neg (by simpa using hne.symm), Nat.add_zero]
      exact h.links m hm htype
  · rw [(hold 0 h.root_used).2]
    exact h.root
  · intro b hb h131
    rw [ha.used, Finset.mem_union, List.mem_toFinset] at hb
    rcases hb with hb | hb
    · obtain ⟨m, hm, hbm⟩ := h.noLeak b hb h131
      refine ⟨m, by rw [ha.inodes]; exact Finset.mem_insert_of_mem hm, ?_⟩
      rw [(hold m hm).2, h.blocksOf_eq (fun c hc => ha.disk_used hc) hm]
      exact hbm
    · refine ⟨n, by rw [ha.inodes]; exact Finset.mem_insert_self _ _, ?_⟩
      rw [ha.inode, Function.update_self]
      exact hb

theorem count_le (h : Clean fs) (n : ℤ) : (named fs.curDir).count n ≤ 21 := by
  calc (named fs.curDir).count n ≤ (named fs.curDir).length := List.count_le_length
    _ = fs.curDir.count := length_named fs.curDir
    _ ≤ 21 := h.fits.count_le

/-- A link count names no block, so a change of it leaks none. -/
theorem noLeak_relinked (h : Clean fs) {s : ℤ} {l : Int32}
    (hr : fs' = { fs with
      inode := Function.update fs.inode s { fs.inode s with linkCount := l }
      curDir := fs'.curDir }) : NoLeak fs' := by
  have hnode := inode_relinked (show fs'.inode = _ by rw [hr])
  have hused : usedBlocks fs' = usedBlocks fs := by
    rw [hr]
    rfl
  have hinodes : usedInodes fs' = usedInodes fs := by
    rw [hr]
    rfl
  have hdisk : fs'.disk = fs.disk := by rw [hr]
  intro b hb h131
  rw [hused] at hb
  obtain ⟨m, hm, hbm⟩ := h.noLeak b hb h131
  refine ⟨m, by rwa [hinodes], ?_⟩
  rw [hnode m, hdisk]
  exact hbm

/-- `ln`: another name for an inode, and its count goes up. -/
theorem linked (h : Clean fs) {src dest : Name} {s : ℤ} (hk : Links src dest fs s fs') :
    Clean fs' := by
  obtain ⟨hs, -⟩ := h.found hk.found hk.source.1
  obtain ⟨f, hf, hneg⟩ := hk.missing
  obtain ⟨hfits, hl⟩ := Dentry.appended hk.entry hk.room hk.source
  have hnamed := named_concat hl
  have hinodes : usedInodes fs' = usedInodes fs := by
    rw [hk.rest]
    rfl
  have hinode : fs'.inode = Function.update fs.inode s
      { fs.inode s with linkCount := (fs.inode s).linkCount + 1 } := by rw [hk.rest]
  have howned := h.toOwned.relinked hk.rest
  refine ⟨howned, ⟨hfits, ?_, ?_, ?_, ?_, ?_⟩, h.noLeak_relinked hk.rest⟩
  · rw [hl, List.head?_append, h.head]
    rfl
  · rw [hl]
    exact Dentry.nodup_concat h.names (h.missing hf hneg) s
  · intro m
    rw [hinodes, hnamed, List.mem_append, List.mem_singleton, h.allocated]
    constructor
    · exact Or.inl
    · rintro (hm | rfl)
      · exact hm
      · exact (h.allocated m).mp hs
  · intro m hm htype
    rw [hinodes] at hm
    rw [hnamed, List.count_append]
    by_cases hms : m = s
    · subst hms
      have hcount := h.links m hm hk.type
      have hle := h.count_le m
      rw [hinode, Function.update_self, List.count_singleton_self]
      simp only
      rw [toInt_add_one (by omega) (by omega)]
      push_cast
      omega
    · rw [hinode, Function.update_of_ne hms] at htype ⊢
      rw [List.count_singleton, if_neg (by simpa using fun he => hms he.symm), Nat.add_zero]
      exact h.links m hm htype
  · rw [hinode, Function.update_of_ne (h.ne_root hk.type).symm]
    exact h.root

/-- The directory `d'` is the current one without one entry for `s`. -/
structure Drops (fs : FileSystem) (s : ℤ) (d' : Dentry) : Prop where
  fits : d'.Fits
  head : d'.listing.head? = some (dot.bytes, 0)
  names : (d'.listing.map Prod.fst).Nodup
  count : ∀ m, (named fs.curDir).count m = (named d').count m + if s = m then 1 else 0

theorem Drops.mem_iff {s : ℤ} {d' : Dentry} (hd : Drops fs s d') {m : ℤ} (hm : m ≠ s) :
    m ∈ named d' ↔ m ∈ named fs.curDir := by
  rw [← List.count_pos_iff, ← List.count_pos_iff, hd.count m, if_neg fun he => hm he.symm,
    Nat.add_zero]

theorem drops (h : Clean fs) {name : Name} {s : ℤ} (hu : Unlinks name fs s fs') :
    Drops fs s fs'.curDir := by
  obtain ⟨-, l₁, l₂, hl, -, herase⟩ := h.found hu.found hu.source.1
  obtain ⟨after, hentry⟩ := hu.entry
  obtain ⟨hfits, hl'⟩ := Dentry.removed hentry h.fits
  rw [herase] at hl'
  refine ⟨hfits, ?_, ?_, ?_⟩
  · -- The entry of the root itself stays in front.
    have hh := h.head
    rw [hl] at hh
    rw [hl']
    cases l₁ with
    | nil =>
      rw [List.nil_append, List.head?_cons, Option.some_inj, Prod.mk.injEq] at hh
      exact absurd hh.2 (h.ne_root hu.type)
    | cons e l₁ => exact hh
  · have hsub : fs'.curDir.listing.Sublist fs.curDir.listing := by
      rw [hl', hl]
      exact List.Sublist.append_left (List.sublist_cons_self _ _) _
    exact List.Nodup.sublist (hsub.map _) h.names
  · intro m
    have hnamed : named fs.curDir = l₁.map Prod.snd ++ s :: l₂.map Prod.snd := by
      rw [named, hl, List.map_append, List.map_cons]
    have hnamed' : named fs'.curDir = l₁.map Prod.snd ++ l₂.map Prod.snd := by
      rw [named, hl', List.map_append]
    rw [hnamed, hnamed', List.count_append, List.count_append, List.count_cons]
    by_cases hsm : s = m <;> simp [hsm, Nat.add_assoc]

/-- Other names remain: the link count goes down with the number of the entries. -/
theorem dropped_link (h : Clean fs) {s : ℤ} (hs : s ∈ usedInodes fs)
    (htype : (fs.inode s).type = .file) (hd : Drops fs s fs'.curDir)
    (hne1 : (fs.inode s).linkCount ≠ 1) (hr : fs' = { fs with
      inode := Function.update fs.inode s
        { fs.inode s with linkCount := (fs.inode s).linkCount - 1 }
      curDir := fs'.curDir }) : Clean fs' := by
  have hinodes : usedInodes fs' = usedInodes fs := by
    rw [hr]
    rfl
  have hinode : fs'.inode = Function.update fs.inode s
      { fs.inode s with linkCount := (fs.inode s).linkCount - 1 } := by rw [hr]
  have hlink := h.links s hs htype
  have hle := h.count_le s
  have hself := hd.count s
  rw [if_pos rfl] at hself
  -- A count other than 1 leaves an entry behind, so the inode stays named.
  have hmore : (named fs'.curDir).count s ≠ 0 := by
    intro hz
    apply hne1
    apply Int32.toInt_inj.mp
    rw [hlink, hself, hz]
    rfl
  refine ⟨h.toOwned.relinked hr, ⟨hd.fits, hd.head, hd.names, ?_, ?_, ?_⟩, h.noLeak_relinked hr⟩
  · intro m
    rw [hinodes]
    by_cases hm : m = s
    · subst hm
      exact ⟨fun _ => List.count_pos_iff.mp (Nat.pos_of_ne_zero hmore), fun _ => hs⟩
    · rw [hd.mem_iff hm]
      exact h.allocated m
  · intro m hm hfile
    rw [hinodes] at hm
    by_cases hms : m = s
    · subst hms
      rw [hinode, Function.update_self]
      simp only
      rw [toInt_sub_one (by omega) (by omega)]
      omega
    · rw [hinode, Function.update_of_ne hms] at hfile ⊢
      rw [h.links m hm hfile, hd.count m, if_neg fun he => hms he.symm, Nat.add_zero]
  · rw [hinode, Function.update_of_ne (h.ne_root htype).symm]
    exact h.root

/-- The last name: the inode goes with its blocks. -/
theorem dropped_last (h : Clean fs) {s : ℤ} (hs : s ∈ usedInodes fs)
    (htype : (fs.inode s).type = .file) (hd : Drops fs s fs'.curDir)
    (h1 : (fs.inode s).linkCount = 1)
    (hr : Released fs s (blocksOf fs.disk (fs.inode s)).toFinset fs') : Clean fs' := by
  have hinode : fs'.inode = fs.inode := by rw [hr.rest]
  have hdisk : fs'.disk = fs.disk := by rw [hr.rest]
  have hnone : (named fs'.curDir).count s = 0 := by
    have hlink := h.links s hs htype
    have hself := hd.count s
    rw [if_pos rfl] at hself
    rw [h1] at hlink
    have : (1 : Int32).toInt = 1 := rfl
    omega
  refine ⟨h.toOwned.released hs hr, ⟨hd.fits, hd.head, hd.names, ?_, ?_, ?_⟩, ?_⟩
  · intro m
    rw [hr.inodes, Finset.mem_erase]
    by_cases hm : m = s
    · subst hm
      have : m ∉ named fs'.curDir := List.count_eq_zero.mp hnone
      simp [this]
    · rw [hd.mem_iff hm, h.allocated m]
      simp [hm]
  · intro m hm hfile
    rw [hr.inodes, Finset.mem_erase] at hm
    rw [hinode] at hfile ⊢
    rw [h.links m hm.2 hfile, hd.count m, if_neg fun he => hm.1 he.symm, Nat.add_zero]
  · rw [hinode]
    exact h.root
  · intro b hb h131
    rw [hr.used, Finset.mem_sdiff, List.mem_toFinset] at hb
    obtain ⟨m, hm, hbm⟩ := h.noLeak b hb.1 h131
    have hms : m ≠ s := by
      rintro rfl
      exact hb.2 hbm
    refine ⟨m, by rw [hr.inodes, Finset.mem_erase]; exact ⟨hms, hm⟩, ?_⟩
    rw [hinode, hdisk]
    exact hbm

/-- `rm`: one name less; the count goes down, or the inode goes with its blocks. -/
theorem unlinked (h : Clean fs) {name : Name} {s : ℤ} (hu : Unlinks name fs s fs') :
    Clean fs' := by
  have hs := (h.found hu.found hu.source.1).1
  have hd := h.drops hu
  rcases hu.rest with ⟨hne1, hr⟩ | ⟨h1, bs, hr, hbs⟩
  · exact h.dropped_link hs hu.type hd hne1 hr
  · rw [hbs (h.not_outOfDisk hs)] at hr
    exact h.dropped_last hs hu.type hd h1 hr

end Clean

theorem clean_format : Clean format := by
  have hlist : format.curDir.listing = [(dot.bytes, 0)] := by
    rw [curDir_format]
    decide +kernel
  have hnamed : named format.curDir = [0] := by rw [named, hlist]; rfl
  refine ⟨owned_format, ⟨?_, ?_, ?_, ?_, ?_, ?_⟩, ?_⟩
  · rw [curDir_format]
    exact ⟨by decide, by decide⟩
  · rw [hlist]
    rfl
  · rw [hlist]
    exact List.nodup_singleton _
  · intro n
    rw [usedInodes_format, hnamed, Finset.mem_singleton, List.mem_singleton]
  · intro n hn htype
    rw [usedInodes_format, Finset.mem_singleton] at hn
    subst hn
    rw [inode_format, Function.update_self] at htype
    cases htype
  · rw [inode_format, Function.update_self]
    rfl
  · intro b hb h131
    refine ⟨0, by rw [usedInodes_format]; exact Finset.mem_singleton_self _, ?_⟩
    rw [mem_usedBlocks_format] at hb
    have he : b = 131 := by omega
    have hroot : format.inode 0 = rootInode := by rw [inode_format, Function.update_self]
    rw [he, hroot, blocksOf_of_size_one _ rfl]
    decide

/-- The commands on files. -/
def Command.OnFiles : Command → Prop
  | .create _ _ | .cp _ _ | .ln _ _ | .rm _ | .cat _ => True
  | .mkdir _ | .rmdir _ | .cd _ => False

namespace Clean

theorem copy_defined (h : Clean fs) (src : Name) : ¬(¬fs.curDir.Fits ∨ OutOfTable src fs) := by
  rintro (hn | hn)
  · exact hn h.fits
  · exact h.not_outOfTable src hn

theorem link_defined (h : Clean fs) (src dest : Name) :
    ¬(¬fs.curDir.Fits ∨ OutOfTable src fs ∨ OutOfTable dest fs) := by
  rintro (hn | hn | hn)
  · exact hn h.fits
  · exact h.not_outOfTable src hn
  · exact h.not_outOfTable dest hn

theorem remove_defined (h : Clean fs) (name : Name) : ¬(¬fs.curDir.Fits ∨ OutOfTable name fs ∨
    ∃ s, fs.searchCurDir name = some s ∧ 0 ≤ s ∧ OutOfDisk (fs.inode s) fs) := by
  rintro (hn | hn | ⟨s, hs, h0, hn⟩)
  · exact hn h.fits
  · exact h.not_outOfTable name hn
  · exact h.not_outOfDisk (h.found hs h0).1 hn

/-- `cat` prints what a named regular file holds, and refuses everything else. -/
theorem cat_cases (h : Clean fs) (env : Env) (name : Name) :
    (∃ r, fileCat env name fs = some (r, fs) ∧ r.ret = -1 ∧
      ∀ s, fs.searchCurDir name = some s → s < 0 ∨ (fs.inode s).type = .directory) ∨
    ∃ s, fs.searchCurDir name = some s ∧ s ∈ usedInodes fs ∧ (fs.inode s).type = .file ∧
      fileCat env name fs = some (⟨0, [("%s\n", [.s ((content fs.disk (fs.inode s)).takeWhile
        (· ≠ 0))])]⟩, fs) := by
  have hs := h.search name
  obtain ⟨s, he⟩ : ∃ s, s = Dentry.find fs.curDir.listing name := ⟨_, rfl⟩
  rw [← he] at hs
  by_cases h0 : s < 0
  · left
    have h1 : s = -1 := by
      by_contra hne
      exact h.not_outOfTable name ⟨s, hs, hne, by omega⟩
    obtain ⟨r, hr, hret⟩ := fileCat_refused env hs (Or.inl h1)
    refine ⟨r, hr, hret, fun t ht => Or.inl ?_⟩
    rw [hs, Option.some_inj] at ht
    omega
  · have hused := (h.found hs (by omega)).1
    cases htype : (fs.inode s).type with
    | file => exact Or.inr ⟨s, hs, hused, htype, fileCat_file h.toOwned hs hused htype⟩
    | directory =>
      left
      obtain ⟨r, hr, hret⟩ := fileCat_refused env hs
        (Or.inr ⟨mem_usedInodes_range hused, htype⟩)
      refine ⟨r, hr, hret, fun t ht => Or.inr ?_⟩
      rw [hs, Option.some_inj] at ht
      exact ht ▸ htype

theorem creates (h : Clean fs) {name : Name} {size : Int32} {n : ℤ} {nd : Inode}
    (hn : Creates env name size fs n nd fs') : Clean fs' := by
  refine h.added hn.toAdded hn.missing hn.room hn.entry hn.linkCount ?_ ?_
  · rw [hn.size_eq]
    exact ⟨hn.size_pos, hn.size_le⟩
  · rw [hn.type]
    intro hd
    cases hd

theorem copies (h : Clean fs) {src dest : Name} {s n : ℤ} {nd : Inode}
    (hn : Copies src dest fs s n nd fs') : Clean fs' := by
  obtain ⟨hs, -⟩ := h.found hn.found hn.source.1
  refine h.added hn.toAdded hn.missing hn.room hn.entry hn.linkCount ?_ ?_
  · rw [hn.size_eq]
    exact ⟨h.size_pos s hs, (h.sane.size s).2⟩
  · rw [hn.type, hn.size_eq, hn.blockCount]
    exact h.directory s hs

/-- In a clean root directory a file command is defined, and leaves it clean. -/
theorem of_step (h : Clean fs) (env : Env) {cmd : Command} (hf : cmd.OnFiles) :
    ∃ r fs', execute fs (env, cmd) = some (r, fs') ∧ Clean fs' := by
  cases cmd with
  | mkdir name => exact hf.elim
  | rmdir name => exact hf.elim
  | cd name => exact hf.elim
  | create name size =>
    rcases (fileCreate_outcome env name size h.sane.counted).total (not_not.mpr h.fits)
      with ⟨r, hx, -⟩ | ⟨r, fs', hx, -, n, nd, hn⟩
    · exact ⟨r, fs, hx, h⟩
    · exact ⟨r, fs', hx, h.creates hn⟩
  | cat name =>
    rcases h.cat_cases env name with ⟨r, hx, -⟩ | ⟨s, -, -, -, hx⟩
    · exact ⟨r, fs, hx, h⟩
    · exact ⟨_, fs, hx, h⟩
  | rm name =>
    rcases (fileRemove_outcome env name h.sane).total (h.remove_defined name)
      with ⟨r, hx, -⟩ | ⟨r, fs', hx, -, s, hs⟩
    · exact ⟨r, fs, hx, h⟩
    · exact ⟨r, fs', hx, h.unlinked hs⟩
  | ln src dest =>
    rcases (hardLink_outcome env src dest).total (h.link_defined src dest)
      with ⟨r, hx, -⟩ | ⟨r, fs', hx, -, s, hs⟩
    · exact ⟨r, fs, hx, h⟩
    · exact ⟨r, fs', hx, h.linked hs⟩
  | cp src dest =>
    rcases (fileCopy_outcome env src dest h.sane).total (h.copy_defined src)
      with ⟨r, hx, -⟩ | ⟨r, fs', hx, -, s, n, nd, hn⟩
    · exact ⟨r, fs, hx, h⟩
    · exact ⟨r, fs', hx, h.copies hn⟩

end Clean

/-- What a check of the disk looks for. -/
structure FsckClean (fs : FileSystem) : Prop where
  distinct : ∀ n ∈ usedInodes fs, (blocksOf fs.disk (fs.inode n)).Nodup
  data : ∀ n ∈ usedInodes fs, ∀ b ∈ blocksOf fs.disk (fs.inode n), ¬(0 ≤ b ∧ b ≤ 130) ∧ b ∈ usedBlocks fs
  apart : ∀ n ∈ usedInodes fs, ∀ m ∈ usedInodes fs, n ≠ m →
    (blocksOf fs.disk (fs.inode n)).Disjoint (blocksOf fs.disk (fs.inode m))
  noLeak : ∀ b ∈ usedBlocks fs, 131 ≤ b → ∃ n ∈ usedInodes fs, b ∈ blocksOf fs.disk (fs.inode n)
  named : ∀ n, n ∈ usedInodes fs ↔ ∃ name, (name, n) ∈ fs.curDir.listing
  links : ∀ n ∈ usedInodes fs, (fs.inode n).type = .file →
    (fs.inode n).linkCount.toInt = fs.curDir.listing.countP fun e => e.2 = n

theorem Clean.fsck (h : Clean fs) : FsckClean fs := by
  refine ⟨h.nodup, fun n hn b hb => ⟨?_, (h.data n hn b hb).2⟩, ?_, h.noLeak, fun n => ?_, ?_⟩
  · have := (h.data n hn b hb).1
    omega
  · intro n hn m hm hne b hb
    exact h.disjoint n hn m hm hne b hb
  · rw [h.allocated, FS.named, List.mem_map]
    constructor
    · rintro ⟨e, he, rfl⟩
      exact ⟨e.1, he⟩
    · rintro ⟨name, hn⟩
      exact ⟨(name, n), hn, rfl⟩
  · intro n hn htype
    rw [h.links n hn htype, FS.named, List.count, List.countP_map]
    congr 1

/-- File commands in the root of a fresh disk are never undefined, and keep the disk clean. -/
theorem file_commands_keep_clean (inputs : List (Env × Command))
    (hf : ∀ i ∈ inputs, i.2.OnFiles) :
    ∃ replies fs, Mealy.run execute format inputs = some (replies, fs) ∧ FsckClean fs := by
  obtain ⟨replies, fs, hrun, -, h⟩ := Mealy.total (fun _ i => i.2.OnFiles) Clean (fun _ => True)
    (fun fs i h hok => by
      obtain ⟨r, fs', hx, h'⟩ := h.of_step i.1 hok
      exact ⟨r, fs', hx, trivial, h'⟩)
    clean_format (Mealy.meets_of_forall execute _ format inputs fun _ i hi => hf i hi)
  exact ⟨replies, fs, hrun, h.fsck⟩

theorem file_commands_keep_clean_create : ∃ replies fs, Mealy.run execute format
    [(Env.zeroed, .create dotDot 8000), (Env.zeroed, .cp dotDot ⟨[99], by decide, by decide⟩),
      (Env.zeroed, .rm dotDot)] = some (replies, fs) ∧ FsckClean fs :=
  file_commands_keep_clean _ (by simp [Command.OnFiles])

end OperatingSystems.FS
