import OperatingSystems.FSTable

/-! The commands on the disk and on the table: the same texts, and the table stays on the disk. -/
namespace OperatingSystems.FS

variable {fs fs' : FileSystem} {t : Table} {ctx : Context}

namespace Table

variable (t)

theorem numbers_add (name : Name) (c : List Byte) :
    (t.add name c).numbers = t.numbers ++ [t.fresh] := List.map_append

theorem fresh_notMem : t.fresh ∉ t.numbers := Nat.find_spec t.exists_fresh

end Table

namespace Holds

theorem zero_mem (h : Holds fs t) : 0 ∈ t.numbers := h.mem_used.mp h.clean.root_used

/-- `get_inode` takes the least number that is free. -/
theorem fresh_eq (h : Holds fs t) {n : ℤ} {nd : Inode} (ha : Added fs n nd fs') : n = t.fresh := by
  obtain ⟨k, rfl⟩ := Int.eq_ofNat_of_zero_le ha.range.1
  have hk : t.fresh = k := by
    apply (Nat.find_eq_iff _).mpr
    refine ⟨fun hmem => ha.fresh (h.mem_used.mpr hmem), fun m hm hmem => hmem ?_⟩
    exact h.mem_used.mp (ha.first m (Int.natCast_nonneg m) (Int.ofNat_lt.mpr hm))
  rw [hk]

theorem getInode_eq (h : Holds fs t) {n : ℤ} {nd : Inode} (ha : Added fs n nd fs') :
    fs.getInode.1 = t.fresh := by
  rw [← h.fresh_eq ha]
  rcases getInode_cases h.clean.sane.counted with ⟨h0, -⟩ | ⟨m, hm, hfresh, hfirst, hg⟩
  · have hinodes := h.clean.plenty.2
    omega
  · -- Two numbers are free with none below them free.
    rw [hg]
    rcases lt_trichotomy m n with hlt | heq | hgt
    · exact absurd (ha.first m hm.1 hlt) hfresh
    · exact heq
    · exact absurd (hfirst n ha.range.1 hgt) ha.fresh

theorem lookup_passes (h : Holds fs t) {name : Name} (hl : ¬(t.lookup name).isSome) :
    ∃ f, fs.searchCurDir name = some f ∧ ¬f ≥ 0 := by
  rw [Option.not_isSome_iff_eq_none] at hl
  exact ⟨-1, h.search_none hl, by decide⟩

/-- A fresh inode behind a fresh name. -/
theorem added (h : Holds fs t) {name : Name} {n : ℤ} {nd : Inode} {c : List Byte}
    (ha : Added fs n nd fs') (hclean : Clean fs') (hroom : ¬fs.curDir.Full)
    (hentry : fs.curDir.append name n = some fs'.curDir) (htype : nd.type = .file)
    (hcount : nd.blockCount = Int32.ofInt (numBlock nd.size.toInt))
    (hcontent : content fs'.disk nd = c) (h0 : 0 ∉ c) : Holds fs' (t.add name c) := by
  obtain ⟨-, hl⟩ := Dentry.appended hentry hroom ha.range
  have hn := h.fresh_eq ha
  have hold (m : ℕ) (hm : m ∈ t.numbers) : m ≠ t.fresh ∧ fs'.inode m = fs.inode m := by
    have hne : m ≠ t.fresh := fun he => t.fresh_notMem (he ▸ hm)
    have hcast : (m : ℤ) ≠ n := by omega
    exact ⟨hne, by rw [ha.inode, Function.update_of_ne hcast]⟩
  have hroot : fs'.inode 0 = fs.inode 0 := (hold 0 h.zero_mem).2
  have hfresh : t.fresh ≠ 0 := (hold 0 h.zero_mem).1.symm
  refine ⟨hclean, ?_, ?_, ?_, ?_, ?_, ?_, ?_⟩
  · rw [hl, h.listing, hn, Table.add, List.map_append]
    rfl
  · intro m hm hm0
    rw [t.numbers_add, List.mem_append, List.mem_singleton] at hm
    rcases hm with hm | rfl
    · obtain ⟨hne, hinode⟩ := hold m hm
      have hfile := h.file m hm hm0
      have hsame := h.clean.content_eq (fun b hb => ha.disk_used hb) (h.mem_used.mpr hm)
      rw [hinode, Table.add]
      simp only [Function.update_of_ne hne]
      rw [hsame]
      exact hfile
    · have hinode : fs'.inode t.fresh = nd := by rw [← hn, ha.inode, Function.update_self]
      rw [hinode, Table.add]
      simp only [Function.update_self]
      exact ⟨htype, hcount, hcontent, h0⟩
  · intro e he he0
    rcases List.mem_append.mp he with he | he
    · exact h.rootName e he he0
    · rw [List.mem_singleton.mp he] at he0
      exact absurd he0 hfresh
  · rw [hroot]
    exact h.rootLinks
  · rw [hroot]
    exact h.rootBlock
  · rw [ha.curDirInode]
    exact h.curDirInode
  · rw [ha.magic]
    exact h.magic

/-- Link counts, marks and entries change, the files stay. -/
theorem kept (h : Holds fs t) {u : Table} (hclean : Clean fs')
    (hlisting : fs'.curDir.listing = u.entries.map fun e => (e.1.bytes, (e.2 : ℤ)))
    (hnumbers : ∀ e ∈ u.entries, e ∈ t.entries ∨ e.2 ∈ t.numbers ∧ e.2 ≠ 0)
    (hcontent : u.content = t.content)
    (hdisk : fs'.disk = fs.disk) (hroot : fs'.inode 0 = fs.inode 0)
    (hsame : ∀ n, fs'.inode n = { fs.inode n with linkCount := (fs'.inode n).linkCount })
    (hblock : fs'.curDirInode = fs.curDirInode)
    (hmagic : fs'.superBlock.magicNumber = fs.superBlock.magicNumber) : Holds fs' u := by
  refine ⟨hclean, hlisting, ?_, ?_, ?_, ?_, ?_, ?_⟩
  · intro n hn hn0
    obtain ⟨e, he, rfl⟩ := List.mem_map.mp hn
    have hold : e.2 ∈ t.numbers := by
      rcases hnumbers e he with hmem | hmem
      · exact List.mem_map_of_mem hmem
      · exact hmem.1
    have hfile := h.file e.2 hold hn0
    rw [hsame e.2, hdisk, hcontent]
    exact hfile
  · intro e he he0
    rcases hnumbers e he with hmem | hmem
    · exact h.rootName e hmem he0
    · exact absurd he0 hmem.2
  · rw [hroot]
    exact h.rootLinks
  · rw [hroot]
    exact h.rootBlock
  · rw [hblock]
    exact h.curDirInode
  · rw [hmagic]
    exact h.magic

theorem linked (h : Holds fs t) {src dest : Name} {n : ℕ} (hn : n ∈ t.numbers)
    (hk : Links src dest fs n fs') : Holds fs' (t.link dest n) := by
  obtain ⟨-, hl⟩ := Dentry.appended hk.entry hk.room hk.source
  have hinode : fs'.inode = Function.update fs.inode n
      { fs.inode n with linkCount := (fs.inode n).linkCount + 1 } := by rw [hk.rest]
  have hne : (0 : ℤ) ≠ n := (h.clean.ne_root hk.type).symm
  apply h.kept (h.clean.linked hk)
  · rw [hl, h.listing, Table.link, List.map_append]
    rfl
  · intro e he
    rcases List.mem_append.mp he with he | he
    · exact Or.inl he
    · rw [List.mem_singleton.mp he]
      exact Or.inr ⟨hn, (h.type_iff hn).mp hk.type⟩
  · rfl
  · rw [hk.rest]
  · rw [hinode, Function.update_of_ne hne]
  · exact inode_relinked hinode
  · rw [hk.rest]
  · rw [hk.rest]

theorem unlinked (h : Holds fs t) {name : Name} {n : ℕ} (hu : Unlinks name fs n fs') :
    Holds fs' (t.remove name) := by
  obtain ⟨after, hentry⟩ := hu.entry
  obtain ⟨-, hl⟩ := Dentry.removed hentry h.clean.fits
  have hne : (0 : ℤ) ≠ n := (h.clean.ne_root hu.type).symm
  have hlisting : fs'.curDir.listing =
      (t.remove name).entries.map fun e => (e.1.bytes, (e.2 : ℤ)) := by
    rw [hl, h.listing, List.eraseP_map, entry_named, Table.remove]
  have hentries : ∀ e ∈ (t.remove name).entries, e ∈ t.entries ∨ e.2 ∈ t.numbers ∧ e.2 ≠ 0 :=
    fun e he => Or.inl (List.mem_of_mem_eraseP he)
  -- the last name gives the blocks back, another one only counts down
  rcases hu.rest with ⟨-, hr⟩ | ⟨-, bs, hr, -⟩
  · have hinode : fs'.inode = Function.update fs.inode n
        { fs.inode n with linkCount := (fs.inode n).linkCount - 1 } := by rw [hr]
    apply h.kept (h.clean.unlinked hu) hlisting hentries rfl
    · rw [hr]
    · rw [hinode, Function.update_of_ne hne]
    · exact inode_relinked hinode
    · rw [hr]
    · rw [hr]
  · have hinode : fs'.inode = fs.inode := by rw [hr.rest]
    apply h.kept (h.clean.unlinked hu) hlisting hentries rfl
    · rw [hr.rest]
    · rw [hinode]
    · intro m
      rw [hinode]
    · rw [hr.rest]
    · rw [hr.rest]

/-! ### The texts -/

end Holds

theorem stringOf_randString (env : Env) (size : Int32) :
    stringOf (randString env size.toInt.toNat) size.toInt.toNat = generated env size := by
  apply List.takeWhile_eq_self_iff.mpr
  intro b hb
  have hne : b ≠ 0 := fun h0 => zero_not_mem_generated env size (h0 ▸ hb)
  simpa using hne

theorem fileCreate_text {env : Env} {name : Name} {size : Int32} {r : Reply}
    (hpass : CreatePasses name size fs) (hx : fileCreate env name size fs = some (r, fs'))
    (hret : r.ret = 0) : r = ⟨0, [("File contents:\n%s\n", [.s (generated env size)]),
      ("File created. name: %s, inode: %d, size: %d\n",
        [.s name.bytes, .d fs.getInode.1, .d size.toInt])]⟩ := by
  obtain ⟨hsize, ⟨f, hs, hf⟩, hroom, hi, hb⟩ := hpass
  unfold fileCreate at hx
  simp only [hs, Option.bind_some] at hx
  rw [if_neg hsize, if_neg hf, if_neg hroom, if_neg hi, if_neg hb, stringOf_randString] at hx
  -- what can still go wrong answers -1
  split_ifs at hx with hn
  · obtain ⟨rfl, -⟩ := Prod.mk.inj (Option.some.inj hx)
    cases hret
  obtain ⟨curDir, -, hx⟩ := Option.bind_eq_some_iff.mp hx
  obtain ⟨filled, -, hx⟩ := Option.map_eq_some_iff.mp hx
  split_ifs at hx with hok
  · obtain ⟨rfl, -⟩ := Prod.mk.inj hx
    cases hret
  · exact (Prod.mk.inj hx).1.symm

/-- A loop that gets all its blocks has been through the map exactly for a big file. -/
theorem fillInode_indirect_eq {env : Env} {fetch : FileSystem → Fin 15 → Block → Block}
    {fetchIndirect : FileSystem → FileSystem → Fin 128 → Block → Block} {nd : Inode}
    {filled : Filled} (hx : fillInode env fetch fetchIndirect nd fs = some filled)
    (hok : ¬filled.ok = false) : filled.indirect = decide (nd.size.toInt > 7680) := by
  unfold fillInode at hx
  obtain ⟨direct, -, hx⟩ := Option.bind_eq_some_iff.mp hx
  by_cases hdirect : direct.ok = false
  · rw [if_pos hdirect] at hx
    rw [← Option.some.inj hx] at hok
    exact absurd rfl hok
  rw [if_neg hdirect] at hx
  by_cases hsize : nd.size.toInt > 7680
  · rw [if_pos hsize] at hx
    rw [decide_eq_true hsize]
    dsimp only at hx
    by_cases hblock : direct.fs.getBlock.1 = -1
    · rw [if_pos hblock] at hx
      rw [← Option.some.inj hx] at hok
      exact absurd rfl hok
    rw [if_neg hblock] at hx
    obtain ⟨indirect, -, rfl⟩ := Option.map_eq_some_iff.mp hx
    split_ifs <;> rfl
  · rw [if_neg hsize] at hx
    rw [decide_eq_false hsize, ← Option.some.inj hx]

theorem fileCopy_text {env : Env} {src dest : Name} {r : Reply} {s : ℤ}
    (hs : fs.searchCurDir src = some s) (hpass : CopyPasses src dest fs)
    (hx : fileCopy env src dest fs = some (r, fs')) (hret : r.ret = 0) :
    r = ⟨0, (if (fs.inode s).size.toInt > 7680 then [("3\n", [])] else []) ++
      [("File copy success: copied %s to %s.\n", [.s src.bytes, .s dest.bytes])]⟩ := by
  obtain ⟨⟨s', hs', hrange, hb⟩, ⟨f, hd, hf⟩, hroom, hi⟩ := hpass
  obtain rfl : s = s' := Option.some.inj (hs.symm.trans hs')
  unfold fileCopy at hx
  simp only [hs, hd, readInode_of_range hrange, Option.bind_some] at hx
  rw [if_neg (show ¬s < 0 by omega), if_neg hf, if_neg hroom, if_neg hi, if_neg hb] at hx
  split_ifs at hx with hn
  · obtain ⟨rfl, -⟩ := Prod.mk.inj (Option.some.inj hx)
    cases hret
  obtain ⟨filled, hfilled, hx⟩ := Option.bind_eq_some_iff.mp hx
  by_cases hok : filled.ok = false
  · rw [if_pos hok] at hx
    obtain ⟨rfl, -⟩ := Prod.mk.inj (Option.some.inj hx)
    cases hret
  · rw [if_neg hok] at hx
    obtain ⟨curDir, -, hx⟩ := Option.map_eq_some_iff.mp hx
    rw [← (Prod.mk.inj hx).1, fillInode_indirect_eq hfilled hok]
    simp only [decide_eq_true_eq]

theorem fileRemove_text {env : Env} {name : Name} {r : Reply}
    (hx : fileRemove env name fs = some (r, fs')) (hret : r.ret = 0) : r = ⟨0, []⟩ := by
  unfold fileRemove at hx
  obtain ⟨s, -, hx⟩ := Option.bind_eq_some_iff.mp hx
  obtain ⟨nd, -, hx⟩ := Option.bind_eq_some_iff.mp hx
  split_ifs at hx
  any_goals
    obtain ⟨rfl, -⟩ := Prod.mk.inj (Option.some.inj hx)
    cases hret
  all_goals
    obtain ⟨dir, -, hx⟩ := Option.bind_eq_some_iff.mp hx
  · obtain ⟨fs₁, -, hx⟩ := Option.map_eq_some_iff.mp hx
    exact (Prod.mk.inj hx).1.symm
  · exact (Prod.mk.inj (Option.some.inj hx)).1.symm

namespace Holds

/-- Twenty-one inodes never fill the disk, so only the name and the directory are in the way. -/
theorem create_step (h : Holds fs t) (env : Env) (name : Name) (size : Int32) :
    ∃ fs', fileCreate env name size fs = some ((t.create env name size).1, fs') ∧
      Holds fs' (t.create env name size).2 := by
  unfold Table.create
  by_cases hsize : size.toInt ≤ 0 ∨ size.toInt > 73216
  · rw [if_pos hsize]
    exact ⟨fs, by rw [fileCreate, if_pos hsize], h⟩
  rw [if_neg hsize]
  by_cases hl : (t.lookup name).isSome
  · obtain ⟨n, hn⟩ := Option.isSome_iff_exists.mp hl
    rw [if_pos hl]
    refine ⟨fs, ?_, h⟩
    rw [fileCreate, if_neg hsize, h.search_some hn, Option.bind_some]
    exact if_pos (Int.natCast_nonneg n)
  rw [if_neg hl]
  obtain ⟨f, hs, hf⟩ := h.lookup_passes hl
  by_cases hfull : t.Full
  · rw [if_pos hfull]
    refine ⟨fs, ?_, h⟩
    rw [fileCreate, if_neg hsize, hs, Option.bind_some]
    dsimp only
    rw [if_neg hf, if_pos (h.full_iff.mpr hfull)]
  rw [if_neg hfull]
  have hnum := numBlock_spec size.toInt
  have hplenty := h.clean.plenty
  have hpass : CreatePasses name size fs := by
    refine ⟨hsize, ⟨f, hs, hf⟩, fun hc => hfull (h.full_iff.mp hc), by omega, ?_⟩
    split_ifs <;> omega
  rcases (fileCreate_passed env h.clean.sane.counted hpass).total (not_not.mpr h.clean.fits)
    with ⟨-, -, -, hfalse⟩ | ⟨r, fs', hx, hret, n, nd, hn⟩
  · exact hfalse.elim
  have htext := fileCreate_text hpass hx hret
  rw [h.getInode_eq hn.toAdded] at htext
  have hcontent : content fs'.disk nd = generated env size := by
    have hpos := hn.size_pos
    rw [content_of_chunks (by rw [hn.size_eq]; omega) hn.data, hn.size_eq]
    rfl
  refine ⟨fs', by rw [hx, htext], ?_⟩
  apply h.added hn.toAdded (h.clean.creates hn) hn.room hn.entry hn.type _ hcontent
    (zero_not_mem_generated env size)
  rw [hn.blockCount, hn.size_eq]

/-- Every name can be searched, and the inode read that the search answers. -/
theorem searched (h : Holds fs t) (env : Env) (name : Name) : ∃ s nd,
    fs.searchCurDir name = some s ∧ fs.readInode env s = some nd ∧
      (s ≥ 0 ↔ (t.lookup name).isSome) ∧
      ∀ n, t.lookup name = some n → s = n ∧ nd = fs.inode n := by
  cases hl : t.lookup name with
  | none =>
    refine ⟨-1, env.beforeInode, h.search_none hl, ?_, by simp, fun n hn => by cases hn⟩
    rw [FileSystem.readInode, if_pos rfl]
  | some n =>
    refine ⟨n, fs.inode n, h.search_some hl, readInode_of_range (h.range (mem_numbers hl)), ?_, ?_⟩
    · simp
    · intro m hm
      rw [← Option.some.inj hm]
      exact ⟨rfl, rfl⟩

theorem cat_step (h : Holds fs t) (env : Env) (name : Name) :
    fileCat env name fs = some (t.cat name, fs) := by
  obtain ⟨s, nd, hs, hread, hsome, hval⟩ := h.searched env name
  unfold Table.cat
  cases hl : t.lookup name with
  | none =>
    have hneg : s < 0 := by simpa [hl] using hsome
    rw [fileCat, hs, Option.bind_some, hread, Option.bind_some]
    exact if_pos hneg
  | some n =>
    obtain ⟨rfl, rfl⟩ := hval n hl
    have hn := mem_numbers hl
    by_cases h0 : n = 0
    · have hdir : (fs.inode n).type = .directory := by
        rw [h0]
        exact h.clean.root
      rw [fileCat, hs, Option.bind_some, hread, Option.bind_some]
      dsimp only
      rw [if_neg (by omega), if_pos hdir, if_pos h0]
    · obtain ⟨htype, -, hcontent, hzero⟩ := h.file n hn h0
      have hall : (t.content n).takeWhile (· ≠ 0) = t.content n := by
        apply List.takeWhile_eq_self_iff.mpr
        intro b hb
        have hne : b ≠ 0 := fun he => hzero (he ▸ hb)
        simpa using hne
      rw [fileCat_file h.clean.toOwned hs (h.mem_used.mpr hn) htype, hcontent, hall]
      dsimp only
      rw [if_neg h0]

theorem ln_step (h : Holds fs t) (env : Env) (src dest : Name) :
    ∃ fs', hardLink env src dest fs = some ((t.ln src dest).1, fs') ∧
      Holds fs' (t.ln src dest).2 := by
  obtain ⟨s, nd, hs, hread, hsome, hval⟩ := h.searched env src
  obtain ⟨f, _, hd, hread', hsome', -⟩ := h.searched env dest
  unfold Table.ln
  rw [hardLink]
  simp only [hs, hd, hread, hread', Option.bind_some]
  cases hl : t.lookup src with
  | none =>
    have hneg : s < 0 := by simpa [hl] using hsome
    rw [if_pos hneg]
    exact ⟨fs, rfl, h⟩
  | some n =>
    obtain ⟨rfl, rfl⟩ := hval n hl
    have hn := mem_numbers hl
    have hrange := h.range hn
    rw [if_neg (by omega)]
    dsimp only
    by_cases hbound : (t.lookup dest).isSome
    · rw [if_pos (hsome'.mpr hbound), if_pos hbound]
      exact ⟨fs, rfl, h⟩
    have hf : ¬f ≥ 0 := mt hsome'.mp hbound
    rw [if_neg hf, if_neg hbound]
    by_cases h0 : n = 0
    · have hdir : (fs.inode n).type = .directory := by
        rw [h0]
        exact h.clean.root
      rw [if_pos hdir, if_pos h0]
      exact ⟨fs, rfl, h⟩
    have htype := (h.type_iff hn).mpr h0
    have hdir : ¬(fs.inode n).type = .directory := by rw [htype]; decide
    rw [if_neg hdir, if_neg h0]
    by_cases hfull : t.Full
    · rw [if_pos (h.full_iff.mpr hfull), if_pos hfull]
      exact ⟨fs, rfl, h⟩
    have hroom : ¬fs.curDir.Full := mt h.full_iff.mp hfull
    have hplenty := h.clean.plenty
    have hsize := h.size_le hn
    have hcount := h.blockCount_eq hn
    unfold Table.blockCount at hcount
    rw [if_neg hroom, if_neg hfull, if_neg (by omega), if_neg (by omega)]
    obtain ⟨dir, hdir', -⟩ := Dentry.append_listing h.clean.fits hroom dest (n := n)
      ⟨by omega, by omega⟩
    have hlinks : Links src dest fs n { fs.writeInode n
        { fs.inode n with linkCount := (fs.inode n).linkCount + 1 } with curDir := dir } :=
      ⟨hs, hrange, ⟨f, hd, by omega⟩, hroom, htype, hdir', rfl⟩
    exact ⟨_, congrArg (Option.map _) hdir', h.linked hn hlinks⟩

theorem rm_step (h : Holds fs t) (env : Env) (name : Name) :
    ∃ fs', fileRemove env name fs = some ((t.rm name).1, fs') ∧ Holds fs' (t.rm name).2 := by
  obtain ⟨s, nd, hs, hread, hsome, hval⟩ := h.searched env name
  have hout := (fileRemove_outcome env name h.clean.sane).total (h.clean.remove_defined name)
  unfold Table.rm
  cases hl : t.lookup name with
  | none =>
    have hneg : s < 0 := by simpa [hl] using hsome
    refine ⟨fs, ?_, h⟩
    rw [fileRemove, hs, Option.bind_some, hread, Option.bind_some]
    exact if_pos hneg
  | some n =>
    obtain ⟨rfl, rfl⟩ := hval n hl
    have hn := mem_numbers hl
    dsimp only
    by_cases h0 : n = 0
    · have hdir : (fs.inode n).type = .directory := by
        rw [h0]
        exact h.clean.root
      rw [if_pos h0]
      refine ⟨fs, ?_, h⟩
      rw [fileRemove, hs, Option.bind_some, hread, Option.bind_some]
      rw [if_neg (by omega), if_pos hdir]
    rw [if_neg h0]
    have htype := (h.type_iff hn).mpr h0
    rcases hout with ⟨-, -, -, m, hm, hwhy⟩ | ⟨r, fs', hx, hret, m, hu⟩
    · -- the inode is a file's, and the directory has at least its own entry
      exfalso
      obtain rfl : (n : ℤ) = m := Option.some.inj (hs.symm.trans hm)
      have hlen := List.length_pos_of_mem hn
      have hlisting := congrArg List.length h.listing
      have hcoe := h.clean.fits.coe_count
      rw [Dentry.length_listing, List.length_map] at hlisting
      rw [Table.numbers, List.length_map] at hlen
      rcases hwhy with hw | hw | hw
      · omega
      · rw [htype] at hw
        cases hw
      · rw [hw] at hcoe
        change _ = (0 : ℤ) at hcoe
        omega
    · obtain rfl : (n : ℤ) = m := Option.some.inj (hs.symm.trans hu.found)
      have htext := fileRemove_text hx hret
      exact ⟨fs', by rw [hx, htext], h.unlinked hu⟩

/-- No other name is bound to the root. -/
theorem ne_zero (h : Holds fs t) {name : Name} (hname : name ≠ dot) {n : ℕ}
    (hl : t.lookup name = some n) : n ≠ 0 := by
  obtain ⟨e, he, rfl⟩ := Option.map_eq_some_iff.mp hl
  have hfound : e.1 = name := by simpa using List.find?_some he
  intro h0
  exact hname (hfound.symm.trans (h.rootName e (List.mem_of_find?_eq_some he) h0))

theorem cp_step (h : Holds fs t) (env : Env) {src : Name} (hsrc : src ≠ dot) (dest : Name) :
    ∃ fs', fileCopy env src dest fs = some ((t.cp src dest).1, fs') ∧
      Holds fs' (t.cp src dest).2 := by
  obtain ⟨s, nd, hs, hread, hsome, hval⟩ := h.searched env src
  obtain ⟨f, _, hd, -, hsome', -⟩ := h.searched env dest
  unfold Table.cp
  cases hl : t.lookup src with
  | none =>
    have hneg : s < 0 := by simpa [hl] using hsome
    refine ⟨fs, ?_, h⟩
    rw [fileCopy]
    simp only [hs, hd, hread, Option.bind_some]
    exact if_pos hneg
  | some n =>
    obtain ⟨rfl, rfl⟩ := hval n hl
    have hn := mem_numbers hl
    have hrange := h.range hn
    dsimp only
    by_cases hbound : (t.lookup dest).isSome
    · rw [if_pos hbound]
      refine ⟨fs, ?_, h⟩
      rw [fileCopy]
      simp only [hs, hd, hread, Option.bind_some]
      rw [if_neg (by omega), if_pos (hsome'.mpr hbound)]
    have hf : ¬f ≥ 0 := mt hsome'.mp hbound
    rw [if_neg hbound]
    by_cases hfull : t.Full
    · rw [if_pos hfull]
      refine ⟨fs, ?_, h⟩
      rw [fileCopy]
      simp only [hs, hd, hread, Option.bind_some]
      rw [if_neg (by omega), if_neg hf, if_pos (h.full_iff.mpr hfull)]
    rw [if_neg hfull]
    have hroom : ¬fs.curDir.Full := mt h.full_iff.mp hfull
    have hplenty := h.clean.plenty
    have hsize := h.size_eq hn
    have hle := h.size_le hn
    have hnum := h.numBlock_eq hn
    have hpass : CopyPasses src dest fs := by
      refine ⟨⟨n, hs, hrange, ?_⟩, ⟨f, hd, hf⟩, hroom, by omega⟩
      unfold Table.blockCount at hnum
      omega
    rcases (fileCopy_passed env h.clean.sane hpass).total (h.clean.copy_defined src)
      with ⟨-, -, -, hfalse⟩ | ⟨r, fs', hx, hret, m, k, nd, hc⟩
    · exact hfalse.elim
    obtain rfl : (n : ℤ) = m := Option.some.inj (hs.symm.trans hc.found)
    have htext := fileCopy_text hs hpass hx hret
    have hbig : (fs.inode n).size.toInt > 7680 ↔ 7680 < t.size n := by omega
    simp only [hbig] at htext
    obtain ⟨htype, hcount, hcontent, hzero⟩ := h.file n hn (h.ne_zero hsrc hl)
    refine ⟨fs', by rw [hx, htext], ?_⟩
    apply h.added hc.toAdded (h.clean.copies hc) hroom hc.entry (hc.type.trans htype) _ _ hzero
    · rw [hc.blockCount, hc.size_eq]
      exact hcount
    · rw [← hcontent]
      apply content_of_blocks hc.size_eq (h.clean.sane.size n).1
      exact hc.data fun b hb => (h.clean.data n (h.mem_used.mpr hn) b hb).2

/-- One request: the disk and the table give the same reply, and the disk goes on holding the
table. -/
theorem step (h : Holds fs t) (i : Context × Request) (hok : Table.InRoot i.2) :
    ∃ fs', perform fs i = some ((t.step i).1, fs') ∧ Holds fs' (t.step i).2 := by
  obtain ⟨ctx, q⟩ := i
  cases q with
  | call c =>
    cases c with
    | create name size => exact h.create_step ctx.toEnv name size
    | cat name => exact ⟨fs, h.cat_step ctx.toEnv name, h⟩
    | rm name => exact h.rm_step ctx.toEnv name
    | ln src dest => exact h.ln_step ctx.toEnv src dest
    | cp src dest => exact h.cp_step ctx.toEnv hok dest
    | mkdir name => exact hok.elim
    | rmdir name => exact hok.elim
    | cd name =>
      obtain rfl : name = dot := hok
      exact ⟨fs, rfl, h⟩
  | ls => exact ⟨fs, h.ls_reply, h⟩
  | stat name => exact ⟨fs, h.stat_reply name, h⟩
  | df => exact ⟨fs, h.df_reply, h⟩
  | usage text => exact ⟨fs, rfl, h⟩
  | unknown comm => exact ⟨fs, rfl, h⟩

end Holds

theorem holds_format : Holds format Table.empty := by
  have hlist : format.curDir.listing = [(dot.bytes, 0)] := by
    rw [curDir_format]
    decide +kernel
  refine ⟨clean_format, hlist, ?_, ?_, ?_, ?_, ?_, ?_⟩
  · intro n hn hn0
    exact absurd (List.mem_singleton.mp hn) hn0
  · intro e he _
    rw [List.mem_singleton.mp he]
  · rw [inode_format, Function.update_self]
    rfl
  · rw [inode_format, Function.update_self]
    decide
  · exact curDirInode_format
  · rw [format_eq]

end OperatingSystems.FS
