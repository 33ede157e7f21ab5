import OperatingSystems.FSFsck
import Mathlib.Algebra.Order.BigOperators.Group.Finset
import Mathlib.Data.List.TakeWhile

/-! The file commands in the root directory seen from outside: names bound to shared strings. -/
namespace OperatingSystems.FS

/-- Names bound to strings, several names to one string if they were linked. -/
structure Shared where
  file : Name → Option ℕ
  content : ℕ → List Byte
  count : ℕ
  next : ℕ

namespace Shared

variable (st : Shared)

def empty : Shared := ⟨fun _ => none, fun _ => [], 0, 0⟩

/-- A name that can be bound: not the root's own, not bound, and there is room for it. -/
def Free (name : Name) : Prop := name ≠ dot ∧ st.file name = none ∧ st.count < 20

instance (name : Name) : Decidable (st.Free name) := by unfold Free; infer_instance

/-- Bind a name to a string of its own. -/
def create (name : Name) (c : List Byte) : Shared where
  file := Function.update st.file name (some st.next)
  content := Function.update st.content st.next c
  count := st.count + 1
  next := st.next + 1

/-- Bind a name to the string that another name has. -/
def link (name : Name) (i : ℕ) : Shared :=
  { st with file := Function.update st.file name (some i), count := st.count + 1 }

def remove (name : Name) : Shared :=
  { st with file := Function.update st.file name none, count := st.count - 1 }

end Shared

/-- The string that `create` generates. -/
def generated (env : Env) (size : Int32) : List Byte :=
  (List.range size.toInt.toNat).map (randString env size.toInt.toNat)

/-- What each file command is for: the answer, the string printed by `cat`, and the bindings. -/
def sharedStep (st : Shared) : Env × Command → (ℤ × Option (List Byte)) × Shared
  | (env, .create name size) =>
    if (0 < size.toInt ∧ size.toInt ≤ 73216) ∧ st.Free name then
      ((0, none), st.create name (generated env size))
    else ((-1, none), st)
  | (_, .cp src dest) =>
    match st.file src with
    | some i => if st.Free dest then ((0, none), st.create dest (st.content i)) else ((-1, none), st)
    | none => ((-1, none), st)
  | (_, .ln src dest) =>
    match st.file src with
    | some i => if st.Free dest then ((0, none), st.link dest i) else ((-1, none), st)
    | none => ((-1, none), st)
  | (_, .rm name) =>
    match st.file name with
    | some _ => ((0, none), st.remove name)
    | none => ((-1, none), st)
  | (_, .cat name) =>
    match st.file name with
    | some i => ((0, some (st.content i)), st)
    | none => ((-1, none), st)
  | _ => ((-1, none), st)

/-- The reply answers what was expected, and prints the string that was expected. -/
def Shows (r : Reply) (q : ℤ × Option (List Byte)) : Prop :=
  r.ret = q.1 ∧ ∀ c, q.2 = some c → r.printed = [("%s\n", [.s c])]

/-- The disk holds the bindings: string `i` is the content of inode `ino i`. -/
structure Represents (ino : ℕ → ℤ) (fs : FileSystem) (st : Shared) : Prop where
  clean : Clean fs
  count : fs.curDir.count = st.count + 1
  found : ∀ a i, st.file a = some i →
    a ≠ dot ∧ 0 ≤ ino i ∧ Dentry.find fs.curDir.listing a = ino i
  missing : ∀ a, a ≠ dot → st.file a = none → a.bytes ∉ fs.curDir.listing.map Prod.fst
  inj : ∀ a b i j, st.file a = some i → st.file b = some j → ino i = ino j → i = j
  next : ∀ a i, st.file a = some i → i < st.next
  regular : ∀ a i, st.file a = some i → (fs.inode (ino i)).type = .file ∧
    (fs.inode (ino i)).blockCount.toInt ≤ 143
  content : ∀ a i, st.file a = some i →
    content fs.disk (fs.inode (ino i)) = st.content i ∧ 0 ∉ st.content i

variable {fs fs' : FileSystem} {env : Env} {st : Shared} {ino : ℕ → ℤ}

/-- Twenty-one inodes of at most 144 blocks never fill the disk. -/
theorem Clean.plenty (h : Clean fs) : 512 ≤ fs.superBlock.freeBlockCount.toInt ∧
    1 ≤ fs.superBlock.freeInodeCount.toInt := by
  -- Every inode has an entry in the root, and there are twenty-one of these.
  have hinodes : (usedInodes fs).card ≤ 21 := by
    have hsub : usedInodes fs ⊆ (named fs.curDir).toFinset := fun n hn =>
      List.mem_toFinset.mpr ((h.allocated n).mp hn)
    calc (usedInodes fs).card ≤ (named fs.curDir).toFinset.card := Finset.card_le_card hsub
      _ ≤ (named fs.curDir).length := (named fs.curDir).toFinset_card_le
      _ = fs.curDir.count := length_named fs.curDir
      _ ≤ 21 := h.fits.count_le
  -- Nothing leaks: a block from 131 on is listed by an inode, which lists at most 144.
  have hblocks : (usedBlocks fs).card ≤ 131 + (usedInodes fs).card * 144 := by
    have hsub : usedBlocks fs ⊆ Finset.Ico 0 131 ∪
        (usedInodes fs).biUnion fun n => (blocksOf fs.disk (fs.inode n)).toFinset := by
      intro b hb
      rw [Finset.mem_union, Finset.mem_Ico, Finset.mem_biUnion]
      rcases lt_or_ge b 131 with h131 | h131
      · exact Or.inl ⟨(mem_usedBlocks_range hb).1, h131⟩
      · obtain ⟨n, hn, hbn⟩ := h.noLeak b hb h131
        exact Or.inr ⟨n, hn, List.mem_toFinset.mpr hbn⟩
    have hone (n : ℤ) : ((blocksOf fs.disk (fs.inode n)).toFinset).card ≤ 144 := by
      have h₁ := (blocksOf fs.disk (fs.inode n)).toFinset_card_le
      have h₂ := length_blocksOf fs.disk (fs.inode n)
      have h₃ := blocks_le (h.sane.size n).2
      split at h₂ <;> omega
    calc (usedBlocks fs).card
        ≤ (Finset.Ico (0:ℤ) 131 ∪ (usedInodes fs).biUnion fun n =>
            (blocksOf fs.disk (fs.inode n)).toFinset).card := Finset.card_le_card hsub
      _ ≤ (Finset.Ico (0:ℤ) 131).card + ((usedInodes fs).biUnion fun n =>
            (blocksOf fs.disk (fs.inode n)).toFinset).card := Finset.card_union_le _ _
      _ ≤ 131 + (usedInodes fs).card * 144 := by
          rw [Int.card_Ico]
          exact Nat.add_le_add_left (Finset.card_biUnion_le_card_mul _ _ _ fun n _ => hone n) _
  have hb := h.sane.counted.blocks
  have hi := h.sane.counted.inodes
  simp only [MAX_BLOCK, MAX_INODE] at hb hi
  omega

/-- A byte of the file lies in one of its blocks. -/
theorem block_of_byte {nd : Inode} (hs : 0 ≤ nd.size.toInt) {j : ℕ}
    (hj : j ∈ List.range nd.size.toInt.toNat) : j/512 < blocks nd := by
  have hlt := List.mem_range.mp hj
  have hnum := numBlock_spec nd.size.toInt
  have hcoe := coe_blocks hs
  omega

theorem Owned.content_eq (h : Owned fs) (hagree : Agree fs fs') {n : ℤ} (hn : n ∈ usedInodes fs) :
    content fs'.disk (fs.inode n) = content fs.disk (fs.inode n) := by
  apply List.map_congr_left
  intro j hj
  have hi := block_of_byte (h.sane.size n).1 hj
  have he : dataBlock fs'.disk (fs.inode n) (j/512) = dataBlock fs.disk (fs.inode n) (j/512) :=
    dataBlock_congr (fun hs => hagree _ (h.indirect_used hn hs)) hi
  rw [byteAt, byteAt, he, hagree _ (h.data n hn _ (dataBlock_mem fs.disk hi)).2]

/-- Blocks that hold the chunks of a string hold that string. -/
theorem content_of_chunks {disk : ℤ → Block} {nd : Inode} {str : ℕ → Byte}
    (hs : 0 ≤ nd.size.toInt) (h : ∀ i, i < blocks nd → disk (dataBlock disk nd i) = chunk str i) :
    content disk nd = (List.range nd.size.toInt.toNat).map str := by
  apply List.map_congr_left
  intro j hj
  have hi := block_of_byte hs hj
  have hj' : j/512*BLOCK_SIZE + j%512 = j := Nat.div_add_mod' j 512
  rw [byteAt, h _ hi, chunk]
  exact congrArg str hj'

theorem content_of_blocks {disk disk' : ℤ → Block} {nd nd' : Inode} (hs : nd'.size = nd.size)
    (h0 : 0 ≤ nd.size.toInt) (h : ∀ i, i < blocks nd' →
      disk' (dataBlock disk' nd' i) = disk (dataBlock disk nd i)) :
    content disk' nd' = content disk nd := by
  have hblocks : blocks nd' = blocks nd := by rw [blocks, blocks, hs]
  unfold content
  rw [hs]
  apply List.map_congr_left
  intro j hj
  rw [byteAt, byteAt, h _ (hblocks ▸ block_of_byte h0 hj)]

/-- A file whose blocks are as they were has the bytes that it had. -/
theorem content_frame (h : Sane fs) {n : ℤ}
    (hagree : ∀ b ∈ blocksOf fs.disk (fs.inode n), fs'.disk b = fs.disk b) :
    content fs'.disk (fs.inode n) = content fs.disk (fs.inode n) := by
  apply content_of_blocks rfl (h.size n).1
  intro i hi
  have hdata : dataBlock fs'.disk (fs.inode n) i = dataBlock fs.disk (fs.inode n) i :=
    dataBlock_congr (fun hbig => hagree _ (indirectBlock_mem fs.disk hbig)) hi
  rw [hdata]
  exact hagree _ (dataBlock_mem fs.disk hi)

theorem zero_not_mem_generated (env : Env) (size : Int32) : 0 ∉ generated env size := by
  have hcharset : ∀ k, k < 62 → charset.getD k 0 ≠ 0 := by decide +kernel
  have hlen : charset.length = 62 := by decide +kernel
  intro hm
  obtain ⟨j, hj, he⟩ := List.mem_map.mp hm
  have hlt := List.mem_range.mp hj
  rw [randString, if_pos hlt, hlen] at he
  exact hcharset _ (Nat.mod_lt _ (by decide)) he

namespace Represents

theorem used (h : Represents ino fs st) {a : Name} {i : ℕ} (hi : st.file a = some i) :
    fs.searchCurDir a = some (ino i) ∧ ino i ∈ usedInodes fs := by
  obtain ⟨-, h0, hf⟩ := h.found a i hi
  have hs : fs.searchCurDir a = some (ino i) := by rw [h.clean.search, hf]
  exact ⟨hs, (h.clean.found hs h0).1⟩

theorem find_dot (h : Represents ino fs st) : fs.searchCurDir dot = some 0 := by
  obtain ⟨rest, hr⟩ := List.head?_eq_some_iff.mp h.clean.head
  rw [h.clean.search, hr, Dentry.find_cons, if_pos rfl]

theorem search_none (h : Represents ino fs st) {a : Name} (ha : a ≠ dot) (hi : st.file a = none) :
    fs.searchCurDir a = some (-1) := by
  rw [h.clean.search, Dentry.find_of_not_mem (h.missing a ha hi)]

/-- Only the root's own name is found without being bound, and the root is no regular file. -/
theorem bound_of_file (h : Represents ino fs st) {a : Name} {s : ℤ}
    (hs : fs.searchCurDir a = some s) (h0 : 0 ≤ s) (htype : (fs.inode s).type = .file) :
    st.file a ≠ none := by
  intro hi
  by_cases hdot : a = dot
  · rw [hdot, h.find_dot, Option.some_inj] at hs
    rw [← hs, h.clean.root] at htype
    cases htype
  · rw [h.search_none hdot hi, Option.some_inj] at hs
    omega

/-- An entry behind the others leaves the names bound before as they were. -/
theorem listed_concat (h : Represents ino fs st) {d : Dentry} {name : Name} {n : ℤ}
    (hl : d.listing = fs.curDir.listing ++ [(name.bytes, n)]) :
    d.count = st.count + 1 + 1 ∧
      (∀ a i, st.file a = some i → a ≠ dot ∧ 0 ≤ ino i ∧ Dentry.find d.listing a = ino i) ∧
      ∀ a, a ≠ name → a ≠ dot → st.file a = none → a.bytes ∉ d.listing.map Prod.fst := by
  refine ⟨?_, ?_, ?_⟩
  · have hlen := congrArg List.length hl
    rw [List.length_append, Dentry.length_listing, Dentry.length_listing, h.count] at hlen
    exact hlen
  · intro a i hi
    obtain ⟨hdot, hpos, hfind⟩ := h.found a i hi
    have hmem : a.bytes ∈ fs.curDir.listing.map Prod.fst := by
      by_contra hn
      rw [Dentry.find_of_not_mem hn] at hfind
      omega
    rw [hl, Dentry.find_append_of_mem hmem]
    exact ⟨hdot, hpos, hfind⟩
  · intro a hne hdot hi
    rw [hl, List.map_append, List.mem_append, not_or]
    refine ⟨h.missing a hdot hi, fun hm => hne (Name.ext_bytes ?_)⟩
    exact List.mem_singleton.mp hm

/-- A name can be bound exactly when the search fails and the directory has room. -/
theorem free_iff (h : Represents ino fs st) (a : Name) :
    st.Free a ↔ (∃ f, fs.searchCurDir a = some f ∧ f < 0) ∧ ¬fs.curDir.Full := by
  have hfull : fs.curDir.Full ↔ 20 ≤ st.count := by
    have hc := h.count
    have hf := h.clean.fits
    have hcoe := hf.coe_count
    have hr := hf.1
    unfold Dentry.Full
    simp only [MAX_DIR_ENTRY]
    omega
  rw [hfull]
  constructor
  · rintro ⟨hne, hnone, hlt⟩
    exact ⟨⟨-1, h.search_none hne hnone, by decide⟩, by omega⟩
  · rintro ⟨⟨f, hs, hf⟩, hlt⟩
    refine ⟨?_, ?_, by omega⟩
    · rintro rfl
      rw [h.find_dot, Option.some_inj] at hs
      omega
    · cases hi : st.file a with
      | none => rfl
      | some i =>
        have hu := h.used hi
        rw [hu.1, Option.some_inj] at hs
        have := mem_usedInodes_range hu.2
        omega

/-- A fresh inode behind a fresh name holds a string of its own. -/
theorem create (h : Represents ino fs st) {name : Name} {n : ℤ} {nd : Inode} {c : List Byte}
    (ha : Added fs n nd fs') (hclean : Clean fs') (hfree : st.Free name)
    (hentry : fs.curDir.append name n = some fs'.curDir) (htype : nd.type = .file)
    (hcount : nd.blockCount.toInt ≤ 143) (hcontent : FS.content fs'.disk nd = c) (h0 : 0 ∉ c) :
    Represents (Function.update ino st.next n) fs' (st.create name c) := by
  obtain ⟨⟨f, hs, hf⟩, hroom⟩ := (h.free_iff name).mp hfree
  obtain ⟨hfits, hl⟩ := Dentry.appended hentry hroom ha.range
  have hnew := h.clean.missing hs hf
  obtain ⟨hcount', hfound, hmissing⟩ := h.listed_concat hl
  -- A name bound now is the new one, with the next string, or was bound before to an older one.
  have hcases (a : Name) (i : ℕ) (hi : (st.create name c).file a = some i) :
      (a = name ∧ i = st.next) ∨ (a ≠ name ∧ st.file a = some i ∧ i ≠ st.next) := by
    by_cases hne : a = name
    · rw [hne] at hi
      simp only [Shared.create, Function.update_self, Option.some_inj] at hi
      exact Or.inl ⟨hne, hi.symm⟩
    · simp only [Shared.create, Function.update_of_ne hne] at hi
      exact Or.inr ⟨hne, hi, (h.next a i hi).ne⟩
  have hold (a : Name) (i : ℕ) (hi : st.file a = some i) :
      ino i ≠ n ∧ fs'.inode (ino i) = fs.inode (ino i) := by
    have hne : ino i ≠ n := fun he => ha.fresh (he ▸ (h.used hi).2)
    exact ⟨hne, by rw [ha.inode, Function.update_of_ne hne]⟩
  have hinode : fs'.inode n = nd := by rw [ha.inode, Function.update_self]
  refine ⟨hclean, hcount', ?_, ?_, ?_, ?_, ?_, ?_⟩
  · intro a i hi
    rcases hcases a i hi with ⟨rfl, rfl⟩ | ⟨hne, hi, hin⟩
    · rw [Function.update_self, hl, Dentry.find_append_new hnew]
      exact ⟨hfree.1, ha.range.1, rfl⟩
    · rw [Function.update_of_ne hin]
      exact hfound a i hi
  · intro a hdot hi
    have hne : a ≠ name := by
      rintro rfl
      simp [Shared.create] at hi
    simp only [Shared.create, Function.update_of_ne hne] at hi
    exact hmissing a hne hdot hi
  · intro a b i j hi hj he
    rcases hcases a i hi with ⟨-, rfl⟩ | ⟨-, hi, hin⟩
    · rcases hcases b j hj with ⟨-, rfl⟩ | ⟨-, hj, hjn⟩
      · rfl
      · rw [Function.update_self, Function.update_of_ne hjn] at he
        exact absurd he.symm (hold b j hj).1
    · rcases hcases b j hj with ⟨-, rfl⟩ | ⟨-, hj, hjn⟩
      · rw [Function.update_self, Function.update_of_ne hin] at he
        exact absurd he (hold a i hi).1
      · rw [Function.update_of_ne hin, Function.update_of_ne hjn] at he
        exact h.inj a b i j hi hj he
  · intro a i hi
    rcases hcases a i hi with ⟨-, rfl⟩ | ⟨-, hi, -⟩
    · exact Nat.lt_succ_self _
    · exact Nat.lt_succ_of_lt (h.next a i hi)
  · intro a i hi
    rcases hcases a i hi with ⟨-, rfl⟩ | ⟨-, hi, hin⟩
    · rw [Function.update_self, hinode]
      exact ⟨htype, hcount⟩
    · rw [Function.update_of_ne hin, (hold a i hi).2]
      exact h.regular a i hi
  · intro a i hi
    rcases hcases a i hi with ⟨-, rfl⟩ | ⟨-, hi, hin⟩
    · simp only [Function.update_self, hinode, Shared.create]
      exact ⟨hcontent, h0⟩
    · simp only [Function.update_of_ne hin, (hold a i hi).2, Shared.create]
      rw [h.clean.content_eq (fun b hb => ha.disk_used hb) (h.used hi).2]
      exact h.content a i hi

/-- Whatever happens to link counts and marks, a file keeps its content while its inode and the
disk do. -/
theorem regular_of_same (h : Represents ino fs st) (hdisk : fs'.disk = fs.disk)
    (hsame : ∀ n, fs'.inode n = { fs.inode n with linkCount := (fs'.inode n).linkCount })
    {a : Name} {i : ℕ} (hi : st.file a = some i) :
    ((fs'.inode (ino i)).type = .file ∧ (fs'.inode (ino i)).blockCount.toInt ≤ 143) ∧
      FS.content fs'.disk (fs'.inode (ino i)) = st.content i ∧ 0 ∉ st.content i := by
  rw [hsame, hdisk]
  exact ⟨h.regular a i hi, h.content a i hi⟩

/-- Another name for a bound string. -/
theorem link (h : Represents ino fs st) {src dest : Name} {i : ℕ} (hi : st.file src = some i)
    (hk : Links src dest fs (ino i) fs') (hfree : st.Free dest) :
    Represents ino fs' (st.link dest i) := by
  obtain ⟨⟨f, hs, hf⟩, hroom⟩ := (h.free_iff dest).mp hfree
  obtain ⟨hfits, hl⟩ := Dentry.appended hk.entry hroom hk.source
  have hnew := h.clean.missing hs hf
  obtain ⟨hcount', hfound, hmissing⟩ := h.listed_concat hl
  have hcases (a : Name) (j : ℕ) (hj : (st.link dest i).file a = some j) :
      (a = dest ∧ j = i) ∨ (a ≠ dest ∧ st.file a = some j) := by
    by_cases hne : a = dest
    · rw [hne] at hj
      simp only [Shared.link, Function.update_self, Option.some_inj] at hj
      exact Or.inl ⟨hne, hj.symm⟩
    · simp only [Shared.link, Function.update_of_ne hne] at hj
      exact Or.inr ⟨hne, hj⟩
  -- every string bound now was bound before
  have hbound (a : Name) (j : ℕ) (hj : (st.link dest i).file a = some j) :
      ∃ b, st.file b = some j := by
    rcases hcases a j hj with ⟨-, rfl⟩ | ⟨-, hj⟩
    · exact ⟨src, hi⟩
    · exact ⟨a, hj⟩
  have hinode : fs'.inode = Function.update fs.inode (ino i)
      { fs.inode (ino i) with linkCount := (fs.inode (ino i)).linkCount + 1 } := by rw [hk.rest]
  have hdisk : fs'.disk = fs.disk := by rw [hk.rest]
  refine ⟨h.clean.linked hk, hcount', ?_, ?_, ?_, ?_, ?_, ?_⟩
  · intro a j hj
    rcases hcases a j hj with ⟨rfl, rfl⟩ | ⟨hne, hj⟩
    · rw [hl, Dentry.find_append_new hnew]
      exact ⟨hfree.1, hk.source.1, rfl⟩
    · exact hfound a j hj
  · intro a hdot hj
    have hne : a ≠ dest := by
      rintro rfl
      simp [Shared.link] at hj
    simp only [Shared.link, Function.update_of_ne hne] at hj
    exact hmissing a hne hdot hj
  · intro a b j k hj hk
    obtain ⟨a', hj'⟩ := hbound a j hj
    obtain ⟨b', hk'⟩ := hbound b k hk
    exact h.inj a' b' j k hj' hk'
  · intro a j hj
    obtain ⟨b, hb⟩ := hbound a j hj
    exact h.next b j hb
  · intro a j hj
    obtain ⟨b, hb⟩ := hbound a j hj
    exact (h.regular_of_same hdisk (inode_relinked hinode) hb).1
  · intro a j hj
    obtain ⟨b, hb⟩ := hbound a j hj
    exact (h.regular_of_same hdisk (inode_relinked hinode) hb).2

/-- One name less, the strings as they were. -/
theorem remove (h : Represents ino fs st) {name : Name} {i : ℕ} (hi : st.file name = some i)
    (hu : Unlinks name fs (ino i) fs') : Represents ino fs' (st.remove name) := by
  obtain ⟨-, l₁, l₂, hl, hn₁, herase⟩ := h.clean.found hu.found hu.source.1
  obtain ⟨after, hentry⟩ := hu.entry
  obtain ⟨hfits, hl'⟩ := Dentry.removed hentry h.clean.fits
  have hdisk : fs'.disk = fs.disk := by
    rcases hu.rest with ⟨-, hr⟩ | ⟨-, bs, hr, -⟩
    · rw [hr]
    · rw [hr.rest]
  have hsame (n : ℤ) : fs'.inode n = { fs.inode n with linkCount := (fs'.inode n).linkCount } := by
    rcases hu.rest with ⟨-, hr⟩ | ⟨-, bs, hr, -⟩
    · exact inode_relinked (s := ino i) (by rw [hr]) n
    · rw [hr.rest]
  have hcases (a : Name) (j : ℕ) (hj : (st.remove name).file a = some j) :
      a ≠ name ∧ st.file a = some j := by
    by_cases hne : a = name
    · rw [hne] at hj
      simp [Shared.remove] at hj
    · simp only [Shared.remove, Function.update_of_ne hne] at hj
      exact ⟨hne, hj⟩
  have hdot := (h.found name i hi).1
  -- the root's own entry comes before the one that goes
  have hfirst : l₁ ≠ [] := by
    rintro rfl
    have hh := h.clean.head
    rw [hl, List.nil_append, List.head?_cons, Option.some_inj, Prod.mk.injEq] at hh
    exact hdot (Name.ext_bytes hh.1)
  refine ⟨h.clean.unlinked hu, ?_, ?_, ?_, ?_, ?_, ?_, ?_⟩
  · have hlen := congrArg List.length hl
    have hlen' := congrArg List.length (hl'.trans herase)
    have hpos := List.length_pos_of_ne_nil hfirst
    rw [List.length_append, Dentry.length_listing, List.length_cons, h.count] at hlen
    rw [List.length_append, Dentry.length_listing] at hlen'
    simp only [Shared.remove]
    omega
  · intro a j hj
    obtain ⟨hne, hj⟩ := hcases a j hj
    rw [hl', Dentry.find_eraseP_of_ne _ hne]
    exact h.found a j hj
  · intro a ha hj
    rw [hl', herase]
    have hnodup := h.clean.names
    rw [hl, List.map_append, List.map_cons] at hnodup
    by_cases hne : a = name
    · subst hne
      have hn₂ := (List.nodup_cons.mp (List.nodup_append.mp hnodup).2.1).1
      rw [List.map_append, List.mem_append, not_or]
      exact ⟨hn₁, hn₂⟩
    · simp only [Shared.remove, Function.update_of_ne hne] at hj
      have hm := h.missing a ha hj
      rw [hl, List.map_append, List.map_cons, List.mem_append, List.mem_cons, not_or, not_or] at hm
      rw [List.map_append, List.mem_append, not_or]
      exact ⟨hm.1, hm.2.2⟩
  · intro a b j k hj hk
    exact h.inj a b j k (hcases a j hj).2 (hcases b k hk).2
  · intro a j hj
    exact h.next a j (hcases a j hj).2
  · intro a j hj
    exact (h.regular_of_same hdisk hsame (hcases a j hj).2).1
  · intro a j hj
    exact (h.regular_of_same hdisk hsame (hcases a j hj).2).2

end Represents

/-- The file commands, `cp` being given a regular file. -/
def Command.OnRegularFiles : Command → Prop
  | .cp src _ => src ≠ dot
  | .create _ _ | .ln _ _ | .rm _ | .cat _ => True
  | .mkdir _ | .rmdir _ | .cd _ => False

theorem shows_refused {r : Reply} (h : r.ret = -1) : Shows r (-1, none) :=
  ⟨h, fun _ hc => by cases hc⟩

theorem shows_done {r : Reply} (h : r.ret = 0) : Shows r (0, none) :=
  ⟨h, fun _ hc => by cases hc⟩

namespace Represents

/-- A free name passes all that the commands check of the entry they add. -/
theorem entry_passes (h : Represents ino fs st) {name : Name} (hfree : st.Free name) :
    ¬((∃ f, fs.searchCurDir name = some f ∧ f ≥ 0) ∨ fs.curDir.Full ∨
      fs.superBlock.freeInodeCount.toInt < 1) := by
  obtain ⟨⟨f, hs, hf⟩, hroom⟩ := (h.free_iff name).mp hfree
  have hplenty := h.clean.plenty
  rintro (⟨f', hs', hf'⟩ | hfull | hinodes)
  · rw [hs, Option.some_inj] at hs'
    omega
  · exact hroom hfull
  · omega

theorem create_step (h : Represents ino fs st) (env : Env) (name : Name) (size : Int32) :
    ∃ r fs' ino', fileCreate env name size fs = some (r, fs') ∧
      Shows r (sharedStep st (env, .create name size)).1 ∧
      Represents ino' fs' (sharedStep st (env, .create name size)).2 := by
  have hnum := numBlock_spec size.toInt
  rcases (fileCreate_outcome env name size h.clean.sane.counted).total
    (not_not.mpr h.clean.fits) with ⟨r, hx, hret, why⟩ | ⟨r, fs', hx, hret, n, nd, hn⟩
  · have hno : ¬((0 < size.toInt ∧ size.toInt ≤ 73216) ∧ st.Free name) := by
      rintro ⟨hsize, hfree⟩
      have hpasses := h.entry_passes hfree
      have hplenty := h.clean.plenty
      rcases why with hw | hw | hw | hw | hw | hw
      · omega
      · omega
      · exact hpasses (Or.inl hw)
      · exact hpasses (Or.inr (Or.inl hw))
      · exact hpasses (Or.inr (Or.inr hw))
      · omega
    simp only [sharedStep, if_neg hno]
    exact ⟨r, fs, ino, hx, shows_refused hret, h⟩
  · have hfree : st.Free name := (h.free_iff name).mpr ⟨hn.missing, hn.room⟩
    simp only [sharedStep, if_pos (And.intro (And.intro hn.size_pos hn.size_le) hfree)]
    refine ⟨r, fs', _, hx, shows_done hret, h.create hn.toAdded (h.clean.creates hn) hfree hn.entry
      hn.type ?_ ?_ (zero_not_mem_generated env size)⟩
    · have := hn.size_pos
      have := hn.size_le
      rw [hn.blockCount, toInt_ofInt (by omega) (by omega)]
      omega
    · have hpos := hn.size_pos
      rw [content_of_chunks (by rw [hn.size_eq]; omega) hn.data, hn.size_eq]
      rfl

theorem copy_step (h : Represents ino fs st) (env : Env) (src dest : Name) (hsrc : src ≠ dot) :
    ∃ r fs' ino', fileCopy env src dest fs = some (r, fs') ∧
      Shows r (sharedStep st (env, .cp src dest)).1 ∧
      Represents ino' fs' (sharedStep st (env, .cp src dest)).2 := by
  have hout := (fileCopy_outcome env src dest h.clean.sane).total
    (h.clean.copy_defined src)
  cases hi : st.file src with
  | none =>
    have hs := h.search_none hsrc hi
    simp only [sharedStep, hi]
    rcases hout with ⟨r, hx, hret, -⟩ | ⟨r, fs', hx, hret, s, n, nd, hn⟩
    · exact ⟨r, fs, ino, hx, shows_refused hret, h⟩
    · have h1 := hn.found
      have h2 := hn.source
      rw [hs, Option.some_inj] at h1
      omega
  | some i =>
    obtain ⟨hs, hused⟩ := h.used hi
    have hsize := h.clean.sane.size (ino i)
    have hnum := numBlock_spec (fs.inode (ino i)).size.toInt
    rcases hout with ⟨r, hx, hret, why⟩ | ⟨r, fs', hx, hret, s, n, nd, hn⟩
    · have hno : ¬st.Free dest := by
        intro hfree
        have hplenty := h.clean.plenty
        have hrange := mem_usedInodes_range hused
        obtain ⟨s', hs', hw⟩ := why.resolve_right (h.entry_passes hfree)
        obtain rfl : ino i = s' := Option.some_inj.mp (hs.symm.trans hs')
        omega
      simp only [sharedStep, hi, if_neg hno]
      exact ⟨r, fs, ino, hx, shows_refused hret, h⟩
    · have hfree : st.Free dest := (h.free_iff dest).mpr ⟨hn.missing, hn.room⟩
      obtain rfl : ino i = s := Option.some_inj.mp (hs.symm.trans hn.found)
      obtain ⟨htype, hcount⟩ := h.regular src i hi
      obtain ⟨hcontent, h0⟩ := h.content src i hi
      simp only [sharedStep, hi, if_pos hfree]
      refine ⟨r, fs', _, hx, shows_done hret, h.create hn.toAdded (h.clean.copies hn) hfree
        hn.entry (hn.type.trans htype) (hn.blockCount ▸ hcount) ?_ h0⟩
      rw [← hcontent]
      exact content_of_blocks hn.size_eq hsize.1
        (hn.data fun b hb => (h.clean.data (ino i) hused b hb).2)

theorem link_step (h : Represents ino fs st) (env : Env) (src dest : Name) :
    ∃ r fs' ino', hardLink env src dest fs = some (r, fs') ∧
      Shows r (sharedStep st (env, .ln src dest)).1 ∧
      Represents ino' fs' (sharedStep st (env, .ln src dest)).2 := by
  have hout := (hardLink_outcome env src dest).total (h.clean.link_defined src dest)
  cases hi : st.file src with
  | none =>
    simp only [sharedStep, hi]
    rcases hout with ⟨r, hx, hret, -⟩ | ⟨r, fs', hx, hret, s, hk⟩
    · exact ⟨r, fs, ino, hx, shows_refused hret, h⟩
    · exact absurd hi (h.bound_of_file hk.found hk.source.1 hk.type)
  | some i =>
    obtain ⟨hs, hused⟩ := h.used hi
    obtain ⟨htype, hcount⟩ := h.regular src i hi
    rcases hout with ⟨r, hx, hret, why⟩ | ⟨r, fs', hx, hret, s, hk⟩
    · have hno : ¬st.Free dest := by
        intro hfree
        have hplenty := h.clean.plenty
        have hrange := mem_usedInodes_range hused
        obtain ⟨s', hs', hw⟩ := why.resolve_right (h.entry_passes hfree)
        obtain rfl : ino i = s' := Option.some_inj.mp (hs.symm.trans hs')
        rcases hw with hw | hw | hw
        · omega
        · rw [htype] at hw
          cases hw
        · omega
      simp only [sharedStep, hi, if_neg hno]
      exact ⟨r, fs, ino, hx, shows_refused hret, h⟩
    · have hfree : st.Free dest := (h.free_iff dest).mpr ⟨hk.missing, hk.room⟩
      obtain rfl : ino i = s := Option.some_inj.mp (hs.symm.trans hk.found)
      simp only [sharedStep, hi, if_pos hfree]
      exact ⟨r, fs', ino, hx, shows_done hret, h.link hi hk hfree⟩

theorem remove_step (h : Represents ino fs st) (env : Env) (name : Name) :
    ∃ r fs' ino', fileRemove env name fs = some (r, fs') ∧
      Shows r (sharedStep st (env, .rm name)).1 ∧
      Represents ino' fs' (sharedStep st (env, .rm name)).2 := by
  have hout := (fileRemove_outcome env name h.clean.sane).total
    (h.clean.remove_defined name)
  cases hi : st.file name with
  | none =>
    simp only [sharedStep, hi]
    rcases hout with ⟨r, hx, hret, -⟩ | ⟨r, fs', hx, hret, s, hu⟩
    · exact ⟨r, fs, ino, hx, shows_refused hret, h⟩
    · exact absurd hi (h.bound_of_file hu.found hu.source.1 hu.type)
  | some i =>
    obtain ⟨hs, hused⟩ := h.used hi
    have htype := (h.regular name i hi).1
    simp only [sharedStep, hi]
    rcases hout with ⟨r, -, -, why⟩ | ⟨r, fs', hx, hret, s, hu⟩
    -- No check refuses a bound name: its inode is a file's, and the directory has an entry.
    · exfalso
      obtain ⟨s', hs', hw⟩ := why
      obtain rfl : ino i = s' := Option.some_inj.mp (hs.symm.trans hs')
      have hrange := mem_usedInodes_range hused
      rcases hw with hw | hw | hw
      · omega
      · rw [htype] at hw
        cases hw
      · have hc := h.count
        have hcoe := h.clean.fits.coe_count
        rw [hw, show (0 : Int32).toInt = 0 from rfl] at hcoe
        omega
    · obtain rfl : ino i = s := Option.some_inj.mp (hs.symm.trans hu.found)
      exact ⟨r, fs', ino, hx, shows_done hret, h.remove hi hu⟩

theorem cat_step (h : Represents ino fs st) (env : Env) (name : Name) :
    ∃ r, fileCat env name fs = some (r, fs) ∧ Shows r (sharedStep st (env, .cat name)).1 := by
  cases hi : st.file name with
  | none =>
    simp only [sharedStep, hi]
    rcases h.clean.cat_cases env name with ⟨r, hx, hret, -⟩ | ⟨s, hs, hused, htype, -⟩
    · exact ⟨r, hx, shows_refused hret⟩
    · exact absurd hi (h.bound_of_file hs (mem_usedInodes_range hused).1 htype)
  | some i =>
    obtain ⟨hs, hused⟩ := h.used hi
    obtain ⟨hcontent, h0⟩ := h.content name i hi
    have hall : (st.content i).takeWhile (· ≠ 0) = st.content i := by
      apply List.takeWhile_eq_self_iff.mpr
      intro b hb
      have : b ≠ 0 := fun he => h0 (he ▸ hb)
      simpa using this
    simp only [sharedStep, hi]
    refine ⟨_, fileCat_file h.clean.toOwned hs hused (h.regular name i hi).1, rfl, ?_⟩
    intro c hc
    rw [hcontent, hall, Option.some_inj.mp hc]

theorem of_step (h : Represents ino fs st) (i : Env × Command) (hok : i.2.OnRegularFiles) :
    ∃ r fs', execute fs i = some (r, fs') ∧ Shows r (sharedStep st i).1 ∧
      ∃ ino', Represents ino' fs' (sharedStep st i).2 := by
  obtain ⟨env, cmd⟩ := i
  cases cmd with
  | mkdir name => exact hok.elim
  | rmdir name => exact hok.elim
  | cd name => exact hok.elim
  | create name size =>
    obtain ⟨r, fs', ino', hx, hs, h'⟩ := h.create_step env name size
    exact ⟨r, fs', hx, hs, ino', h'⟩
  | cat name =>
    obtain ⟨r, hx, hs⟩ := h.cat_step env name
    have hst : (sharedStep st (env, .cat name)).2 = st := by
      simp only [sharedStep]
      split <;> rfl
    exact ⟨r, fs, hx, hs, ino, by rw [hst]; exact h⟩
  | rm name =>
    obtain ⟨r, fs', ino', hx, hs, h'⟩ := h.remove_step env name
    exact ⟨r, fs', hx, hs, ino', h'⟩
  | ln src dest =>
    obtain ⟨r, fs', ino', hx, hs, h'⟩ := h.link_step env src dest
    exact ⟨r, fs', hx, hs, ino', h'⟩
  | cp src dest =>
    obtain ⟨r, fs', ino', hx, hs, h'⟩ := h.copy_step env src dest hok
    exact ⟨r, fs', hx, hs, ino', h'⟩

end Represents

theorem represents_format (ino : ℕ → ℤ) : Represents ino format Shared.empty := by
  have hnone (a : Name) (i : ℕ) (hi : Shared.empty.file a = some i) : False := by cases hi
  refine ⟨clean_format, ?_, ?_, ?_, ?_, ?_, ?_, ?_⟩
  · rw [curDir_format]
    decide
  · exact fun a i hi => (hnone a i hi).elim
  · intro a ha _ hm
    obtain ⟨rest, hr⟩ := List.head?_eq_some_iff.mp clean_format.head
    have hlen := congrArg List.length hr
    rw [Dentry.length_listing, List.length_cons, curDir_format] at hlen
    have hrest : rest = [] := by
      apply List.eq_nil_of_length_eq_zero
      have : rootDir.count = 1 := by decide
      omega
    rw [hr, hrest, List.map_singleton, List.mem_singleton] at hm
    exact ha (Name.ext_bytes hm)
  · exact fun a b i j hi => (hnone a i hi).elim
  · exact fun a i hi => (hnone a i hi).elim
  · exact fun a i hi => (hnone a i hi).elim
  · exact fun a i hi => (hnone a i hi).elim

/-- In the root of a fresh disk the file commands do to the disk what they do to an abstract map
from names to shared strings: the answers agree, `cat` prints the string bound to its name, and
the bindings are those that the disk holds. -/
theorem file_commands_refine_shared (inputs : List (Env × Command))
    (hf : ∀ i ∈ inputs, i.2.OnRegularFiles) :
    ∃ replies fs ino, Mealy.run execute format inputs = some (replies, fs) ∧
      List.Forall₂ Shows replies (Mealy.outputs sharedStep Shared.empty inputs) ∧
      Represents ino fs (Mealy.final sharedStep Shared.empty inputs) := by
  obtain ⟨replies, fs, hrun, hout, ino, h⟩ := Mealy.refines sharedStep Shows
    (fun _ i => i.2.OnRegularFiles) (fun fs st => ∃ ino, Represents ino fs st)
    (fun fs st i ⟨ino, h⟩ hok => h.of_step i hok) ⟨fun _ => 0, represents_format _⟩
    (Mealy.meets_of_forall execute _ format inputs fun _ i hi => hf i hi)
  exact ⟨replies, fs, ino, hrun, hout, h⟩

/-- A file kept by its second name after the first is removed. -/
theorem file_commands_refine_shared_alias : ∃ replies fs ino,
    Mealy.run execute format
      [(Env.zeroed, .create dotDot 8000), (Env.zeroed, .ln dotDot ⟨[99], by decide, by decide⟩),
        (Env.zeroed, .rm dotDot), (Env.zeroed, .cat ⟨[99], by decide, by decide⟩)] =
          some (replies, fs) ∧
      List.Forall₂ Shows replies (Mealy.outputs sharedStep Shared.empty
        [(Env.zeroed, .create dotDot 8000), (Env.zeroed, .ln dotDot ⟨[99], by decide, by decide⟩),
          (Env.zeroed, .rm dotDot), (Env.zeroed, .cat ⟨[99], by decide, by decide⟩)]) ∧
      Represents ino fs (Mealy.final sharedStep Shared.empty
        [(Env.zeroed, .create dotDot 8000), (Env.zeroed, .ln dotDot ⟨[99], by decide, by decide⟩),
          (Env.zeroed, .rm dotDot), (Env.zeroed, .cat ⟨[99], by decide, by decide⟩)]) :=
  file_commands_refine_shared _ (by simp [Command.OnRegularFiles])

end OperatingSystems.FS
