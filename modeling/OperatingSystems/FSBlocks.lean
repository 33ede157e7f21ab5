import OperatingSystems.FSAlloc
import Mathlib.Data.List.Perm.Basic
import Mathlib.Data.List.Nodup

/-! The blocks an inode lists, and the loops that take and free them. -/
namespace OperatingSystems.FS

/-- A slot as a block number. -/
def slot {n : ℕ} (slots : Fin n → Int32) (i : ℕ) : ℤ :=
  if h : i < n then (slots ⟨i, h⟩).toInt else -1

/-- How many data blocks an inode has. -/
def blocks (nd : Inode) : ℕ := (numBlock nd.size.toInt).toNat

def indirectMap (disk : ℤ → Block) (nd : Inode) : Fin 128 → Int32 :=
  indirectLayout.decode (disk nd.indirectBlock.toInt)

/-- Where byte block `i` of the file lies. -/
def dataBlock (disk : ℤ → Block) (nd : Inode) (i : ℕ) : ℤ :=
  if i < 15 then slot nd.directBlock i else slot (indirectMap disk nd) (i-15)

def dataBlocks (disk : ℤ → Block) (nd : Inode) : List ℤ :=
  (List.range (blocks nd)).map (dataBlock disk nd)

def indirectBlocks (nd : Inode) : List ℤ :=
  if nd.size.toInt > 7680 then [nd.indirectBlock.toInt] else []

/-- All blocks that belong to an inode. -/
def blocksOf (disk : ℤ → Block) (nd : Inode) : List ℤ := dataBlocks disk nd ++ indirectBlocks nd

/-- Rounding up: the blocks hold the size, and one block fewer would not. -/
theorem numBlock_spec (size : ℤ) :
    (numBlock size - 1) * 512 < size ∧ size ≤ numBlock size * 512 := by
  have hb : (BLOCK_SIZE : ℤ) = 512 := rfl
  unfold numBlock
  by_cases h : size % BLOCK_SIZE > 0
  · rw [if_pos h]
    rw [hb] at h ⊢
    omega
  · rw [if_neg h]
    rw [hb] at h ⊢
    omega

theorem blocks_le {nd : Inode} (h : nd.size.toInt ≤ 73216) : blocks nd ≤ 143 := by
  have := numBlock_spec nd.size.toInt
  unfold blocks
  omega

theorem blocks_le_iff {nd : Inode} : blocks nd ≤ 15 ↔ nd.size.toInt ≤ 7680 := by
  have := numBlock_spec nd.size.toInt
  unfold blocks
  omega

theorem coe_blocks {nd : Inode} (h : 0 ≤ nd.size.toInt) :
    (blocks nd : ℤ) = numBlock nd.size.toInt := by
  have := numBlock_spec nd.size.toInt
  unfold blocks
  omega

theorem length_blocksOf (disk : ℤ → Block) (nd : Inode) :
    (blocksOf disk nd).length = blocks nd + if nd.size.toInt > 7680 then 1 else 0 := by
  unfold blocksOf dataBlocks indirectBlocks
  split <;> simp

/-- The disk matters to the list of blocks only through the indirect map. -/
theorem blocksOf_congr {disk disk' : ℤ → Block} {nd : Inode}
    (h : nd.size.toInt > 7680 → disk' nd.indirectBlock.toInt = disk nd.indirectBlock.toInt) :
    dataBlock disk' nd = dataBlock disk nd ∨ blocks nd ≤ 15 := by
  by_cases hs : nd.size.toInt > 7680
  · left
    funext i
    simp only [dataBlock, indirectMap, h hs]
  · right
    exact blocks_le_iff.mpr (by omega)

theorem dataBlock_congr {disk disk' : ℤ → Block} {nd : Inode}
    (h : nd.size.toInt > 7680 → disk' nd.indirectBlock.toInt = disk nd.indirectBlock.toInt)
    {i : ℕ} (hi : i < blocks nd) : dataBlock disk' nd i = dataBlock disk nd i := by
  rcases blocksOf_congr h with he | hb
  · rw [he]
  · have : i < 15 := by omega
    simp only [dataBlock, if_pos this]

theorem blocksOf_eq_of {disk disk' : ℤ → Block} {nd : Inode}
    (h : nd.size.toInt > 7680 → disk' nd.indirectBlock.toInt = disk nd.indirectBlock.toInt) :
    blocksOf disk' nd = blocksOf disk nd := by
  unfold blocksOf dataBlocks
  congr 1
  apply List.map_congr_left
  intro i hi
  exact dataBlock_congr h (List.mem_range.mp hi)

theorem dataBlock_mem (disk : ℤ → Block) {nd : Inode} {i : ℕ} (hi : i < blocks nd) :
    dataBlock disk nd i ∈ blocksOf disk nd :=
  List.mem_append_left _ (List.mem_map_of_mem (List.mem_range.mpr hi))

theorem indirectBlock_mem (disk : ℤ → Block) {nd : Inode} (h : nd.size.toInt > 7680) :
    nd.indirectBlock.toInt ∈ blocksOf disk nd := by
  apply List.mem_append_right
  rw [indirectBlocks, if_pos h]
  exact List.mem_singleton_self _

namespace FileSystem

@[simp] theorem writeDiskBlock_inode (fs : FileSystem) (b : ℤ) (buf : Block) :
    (fs.writeDiskBlock b buf).inode = fs.inode := by
  unfold writeDiskBlock
  split <;> rfl

theorem writeDiskBlock_rest (fs : FileSystem) (b : ℤ) (buf : Block) :
    fs.writeDiskBlock b buf = { fs with disk := (fs.writeDiskBlock b buf).disk } := by
  unfold writeDiskBlock
  split <;> rfl

theorem writeDiskBlock_of_range (fs : FileSystem) {b : ℤ} (hb : 0 ≤ b ∧ b < 4096) (buf : Block) :
    fs.writeDiskBlock b buf = { fs with disk := Function.update fs.disk b buf } := by
  have hr : ¬(b < 0 ∨ b ≥ MAX_BLOCK) := by simp only [MAX_BLOCK]; omega
  rw [writeDiskBlock, if_neg hr]

theorem writeDiskBlock_disk_of_ne (fs : FileSystem) {b c : ℤ} (h : c ≠ b) (buf : Block) :
    (fs.writeDiskBlock b buf).disk c = fs.disk c := by
  unfold writeDiskBlock
  split
  · rfl
  · exact Function.update_of_ne h _ _

theorem readDiskBlock_of_range (fs : FileSystem) {b : ℤ} (hb : 0 ≤ b ∧ b < 4096) (buf : Block) :
    fs.readDiskBlock b buf = fs.disk b := by
  have hr : ¬(b < 0 ∨ b ≥ MAX_BLOCK) := by simp only [MAX_BLOCK]; omega
  rw [readDiskBlock, if_neg hr]

end FileSystem

/-- `fs'` is `fs` with the free blocks `bs` taken, and nothing but these written to. -/
structure Taken (fs : FileSystem) (bs : List ℤ) (fs' : FileSystem) : Prop where
  nodup : bs.Nodup
  range : ∀ b ∈ bs, 0 ≤ b ∧ b < 4096
  fresh : ∀ b ∈ bs, b ∉ usedBlocks fs
  used : usedBlocks fs' = usedBlocks fs ∪ bs.toFinset
  disk : ∀ b, b ∉ bs → fs'.disk b = fs.disk b
  rest : fs' = { fs with
    blockMap := fs'.blockMap
    disk := fs'.disk
    superBlock := { fs.superBlock with freeBlockCount := fs'.superBlock.freeBlockCount } }
  counted : Counted fs'

namespace Taken

variable {fs fs₁ fs₂ : FileSystem} {bs cs : List ℤ}

theorem nil (hc : Counted fs) : Taken fs [] fs :=
  ⟨List.nodup_nil, by simp, by simp, by simp, fun _ _ => rfl, rfl, hc⟩

theorem single (hc : Counted fs) {b : ℤ} (hb : 0 ≤ b ∧ b < 4096) (hfree : b ∉ usedBlocks fs) :
    Taken fs [b] (fs.takeBlock b) := by
  refine ⟨List.nodup_singleton b, ?_, ?_, ?_, fun _ _ => rfl, rfl, hc.takeBlock hb hfree⟩
  · intro c hc
    exact List.mem_singleton.mp hc ▸ hb
  · intro c hc
    exact List.mem_singleton.mp hc ▸ hfree
  · rw [usedBlocks_takeBlock hb, List.toFinset_cons, List.toFinset_nil, insert_empty_eq,
      Finset.insert_eq, Finset.union_comm]

/-- A block taken before may be written to. -/
theorem write (h : Taken fs bs fs₁) {b : ℤ} (hb : b ∈ bs) (buf : Block) :
    Taken fs bs (fs₁.writeDiskBlock b buf) := by
  have hw := fs₁.writeDiskBlock_of_range (h.range b hb) buf
  refine ⟨h.nodup, h.range, h.fresh, ?_, ?_, ?_, ?_⟩
  · rw [hw]
    exact h.used
  · intro c hc
    have hne : c ≠ b := fun he => by rw [he] at hc; exact hc hb
    rw [fs₁.writeDiskBlock_disk_of_ne hne]
    exact h.disk c hc
  · rw [hw, h.rest]
  · rw [hw]
    exact ⟨h.counted.blocks, h.counted.inodes⟩

theorem trans (h : Taken fs bs fs₁) (h' : Taken fs₁ cs fs₂) : Taken fs (bs ++ cs) fs₂ := by
  refine ⟨?_, ?_, ?_, ?_, ?_, ?_, h'.counted⟩
  · apply h.nodup.append h'.nodup
    intro b hb hb'
    apply h'.fresh b hb'
    rw [h.used]
    exact Finset.mem_union_right _ (List.mem_toFinset.mpr hb)
  · intro b hb
    rcases List.mem_append.mp hb with hb | hb
    · exact h.range b hb
    · exact h'.range b hb
  · intro b hb hu
    rcases List.mem_append.mp hb with hb | hb
    · exact h.fresh b hb hu
    · apply h'.fresh b hb
      rw [h.used]
      exact Finset.mem_union_left _ hu
  · rw [h'.used, h.used, List.toFinset_append, Finset.union_assoc]
  · intro b hb
    rw [List.mem_append, not_or] at hb
    rw [h'.disk b hb.2, h.disk b hb.1]
  · rw [h'.rest, h.rest]

theorem perm (h : Taken fs bs fs₁) (hp : bs.Perm cs) : Taken fs cs fs₁ := by
  refine ⟨hp.nodup_iff.mp h.nodup, fun b hb => h.range b (hp.mem_iff.mpr hb),
    fun b hb => h.fresh b (hp.mem_iff.mpr hb), ?_, fun b hb => h.disk b (mt hp.mem_iff.mp hb),
    h.rest, h.counted⟩
  rw [h.used]
  congr 1
  ext b
  simp only [List.mem_toFinset, hp.mem_iff]

theorem disk_used (h : Taken fs bs fs₁) {b : ℤ} (hb : b ∈ usedBlocks fs) :
    fs₁.disk b = fs.disk b := h.disk b fun hm => h.fresh b hm hb

theorem free (h : Taken fs bs fs₁) (hc : Counted fs) :
    fs₁.superBlock.freeBlockCount.toInt + bs.length = fs.superBlock.freeBlockCount.toInt := by
  have h₀ := hc.blocks
  have h₁ := h.counted.blocks
  have hd : Disjoint (usedBlocks fs) bs.toFinset := by
    rw [Finset.disjoint_right]
    intro b hb
    exact h.fresh b (List.mem_toFinset.mp hb)
  rw [h.used, Finset.card_union_of_disjoint hd, List.toFinset_card_of_nodup h.nodup] at h₁
  push_cast at h₁
  omega

end Taken

theorem slot_update_of_ne {n : ℕ} (slots : Fin n → Int32) {i j : ℕ} (hi : i < n) (v : Int32)
    (h : j ≠ i) : slot (Function.update slots ⟨i, hi⟩ v) j = slot slots j := by
  unfold slot
  split
  · rw [Function.update_of_ne]
    intro he
    exact h (congrArg Fin.val he)
  · rfl

theorem slot_update_self {n : ℕ} (slots : Fin n → Int32) {i : ℕ} (hi : i < n) (v : Int32) :
    slot (Function.update slots ⟨i, hi⟩ v) i = v.toInt := by
  rw [slot, dif_pos hi, Function.update_self]

/-- A loop over free slots takes a fresh block for each, writes there what `fetch` gave in a
state that still had the old contents of every used block, and leaves the slots below alone. -/
theorem fillBlocks_spec {n : ℕ} (fetch : FileSystem → Fin n → Block → Block) (k i : ℕ)
    (buffer : Block) (slots : Fin n → Int32) (fs : FileSystem) (hc : Counted fs)
    (hfree : (k : ℤ) ≤ fs.superBlock.freeBlockCount.toInt) (hi : i + k ≤ n) :
    ∃ slots' fs', fillBlocks fetch k i buffer slots fs = some ⟨true, slots', fs'⟩ ∧
      (∀ j, j < i → slot slots' j = slot slots j) ∧
      Taken fs ((List.range k).map fun j => slot slots' (i+j)) fs' ∧
      ∀ j (hj : j < k), ∃ fs'' buffer'', (∀ b ∈ usedBlocks fs, fs''.disk b = fs.disk b) ∧
        fs'.disk (slot slots' (i+j)) = fetch fs'' ⟨i+j, by omega⟩ buffer'' := by
  -- Induction on the slots left: the first block is taken and written, then the loop goes on from
  -- a state in which that block is in use, so it is neither taken again nor written again.
  induction k generalizing i buffer slots fs with
  | zero => exact ⟨slots, fs, rfl, fun _ _ => rfl, Taken.nil hc, fun j hj => absurd hj (by omega)⟩
  | succ k ih =>
    rcases getBlock_cases hc with ⟨h0, -⟩ | ⟨b, hb, hfresh, hpos, hg⟩
    · omega
    have hin : i < n := by omega
    let buf := fetch (fs.takeBlock b) ⟨i, hin⟩ buffer
    let fs₁ := (fs.takeBlock b).writeDiskBlock b buf
    let slots₁ := Function.update slots ⟨i, hin⟩ (Int32.ofInt b)
    -- What one turn takes and writes.
    have ht : Taken fs [b] fs₁ := (Taken.single hc hb hfresh).write (List.mem_singleton_self b) buf
    have hf₁ := ht.free hc
    have hlen : [b].length = 1 := rfl
    rw [hlen] at hf₁
    obtain ⟨slots', fs', hrun, hlow, htaken, hdata⟩ :=
      ih (i+1) buf slots₁ fs₁ ht.counted (by push_cast at hfree hf₁; omega) (by omega)
    have hslot : slot slots' i = b := by
      rw [hlow i (by omega), slot_update_self, toInt_ofInt (by omega) hb.2]
    refine ⟨slots', fs', ?_, ?_, ?_, ?_⟩
    · have hne : b ≠ -1 := by omega
      simp only [fillBlocks, hg, if_neg hne, dif_pos hin]
      exact hrun
    · intro j hj
      rw [hlow j (by omega), slot_update_of_ne slots hin _ (by omega)]
    · have hmap : (List.range (k+1)).map (fun j => slot slots' (i+j)) =
          [b] ++ (List.range k).map fun j => slot slots' (i+1+j) := by
        rw [List.range_succ_eq_map, List.map_cons, Nat.add_zero, hslot, List.map_map]
        simp only [List.singleton_append, List.cons.injEq, true_and]
        apply List.map_congr_left
        intro j _
        rw [Function.comp_apply, Nat.succ_eq_add_one, Nat.add_assoc i 1 j, Nat.add_comm 1 j]
      rw [hmap]
      exact ht.trans htaken
    · intro j hj
      cases j with
      | zero =>
        have hmem : b ∈ usedBlocks fs₁ := by
          rw [ht.used]
          exact Finset.mem_union_right _ (by simp)
        have hbuf : fs₁.disk b = buf := by
          change ((fs.takeBlock b).writeDiskBlock b buf).disk b = buf
          rw [FileSystem.writeDiskBlock_of_range _ hb]
          exact Function.update_self ..
        refine ⟨fs.takeBlock b, buffer, fun _ _ => rfl, ?_⟩
        simp only [Nat.add_zero, hslot]
        rw [htaken.disk_used hmem, hbuf]
      | succ j =>
        obtain ⟨fs'', buffer'', hagree, he⟩ := hdata j (by omega)
        have hij : i+1+j = i+(j+1) := by omega
        refine ⟨fs'', buffer'', fun c hcu => ?_, ?_⟩
        · rw [hagree c (by rw [ht.used]; exact Finset.mem_union_left _ hcu), ht.disk_used hcu]
        · simp only [hij] at he
          exact he

theorem slot_val {n : ℕ} (slots : Fin n → Int32) (i : Fin n) :
    slot slots i.val = (slots i).toInt := by
  rw [slot, dif_pos i.isLt]

/-- The blocks in use hold what they held in `fs`. -/
def Agree (fs fs' : FileSystem) : Prop := ∀ b ∈ usedBlocks fs, fs'.disk b = fs.disk b

/-- How many blocks an inode of this size takes. -/
def need (nd : Inode) : ℕ := blocks nd + if nd.size.toInt > 7680 then 1 else 0

/-- What the source writes into the blocks of a new inode is `data`, provided that the blocks
in use have kept their contents. -/
structure Fetches (fs : FileSystem) (count : ℕ) (fetch : FileSystem → Fin 15 → Block → Block)
    (fetchIndirect : FileSystem → FileSystem → Fin 128 → Block → Block) (data : ℕ → Block) :
    Prop where
  direct : ∀ fs' i buffer, Agree fs fs' → i.val < count → fetch fs' i buffer = data i
  indirect : ∀ start fs' i buffer, Agree fs start → Agree fs fs' → i.val+15 < count →
    fetchIndirect start fs' i buffer = data (i+15)

/-- What taking the blocks of a new inode `nd` amounts to: they are fresh, they are all that the
finished inode `nd'` lists, and they hold the data fetched. -/
structure Fills (fs : FileSystem) (fetch : FileSystem → Fin 15 → Block → Block)
    (fetchIndirect : FileSystem → FileSystem → Fin 128 → Block → Block) (nd nd' : Inode)
    (fs' : FileSystem) : Prop where
  inode : nd' = { nd with directBlock := nd'.directBlock, indirectBlock := nd'.indirectBlock }
  taken : Taken fs (blocksOf fs'.disk nd') fs'
  data : ∀ data, Fetches fs (blocks nd) fetch fetchIndirect data →
    ∀ i, i < blocks nd → fs'.disk (dataBlock fs'.disk nd' i) = data i

section

variable (env : Env) (fetch : FileSystem → Fin 15 → Block → Block)
  (fetchIndirect : FileSystem → FileSystem → Fin 128 → Block → Block) (nd : Inode)
  (fs : FileSystem) (hc : Counted fs)

include hc

theorem fillInode_direct (hs : nd.size.toInt ≤ 7680)
    (hfree : (blocks nd : ℤ) ≤ fs.superBlock.freeBlockCount.toInt) :
    ∃ nd' fs', fillInode env fetch fetchIndirect nd fs = some ⟨true, false, nd', fs'⟩ ∧
      Fills fs fetch fetchIndirect nd nd' fs' := by
  have hle : blocks nd ≤ 15 := blocks_le_iff.mpr hs
  have hns : ¬nd.size.toInt > 7680 := by omega
  have hmin : min 15 (blocks nd) = blocks nd := by omega
  obtain ⟨slots, fs₁, hrun, -, htaken, hdata⟩ := fillBlocks_spec fetch (blocks nd) 0 env.buffer
    nd.directBlock fs hc hfree (by omega)
  simp only [Nat.zero_add] at htaken hdata
  let nd' := { nd with directBlock := slots }
  have hblocks : blocksOf fs₁.disk nd' = (List.range (blocks nd)).map fun j => slot slots j := by
    rw [blocksOf, indirectBlocks, if_neg (show ¬nd'.size.toInt > 7680 from hns), List.append_nil]
    apply List.map_congr_left
    intro i hi
    have : i < blocks nd := List.mem_range.mp hi
    exact if_pos (by omega)
  refine ⟨nd', fs₁, ?_, rfl, ?_, ?_⟩
  · simp only [fillInode, show (numBlock nd.size.toInt).toNat = blocks nd from rfl, hmin, hrun,
      Option.bind_some, if_neg hns, Bool.true_eq_false, ↓reduceIte]
    rfl
  · rw [hblocks]
    exact htaken
  · intro data hf i hi
    have h15 : i < 15 := by omega
    obtain ⟨fs'', buffer'', hagree, he⟩ := hdata i hi
    rw [dataBlock, if_pos h15, he]
    exact hf.direct fs'' ⟨i, h15⟩ buffer'' hagree hi

/-- Past 7680 bytes the indirect block is taken after the direct ones, then the blocks of its
slots, and the map is written last. -/
theorem fillInode_indirect (hs : nd.size.toInt > 7680) (hsize : nd.size.toInt ≤ 73216)
    (hfree : (blocks nd : ℤ) + 1 ≤ fs.superBlock.freeBlockCount.toInt) :
    ∃ nd' fs', fillInode env fetch fetchIndirect nd fs = some ⟨true, true, nd', fs'⟩ ∧
      Fills fs fetch fetchIndirect nd nd' fs' := by
  have hle := blocks_le hsize
  have hnb : 15 < blocks nd := by
    by_contra hn
    have := blocks_le_iff.mp (show blocks nd ≤ 15 by omega)
    omega
  have hmin : min 15 (blocks nd) = 15 := by omega
  obtain ⟨slots, fs₁, hrun, -, htaken, hdata⟩ := fillBlocks_spec fetch 15 0 env.buffer
    nd.directBlock fs hc (by omega) (by omega)
  simp only [Nat.zero_add] at htaken hdata
  have hfree₁ := htaken.free hc
  rw [List.length_map, List.length_range] at hfree₁
  -- The indirect block comes after the direct ones and before those of its slots.
  rcases getBlock_cases htaken.counted with ⟨h0, -⟩ | ⟨b, hb, hfresh, -, hg⟩
  · omega
  have ht₂ := htaken.trans (Taken.single htaken.counted hb hfresh)
  have hfree₂ := ht₂.free hc
  rw [List.length_append, List.length_map, List.length_range, List.length_singleton] at hfree₂
  obtain ⟨slots', fs₃, hrun', -, htaken', hdata'⟩ := fillBlocks_spec
    (fetchIndirect (fs₁.takeBlock b)) (blocks nd - 15) 0 env.buffer env.indirectBlockMap
    (fs₁.takeBlock b) ht₂.counted (by omega) (by omega)
  simp only [Nat.zero_add] at htaken' hdata'
  -- The map is written last, so what the finished inode lists is read off the final disk.
  let nd' := { nd with directBlock := slots, indirectBlock := Int32.ofInt b }
  let fs₄ := fs₃.writeDiskBlock b (indirectLayout.encode slots')
  have hib : nd'.indirectBlock.toInt = b := toInt_ofInt (by omega) hb.2
  have hb4 : fs₄.disk b = indirectLayout.encode slots' := by
    change (fs₃.writeDiskBlock b _).disk b = _
    rw [FileSystem.writeDiskBlock_of_range _ hb]
    exact Function.update_self ..
  have hdirect (i : ℕ) (hi : i < 15) : dataBlock fs₄.disk nd' i = slot slots i := if_pos hi
  have hindirect (i : ℕ) : dataBlock fs₄.disk nd' (15+i) = slot slots' i := by
    have hmap : indirectMap fs₄.disk nd' = slots' := by
      rw [indirectMap, hib, hb4, indirectLayout.decode_encode]
    rw [dataBlock, if_neg (by omega), hmap, Nat.add_sub_cancel_left]
  have hblocks : blocksOf fs₄.disk nd' = (List.range 15).map (slot slots) ++
      (List.range (blocks nd - 15)).map (slot slots') ++ [b] := by
    have hsplit : blocks nd' = 15 + (blocks nd - 15) := by
      change blocks nd = _
      omega
    have h₁ : (List.range 15).map (dataBlock fs₄.disk nd') = (List.range 15).map (slot slots) :=
      List.map_congr_left fun i hi => hdirect i (List.mem_range.mp hi)
    have h₂ : (List.range (blocks nd - 15)).map (dataBlock fs₄.disk nd' ∘ (15 + ·)) =
        (List.range (blocks nd - 15)).map (slot slots') :=
      List.map_congr_left fun i _ => hindirect i
    rw [blocksOf, indirectBlocks, if_pos (show nd'.size.toInt > 7680 from hs), hib, dataBlocks,
      hsplit, List.range_add, List.map_append, List.map_map, h₁, h₂]
  refine ⟨nd', fs₄, ?_, rfl, ?_, ?_⟩
  · have hne : b ≠ -1 := by omega
    simp only [fillInode, show (numBlock nd.size.toInt).toNat = blocks nd from rfl, hmin, hrun,
      Option.bind_some, hg, if_neg hne, if_pos hs, hrun', Option.map_some, Bool.true_eq_false,
      ↓reduceIte]
    rfl
  · have h := (ht₂.trans htaken').write (b := b) (by simp) (indirectLayout.encode slots')
    rw [hblocks]
    apply h.perm
    rw [List.append_assoc, List.append_assoc]
    exact List.Perm.append_left _ List.perm_append_comm
  · intro data hf i hi
    -- A direct block was written before the indirect block was taken, and nothing after touches it;
    -- an indirect one was written by the second loop.
    have hagree₁ : Agree fs (fs₁.takeBlock b) := fun c hc => htaken.disk_used hc
    by_cases h15 : i < 15
    · have hmem : slot slots i ∈ (List.range 15).map fun j => slot slots j :=
        List.mem_map_of_mem (List.mem_range.mpr h15)
      have hused : slot slots i ∈ usedBlocks fs₁ := by
        rw [htaken.used]
        exact Finset.mem_union_right _ (List.mem_toFinset.mpr hmem)
      have hne : slot slots i ≠ b := fun he => hfresh (he ▸ hused)
      have hkept : fs₃.disk (slot slots i) = fs₁.disk (slot slots i) := by
        apply htaken'.disk_used
        rw [usedBlocks_takeBlock hb]
        exact Finset.mem_insert_of_mem hused
      obtain ⟨fs'', buffer'', hagree, he⟩ := hdata i h15
      rw [hdirect i h15, fs₃.writeDiskBlock_disk_of_ne hne, hkept, he]
      exact hf.direct fs'' ⟨i, h15⟩ buffer'' hagree hi
    · obtain ⟨j, rfl⟩ : ∃ j, i = 15+j := ⟨i-15, by omega⟩
      have hne : slot slots' j ≠ b := by
        intro he
        apply htaken'.fresh (slot slots' j) (List.mem_map_of_mem (List.mem_range.mpr (by omega)))
        rw [he, usedBlocks_takeBlock hb]
        exact Finset.mem_insert_self _ _
      obtain ⟨fs'', buffer'', hagree, he⟩ := hdata' j (by omega)
      rw [hindirect j, fs₃.writeDiskBlock_disk_of_ne hne, he, Nat.add_comm 15 j]
      apply hf.indirect _ fs'' ⟨j, by omega⟩ buffer'' hagree₁ _ (by simpa [Nat.add_comm] using hi)
      intro c hcu
      have hcu' : c ∈ usedBlocks (fs₁.takeBlock b) := by
        rw [ht₂.used]
        exact Finset.mem_union_left _ hcu
      rw [hagree c hcu', hagree₁ c hcu]

/-- With enough free blocks by the counter, taking the blocks of a new inode does not fail. -/
theorem fillInode_spec (hsize : nd.size.toInt ≤ 73216)
    (hfree : (need nd : ℤ) ≤ fs.superBlock.freeBlockCount.toInt) :
    ∃ nd' fs', fillInode env fetch fetchIndirect nd fs =
        some ⟨true, decide (nd.size.toInt > 7680), nd', fs'⟩ ∧
      Fills fs fetch fetchIndirect nd nd' fs' := by
  unfold need at hfree
  by_cases hs : nd.size.toInt > 7680
  · rw [decide_eq_true hs]
    rw [if_pos hs] at hfree
    exact fillInode_indirect env fetch fetchIndirect nd fs hc hs hsize (by exact_mod_cast hfree)
  · rw [decide_eq_false hs]
    rw [if_neg hs] at hfree
    exact fillInode_direct env fetch fetchIndirect nd fs hc (by omega) (by exact_mod_cast hfree)

end

theorem freeBlocks_freed {n : ℕ} (slots : Fin n → Int32) (k i : ℕ) (fs fs' : FileSystem)
    (h : freeBlocks slots k i fs = some fs') :
    Freed fs ((List.range k).map fun j => slot slots (i+j)).toFinset fs' := by
  induction k generalizing i fs with
  | zero =>
    obtain rfl := Option.some_inj.mp h
    exact Freed.refl fs
  | succ k ih =>
    rw [freeBlocks] at h
    by_cases hi : i < n
    · rw [dif_pos hi, Option.bind_eq_some_iff] at h
      obtain ⟨fs₁, hb, hr⟩ := h
      have hmap : ((List.range (k+1)).map fun j => slot slots (i+j)).toFinset =
          {(slots ⟨i, hi⟩).toInt} ∪ ((List.range k).map fun j => slot slots (i+1+j)).toFinset := by
        have hs : slot slots i = (slots ⟨i, hi⟩).toInt := dif_pos hi
        rw [List.range_succ_eq_map, List.map_cons, List.toFinset_cons, Nat.add_zero, hs,
          List.map_map, Finset.insert_eq]
        congr 3
        funext j
        rw [Function.comp_apply, Nat.succ_eq_add_one, Nat.add_assoc i 1 j, Nat.add_comm 1 j]
      rw [hmap]
      exact (freeBlock_freed hb).trans (ih (i+1) fs₁ hr)
    · rw [dif_neg hi] at h
      cases h

theorem freeBlocks_isSome {n : ℕ} (slots : Fin n → Int32) (k i : ℕ) (fs : FileSystem)
    (hi : i + k ≤ n) (hr : ∀ j, j < k → 0 ≤ slot slots (i+j) ∧ slot slots (i+j) < 4096) :
    ∃ fs', freeBlocks slots k i fs = some fs' := by
  induction k generalizing i fs with
  | zero => exact ⟨fs, rfl⟩
  | succ k ih =>
    have hin : i < n := by omega
    have hs : slot slots i = (slots ⟨i, hin⟩).toInt := dif_pos hin
    obtain ⟨fs₁, hb⟩ := freeBlock_isSome fs (hs ▸ hr 0 (by omega))
    obtain ⟨fs', hrun⟩ := ih (i+1) fs₁ (by omega) fun j hj => by
      have he : i+1+j = i+(j+1) := by omega
      rw [he]
      exact hr (j+1) (by omega)
    exact ⟨fs', by rw [freeBlocks, dif_pos hin, hb, Option.bind_some, hrun]⟩

theorem Freed.disk {fs fs' : FileSystem} {bs : Finset ℤ} (h : Freed fs bs fs') :
    fs'.disk = fs.disk := by
  rw [h.rest]

theorem freeFileBlocks_freed {env : Env} {nd : Inode} {fs fs' : FileSystem}
    (h : freeFileBlocks env nd fs = some fs') : ∃ bs, Freed fs bs fs' := by
  unfold freeFileBlocks at h
  rw [Option.bind_eq_some_iff] at h
  obtain ⟨fs₁, hd, h⟩ := h
  have h₁ := freeBlocks_freed _ _ _ _ _ hd
  by_cases hs : nd.size.toInt > 7680
  · rw [if_pos hs, Option.bind_eq_some_iff] at h
    obtain ⟨fs₂, hi, hb⟩ := h
    exact ⟨_, (h₁.trans (freeBlocks_freed _ _ _ _ _ hi)).trans (freeBlock_freed hb)⟩
  · rw [if_neg hs, Option.some_inj] at h
    subst h
    exact ⟨_, h₁⟩

/-- A block outside the disk is never given back, so all that an inode lists was on the disk. -/
theorem freeFileBlocks_range {env : Env} {nd : Inode} {fs fs' : FileSystem}
    (h : freeFileBlocks env nd fs = some fs') {b : ℤ} (hb : b ∈ blocksOf fs.disk nd) :
    0 ≤ b ∧ b < 4096 := by
  unfold freeFileBlocks at h
  rw [Option.bind_eq_some_iff] at h
  obtain ⟨fs₁, hd, h⟩ := h
  have h₁ := freeBlocks_freed _ _ _ _ _ hd
  -- The loop over the direct slots has freed each of them, and only blocks of the disk are freed.
  have hdirect (j : ℕ) (hj : j < blocks nd) (h15 : j < 15) :
      0 ≤ dataBlock fs.disk nd j ∧ dataBlock fs.disk nd j < 4096 := by
    apply h₁.range
    rw [List.mem_toFinset, dataBlock, if_pos h15]
    refine List.mem_map.mpr ⟨j, List.mem_range.mpr ?_, by rw [Nat.zero_add]⟩
    exact lt_min h15 hj
  by_cases hs : nd.size.toInt > 7680
  · rw [if_pos hs, Option.bind_eq_some_iff] at h
    obtain ⟨fs₂, hi, hlast⟩ := h
    -- The indirect block is freed last; being on the disk, it is also what the map was read from.
    have hib := (freeBlock_freed hlast).range _ (Finset.mem_singleton_self _)
    have hmap : fs₁.readIndirect env nd.indirectBlock = indirectMap fs.disk nd := by
      rw [FileSystem.readIndirect, FileSystem.readDiskBlock_of_range _ hib, h₁.disk, indirectMap]
    have h₂ := freeBlocks_freed _ _ _ _ _ hi
    rw [hmap] at h₂
    rcases List.mem_append.mp hb with hb | hb
    · obtain ⟨j, hj, rfl⟩ := List.mem_map.mp hb
      have hj := List.mem_range.mp hj
      by_cases h15 : j < 15
      · exact hdirect j hj h15
      · apply h₂.range
        rw [List.mem_toFinset, dataBlock, if_neg h15]
        refine List.mem_map.mpr ⟨j-15, List.mem_range.mpr ?_, by rw [Nat.zero_add]⟩
        change j - 15 < blocks nd - 15
        omega
    · rw [indirectBlocks, if_pos hs] at hb
      rw [List.mem_singleton.mp hb]
      exact hib
  · have h15 := blocks_le_iff.mpr (show nd.size.toInt ≤ 7680 by omega)
    rw [blocksOf, indirectBlocks, if_neg hs, List.append_nil] at hb
    obtain ⟨j, hj, rfl⟩ := List.mem_map.mp hb
    have hj := List.mem_range.mp hj
    exact hdirect j hj (by omega)

/-- The blocks given back with an inode are the blocks it lists. -/
theorem freeFileBlocks_spec (env : Env) (nd : Inode) (fs : FileSystem)
    (hsize : nd.size.toInt ≤ 73216)
    (hr : ∀ b ∈ blocksOf fs.disk nd, 0 ≤ b ∧ b < 4096) :
    ∃ fs', freeFileBlocks env nd fs = some fs' ∧ Freed fs (blocksOf fs.disk nd).toFinset fs' := by
  have hle := blocks_le hsize
  have hdirect (j : ℕ) (hj : j < 15) : dataBlock fs.disk nd j = slot nd.directBlock j := if_pos hj
  obtain ⟨fs₁, hd⟩ := freeBlocks_isSome nd.directBlock (min 15 (blocks nd)) 0 fs (by omega)
    fun j hj => by
      rw [Nat.zero_add, ← hdirect j (by omega)]
      exact hr _ (dataBlock_mem fs.disk (by omega))
  have h₁ := freeBlocks_freed _ _ _ _ _ hd
  simp only [Nat.zero_add] at h₁
  have hmap₁ : (List.range (min 15 (blocks nd))).map (slot nd.directBlock) =
      (List.range (min 15 (blocks nd))).map (dataBlock fs.disk nd) :=
    List.map_congr_left fun j hj => (hdirect j (by have := List.mem_range.mp hj; omega)).symm
  by_cases hs : nd.size.toInt > 7680
  · have hnb : 15 < blocks nd := by
      by_contra hn
      have := blocks_le_iff.mp (show blocks nd ≤ 15 by omega)
      omega
    have hmin : min 15 (blocks nd) = 15 := by omega
    have hib := hr _ (indirectBlock_mem fs.disk hs)
    -- Freeing writes nothing, so the map read after the direct slots are free is the old one.
    have hmap : fs₁.readIndirect env nd.indirectBlock = indirectMap fs.disk nd := by
      rw [FileSystem.readIndirect, FileSystem.readDiskBlock_of_range _ hib, h₁.disk, indirectMap]
    have hindirect (j : ℕ) : dataBlock fs.disk nd (15+j) = slot (indirectMap fs.disk nd) j := by
      rw [dataBlock, if_neg (by omega), Nat.add_sub_cancel_left]
    obtain ⟨fs₂, hi⟩ := freeBlocks_isSome (indirectMap fs.disk nd) (blocks nd - 15) 0 fs₁ (by omega)
      fun j hj => by
        rw [Nat.zero_add, ← hindirect j]
        exact hr _ (dataBlock_mem fs.disk (by omega))
    have h₂ := freeBlocks_freed _ _ _ _ _ hi
    simp only [Nat.zero_add] at h₂
    obtain ⟨fs₃, hb⟩ := freeBlock_isSome fs₂ hib
    have hall : (blocksOf fs.disk nd).toFinset =
        ((List.range 15).map (slot nd.directBlock)).toFinset ∪
          ((List.range (blocks nd - 15)).map (slot (indirectMap fs.disk nd))).toFinset ∪
          {nd.indirectBlock.toInt} := by
      have hsplit : blocks nd = 15 + (blocks nd - 15) := by omega
      have h₂ : (List.range (blocks nd - 15)).map (dataBlock fs.disk nd ∘ (15 + ·)) =
          (List.range (blocks nd - 15)).map (slot (indirectMap fs.disk nd)) :=
        List.map_congr_left fun j _ => hindirect j
      rw [hmin] at hmap₁
      rw [blocksOf, indirectBlocks, if_pos hs, dataBlocks, hmap₁]
      conv_lhs => rw [hsplit, List.range_add, List.map_append, List.map_map, h₂]
      simp only [List.toFinset_append, List.toFinset_cons, List.toFinset_nil, insert_empty_eq]
    refine ⟨fs₃, ?_, ?_⟩
    · simp only [freeFileBlocks, show (numBlock nd.size.toInt).toNat = blocks nd from rfl, hd,
        Option.bind_some, if_pos hs, hmap, hi, hb]
    · rw [hmin] at h₁
      rw [hall]
      exact (h₁.trans h₂).trans (freeBlock_freed hb)
  · have hle15 : blocks nd ≤ 15 := blocks_le_iff.mpr (by omega)
    have hmin : min 15 (blocks nd) = blocks nd := by omega
    refine ⟨fs₁, ?_, ?_⟩
    · simp only [freeFileBlocks, show (numBlock nd.size.toInt).toNat = blocks nd from rfl, hd,
        Option.bind_some, if_neg hs]
    · rw [hmin] at h₁ hmap₁
      rw [blocksOf, indirectBlocks, if_neg hs, List.append_nil, dataBlocks, ← hmap₁]
      exact h₁

end OperatingSystems.FS
