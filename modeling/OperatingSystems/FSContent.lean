import OperatingSystems.FSOwned

/-! What `cat` prints: the blocks of the file put together again. -/
namespace OperatingSystems.FS

/-- Byte `j` of a file. -/
def byteAt (disk : ℤ → Block) (nd : Inode) (j : ℕ) : Byte :=
  disk (dataBlock disk nd (j / 512)) ⟨j % 512, Nat.mod_lt j (by decide)⟩

/-- The bytes of a file, as many as its size. -/
def content (disk : ℤ → Block) (nd : Inode) : List Byte :=
  (List.range nd.size.toInt.toNat).map (byteAt disk nd)

theorem memcpy_apply (str : ℕ → Byte) (g len : ℕ) (buf : Block) (hlen : len ≤ 512) (j : ℕ) :
    memcpy str (512*g) buf len j =
      if 512*g ≤ j ∧ j < 512*g+len then buf ⟨j % 512, Nat.mod_lt j (by decide)⟩ else str j := by
  unfold memcpy
  by_cases h : 512*g ≤ j ∧ j < 512*g+len
  · have hj : j - 512*g = j % 512 := by omega
    rw [if_pos h, dif_pos (by omega)]
    congr 1
    exact Fin.ext hj
  · rw [if_neg h, dif_neg (by omega)]

/-- The string `str` with the blocks `lo .. hi-1` of a file of `len` bytes copied in, block `g`
being the one that slot `g-base` names. -/
def copied {n : ℕ} (fs : FileSystem) (slots : Fin n → Int32) (base len lo hi : ℕ)
    (str : ℕ → Byte) : ℕ → Byte := fun j =>
  if 512*lo ≤ j ∧ j < 512*hi ∧ j < len then
    fs.disk (slot slots (j/512 - base)) ⟨j % 512, Nat.mod_lt j (by decide)⟩
  else str j

section

variable {n : ℕ} (fs : FileSystem) (slots : Fin n → Int32) (base len : ℕ)

theorem copied_apply (lo hi : ℕ) (str : ℕ → Byte) (j : ℕ) :
    copied fs slots base len lo hi str j = if 512*lo ≤ j ∧ j < 512*hi ∧ j < len then
      fs.disk (slot slots (j/512 - base)) ⟨j % 512, Nat.mod_lt j (by decide)⟩ else str j := rfl

theorem copied_self (g : ℕ) (str : ℕ → Byte) : copied fs slots base len g g str = str := by
  funext j
  unfold copied
  rw [if_neg]
  omega

theorem copied_copied {lo mid hi : ℕ} (h₁ : lo ≤ mid) (h₂ : mid ≤ hi) (str : ℕ → Byte) :
    copied fs slots base len mid hi (copied fs slots base len lo mid str) =
      copied fs slots base len lo hi str := by
  funext j
  unfold copied
  by_cases hb : 512*mid ≤ j ∧ j < 512*hi ∧ j < len
  · have hc : 512*lo ≤ j ∧ j < 512*hi ∧ j < len := by omega
    rw [if_pos hb, if_pos hc]
  · rw [if_neg hb]
    by_cases ha : 512*lo ≤ j ∧ j < 512*mid ∧ j < len
    · have hc : 512*lo ≤ j ∧ j < 512*hi ∧ j < len := by omega
      rw [if_pos ha, if_pos hc]
    · have hc : ¬(512*lo ≤ j ∧ j < 512*hi ∧ j < len) := by omega
      rw [if_neg ha, if_neg hc]

/-- One block is copied whole, or as far as the file goes. -/
theorem memcpy_eq_copied (g count : ℕ) (str : ℕ → Byte)
    (hcount : count = 512 ∧ 512*(g+1) ≤ len ∨ count ≤ 512 ∧ len = 512*g+count) :
    memcpy str (512*g) (fs.disk (slot slots (g-base))) count =
      copied fs slots base len g (g+1) str := by
  funext j
  rw [memcpy_apply str g count _ (by omega), copied]
  by_cases hj : 512*g ≤ j ∧ j < 512*g+count
  · have hj' : 512*g ≤ j ∧ j < 512*(g+1) ∧ j < len := by omega
    have hdiv : j/512 = g := by omega
    rw [if_pos hj, if_pos hj', hdiv]
  · have hj' : ¬(512*g ≤ j ∧ j < 512*(g+1) ∧ j < len) := by omega
    rw [if_neg hj, if_neg hj']

/-- A loop of `cat` over `k` slots from `i`, with `size` bytes still to come, copies their blocks
in; `size` goes down with every whole block. -/
theorem catBlocks_spec (k i : ℕ) (buffer : Block) (size : ℤ) (str : ℕ → Byte) (hi : i + k ≤ n)
    (hsize : size = (len : ℤ) - ((base+i : ℕ) : ℤ)*512) (hlen : 512*(base+i+k) < len + 512)
    (hr : ∀ j, i ≤ j → j < i+k → 0 ≤ slot slots j ∧ slot slots j < 4096) :
    ∃ size', catBlocks fs slots base k i buffer size str =
        some (size', copied fs slots base len (base+i) (base+i+k) str) ∧
      (512*(base+i+k) ≤ len → size' = (len : ℤ) - ((base+i+k : ℕ) : ℤ)*512) := by
  induction k generalizing i buffer size str with
  | zero =>
    refine ⟨size, ?_, fun _ => hsize⟩
    rw [Nat.add_zero, copied_self]
    rfl
  | succ k ih =>
    have hin : i < n := by omega
    have hslot : slot slots i = (slots ⟨i, hin⟩).toInt := dif_pos hin
    have hrange := hr i le_rfl (by omega)
    have hread : fs.readDiskBlock (slots ⟨i, hin⟩).toInt buffer = fs.disk (slot slots i) := by
      rw [hslot] at hrange ⊢
      exact fs.readDiskBlock_of_range hrange buffer
    have hg : base + i - base = i := Nat.add_sub_cancel_left base i
    have hbs : (BLOCK_SIZE : ℤ) = 512 := rfl
    rw [catBlocks, dif_pos hin]
    simp only [hread, hbs]
    -- A whole block is counted off and the loop goes on; a part of one is the end of the file.
    by_cases hfull : size ≥ 512
    · have hstep := memcpy_eq_copied fs slots base len (base+i) 512 str
        (Or.inl ⟨rfl, by omega⟩)
      rw [hg] at hstep
      obtain ⟨size', hrun, hend⟩ := ih (i+1) (fs.disk (slot slots i)) (size-512)
        (copied fs slots base len (base+i) (base+i+1) str) (by omega) (by push_cast at hsize ⊢; omega)
        (by omega) fun j h₁ h₂ => hr j (by omega) (by omega)
      have hshift : base + (i+1) + k = base + i + (k+1) := by omega
      rw [← Nat.add_assoc base i 1, copied_copied fs slots base len (by omega) (by omega)] at hrun
      rw [show base+i+1+k = base+i+(k+1) by omega] at hrun
      rw [hshift] at hend
      refine ⟨size', ?_, hend⟩
      rw [if_pos hfull]
      change catBlocks fs slots base k (i+1) _ _ (memcpy str ((base+i)*512) _ 512) = _
      rw [Nat.mul_comm (base+i) 512]
      rw [hstep]
      exact hrun
    · have hk : k = 0 := by omega
      subst hk
      have hstep := memcpy_eq_copied fs slots base len (base+i) size.toNat str
        (Or.inr ⟨by omega, by omega⟩)
      rw [hg] at hstep
      refine ⟨size, ?_, fun h => by omega⟩
      rw [if_neg hfull]
      change some (size, memcpy str ((base+i)*512) _ size.toNat) = _
      rw [Nat.mul_comm (base+i) 512]
      rw [hstep]

end

variable {fs : FileSystem} {env : Env}

/-- `cat` of an owned file prints its content up to the first zero byte. -/
theorem fileCat_file (h : Owned fs) {name : Name} {s : ℤ} (hs : fs.searchCurDir name = some s)
    (hused : s ∈ usedInodes fs) (htype : (fs.inode s).type = .file) :
    fileCat env name fs = some (⟨0, [("%s\n", [.s ((content fs.disk (fs.inode s)).takeWhile
      (· ≠ 0))])]⟩, fs) := by
  have hrange := mem_usedInodes_range hused
  obtain ⟨nd, hnd⟩ : ∃ nd, nd = fs.inode s := ⟨_, rfl⟩
  have hsize := h.sane.size s
  have hpos := h.size_pos s hused
  have hdata := h.data s hused
  rw [← hnd] at hsize hpos hdata htype ⊢
  have hle := blocks_le hsize.2
  obtain ⟨len, hlen⟩ : ∃ len : ℕ, nd.size.toInt = len := ⟨nd.size.toInt.toNat, by omega⟩
  have hnum := numBlock_spec nd.size.toInt
  have hcoe : (blocks nd : ℤ) = numBlock nd.size.toInt := coe_blocks hsize.1
  have hr (j : ℕ) (hj : j < blocks nd) :
      0 ≤ dataBlock fs.disk nd j ∧ dataBlock fs.disk nd j < 4096 :=
    mem_usedBlocks_range (hdata _ (dataBlock_mem fs.disk hj)).2
  have hread : fs.readInode env s = some nd := by
    rw [hnd]
    exact readInode_of_range hrange
  have hdirect (j : ℕ) (hj : j < 15) : dataBlock fs.disk nd j = slot nd.directBlock j := if_pos hj
  -- The first loop copies the direct blocks, the second what lies behind them.
  obtain ⟨size₁, hrun, hend⟩ := catBlocks_spec fs nd.directBlock 0 len (min 15 (blocks nd)) 0
    env.buffer nd.size.toInt (Function.update env.heap len 0) (by omega) (by simpa using hlen)
    (by omega) fun j _ hj => hdirect j (by omega) ▸ hr j (by omega)
  simp only [Nat.zero_add] at hrun hend
  have htoNat : nd.size.toInt.toNat = len := by omega
  have hprint (str : ℕ → Byte) (hall : ∀ j, j < len → str j = byteAt fs.disk nd j) :
      stringOf str len = (content fs.disk nd).takeWhile (· ≠ 0) := by
    have hmap : (List.range len).map str = content fs.disk nd := by
      rw [content, htoNat]
      exact List.map_congr_left fun j hj => hall j (List.mem_range.mp hj)
    rw [stringOf, hmap]
  have hne : ¬nd.type = .directory := by
    rw [htype]
    decide
  simp only [fileCat, hs, hread, Option.bind_some]
  rw [if_neg (show ¬s < 0 by omega), if_neg hne]
  simp only [show (numBlock nd.size.toInt).toNat = blocks nd from rfl, htoNat, hrun,
    Option.bind_some]
  by_cases hbig : nd.size.toInt > 7680
  · have hnb : 15 < blocks nd := by omega
    have hmin : min 15 (blocks nd) = 15 := by omega
    rw [hmin] at hend ⊢
    have hib := mem_usedBlocks_range (hdata _ (indirectBlock_mem fs.disk hbig)).2
    have hmap : fs.readIndirect env nd.indirectBlock = indirectMap fs.disk nd := by
      rw [FileSystem.readIndirect, FileSystem.readDiskBlock_of_range _ hib, indirectMap]
    have hindirect (j : ℕ) : dataBlock fs.disk nd (15+j) = slot (indirectMap fs.disk nd) j := by
      rw [dataBlock, if_neg (by omega), Nat.add_sub_cancel_left]
    obtain ⟨size₂, hrun₂, -⟩ := catBlocks_spec fs (indirectMap fs.disk nd) 15 len (blocks nd - 15) 0
      env.buffer size₁ (copied fs nd.directBlock 0 len 0 15 (Function.update env.heap len 0))
      (by omega) (hend (by omega)) (by omega) fun j _ hj => hindirect j ▸ hr (15+j) (by omega)
    rw [if_pos hbig, hmap, hrun₂, Option.map_some, hprint]
    intro j hj
    change copied fs (indirectMap fs.disk nd) 15 len _ _ _ j = _
    rw [copied_apply]
    -- The second loop writes behind the direct blocks and leaves their bytes.
    by_cases hlow : j < 512*15
    · have hc : ¬(512*(15+0) ≤ j ∧ j < 512*(15+0+(blocks nd - 15)) ∧ j < len) := by omega
      have hd : 512*0 ≤ j ∧ j < 512*15 ∧ j < len := by omega
      rw [if_neg hc, copied_apply, if_pos hd, byteAt, Nat.sub_zero, hdirect _ (by omega)]
    · have hc : 512*(15+0) ≤ j ∧ j < 512*(15+0+(blocks nd - 15)) ∧ j < len := by omega
      have he : 15 + (j/512 - 15) = j/512 := by omega
      rw [if_pos hc, byteAt, ← hindirect, he]
  · have hmin : min 15 (blocks nd) = blocks nd := by omega
    rw [hmin]
    rw [if_neg hbig, Option.map_some, hprint]
    intro j hj
    have hc : 512*0 ≤ j ∧ j < 512*blocks nd ∧ j < len := by omega
    change copied fs nd.directBlock 0 len 0 (blocks nd) _ j = _
    rw [copied_apply, if_pos hc, byteAt, Nat.sub_zero, hdirect _ (by omega)]

/-- Otherwise `cat` refuses. -/
theorem fileCat_refused (env : Env) {name : Name} {s : ℤ} (hs : fs.searchCurDir name = some s)
    (hread : s = -1 ∨ ((0 ≤ s ∧ s < 512) ∧ (fs.inode s).type = .directory)) :
    ∃ r, fileCat env name fs = some (r, fs) ∧ r.ret = -1 := by
  rcases hread with rfl | ⟨hr, ht⟩
  · have hread : fs.readInode env (-1) = some env.beforeInode := if_pos rfl
    simp only [fileCat, hs, hread, Option.bind_some]
    rw [if_pos (by decide)]
    exact ⟨_, rfl, rfl⟩
  · have hread : fs.readInode env s = some (fs.inode s) := readInode_of_range hr
    simp only [fileCat, hs, hread, Option.bind_some]
    rw [if_neg (by omega), if_pos ht]
    exact ⟨_, rfl, rfl⟩

end OperatingSystems.FS
