import OperatingSystems.FSAlloc
import Mathlib.Data.List.Basic

/-! A directory as the list of its entries: searching, appending and removing. -/
namespace OperatingSystems.FS

theorem command_iff (a b : List Byte) : command a b = true ↔ a = b := by
  simp only [command, Bool.and_eq_true, beq_iff_eq]
  constructor
  · rintro ⟨hl, ht⟩
    rwa [List.take_length, hl, List.take_length] at ht
  · rintro rfl
    exact ⟨rfl, rfl⟩

theorem takeWhile_ne_zero {l bs : List Byte} (h0 : 0 ∉ bs) (ht : l.take bs.length = bs)
    (hz : l[bs.length]? = some 0) : l.takeWhile (· ≠ 0) = bs := by
  obtain ⟨hlt, he⟩ := List.getElem?_eq_some_iff.mp hz
  have hsplit : l = bs ++ 0 :: l.drop (bs.length+1) := by
    conv_lhs => rw [← List.take_append_drop bs.length l, ht, List.drop_eq_getElem_cons hlt, he]
  rw [hsplit, List.takeWhile_append_of_pos]
  · simp
  · intro b hb
    have : b ≠ 0 := fun he => h0 (he ▸ hb)
    simpa using this

theorem Name.ext_bytes {a b : Name} (h : a.bytes = b.bytes) : a = b := by
  cases a
  cases b
  simpa using h

/-- A stored name reads back as its bytes. -/
theorem cString_store (n : Name) (old : Fin 20 → Byte) : cString (n.store old) = n.bytes := by
  have hlen : n.bytes.length < 20 := n.length_lt
  apply takeWhile_ne_zero n.nul_not_mem
  · apply List.ext_getElem
    · simp only [List.length_take, List.length_ofFn]
      omega
    · intro i h₁ h₂
      simp only [List.getElem_take, List.getElem_ofFn, Name.store, dif_pos h₂]
  · rw [List.getElem?_ofFn, dif_pos hlen]
    simp [Name.store]

namespace Dentry

variable (d : Dentry)

/-- Entry `i` as its name and inode number. -/
def entryAt (i : ℕ) : List Byte × ℤ :=
  match d.entry? i with
  | some e => (cString e.name, e.inode.toInt)
  | none => ([], -1)

/-- The `k` entries from `i`. -/
def segment (i k : ℕ) : List (List Byte × ℤ) := (List.range k).map fun j => d.entryAt (i+j)

/-- The entries in order. -/
def listing : List (List Byte × ℤ) := d.segment 0 d.count

/-- The number of entries is one that the array has room for. -/
def Fits : Prop := 0 ≤ d.numEntry.toInt ∧ d.numEntry.toInt ≤ 21

theorem segment_succ (i k : ℕ) : d.segment i (k+1) = d.entryAt i :: d.segment (i+1) k := by
  unfold segment
  rw [List.range_succ_eq_map, List.map_cons, Nat.add_zero, List.map_map]
  congr 2
  funext j
  rw [Function.comp_apply, Nat.succ_eq_add_one, Nat.add_assoc i 1 j, Nat.add_comm 1 j]

theorem segment_append (i k m : ℕ) : d.segment i (k+m) = d.segment i k ++ d.segment (i+k) m := by
  unfold segment
  rw [List.range_add, List.map_append, List.map_map]
  congr 2
  funext j
  rw [Function.comp_apply, Nat.add_assoc]

@[simp] theorem length_segment (i k : ℕ) : (d.segment i k).length = k := by simp [segment]

@[simp] theorem length_listing : d.listing.length = d.count := d.length_segment 0 d.count

variable {d}

theorem segment_congr {d' : Dentry} {i j k : ℕ}
    (h : ∀ m, m < k → d'.entryAt (j+m) = d.entryAt (i+m)) : d'.segment j k = d.segment i k :=
  List.map_congr_left fun m hm => h m (List.mem_range.mp hm)

theorem entry?_of_lt {i : ℕ} (h : i < 21) : d.entry? i = some (d.dentry ⟨i, h⟩) := dif_pos h

theorem entryAt_of_lt {i : ℕ} (h : i < 21) :
    d.entryAt i = (cString (d.dentry ⟨i, h⟩).name, (d.dentry ⟨i, h⟩).inode.toInt) := by
  rw [entryAt, entry?_of_lt h]

theorem Fits.coe_count (h : d.Fits) : (d.count : ℤ) = d.numEntry.toInt := by
  have := h.1
  unfold count
  omega

theorem Fits.count_le (h : d.Fits) : d.count ≤ 21 := by
  have := h.coe_count
  have := h.2
  omega

/-- What a search in a list of entries answers. -/
def find (l : List (List Byte × ℤ)) (name : Name) : ℤ :=
  ((l.find? fun e => e.1 == name.bytes).map (·.2)).getD (-1)

theorem find_cons (e : List Byte × ℤ) (l : List (List Byte × ℤ)) (name : Name) :
    find (e :: l) name = if e.1 = name.bytes then e.2 else find l name := by
  unfold find
  by_cases h : e.1 = name.bytes
  · rw [if_pos h, List.find?_cons_of_pos (by simpa using h)]
    rfl
  · rw [if_neg h, List.find?_cons_of_neg (by simpa using h)]

/-- A search finds nothing, or the first entry of that name, which is the one to be erased. -/
theorem find_cases (l : List (List Byte × ℤ)) (name : Name) :
    (find l name = -1 ∧ name.bytes ∉ l.map Prod.fst) ∨
      ∃ l₁ l₂ s, l = l₁ ++ (name.bytes, s) :: l₂ ∧ name.bytes ∉ l₁.map Prod.fst ∧
        find l name = s ∧ (l.eraseP fun e => e.1 == name.bytes) = l₁ ++ l₂ := by
  induction l with
  | nil => exact Or.inl ⟨rfl, List.not_mem_nil⟩
  | cons e l ih =>
    rw [find_cons]
    by_cases h : e.1 = name.bytes
    · right
      refine ⟨[], l, e.2, ?_, List.not_mem_nil, by rw [if_pos h], ?_⟩
      · rw [← h]
        rfl
      · rw [List.eraseP_cons_of_pos (by simpa using h)]
        rfl
    · rw [if_neg h, List.eraseP_cons_of_neg (by simpa using h)]
      rcases ih with ⟨hf, hn⟩ | ⟨l₁, l₂, s, hl, hn, hf, he⟩
      · left
        refine ⟨hf, ?_⟩
        rw [List.map_cons, List.mem_cons, not_or]
        exact ⟨fun hc => h hc.symm, hn⟩
      · right
        refine ⟨e :: l₁, l₂, s, by rw [hl]; rfl, ?_, hf, by rw [he]; rfl⟩
        rw [List.map_cons, List.mem_cons, not_or]
        exact ⟨fun hc => h hc.symm, hn⟩

theorem find_append_of_mem {l : List (List Byte × ℤ)} {name : Name}
    (h : name.bytes ∈ l.map Prod.fst) (e : List Byte × ℤ) : find (l ++ [e]) name = find l name := by
  induction l with
  | nil => exact absurd h List.not_mem_nil
  | cons a l ih =>
    rw [List.cons_append, find_cons, find_cons]
    by_cases ha : a.1 = name.bytes
    · rw [if_pos ha, if_pos ha]
    · rw [if_neg ha, if_neg ha]
      apply ih
      rcases List.mem_cons.mp h with he | hm
      · exact absurd he.symm ha
      · exact hm

theorem find_append_new {l : List (List Byte × ℤ)} {name : Name}
    (h : name.bytes ∉ l.map Prod.fst) (n : ℤ) : find (l ++ [(name.bytes, n)]) name = n := by
  induction l with
  | nil => rw [List.nil_append, find_cons, if_pos rfl]
  | cons a l ih =>
    rw [List.map_cons, List.mem_cons, not_or] at h
    rw [List.cons_append, find_cons, if_neg fun ha => h.1 ha.symm]
    exact ih h.2

theorem find_of_not_mem {l : List (List Byte × ℤ)} {name : Name}
    (h : name.bytes ∉ l.map Prod.fst) : find l name = -1 := by
  rcases find_cases l name with ⟨hf, -⟩ | ⟨l₁, l₂, s, hl, -⟩
  · exact hf
  · rw [hl] at h
    simp at h

/-- Erasing the first entry of one name does not disturb the search for another. -/
theorem find_eraseP_of_ne (l : List (List Byte × ℤ)) {name other : Name} (h : other ≠ name) :
    find (l.eraseP fun e => e.1 == name.bytes) other = find l other := by
  induction l with
  | nil => rfl
  | cons e l ih =>
    by_cases he : e.1 = name.bytes
    · have hne : ¬e.1 = other.bytes := fun hc => h (Name.ext_bytes (hc.symm.trans he))
      rw [List.eraseP_cons_of_pos (by simpa using he), find_cons, if_neg hne]
    · rw [List.eraseP_cons_of_neg (by simpa using he), find_cons, find_cons, ih]

theorem search_segment (name : Name) (k i : ℕ) (h : i + k ≤ 21) :
    d.search name k i = some (find (d.segment i k) name) := by
  induction k generalizing i with
  | zero => rfl
  | succ k ih =>
    have hi : i < 21 := by omega
    rw [search, entry?_of_lt hi, Option.bind_some, segment_succ, find_cons, entryAt_of_lt hi]
    by_cases hm : cString (d.dentry ⟨i, hi⟩).name = name.bytes
    · rw [if_pos ((command_iff _ _).mpr hm.symm), if_pos hm]
    · rw [if_neg (fun hc => hm ((command_iff _ _).mp hc).symm), if_neg hm]
      exact ih (i+1) (by omega)

/-- Within the array a search finds the first entry of that name. -/
theorem search_listing (h : d.Fits) (name : Name) :
    d.search name d.count 0 = some (find d.listing name) :=
  search_segment name d.count 0 (by have := h.count_le; omega)

theorem append_listing (h : d.Fits) (hroom : ¬d.Full) (name : Name) {n : ℤ}
    (hn : -1 ≤ n ∧ n < 4096) :
    ∃ d', d.append name n = some d' ∧ d'.Fits ∧ d'.listing = d.listing ++ [(name.bytes, n)] := by
  have hcount := h.coe_count
  unfold Full at hroom
  simp only [MAX_DIR_ENTRY] at hroom
  have hlt : d.numEntry.toInt.toNat < 21 := by omega
  have hslot : 0 ≤ d.numEntry.toInt ∧ d.numEntry.toInt.toNat < 21 := ⟨h.1, hlt⟩
  let slot : Fin 21 := ⟨d.numEntry.toInt.toNat, hlt⟩
  let entry : DirectoryEntry := ⟨name.store (d.dentry slot).name, Int32.ofInt n⟩
  let d' : Dentry := { d with
    dentry := Function.update d.dentry slot entry, numEntry := d.numEntry + 1 }
  have hnum : d'.numEntry.toInt = d.numEntry.toInt + 1 := toInt_add_one (by omega) (by omega)
  have hfits : d'.Fits := ⟨by omega, by omega⟩
  have hcount' : d'.count = d.count + 1 := by
    have := hfits.coe_count
    omega
  refine ⟨d', by rw [append, dif_pos hslot], hfits, ?_⟩
  -- The slots below the new entry are as they were.
  have hlow : d'.segment 0 d.count = d.segment 0 d.count := by
    apply segment_congr
    intro m hm
    have hm21 : 0 + m < 21 := by omega
    have hne : (⟨0+m, hm21⟩ : Fin 21) ≠ slot := by
      intro he
      have := congrArg Fin.val he
      change 0 + m = d.count at this
      omega
    rw [entryAt_of_lt hm21, entryAt_of_lt hm21]
    change (cString (Function.update d.dentry slot entry ⟨0+m, hm21⟩).name,
      (Function.update d.dentry slot entry ⟨0+m, hm21⟩).inode.toInt) = _
    rw [Function.update_of_ne hne]
  have hnew : d'.entryAt d.count = (name.bytes, n) := by
    rw [entryAt_of_lt (show d.count < 21 from hlt)]
    change (cString (Function.update d.dentry slot entry slot).name,
      (Function.update d.dentry slot entry slot).inode.toInt) = _
    rw [Function.update_self, cString_store, toInt_ofInt hn.1 hn.2]
  rw [listing, hcount', segment_append, hlow, Nat.zero_add, segment_succ, hnew]
  rfl

theorem append_fits {name : Name} {n : ℤ} {d' : Dentry} (h : d.append name n = some d') :
    d.Fits := by
  rw [append] at h
  by_cases hslot : 0 ≤ d.numEntry.toInt ∧ d.numEntry.toInt.toNat < 21
  · exact ⟨hslot.1, by omega⟩
  · rw [dif_neg hslot] at h
    cases h

/-- The directory has grown by one entry at its end. -/
theorem appended {d' : Dentry} {name : Name} {n : ℤ} (h : d.append name n = some d')
    (hroom : ¬d.Full) (hn : 0 ≤ n ∧ n < 512) :
    d'.Fits ∧ d'.listing = d.listing ++ [(name.bytes, n)] := by
  obtain ⟨d₁, hd, hfits, hl⟩ := append_listing (append_fits h) hroom name (n := n)
    ⟨by omega, by omega⟩
  obtain rfl : d' = d₁ := Option.some_inj.mp (h.symm.trans hd)
  exact ⟨hfits, hl⟩

theorem nodup_concat {l : List (List Byte × ℤ)} {a : List Byte} (h : (l.map Prod.fst).Nodup)
    (ha : a ∉ l.map Prod.fst) (n : ℤ) : ((l ++ [(a, n)]).map Prod.fst).Nodup := by
  rw [List.map_append]
  apply h.append (List.nodup_singleton _)
  intro x hx hx'
  obtain rfl : x = a := List.mem_singleton.mp hx'
  exact ha hx

theorem entryAt_congr {d' : Dentry} {i j : ℕ} (h : d'.entry? j = d.entry? i) :
    d'.entryAt j = d.entryAt i := by
  rw [entryAt, entryAt, h]

theorem compact_spec (after : DirectoryEntry) (k i : ℕ) (d : Dentry) (h : i + k ≤ 21) :
    ∃ d', compact after k i d = some d' ∧ d'.numEntry = d.numEntry ∧
      (∀ j, j < i → d'.entry? j = d.entry? j) ∧
      ∀ j, i ≤ j → j + 1 < i + k → d'.entry? j = d.entry? (j+1) := by
  -- Induction on the steps left: step `i` overwrites slot `i` with its successor, and later steps
  -- leave slot `i` alone.
  induction k generalizing i d with
  | zero => exact ⟨d, rfl, rfl, fun _ _ => rfl, fun j _ _ => by omega⟩
  | succ k ih =>
    have hi : i < 21 := by omega
    let d₁ : Dentry := { d with
      dentry := Function.update d.dentry ⟨i, hi⟩ ((d.entry? (i+1)).getD after) }
    have hother (j : ℕ) (hj : j ≠ i) : d₁.entry? j = d.entry? j := by
      by_cases hj21 : j < 21
      · have hne : (⟨j, hj21⟩ : Fin 21) ≠ ⟨i, hi⟩ := fun he => hj (congrArg Fin.val he)
        rw [entry?_of_lt hj21, entry?_of_lt hj21, Option.some_inj]
        exact Function.update_of_ne hne _ _
      · unfold entry?
        rw [dif_neg hj21, dif_neg hj21]
    obtain ⟨d', hrun, hnum, hlow, hhigh⟩ := ih (i+1) d₁ (by omega)
    refine ⟨d', by rw [compact, dif_pos hi]; exact hrun, hnum, ?_, ?_⟩
    · intro j hj
      rw [hlow j (by omega), hother j (by omega)]
    · intro j hij hj
      by_cases hji : j = i
      · subst hji
        have hj1 : j+1 < 21 := by omega
        have hslot : d₁.dentry ⟨j, hi⟩ = (d.entry? (j+1)).getD after := Function.update_self _ _ _
        rw [hlow j (by omega), entry?_of_lt hi, hslot, entry?_of_lt hj1, Option.getD_some]
      · rw [hhigh j (by omega) (by omega), hother (j+1) (by omega)]

theorem remove_segment (after : DirectoryEntry) (name : Name) (k i : ℕ) (hfits : d.Fits)
    (h : i + k = d.count) :
    ∃ d', remove after name k i d = some d' ∧ d'.Fits ∧
      d'.listing = d.segment 0 i ++ (d.segment i k).eraseP fun e => e.1 == name.bytes := by
  have hle := hfits.count_le
  have hcount := hfits.coe_count
  -- Induction on the entries left to look at: either entry `i` matches and all behind it move, or
  -- the loop goes on and `i` joins the entries that stay.
  induction k generalizing i with
  | zero =>
    refine ⟨d, rfl, hfits, ?_⟩
    have hi : i = d.count := by omega
    rw [hi]
    exact (List.append_nil _).symm
  | succ k ih =>
    have hi : i < 21 := by omega
    rw [remove, entry?_of_lt hi, Option.bind_some, segment_succ, entryAt_of_lt hi]
    by_cases hm : name.bytes = cString (d.dentry ⟨i, hi⟩).name
    · -- the entries behind the match move down by one
      obtain ⟨d₁, hrun, hnum, hlow, hhigh⟩ := compact_spec after (k+1) i d (by omega)
      let d' : Dentry := { d₁ with numEntry := d₁.numEntry - 1 }
      have hnum' : d'.numEntry.toInt = d.numEntry.toInt - 1 := by
        change (d₁.numEntry - 1).toInt = _
        rw [hnum]
        exact toInt_sub_one (by omega) (by omega)
      have hfits' : d'.Fits := ⟨by omega, by have := hfits.2; omega⟩
      have hcount' : d'.count = i + k := by
        have := hfits'.coe_count
        omega
      refine ⟨d', by rw [if_pos hm, hrun, Option.map_some], hfits', ?_⟩
      rw [List.eraseP_cons_of_pos (by simpa using hm.symm), listing, hcount', segment_append,
        Nat.zero_add]
      congr 1
      · exact segment_congr fun m hm => entryAt_congr (hlow _ (by omega))
      · apply segment_congr
        intro m hm
        have he : i + 1 + m = i + m + 1 := by omega
        rw [he]
        exact entryAt_congr (hhigh (i+m) (by omega) (by omega))
    · obtain ⟨d', hrun, hfits', hlist⟩ := ih (i+1) (by omega)
      refine ⟨d', by rw [if_neg hm, hrun], hfits', ?_⟩
      rw [hlist, segment_append, List.append_assoc,
        List.eraseP_cons_of_neg (by simpa using fun he => hm he.symm), Nat.zero_add, segment_succ,
        entryAt_of_lt hi]
      rfl

/-- The removal loop deletes the first entry of that name and keeps the order of the others. -/
theorem remove_listing (after : DirectoryEntry) (name : Name) (h : d.Fits) :
    ∃ d', remove after name d.count 0 d = some d' ∧ d'.Fits ∧
      d'.listing = d.listing.eraseP fun e => e.1 == name.bytes :=
  remove_segment after name d.count 0 h (Nat.zero_add _)

theorem removed {d' : Dentry} {after : DirectoryEntry} {name : Name}
    (h : remove after name d.count 0 d = some d') (hfits : d.Fits) :
    d'.Fits ∧ d'.listing = d.listing.eraseP fun e => e.1 == name.bytes := by
  obtain ⟨d₁, hd, hfits', hl⟩ := remove_listing after name hfits
  obtain rfl : d' = d₁ := Option.some_inj.mp (h.symm.trans hd)
  exact ⟨hfits', hl⟩

end Dentry

end OperatingSystems.FS
