import OperatingSystems.FSListing

/-! The nested loops with which `file_remove` and `dir_remove` take an entry out of the current
directory, with both loop indices and every access to the array `dentry`. -/
namespace OperatingSystems.FS

/-- An access to `curDir.dentry`. -/
inductive Touch
  | read (i : ℕ)
  | write (i : ℕ)
  deriving DecidableEq, Repr

def Touch.index : Touch → ℕ
  | .read i => i
  | .write i => i

namespace Dentry

/-- The inner loop: `j` starts behind `i`, the loop tests `i`, and both go up by one. -/
def shiftLoop (after : DirectoryEntry) (i j : ℕ) (d : Dentry) : Option (List Touch × Dentry) :=
  if i < d.count then
    if h : i < 21 then
      (shiftLoop after (i+1) (j+1)
        { d with dentry := Function.update d.dentry ⟨i, h⟩ ((d.entry? j).getD after) }).map
          fun p => (.read j :: .write i :: p.1, p.2)
    else none
  else some ([], d)
termination_by d.count - i
decreasing_by
  change d.count - (i+1) < d.count - i
  omega

/-- The outer loop, which the first match ends. -/
def removeLoop (after : DirectoryEntry) (name : Name) (i : ℕ) (d : Dentry) :
    Option (List Touch × Dentry) :=
  if i < d.count then
    (d.entry? i).bind fun e =>
      if name.bytes = cString e.name then
        (shiftLoop after i (i+1) d).map fun p =>
          (.read i :: p.1, { p.2 with numEntry := p.2.numEntry - 1 })
      else (removeLoop after name (i+1) d).map fun p => (.read i :: p.1, p.2)
  else some ([], d)
termination_by d.count - i

/-- The entries in use, as they stand in the array. -/
def entries (d : Dentry) : List DirectoryEntry := (List.ofFn d.dentry).take d.count

/-- The accesses of `k` turns of the inner loop from `i`. -/
def shiftLog : ℕ → ℕ → List Touch
  | 0, _ => []
  | k+1, i => .read (i+1) :: .write i :: shiftLog k (i+1)

/-- `j` stays one ahead of `i`, so the inner loop makes the copies of `compact`. -/
theorem shiftLoop_eq (after : DirectoryEntry) (k i : ℕ) (d : Dentry) (h : i + k = d.count) :
    shiftLoop after i (i+1) d = (compact after k i d).map fun d' => (shiftLog k i, d') := by
  induction k generalizing i d with
  | zero =>
    rw [shiftLoop, if_neg (by omega)]
    rfl
  | succ k ih =>
    rw [shiftLoop, if_pos (by omega), compact]
    by_cases hi : i < 21
    · rw [dif_pos hi, dif_pos hi, ih (i+1) _ (by change i + 1 + k = d.count; omega), Option.map_map]
      rfl
    · rw [dif_neg hi, dif_neg hi]
      rfl

/-- The two loops are the removal of the model. -/
theorem removeLoop_snd (after : DirectoryEntry) (name : Name) (k i : ℕ) (d : Dentry)
    (h : i + k = d.count) :
    (removeLoop after name i d).map Prod.snd = remove after name k i d := by
  induction k generalizing i with
  | zero =>
    rw [removeLoop, if_neg (by omega)]
    rfl
  | succ k ih =>
    rw [removeLoop, if_pos (by omega), remove]
    cases d.entry? i with
    | none => rfl
    | some e =>
      rw [Option.bind_some, Option.bind_some]
      by_cases hm : name.bytes = cString e.name
      · rw [if_pos hm, if_pos hm, shiftLoop_eq after (k+1) i d h, Option.map_map, Option.map_map]
        rfl
      · rw [if_neg hm, if_neg hm, ← ih (i+1) (by omega), Option.map_map]
        rfl

theorem index_le_of_mem_shiftLog {k i : ℕ} {a : Touch} (h : a ∈ shiftLog k i) :
    a.index ≤ i + k := by
  induction k generalizing i with
  | zero => exact absurd h List.not_mem_nil
  | succ k ih =>
    rcases List.mem_cons.mp h with rfl | h
    · simp only [Touch.index]
      omega
    · rcases List.mem_cons.mp h with rfl | h
      · simp only [Touch.index]
        omega
      · have hle := ih h
        omega

/-- The last turn reads the entry behind the ones in use. -/
theorem read_mem_shiftLog (k i : ℕ) : .read (i + k + 1) ∈ shiftLog (k+1) i := by
  induction k generalizing i with
  | zero => exact List.mem_cons_self
  | succ k ih =>
    have he : i + (k+1) + 1 = i + 1 + k + 1 := by omega
    rw [he]
    exact List.mem_cons_of_mem _ (List.mem_cons_of_mem _ (ih (i+1)))

/-- The accesses of a removal at position `p`: the names up to `p`, then the copies. -/
def removeLog (d : Dentry) (p i : ℕ) : List Touch :=
  (List.range' i (p + 1 - i)).map .read ++ shiftLog (d.count - p) p

theorem removeLoop_eq (after : DirectoryEntry) (name : Name) (d : Dentry) (p : ℕ)
    (hp : p < d.count) (hfits : d.count ≤ 21)
    (hm : ∀ e, d.entry? p = some e → name.bytes = cString e.name) (i : ℕ) (hi : i ≤ p)
    (hno : ∀ m, i ≤ m → m < p → ∀ e, d.entry? m = some e → name.bytes ≠ cString e.name) :
    removeLoop after name i d = (compact after (d.count - p) p d).map fun d' =>
      (removeLog d p i, { d' with numEntry := d'.numEntry - 1 }) := by
  -- Induction on the entries before the match.
  induction hk : p - i generalizing i with
  | zero =>
    obtain rfl : i = p := by omega
    have he := entry?_of_lt (d := d) (show i < 21 by omega)
    have hone : i + 1 - i = 1 := by omega
    rw [removeLoop, if_pos hp, he, Option.bind_some, if_pos (hm _ he),
      shiftLoop_eq after (d.count - i) i d (by omega), Option.map_map, removeLog, hone]
    rfl
  | succ k ih =>
    have he := entry?_of_lt (d := d) (show i < 21 by omega)
    have hlen : p + 1 - i = p + 1 - (i+1) + 1 := by omega
    have hlog : removeLog d p i = .read i :: removeLog d p (i+1) := by
      rw [removeLog, hlen, List.range'_succ]
      rfl
    rw [removeLoop, if_pos (by omega), he, Option.bind_some,
      if_neg (hno i le_rfl (by omega) _ he),
      ih (i+1) (by omega) (fun m h1 h2 => hno m (by omega) h2) (by omega), Option.map_map, hlog]
    rfl

theorem index_le_of_mem_removeLog {d : Dentry} {p : ℕ} {a : Touch} (hp : p < d.count)
    (h : a ∈ removeLog d p 0) : a.index ≤ d.count := by
  rcases List.mem_append.mp h with h | h
  · obtain ⟨m, hm, rfl⟩ := List.mem_map.mp h
    obtain ⟨-, hlt⟩ := List.mem_range'_1.mp hm
    simp only [Touch.index]
    omega
  · have hle := index_le_of_mem_shiftLog h
    omega

theorem entries_getElem? (d : Dentry) (m : ℕ) :
    d.entries[m]? = if m < d.count then d.entry? m else none := by
  rw [entries, List.getElem?_take, List.getElem?_ofFn]
  rfl

theorem length_entries {d : Dentry} (h : d.count ≤ 21) : d.entries.length = d.count := by
  rw [entries, List.length_take, List.length_ofFn, min_eq_left h]

/-- The copies delete the entry at `p` from the list of entries. -/
theorem entries_compact {after : DirectoryEntry} {d d₁ : Dentry} {p : ℕ} (hfits : d.Fits)
    (hp : p < d.count) (h : compact after (d.count - p) p d = some d₁) :
    ({ d₁ with numEntry := d₁.numEntry - 1 } : Dentry).numEntry.toInt = d.numEntry.toInt - 1 ∧
      ({ d₁ with numEntry := d₁.numEntry - 1 } : Dentry).entries = d.entries.eraseIdx p := by
  have hle := hfits.count_le
  have hcount := hfits.coe_count
  obtain ⟨d₂, hrun, hnum, hlow, hhigh⟩ := compact_spec after (d.count - p) p d (by omega)
  obtain rfl : d₁ = d₂ := Option.some_inj.mp (h.symm.trans hrun)
  set d' : Dentry := { d₁ with numEntry := d₁.numEntry - 1 } with hd'
  have hnum' : d'.numEntry.toInt = d.numEntry.toInt - 1 := by
    change (d₁.numEntry - 1).toInt = _
    rw [hnum]
    exact toInt_sub_one (by omega) (by omega)
  have hcount' : d'.count = d.count - 1 := by
    unfold count at hcount ⊢
    omega
  refine ⟨hnum', List.ext_getElem? fun m => ?_⟩
  rw [List.getElem?_eraseIdx, entries_getElem?, entries_getElem?, entries_getElem?, hcount']
  have hsame : d'.entry? m = d₁.entry? m := rfl
  rw [hsame]
  by_cases hmp : m < p
  · rw [if_pos hmp, if_pos (show m < d.count by omega), if_pos (show m < d.count - 1 by omega)]
    exact hlow m hmp
  · rw [if_neg hmp]
    by_cases hm : m + 1 < d.count
    · rw [if_pos hm, if_pos (show m < d.count - 1 by omega)]
      exact hhigh m (by omega) (by omega)
    · rw [if_neg hm, if_neg (show ¬m < d.count - 1 by omega)]

/-- The removal of the entry at `p`, the first of its name: the loops end, the entry is deleted
and the others keep their order; the accesses are the reads of the names up to `p` and the
copies. -/
theorem removeLoop_spec (after : DirectoryEntry) (name : Name) (d : Dentry)
    (hfits : d.numEntry.toInt ≤ 21) (p : ℕ)
    (hp : d.entries.findIdx? (fun e => name.bytes = cString e.name) = some p) :
    p < d.count ∧ d.count ≤ 21 ∧ ∃ d', removeLoop after name 0 d = some (removeLog d p 0, d') ∧
      d'.numEntry.toInt = d.numEntry.toInt - 1 ∧ d'.entries = d.entries.eraseIdx p := by
  have hcount : d.count ≤ 21 := by
    unfold count
    omega
  obtain ⟨hlen, hmatch, hfirst⟩ := List.findIdx?_eq_some_iff_getElem.mp hp
  have hlt : p < d.count := by
    rw [← length_entries hcount]
    exact hlen
  have hentry {m : ℕ} (hm : m < d.entries.length) (e : DirectoryEntry) (he : d.entry? m = some e) :
      d.entries[m] = e := by
    rw [← Option.some_inj, ← List.getElem?_eq_getElem hm, entries_getElem?,
      if_pos (by rw [← length_entries hcount]; exact hm), he]
  have hfits' : d.Fits := ⟨by unfold count at hlt; omega, hfits⟩
  obtain ⟨d₁, hrun, -⟩ := compact_spec after (d.count - p) p d (by omega)
  obtain ⟨hnum, hentries⟩ := entries_compact hfits' hlt hrun
  refine ⟨hlt, hcount, _, ?_, hnum, hentries⟩
  rw [removeLoop_eq after name d p hlt hcount ?_ 0 (Nat.zero_le p) ?_, hrun, Option.map_some]
  · intro e he
    rw [← hentry hlen e he]
    simpa using hmatch
  · intro m _ hm e he
    rw [← hentry (by omega) e he]
    simpa using hfirst m hm

/-- For every directory of at most 21 entries and the position `p` of the first entry of the name:
the loops end and leave the old entries with that one deleted; and they stay inside the array
exactly if the directory is not full. -/
theorem removal_in_bounds_iff (after : DirectoryEntry) (name : Name) (d : Dentry)
    (hfits : d.numEntry.toInt ≤ 21) (p : ℕ)
    (hp : d.entries.findIdx? (fun e => name.bytes = cString e.name) = some p) :
    ∃ log d', removeLoop after name 0 d = some (log, d') ∧
      d'.numEntry.toInt = d.numEntry.toInt - 1 ∧ d'.entries = d.entries.eraseIdx p ∧
      ((∀ a ∈ log, a.index ≤ 20) ↔ d.numEntry.toInt ≤ 20) := by
  obtain ⟨hlt, hcount, d', hrun, hnum, hentries⟩ := removeLoop_spec after name d hfits p hp
  refine ⟨_, d', hrun, hnum, hentries, ?_⟩
  have hdef : d.count = d.numEntry.toInt.toNat := rfl
  constructor
  · intro h
    -- the last copy reads the entry at `numEntry`
    have hlast := read_mem_shiftLog (d.count - p - 1) p
    have he : d.count - p - 1 + 1 = d.count - p := by omega
    rw [he] at hlast
    have hle := h _ (List.mem_append_right _ hlast)
    simp only [Touch.index] at hle
    omega
  · intro h a ha
    have hle := index_le_of_mem_removeLog hlt ha
    omega

end Dentry

/-- A directory of `n` entries with the names `a`, `b`, `c` and so on. -/
def letters (n : Int32) : Dentry :=
  ⟨n, fun i => ⟨fun k => if k = 0 then BitVec.ofNat 8 (97 + i.val) else 0, 0⟩, fun _ => 0⟩

/-- Entry `b` of a directory of three. -/
theorem removal_in_bounds_iff_three :
    ∃ log d', (letters 3).removeLoop ⟨fun _ => 0, 0⟩ ⟨[98], by decide, by decide⟩ 0 =
        some (log, d') ∧ d'.numEntry.toInt = 3 - 1 ∧
      d'.entries = [(letters 3).dentry 0, (letters 3).dentry 2] ∧ ∀ a ∈ log, a.index ≤ 20 := by
  obtain ⟨log, d', hrun, hnum, hentries, hbounds⟩ := Dentry.removal_in_bounds_iff ⟨fun _ => 0, 0⟩
    ⟨[98], by decide, by decide⟩ (letters 3) (by decide) 1 (by decide)
  exact ⟨log, d', hrun, hnum, hentries, hbounds.mpr (by decide)⟩

/-- A full directory: the last copy reads entry 21 of an array of 21. -/
theorem removal_out_of_bounds :
    ∃ log d', (letters 21).removeLoop ⟨fun _ => 0, 0⟩ ⟨[98], by decide, by decide⟩ 0 =
        some (log, d') ∧ Touch.read 21 ∈ log := by
  obtain ⟨-, -, d', hrun, -⟩ := Dentry.removeLoop_spec ⟨fun _ => 0, 0⟩
    ⟨[98], by decide, by decide⟩ (letters 21) (by decide) 1 (by decide)
  exact ⟨_, d', hrun, by decide⟩

end OperatingSystems.FS
