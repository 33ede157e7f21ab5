import Mathlib.Algebra.BigOperators.Group.Finset.Basic
import Mathlib.Algebra.Order.BigOperators.Group.Finset
import Mathlib.Data.Finset.Insert
import Mathlib.Data.List.Count

/-! Directories over nodes: named entries, the directory above each, and how often a node is
named. A node is a directory or is counted by its links. -/
namespace OperatingSystems

/-- The directories, the entries of each but those that name it and the one above, and the one
above. -/
structure NameTree (κ ι : Type*) where
  dirs : Finset ι
  kids : ι → List (κ × ι)
  up : ι → ι

namespace NameTree

variable {κ ι : Type*} [DecidableEq ι] (t : NameTree κ ι)

/-- The nodes that the entries of a directory name, in order. -/
def children (d : ι) : List ι := (t.kids d).map Prod.snd

/-- How many entries name a node. -/
def links (m : ι) : ℕ := ∑ d ∈ t.dirs, (t.children d).count m

def setKids (d : ι) (l : List (κ × ι)) : NameTree κ ι :=
  { t with kids := Function.update t.kids d l }

/-- A node becomes an empty directory below `p`. -/
def adopt (n p : ι) : NameTree κ ι where
  dirs := insert n t.dirs
  kids := Function.update t.kids n []
  up := Function.update t.up n p

/-- A directory becomes a node like any other. -/
def disown (n : ι) : NameTree κ ι := { t with dirs := t.dirs.erase n }

variable {t}

theorem kids_setKids (d : ι) (l : List (κ × ι)) :
    (t.setKids d l).kids = Function.update t.kids d l := rfl

theorem kids_adopt (n p : ι) : (t.adopt n p).kids = Function.update t.kids n [] := rfl

theorem children_setKids_self (d : ι) (l : List (κ × ι)) :
    (t.setKids d l).children d = l.map Prod.snd := by
  rw [children, kids_setKids, Function.update_self]

theorem children_setKids_of_ne {d k : ι} (h : k ≠ d) (l : List (κ × ι)) :
    (t.setKids d l).children k = t.children k := by
  rw [children, kids_setKids, Function.update_of_ne h]
  rfl

theorem links_pos_iff {m : ι} : 0 < t.links m ↔ ∃ d ∈ t.dirs, m ∈ t.children d := by
  simp only [links, Finset.sum_pos_iff, List.count_pos_iff]

/-- The links of a node are those in one directory and those elsewhere. -/
theorem links_eq_add {d : ι} (hd : d ∈ t.dirs) (m : ι) :
    t.links m = (t.children d).count m + ∑ k ∈ t.dirs.erase d, (t.children k).count m :=
  (Finset.add_sum_erase _ (fun k => (t.children k).count m) hd).symm

/-- New entries for one directory change the links by the difference. -/
theorem links_setKids {d : ι} (hd : d ∈ t.dirs) (l : List (κ × ι)) (m : ι) :
    (t.setKids d l).links m + (t.children d).count m = t.links m + (l.map Prod.snd).count m := by
  have hrest : ∑ k ∈ t.dirs.erase d, ((t.setKids d l).children k).count m =
      ∑ k ∈ t.dirs.erase d, (t.children k).count m := by
    apply Finset.sum_congr rfl
    intro k hk
    rw [children_setKids_of_ne (Finset.ne_of_mem_erase hk)]
  have h := (t.setKids d l).links_eq_add (d := d) hd m
  rw [children_setKids_self] at h
  change _ = _ + ∑ k ∈ t.dirs.erase d, _ at h
  rw [hrest] at h
  rw [h, t.links_eq_add hd m]
  omega

/-- An entry more in a directory names one node more, once. -/
theorem mem_children_concat (t : NameTree κ ι) (d : ι) (a : κ) (m k x : ι) :
    x ∈ (t.setKids d (t.kids d ++ [(a, m)])).children k ↔
      x ∈ t.children k ∨ (k = d ∧ x = m) := by
  by_cases hk : k = d
  · subst hk
    rw [children_setKids_self, List.map_append, List.mem_append, List.map_singleton,
      List.mem_singleton, children]
    tauto
  · rw [children_setKids_of_ne hk]
    tauto

theorem links_concat {d : ι} (hd : d ∈ t.dirs) (a : κ) (m x : ι) :
    (t.setKids d (t.kids d ++ [(a, m)])).links x = t.links x + if x = m then 1 else 0 := by
  have hx := links_setKids hd (t.kids d ++ [(a, m)]) x
  rw [List.map_append, List.count_append, List.map_singleton, ← children, List.count_singleton] at hx
  simp only [beq_iff_eq, eq_comm (a := m)] at hx
  omega

/-- An entry less in a directory, likewise. -/
theorem mem_children_remove {d m : ι} {a : κ} {l₁ l₂ : List (κ × ι)}
    (hsplit : t.kids d = l₁ ++ (a, m) :: l₂) (k x : ι) :
    x ∈ t.children k ↔ x ∈ (t.setKids d (l₁ ++ l₂)).children k ∨ (k = d ∧ x = m) := by
  by_cases hk : k = d
  · subst hk
    rw [children_setKids_self, children, hsplit, List.map_append, List.map_append, List.map_cons,
      List.mem_append, List.mem_append, List.mem_cons]
    tauto
  · rw [children_setKids_of_ne hk]
    tauto

theorem links_remove {d m : ι} (hd : d ∈ t.dirs) {a : κ} {l₁ l₂ : List (κ × ι)}
    (hsplit : t.kids d = l₁ ++ (a, m) :: l₂) (x : ι) :
    t.links x = (t.setKids d (l₁ ++ l₂)).links x + if x = m then 1 else 0 := by
  have hx := links_setKids hd (l₁ ++ l₂) x
  rw [children, hsplit, List.map_append, List.map_append, List.map_cons, List.count_append,
    List.count_append, List.count_cons] at hx
  simp only [beq_iff_eq, eq_comm (a := m)] at hx
  omega

/-- The directories of `t'` keep the one above them, and those that `t` has not lie below `p`. -/
def Grafts (t t' : NameTree κ ι) (p : ι) : Prop :=
  ∀ n ∈ t'.dirs, t'.up n = if n ∈ t.dirs then t.up n else p

theorem grafts_of_subset {t' : NameTree κ ι} (hdirs : t'.dirs ⊆ t.dirs) (hup : t'.up = t.up) (p : ι) :
    t.Grafts t' p := by
  intro n hn
  rw [hup, if_pos (hdirs hn)]

theorem grafts_adopt {n : ι} (hn : n ∉ t.dirs) (p : ι) : t.Grafts (t.adopt n p) p := by
  intro m hm
  change Function.update t.up n p m = _
  by_cases hmn : m = n
  · rw [hmn, Function.update_self, if_neg hn]
  · rw [Function.update_of_ne hmn, if_pos ((Finset.mem_insert.mp hm).resolve_left hmn)]

/-- A node named once is named by one directory. -/
theorem eq_of_links_le_one {m d k : ι} (h : t.links m ≤ 1) (hd : d ∈ t.dirs) (hk : k ∈ t.dirs)
    (hmd : m ∈ t.children d) (hmk : m ∈ t.children k) : d = k := by
  by_contra hne
  have hsplit := t.links_eq_add hd m
  have hle : (t.children k).count m ≤ ∑ k ∈ t.dirs.erase d, (t.children k).count m :=
    Finset.single_le_sum (f := fun k => (t.children k).count m) (fun _ _ => Nat.zero_le _)
      (Finset.mem_erase.mpr ⟨Ne.symm hne, hk⟩)
  have h₁ := List.count_pos_iff.mpr hmd
  have h₂ := List.count_pos_iff.mpr hmk
  omega

/-- The nodes are those that are named, directories are named once and lie below one another,
and other nodes count their links. -/
structure Good (root : ι) (nodes : Finset ι) (isDir : ι → Prop) (count : ι → ℤ)
    (t : NameTree κ ι) : Prop where
  root_mem : root ∈ t.dirs
  dir : ∀ d ∈ t.dirs, d ∈ nodes ∧ isDir d
  kid : ∀ d ∈ t.dirs, ∀ m ∈ t.children d, m ∈ nodes ∧ m ≠ root
  up : ∀ d ∈ t.dirs, d ≠ root → t.up d ∈ t.dirs ∧ t.up d ≠ d ∧ d ∈ t.children (t.up d)
  named : ∀ m ∈ nodes, m ≠ root → 0 < t.links m
  once : ∀ m ∈ nodes, isDir m → t.links m ≤ 1
  linked : ∀ m ∈ nodes, ¬isDir m → count m = t.links m

namespace Good

variable {root : ι} {nodes nodes' : Finset ι} {isDir isDir' : ι → Prop} {count count' : ι → ℤ}

theorem links_eq_zero (h : t.Good root nodes isDir count) {m : ι} (hm : m ∉ nodes ∨ m = root) :
    t.links m = 0 := by
  by_contra hne
  obtain ⟨d, hd, hmd⟩ := links_pos_iff.mp (Nat.pos_of_ne_zero hne)
  have hk := h.kid d hd m hmd
  rcases hm with hm | hm
  · exact hm hk.1
  · exact hk.2 hm

/-- A directory named by `d` lies below `d`. -/
theorem up_eq (h : t.Good root nodes isDir count) {d n : ι} (hd : d ∈ t.dirs) (hn : n ∈ t.dirs)
    (hnd : n ∈ t.children d) : t.up n = d := by
  have hk := h.kid d hd n hnd
  have hu := h.up n hn hk.2
  exact eq_of_links_le_one (h.once n hk.1 (h.dir n hn).2) hu.1 hd hu.2.2 hnd

theorem ne_of_mem (h : t.Good root nodes isDir count) {d n : ι} (hd : d ∈ t.dirs)
    (hn : n ∈ t.dirs) (hnd : n ∈ t.children d) : n ≠ d := by
  have hu := h.up n hn (h.kid d hd n hnd).2
  rw [h.up_eq hd hn hnd] at hu
  exact Ne.symm hu.2.1

/-- Only what is said of the nodes matters. -/
theorem congr (h : t.Good root nodes isDir count) (hdir : ∀ m ∈ nodes, isDir' m ↔ isDir m)
    (hcount : ∀ m ∈ nodes, count' m = count m) : t.Good root nodes isDir' count' := by
  refine ⟨h.root_mem, ?_, h.kid, h.up, h.named, ?_, ?_⟩
  · intro d hd
    have := h.dir d hd
    exact ⟨this.1, (hdir d this.1).mpr this.2⟩
  · intro m hm hd
    exact h.once m hm ((hdir m hm).mp hd)
  · intro m hm hd
    rw [hcount m hm]
    exact h.linked m hm (mt (hdir m hm).mpr hd)

/-- One more entry at the end of a directory, for a new node or another link. -/
theorem addKid (h : t.Good root nodes isDir count) {d m : ι} (hd : d ∈ t.dirs) (a : κ)
    (hroot : m ≠ root) (hnodes : nodes' = insert m nodes)
    (hold : ∀ k ∈ nodes, (isDir' k ↔ isDir k) ∧ (k ≠ m → count' k = count k))
    (hdir : isDir' m → m ∉ nodes) (hcount : ¬isDir' m → count' m = t.links m + 1) :
    (t.setKids d (t.kids d ++ [(a, m)])).Good root nodes' isDir' count' := by
  let t' := t.setKids d (t.kids d ++ [(a, m)])
  -- Only directory `d` changes, and only the links of `m`: one more.
  have hmem : ∀ k x, x ∈ t'.children k ↔ x ∈ t.children k ∨ (k = d ∧ x = m) :=
    t.mem_children_concat d a m
  have hlinks : ∀ x, t'.links x = t.links x + if x = m then 1 else 0 := links_concat hd a m
  have hsub : ∀ k ∈ nodes, k ∈ nodes' := fun k hk => hnodes ▸ Finset.mem_insert_of_mem hk
  refine ⟨h.root_mem, ?_, ?_, ?_, ?_, ?_, ?_⟩
  · intro k hk
    have := h.dir k hk
    exact ⟨hsub k this.1, (hold k this.1).1.mpr this.2⟩
  · intro k hk x hx
    rcases (hmem k x).mp hx with hx | ⟨-, rfl⟩
    · have := h.kid k hk x hx
      exact ⟨hsub x this.1, this.2⟩
    · exact ⟨hnodes ▸ Finset.mem_insert_self _ _, hroot⟩
  · intro k hk hne
    have := h.up k hk hne
    exact ⟨this.1, this.2.1, (hmem _ k).mpr (Or.inl this.2.2)⟩
  · intro x hx hne
    rw [hlinks x]
    by_cases hxm : x = m
    · rw [if_pos hxm]
      omega
    · rw [hnodes] at hx
      have := h.named x ((Finset.mem_insert.mp hx).resolve_left hxm) hne
      omega
  · intro x hx hxd
    rw [hlinks x]
    by_cases hxm : x = m
    · subst hxm
      rw [h.links_eq_zero (Or.inl (hdir hxd)), if_pos rfl]
    · rw [if_neg hxm]
      rw [hnodes] at hx
      have hx := (Finset.mem_insert.mp hx).resolve_left hxm
      exact h.once x hx ((hold x hx).1.mp hxd)
  · intro x hx hxd
    rw [hlinks x]
    by_cases hxm : x = m
    · subst hxm
      rw [hcount hxd, if_pos rfl]
      norm_cast
    · rw [if_neg hxm]
      rw [hnodes] at hx
      have hx := (Finset.mem_insert.mp hx).resolve_left hxm
      rw [(hold x hx).2 hxm, h.linked x hx fun hc => hxd ((hold x hx).1.mpr hc)]
      norm_cast

/-- One entry less in a directory: the last one takes its node along. -/
theorem dropKid (h : t.Good root nodes isDir count) {d m : ι} (hd : d ∈ t.dirs) {a : κ}
    {l₁ l₂ : List (κ × ι)} (hsplit : t.kids d = l₁ ++ (a, m) :: l₂) (hm : m ∉ t.dirs)
    (hnodes : ∀ k, k ≠ m → (k ∈ nodes' ↔ k ∈ nodes)) (hcount : ∀ k, k ≠ m → count' k = count k)
    (hlast : (t.links m = 1 ∧ m ∉ nodes') ∨
      (m ∈ nodes ∧ ¬isDir m ∧ m ∈ nodes' ∧ t.links m ≠ 1 ∧ count' m = count m - 1)) :
    (t.setKids d (l₁ ++ l₂)).Good root nodes' isDir count' := by
  let t' := t.setKids d (l₁ ++ l₂)
  -- Only directory `d` changes, and only the links of `m`: one less.
  have hmem (k x : ι) (hx : x ∈ t'.children k) : x ∈ t.children k :=
    (mem_children_remove hsplit k x).mpr (Or.inl hx)
  have hkeep (k x : ι) (hx : x ∈ t.children k) (hne : x ≠ m) : x ∈ t'.children k :=
    ((mem_children_remove hsplit k x).mp hx).resolve_right fun he => hne he.2
  have hlinks : ∀ x, t.links x = t'.links x + if x = m then 1 else 0 := links_remove hd hsplit
  -- a node with no link left is no entry of any directory
  have hgone (k : ι) (hk : k ∈ t.dirs) (x : ι) (hx : x ∈ t'.children k) : x ∈ nodes' := by
    by_cases hxm : x = m
    · subst hxm
      rcases hlast with ⟨hone, -⟩ | ⟨-, -, hin, -⟩
      · have hpos : 0 < t'.links x := links_pos_iff.mpr ⟨k, hk, hx⟩
        have := hlinks x
        rw [if_pos rfl] at this
        omega
      · exact hin
    · exact (hnodes x hxm).mpr (h.kid k hk x (hmem k x hx)).1
  refine ⟨h.root_mem, ?_, ?_, ?_, ?_, ?_, ?_⟩
  · intro k hk
    have hkm : k ≠ m := fun he => hm (he ▸ hk)
    have := h.dir k hk
    exact ⟨(hnodes k hkm).mpr this.1, this.2⟩
  · intro k hk x hx
    exact ⟨hgone k hk x hx, (h.kid k hk x (hmem k x hx)).2⟩
  · intro k hk hne
    have hkm : k ≠ m := fun he => hm (he ▸ hk)
    have := h.up k hk hne
    exact ⟨this.1, this.2.1, hkeep _ k this.2.2 hkm⟩
  · intro x hx hne
    have hle := hlinks x
    by_cases hxm : x = m
    · subst hxm
      rw [if_pos rfl] at hle
      rcases hlast with ⟨-, hout⟩ | ⟨hin, -, -, hmany, -⟩
      · exact absurd hx hout
      · have := h.named x hin hne
        change 0 < t'.links x
        omega
    · rw [if_neg hxm] at hle
      have := h.named x ((hnodes x hxm).mp hx) hne
      change 0 < t'.links x
      omega
  · intro x hx hxd
    have hle := hlinks x
    have hxn : x ∈ nodes := by
      by_cases hxm : x = m
      · subst hxm
        rcases hlast with ⟨-, hout⟩ | ⟨hin, -⟩
        · exact absurd hx hout
        · exact hin
      · exact (hnodes x hxm).mp hx
    have := h.once x hxn hxd
    change t'.links x ≤ 1
    omega
  · intro x hx hxd
    have hle := hlinks x
    by_cases hxm : x = m
    · subst hxm
      rw [if_pos rfl] at hle
      rcases hlast with ⟨-, hout⟩ | ⟨hin, hfile, -, -, hc⟩
      · exact absurd hx hout
      · rw [hc, h.linked x hin hfile, hle]
        change _ = ((t'.links x : ℕ) : ℤ)
        push_cast
        omega
    · rw [if_neg hxm] at hle
      rw [hcount x hxm, h.linked x ((hnodes x hxm).mp hx) hxd, hle]
      rfl

theorem adopt (h : t.Good root nodes isDir count) {n p : ι} (hn : n ∈ nodes ∧ isDir n)
    (hnew : n ∉ t.dirs) (hp : p ∈ t.dirs) (hnp : n ∈ t.children p) :
    (t.adopt n p).Good root nodes isDir count := by
  have hold (k : ι) (hk : k ∈ t.dirs) : k ≠ n ∧ (t.adopt n p).children k = t.children k := by
    have hne : k ≠ n := fun he => hnew (he ▸ hk)
    refine ⟨hne, ?_⟩
    rw [children, kids_adopt, Function.update_of_ne hne]
    rfl
  have hself : (t.adopt n p).children n = [] := by
    rw [children, kids_adopt, Function.update_self]
    rfl
  -- The new directory is empty, so no number of links changes.
  have hlinks (m : ι) : (t.adopt n p).links m = t.links m := by
    unfold links
    change ∑ d ∈ insert n t.dirs, _ = _
    rw [Finset.sum_insert hnew, hself, List.count_nil, Nat.zero_add]
    apply Finset.sum_congr rfl
    intro k hk
    rw [(hold k hk).2]
  refine ⟨Finset.mem_insert_of_mem h.root_mem, ?_, ?_, ?_, ?_, ?_, ?_⟩
  · intro k hk
    rcases Finset.mem_insert.mp hk with rfl | hk
    · exact hn
    · exact h.dir k hk
  · intro k hk m hm
    rcases Finset.mem_insert.mp hk with rfl | hk
    · rw [hself] at hm
      exact absurd hm List.not_mem_nil
    · rw [(hold k hk).2] at hm
      exact h.kid k hk m hm
  · intro k hk hne
    rcases Finset.mem_insert.mp hk with rfl | hk
    · have hup : (t.adopt k p).up k = p := Function.update_self ..
      rw [hup, (hold p hp).2]
      exact ⟨Finset.mem_insert_of_mem hp, (hold p hp).1, hnp⟩
    · have hup : (t.adopt n p).up k = t.up k := Function.update_of_ne (hold k hk).1 ..
      have := h.up k hk hne
      rw [hup, (hold _ this.1).2]
      exact ⟨Finset.mem_insert_of_mem this.1, this.2⟩
  · intro m hm hne
    rw [hlinks m]
    exact h.named m hm hne
  · intro m hm hd
    rw [hlinks m]
    exact h.once m hm hd
  · intro m hm hd
    rw [hlinks m]
    exact h.linked m hm hd

theorem disown (h : t.Good root nodes isDir count) {n : ι} (hn : n ∈ t.dirs) (hroot : n ≠ root)
    (hempty : t.kids n = []) : (t.disown n).Good root nodes isDir count := by
  have hno : t.children n = [] := by
    rw [children, hempty]
    rfl
  have hlinks (m : ι) : (t.disown n).links m = t.links m := by
    rw [t.links_eq_add hn m, hno, List.count_nil, Nat.zero_add]
    rfl
  refine ⟨Finset.mem_erase.mpr ⟨Ne.symm hroot, h.root_mem⟩, ?_, ?_, ?_, ?_, ?_, ?_⟩
  · intro k hk
    exact h.dir k (Finset.mem_of_mem_erase hk)
  · intro k hk
    exact h.kid k (Finset.mem_of_mem_erase hk)
  · intro k hk hne
    have := h.up k (Finset.mem_of_mem_erase hk) hne
    refine ⟨Finset.mem_erase.mpr ⟨?_, this.1⟩, this.2⟩
    -- the directory above is not empty
    intro he
    change t.up k = n at he
    rw [he, hno] at this
    exact absurd this.2.2 List.not_mem_nil
  · intro m hm hne
    rw [hlinks m]
    exact h.named m hm hne
  · intro m hm hd
    rw [hlinks m]
    exact h.once m hm hd
  · intro m hm hd
    rw [hlinks m]
    exact h.linked m hm hd

end Good

end NameTree

end OperatingSystems
