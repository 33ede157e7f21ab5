import OperatingSystems.WebProcess

/-! The unbounded copies of `process`: `sprintf` of `cwd` and the request's path into `path`, and
`strcpy` and `strcat` of `path` and an entry's name into `pathbuf`. -/
namespace OperatingSystems.Web
open CStrings

/-- The limits of the operating system: paths of at most 4095 bytes are resolved, and names of at
most 255 are stored. -/
structure Files.Limited (disk : Files) : Prop where
  path_le : ∀ path, disk.stat path ≠ none → path.length ≤ 4095
  name_le : ∀ path dir, disk.opendir path = some dir → ∀ d_name ∈ dir, d_name.length ≤ 255

/-- The directory that a request for the word `path` lists: the word ends in a slash, and no index
file is found. -/
structure Lists (disk : Files) (cwd method path : List Byte) (dir : List (List Byte)) : Prop where
  isGet : sameLetters method (ascii "GET") = true
  isDir : disk.isDir (cwd ++ path)
  slash : path.getLast? = some 47#8
  noIndex : disk.stat (indexPath cwd (cwd ++ path)) = none
  opened : disk.opendir (cwd ++ path) = some dir

theorem rows_eq_none_iff (disk : Files) (path : List Byte) (dir : List (List Byte))
    (statbuf : Stat) :
    rows disk path dir statbuf = none ↔ ∃ d_name ∈ dir, 4095 < (path ++ d_name).length := by
  induction dir generalizing statbuf with
  | nil => simp [rows]
  | cons d_name dir ih =>
    by_cases hfits : (path ++ d_name).length < 4096
    · have hcopy : sprintf 4096 (path ++ d_name) = some (path ++ d_name) := if_pos hfits
      have hrest := ih ((disk.stat (path ++ d_name)).getD statbuf)
      simp only [rows, hcopy, Option.bind_eq_bind, Option.bind_some, List.exists_mem_cons_iff,
        ← hrest]
      constructor
      · intro h
        right
        cases hrows : rows disk path dir ((disk.stat (path ++ d_name)).getD statbuf) with
        | none => rfl
        | some rest => simp [hrows] at h
      · rintro (hlong | hnone)
        · omega
        · simp [hnone]
    · have hcopy : sprintf 4096 (path ++ d_name) = none := if_neg hfits
      simp only [rows, hcopy, Option.bind_eq_bind, Option.bind_none, true_iff]
      exact ⟨d_name, List.mem_cons_self, by omega⟩

theorem index_overflow_iff {disk : Files} {path : List Byte} {statbuf : Stat} :
    index disk path statbuf = .error .overflow ↔ ∃ dir, disk.opendir path = some dir ∧
      ∃ d_name ∈ dir, 4095 < (path ++ d_name).length := by
  cases hdir : disk.opendir path with
  | none => simp [index, hdir]
  | some dir =>
    simp only [Option.some.injEq, exists_eq_left', ← rows_eq_none_iff disk path dir statbuf]
    cases hrows : rows disk path dir statbuf <;> simp [index, hdir, hrows]

/-- Only the listing can go wrong once the path is composed. -/
theorem answer_overflow_iff {disk : Files} {cwd : List Byte} {r : Request} (hpath : r.path ≠ []) :
    answer disk cwd r.isGet (cwd ++ r.path) = .error .overflow ↔
      ∃ dir, Lists disk cwd r.method r.path dir ∧
        ∃ d_name ∈ dir, 4095 < (cwd ++ r.path ++ d_name).length := by
  have hlast : (cwd ++ r.path).getLast? = r.path.getLast? :=
    List.getLast?_append_of_ne_nil _ hpath
  by_cases hlists : r.isGet = true ∧ disk.isDir (cwd ++ r.path) ∧ r.path.getLast? = some 47#8 ∧
      disk.stat (indexPath cwd (cwd ++ r.path)) = none
  · obtain ⟨hget, hdir, hslash, hindex⟩ := hlists
    obtain ⟨statbuf, hstat, hmode⟩ := Option.map_eq_some_iff.mp hdir
    have hanswer : answer disk cwd r.isGet (cwd ++ r.path) =
        index disk (cwd ++ r.path) statbuf := by
      simp [answer, hget, hstat, hmode, hlast, hslash, hindex, -List.getLast?_append]
    rw [hanswer, index_overflow_iff]
    constructor
    · rintro ⟨dir, hopened, hlong⟩
      exact ⟨dir, ⟨hget, hdir, hslash, hindex, hopened⟩, hlong⟩
    · rintro ⟨dir, h, hlong⟩
      exact ⟨dir, h.opened, hlong⟩
  · have hreply : answer disk cwd r.isGet (cwd ++ r.path) ≠ .error .overflow := by
      -- Every branch but the listing gives a reply.
      by_cases hget : r.isGet = true
      · cases hstat : disk.stat (cwd ++ r.path) with
        | none => simp [answer, hget, hstat]
        | some statbuf =>
          by_cases hmode : statbuf.mode = .directory
          · by_cases hslash : r.path.getLast? = some 47#8
            · cases hindex : disk.stat (indexPath cwd (cwd ++ r.path)) with
              | none =>
                have hdir : disk.isDir (cwd ++ r.path) := by simp [Files.isDir, hstat, hmode]
                exact absurd ⟨hget, hdir, hslash, hindex⟩ hlists
              | some statbuf =>
                simp [answer, hget, hstat, hmode, hlast, hslash, hindex, -List.getLast?_append]
            · simp [answer, hget, hstat, hmode, hlast, hslash, -List.getLast?_append]
          · simp [answer, hget, hstat, hmode]
      · simp [answer, hget]
    refine iff_of_false hreply ?_
    rintro ⟨dir, h, -⟩
    exact hlists ⟨h.isGet, h.isDir, h.slash, h.noIndex⟩

/-- Which requests make a copy leave its buffer. -/
theorem process_overflow_iff {disk : Files} {cwd stream : List Byte} {r : Request}
    (hr : request stream = some r) : process disk cwd stream = .undefined .overflow ↔
      4095 < cwd.length + r.path.length ∨ ∃ dir, Lists disk cwd r.method r.path dir ∧
        ∃ d_name ∈ dir, 4095 < cwd.length + r.path.length + d_name.length := by
  have hanswer : answer disk cwd r.isGet (cwd ++ r.path) = .error .overflow ↔ _ :=
    answer_overflow_iff (request_path hr).1
  simp only [List.length_append] at hanswer
  have hlen : (cwd ++ r.path).length = cwd.length + r.path.length := List.length_append
  by_cases hfits : cwd.length + r.path.length < 4096
  · have hpath : sprintf 4096 (cwd ++ r.path) = some (cwd ++ r.path) := if_pos (by omega)
    rw [← hanswer, or_iff_right (by omega)]
    cases hreply : answer disk cwd r.isGet (cwd ++ r.path) <;>
      simp [process, hr, hpath, hreply]
  · -- The first copy decides whether there are others.
    have hpath : sprintf 4096 (cwd ++ r.path) = none := if_neg (by omega)
    have hprocess : process disk cwd stream = .undefined .overflow := by
      simp [process, hr, hpath]
    exact iff_of_true hprocess (Or.inl (by omega))

/-- No copy leaves its buffer exactly when the working directory and the second word of the line
come to at most 4095 bytes, together with any name in the directory if that is listed. -/
theorem copies_fit_iff (disk : Files) (cwd stream : List Byte) :
    process disk cwd stream ≠ .undefined .overflow ↔
      ∀ buf method path, fgets 4096 stream = some buf → Words buf method path →
        cwd.length + path.length ≤ 4095 ∧
          ∀ dir, Lists disk cwd method path dir → ∀ d_name ∈ dir,
            cwd.length + path.length + d_name.length ≤ 4095 := by
  constructor
  · intro hdefined buf method path hbuf hwords
    obtain ⟨protocol, hr⟩ := request_iff.mpr ⟨buf, hbuf, hwords⟩
    have hshort := mt (process_overflow_iff hr).mpr hdefined
    push Not at hshort
    exact hshort
  · intro hfits hoverflow
    cases hr : request stream with
    | none => simp [process, hr] at hoverflow
    | some r =>
      obtain ⟨buf, hbuf, hwords⟩ := request_iff.mp ⟨r.protocol, hr⟩
      obtain ⟨hpath, hnames⟩ := hfits buf r.method r.path hbuf hwords
      rcases (process_overflow_iff hr).mp hoverflow with hlong | ⟨dir, hlists, d_name, hmem, hlong⟩
      · omega
      · have hname := hnames dir hlists d_name hmem
        omega

/-- A line, a working directory and a name of ordinary size never meet the limit. -/
theorem short_line_fits {disk : Files} {cwd stream buf : List Byte} (hdisk : disk.Limited)
    (hbuf : fgets 4096 stream = some buf) (hshort : cwd.length + buf.length ≤ 3844) :
    process disk cwd stream ≠ .undefined .overflow := by
  cases hr : request stream with
  | none => simp [process, hr]
  | some r =>
    obtain ⟨buf', hbuf', hwords⟩ := request_iff.mp ⟨r.protocol, hr⟩
    cases hbuf.symm.trans hbuf'
    obtain ⟨-, -, -, -, ⟨hmethod, -⟩, -, -⟩ := id hwords
    have hmpos := List.length_pos_of_ne_nil hmethod
    have hline := hwords.length_le
    intro hoverflow
    rcases (process_overflow_iff hr).mp hoverflow with hlong | ⟨dir, hlists, d_name, hmem, hlong⟩
    · omega
    · have hname := hdisk.name_le _ dir hlists.opened d_name hmem
      omega

def slashes (n : ℕ) : List Byte := List.replicate n 47#8

@[simp] theorem length_slashes (n : ℕ) : (slashes n).length = n := List.length_replicate

/-- Slashes alone are a path that a request can carry. -/
theorem request_slashes (n : ℕ) (hpos : 0 < n) (hle : n ≤ 4089) :
    ∃ protocol, request (get (slashes n)) = some ⟨ascii "GET", slashes n, protocol⟩ := by
  have hbyte : ∀ b ∈ slashes n, b = 47#8 := fun b hb => List.eq_of_mem_replicate hb
  apply request_get_word
  · exact List.ne_nil_of_length_pos (by simpa using hpos)
  · exact fun h => absurd (hbyte _ h) (by decide)
  · exact fun h => absurd (hbyte _ h) (by decide)
  · exact fun h => absurd (hbyte _ h) (by decide)
  · simpa using hle

/-- A working directory under a name with `n` slashes more, and in it one file. -/
def single (cwd : List Byte) (n : ℕ) (d_name : List Byte) : Files where
  stat path := if path = cwd ++ slashes n then some ⟨.directory, 4096, 0⟩ else none
  fopen _ := none
  opendir path := if path = cwd ++ slashes n then some [d_name] else none

theorem limited_single {cwd d_name : List Byte} {n : ℕ} (hpath : cwd.length + n ≤ 4095)
    (hname : d_name.length ≤ 255) : (single cwd n d_name).Limited where
  path_le path h := by
    simp only [single, ne_eq, ite_eq_right_iff, reduceCtorEq, imp_false, not_not] at h
    simpa [h] using hpath
  name_le path dir h name hmem := by
    simp only [single, Option.ite_none_right_eq_some, Option.some.injEq] at h
    rw [← h.2, List.mem_singleton] at hmem
    rw [hmem]
    exact hname

theorem lists_single {cwd d_name : List Byte} {n : ℕ} (hpos : 0 < n)
    (hpath : cwd.length + n ≤ 4094) :
    Lists (single cwd n d_name) cwd (ascii "GET") (slashes n) [d_name] where
  isGet := rfl
  isDir := by simp [Files.isDir, single]
  slash := by simp [slashes, List.getLast?_replicate, hpos.ne']
  noIndex := by
    -- The name of the index file is longer than the directory's.
    refine if_neg fun h => ?_
    have hlen := congrArg List.length h
    simp [indexPath, snprintf, ascii] at hlen
    omega
  opened := by simp [single]

/-- A path of 4085 slashes does not fit behind a working directory of 13 bytes; one of 3900 does,
but not together with a name of 255. -/
theorem copies_overflow :
    (single (ascii "/srv") 3900 (List.replicate 255 97#8)).Limited ∧
      process (single (ascii "/srv") 3900 (List.replicate 255 97#8)) (ascii "/srv/www/html")
        (get (slashes 4085)) = .undefined .overflow ∧
      process (single (ascii "/srv") 3900 (List.replicate 255 97#8)) (ascii "/srv")
        (get (slashes 3900)) = .undefined .overflow := by
  refine ⟨limited_single (by decide) (by rw [List.length_replicate]), ?_, ?_⟩
  · obtain ⟨protocol, hr⟩ := request_slashes 4085 (by decide) (by decide)
    refine (process_overflow_iff hr).mpr (Or.inl ?_)
    rw [length_slashes]
    decide
  · obtain ⟨protocol, hr⟩ := request_slashes 3900 (by decide) (by decide)
    refine (process_overflow_iff hr).mpr (Or.inr ⟨_, lists_single (by decide) (by decide),
      _, List.mem_singleton_self _, ?_⟩)
    rw [length_slashes, List.length_replicate]
    decide

end OperatingSystems.Web
