import OperatingSystems.WebProcess

/-! Requests for directories: the redirection of a path without its slash, and the index file of a
path with it. Both are built from `path`, which already starts with `cwd`, and `cwd` is put in
front once more. -/
namespace OperatingSystems.Web
open CStrings

/-- The path in a reply's `Location` header. -/
def Reply.redirect (reply : Reply) : Option (List Byte) :=
  reply.headers.extra.bind fun extra =>
    if (ascii "Location: ").isPrefixOf extra then some (extra.drop (ascii "Location: ").length)
    else none

/-- The reply sends the client to a path, and a request for that path is resolved to `dir`. -/
def Redirects (disk : Files) (cwd stream dir : List Byte) : Prop :=
  ∃ path reply location, process disk cwd stream = .replied path reply ∧
    reply.redirect = some location ∧ resolved cwd (get location) = some dir

/-- The reply is the file `name`. -/
def Serves (disk : Files) (cwd stream name : List Byte) : Prop :=
  ∃ path reply data, process disk cwd stream = .replied path reply ∧ reply.body = .file name data

/-- A request for the directory `cwd ++ p` leads to it: by way of its name with a slash, or to its
index file. -/
def Resolves (disk : Files) (cwd stream p : List Byte) : Prop :=
  (p.getLast? ≠ some 47#8 → Redirects disk cwd stream (cwd ++ (p ++ ascii "/"))) ∧
    (p.getLast? = some 47#8 → disk.stat (cwd ++ (p ++ ascii "index.html")) ≠ none →
      Serves disk cwd stream (cwd ++ (p ++ ascii "index.html")))

/-- The path `q` is read back from the request for `cwd ++ q`, of which a `Location` header holds
4085 bytes. Blanks in front are skipped; then there is nothing but `q`, or `cwd` itself is a word `q`
and more, or the header is cut where `q` has begun again. -/
def Survives (cwd q : List Byte) : Prop :=
  ∃ k c, cwd = List.replicate k 32#8 ++ c ∧
    ((c = [] ∧ k + q.length ≤ 4085) ∨ (q ++ [32#8] <+: c ∧ k + q.length < 4085) ∨
      (q <+: c ++ q ∧ k + q.length = 4085))

/-- The first word of `s` is `q`. -/
def FirstWord (s q : List Byte) : Prop :=
  ∃ k, s = List.replicate k 32#8 ++ q ∨ List.replicate k 32#8 ++ (q ++ [32#8]) <+: s

/-- No path of the form `/...` begins in the blanks before the protocol or in its `H`, and none
goes on over a blank. -/
theorem word_within {location q x : List Byte} {j : ℕ} (hblank : 32#8 ∉ q)
    (hslash : q.head? = some 47#8) (h : location ++ x = List.replicate j 32#8 ++ q)
    (hx : x <+: 32#8 :: 72#8 :: ascii "TTP/1.0\r\n\r\n") : x = [] := by
  cases x with
  | nil => rfl
  | cons b y =>
    exfalso
    obtain ⟨rfl, hy⟩ := List.cons_prefix_cons.mp hx
    -- Its blank is one of those in front of `q`, so `q` begins among the bytes `y` behind it.
    rw [List.append_cons] at h
    obtain ⟨u, hu⟩ := prefix_of_notMem hblank ⟨y, h⟩
    rw [← hu, List.append_assoc (location ++ [32#8])] at h
    have hyq : y = u ++ q := List.append_cancel_left h
    have hfirst : y.head? = some 47#8 ∨ y.head? = some 32#8 := by
      rw [hyq]
      cases u with
      | nil => exact Or.inl hslash
      | cons b' u =>
        have hmem : b' ∈ List.replicate j 32#8 := by
          rw [← hu]
          simp
        exact Or.inr (congrArg some (List.eq_of_mem_replicate hmem))
    cases y with
    | nil => simp at hfirst
    | cons b' z =>
      obtain ⟨rfl, -⟩ := List.cons_prefix_cons.mp hy
      simp at hfirst

/-- What `get` puts behind the path is never taken for it. -/
theorem firstWord_of_prefix {location q : List Byte} {j : ℕ} (hblank : 32#8 ∉ q)
    (hslash : q.head? = some 47#8)
    (h : List.replicate j 32#8 ++ (q ++ [32#8]) <+: location ++ ascii " HTTP/1.0\r\n\r\n") :
    FirstWord location q := by
  refine ⟨j, ?_⟩
  have hlocation := List.prefix_append location (ascii " HTTP/1.0\r\n\r\n")
  have hword : List.replicate j 32#8 ++ q <+: location ++ ascii " HTTP/1.0\r\n\r\n" := by
    refine List.IsPrefix.trans ?_ h
    rw [← List.append_assoc]
    exact List.prefix_append _ _
  have hlen : (List.replicate j 32#8 ++ q).length = j + q.length := by simp
  by_cases hinside : j + q.length + 1 ≤ location.length
  · right
    apply List.prefix_of_prefix_length_le h hlocation
    simp only [List.length_append, List.length_replicate, List.length_singleton]
    omega
  · left
    obtain ⟨x, hx⟩ := List.prefix_of_prefix_length_le hlocation hword (by omega)
    rw [← hx] at hword
    have htail := (List.prefix_append_right_inj location).mp hword
    have hnil := word_within hblank hslash hx htail
    rw [← hx, hnil, List.append_nil]

/-- Which words a request for `location` is about. -/
theorem request_names_iff {location q : List Byte} (hlen : location.length ≤ 4085)
    (hzero : 0 ∉ location) (hblank : 32#8 ∉ q) (hnewline : 10#8 ∉ q) (hq : 0 ∉ q)
    (hslash : q.head? = some 47#8) :
    (∃ r, request (get location) = some r ∧ r.path = q) ↔ FirstWord location q := by
  have hne : q ≠ [] := by
    rintro rfl
    cases hslash
  constructor
  · rintro ⟨r, hr, rfl⟩
    obtain ⟨-, j, hj⟩ := request_of_get hr
    exact firstWord_of_prefix hblank hslash hj
  · rintro ⟨k, rfl | ⟨u, rfl⟩⟩
    · have hfits : k + q.length ≤ 4085 := by simpa using hlen
      have hH : 72#8 ∈ (ascii "HTTP/1.0\r\n\r\n").take (4090 - (k + q.length)) := by
        rw [show 4090 - (k + q.length) = 4089 - (k + q.length) + 1 by omega]
        exact List.mem_cons_self
      obtain ⟨protocol, hr⟩ := request_get (t := ascii "HTTP/1.0\r\n\r\n") k hne hblank hnewline hq
        (by decide) hH (by decide)
      refine ⟨⟨ascii "GET", q, protocol⟩, ?_, rfl⟩
      rw [← hr, get, List.append_assoc]
      rfl
    · have hfits : k + q.length + 1 + u.length ≤ 4085 := by
        simp only [List.length_append, List.length_replicate, List.length_singleton] at hlen
        omega
      have hu : 0 ∉ u ++ ascii " HTTP/1.0\r\n\r\n" := by
        intro hmem
        rcases List.mem_append.mp hmem with h | h
        · exact hzero (List.mem_append_right _ h)
        · exact absurd h (by decide)
      have hspace : 32#8 ∈ (u ++ ascii " HTTP/1.0\r\n\r\n").take (4090 - (k + q.length)) := by
        rw [List.take_append, List.take_of_length_le (by omega),
          show 4090 - (k + q.length) - u.length =
            4089 - (k + q.length) - u.length + 1 by omega]
        exact List.mem_append_right _ List.mem_cons_self
      obtain ⟨protocol, hr⟩ := request_get k hne hblank hnewline hq hu hspace (by decide)
      refine ⟨⟨ascii "GET", q, protocol⟩, ?_, rfl⟩
      rw [← hr, get]
      simp

theorem firstWord_iff {cwd q : List Byte} (hblank : 32#8 ∉ q) :
    FirstWord ((cwd ++ q).take 4085) q ↔ Survives cwd q := by
  have hcut := List.take_prefix 4085 (cwd ++ q)
  have hlen : ((cwd ++ q).take 4085).length = min 4085 (cwd.length + q.length) := by simp
  constructor
  · rintro ⟨k, hk⟩
    have hword : List.replicate k 32#8 ++ q <+: cwd ++ q := by
      rcases hk with hend | hinside
      · exact hend ▸ hcut
      · refine List.IsPrefix.trans ?_ (hinside.trans hcut)
        rw [← List.append_assoc]
        exact List.prefix_append _ _
    have hk_le : k ≤ cwd.length := by
      have h := hword.length_le
      simp only [List.length_append, List.length_replicate] at h
      omega
    obtain ⟨c, rfl⟩ : List.replicate k 32#8 <+: cwd :=
      List.prefix_of_prefix_length_le ((List.prefix_append _ _).trans hword)
        (List.prefix_append _ _) (by simpa using hk_le)
    rw [List.append_assoc] at hword hcut
    have hq := (List.prefix_append_right_inj _).mp hword
    simp only [List.length_append, List.length_replicate] at hlen
    refine ⟨k, c, rfl, ?_⟩
    rcases hk with hend | hinside
    · rw [hend, List.length_append, List.length_replicate] at hlen
      by_cases hc : c = []
      · exact Or.inl ⟨hc, by omega⟩
      · have hpos := List.length_pos_of_ne_nil hc
        exact Or.inr (Or.inr ⟨hq, by omega⟩)
    · have hfits := hinside.length_le
      rw [hlen] at hfits
      simp only [List.length_append, List.length_replicate, List.length_singleton] at hfits
      rw [List.append_assoc] at hinside
      -- The blank behind the word cannot stand in the second `q`.
      have hspace := (List.prefix_append_right_inj _).mp (hinside.trans hcut)
      exact Or.inr (Or.inl ⟨prefix_of_notMem hblank hspace, by omega⟩)
  · rintro ⟨k, c, rfl, ⟨rfl, hfits⟩ | ⟨⟨u, rfl⟩, hfits⟩ | ⟨hq, hfits⟩⟩
    · refine ⟨k, Or.inl ?_⟩
      rw [List.append_nil, List.take_of_length_le (by simpa using hfits)]
    · refine ⟨k, Or.inr ?_⟩
      apply List.prefix_take_iff.mpr
      refine ⟨⟨u ++ q, by simp⟩, ?_⟩
      simp only [List.length_append, List.length_replicate, List.length_singleton]
      omega
    · refine ⟨k, Or.inl ?_⟩
      rw [List.append_assoc, List.take_append, List.length_replicate,
        List.take_of_length_le (by rw [List.length_replicate]; omega),
        show 4085 - k = q.length by omega, ← List.prefix_iff_eq_take.mp hq]

/-- Where the request for what a `Location` header holds of `cwd ++ q` leads. -/
theorem resolved_get_iff {cwd q : List Byte} (hzero : 0 ∉ cwd) (hblank : 32#8 ∉ q)
    (hnewline : 10#8 ∉ q) (hnull : 0 ∉ q) (hslash : q.head? = some 47#8) :
    resolved cwd (get ((cwd ++ q).take 4085)) = some (cwd ++ q) ↔
      (cwd ++ q).length ≤ 4095 ∧ Survives cwd q := by
  have hlocation : 0 ∉ (cwd ++ q).take 4085 := by
    intro h
    exact (List.mem_append.mp (List.mem_of_mem_take h)).elim hzero hnull
  rw [← firstWord_iff hblank, ← request_names_iff (by simp) hlocation hblank hnewline hnull hslash,
    resolved, Option.bind_eq_some_iff]
  simp only [sprintf_eq_some_iff]
  constructor
  · rintro ⟨r, hr, hlen, hpath⟩
    exact ⟨by rw [← hpath]; omega, r, hr, List.append_cancel_left hpath⟩
  · rintro ⟨hlen, r, hr, hpath⟩
    exact ⟨r, hr, by rw [hpath]; omega, by rw [hpath]⟩

theorem sendFile_body {disk : Files} {path name data : List Byte} {statbuf : Stat} :
    (sendFile disk path statbuf).body = .file name data ↔
      path = name ∧ disk.fopen path = some data := by
  cases hopen : disk.fopen path with
  | none => simp [sendFile, hopen, sendError]
  | some data' => simp [sendFile, hopen]

/-- A listing is no file. -/
theorem index_body {disk : Files} {path name data : List Byte} {statbuf : Stat} {reply : Reply}
    (h : index disk path statbuf = .ok reply) : reply.body ≠ .file name data := by
  obtain ⟨rows, rfl⟩ := index_eq_ok h
  simp

/-- A directory is answered by a redirection or, with its slash, by its index file or a listing. -/
theorem answer_of_isDir {disk : Files} {path : List Byte} (cwd : List Byte)
    (hdir : disk.isDir path) :
    (path.getLast? ≠ some 47#8 → answer disk cwd true path = .ok (sendError 302 "Found"
        (some (location path)) "Directories must end with a slash.")) ∧
      (path.getLast? = some 47#8 → ∃ statbuf, answer disk cwd true path =
        match disk.stat (indexPath cwd path) with
        | some statbuf => .ok (sendFile disk (indexPath cwd path) statbuf)
        | none => index disk path statbuf) := by
  obtain ⟨statbuf, hstat, hmode⟩ := Option.map_eq_some_iff.mp hdir
  constructor
  · intro hslash
    simp [answer, hstat, hmode, hslash]
  · intro hslash
    refine ⟨statbuf, ?_⟩
    cases hindex : disk.stat (indexPath cwd path) with
    | none => simp [answer, hstat, hmode, hslash, hindex]
    | some st => simp [answer, hstat, hmode, hslash, hindex]

/-- The header holds the path up to its 4085th byte. -/
theorem redirect_location (path : List Byte) (status : ℕ) (title text : String) :
    (sendError status title (some (location path)) text).redirect =
      some ((path ++ ascii "/").take 4085) := by
  have hprefix : (ascii "Location: ").isPrefixOf (location path) = true := by
    rw [location_eq]
    exact List.isPrefixOf_iff_prefix.mpr (List.prefix_append _ _)
  simp only [Reply.redirect, sendError, Option.bind_some, if_pos hprefix]
  rw [location_eq, List.drop_left]

section Directories

variable {disk : Files} {cwd stream : List Byte} {r : Request}

theorem resolved_iff (hr : request stream = some r) {path : List Byte} :
    resolved cwd stream = some path ↔ (cwd ++ r.path).length < 4096 ∧ cwd ++ r.path = path := by
  rw [resolved, hr, Option.bind_some, sprintf_eq_some_iff]

/-- The reply to a `GET` request whose path is known. -/
theorem process_replied_iff (hr : request stream = some r) (hget : r.isGet = true)
    {path : List Byte} {reply : Reply} : process disk cwd stream = .replied path reply ↔
      ((cwd ++ r.path).length < 4096 ∧ cwd ++ r.path = path) ∧
        answer disk cwd true path = .ok reply := by
  rw [process_eq_replied_iff]
  constructor
  · rintro ⟨r', hr', hpath, hreply⟩
    cases hr.symm.trans hr'
    exact ⟨(resolved_iff hr).mp hpath, hget ▸ hreply⟩
  · rintro ⟨hpath, hreply⟩
    exact ⟨r, hr, (resolved_iff hr).mpr hpath, hget ▸ hreply⟩

/-- The second request finds `cwd` in front of a path that begins with `cwd` already. -/
theorem redirects_iff (hzero : 0 ∉ cwd) (hr : request stream = some r) (hget : r.isGet = true)
    (hhead : r.path.head? = some 47#8) (hdir : disk.isDir (cwd ++ r.path))
    (hslash : r.path.getLast? ≠ some 47#8) :
    Redirects disk cwd stream (cwd ++ (r.path ++ ascii "/")) ↔
      (cwd ++ (r.path ++ ascii "/")).length ≤ 4095 ∧ Survives cwd (r.path ++ ascii "/") := by
  obtain ⟨hne, hblank, hnewline, hnull⟩ := request_path hr
  set q := r.path ++ ascii "/" with hq
  have hmem : ∀ b ∈ q, b ∈ r.path ∨ b = 47#8 := by
    intro b hb
    exact (List.mem_append.mp hb).imp_right List.mem_singleton.mp
  have hblankq : 32#8 ∉ q := fun h => (hmem _ h).elim hblank (by decide)
  have hnewlineq : 10#8 ∉ q := fun h => (hmem _ h).elim hnewline (by decide)
  have hnullq : 0 ∉ q := fun h => (hmem _ h).elim hnull (by decide)
  have hheadq : q.head? = some 47#8 := by
    rw [hq, List.head?_append_of_ne_nil _ hne, hhead]
  have hlast : (cwd ++ r.path).getLast? ≠ some 47#8 := by
    rwa [List.getLast?_append_of_ne_nil _ hne]
  -- What the first reply says, and what the second request is read as.
  have hanswer := (answer_of_isDir cwd hdir).1 hlast
  have hredirect := redirect_location (cwd ++ r.path) 302 "Found"
    "Directories must end with a slash."
  rw [List.append_assoc, ← hq] at hredirect
  have hsecond := resolved_get_iff hzero hblankq hnewlineq hnullq hheadq
  rw [← hsecond]
  constructor
  · rintro ⟨path, reply, loc, hprocess, hloc, hresolved⟩
    obtain ⟨⟨-, rfl⟩, hreply⟩ := (process_replied_iff hr hget).mp hprocess
    rw [hanswer, Except.ok.injEq] at hreply
    rw [← hreply, hredirect, Option.some.injEq] at hloc
    rw [hloc]
    exact hresolved
  · intro hresolved
    have hlen := (hsecond.mp hresolved).1
    have hfits : (cwd ++ r.path).length < 4096 := by
      rw [hq, List.length_append, List.length_append] at hlen
      rw [List.length_append]
      omega
    exact ⟨_, _, _, (process_replied_iff hr hget).mpr ⟨⟨hfits, rfl⟩, hanswer⟩, hredirect,
      hresolved⟩

/-- The index file is looked for with `cwd` in front of a path that begins with `cwd` already. -/
theorem serves_iff (hcwd : cwd ≠ []) (hr : request stream = some r) (hget : r.isGet = true)
    (hdir : disk.isDir (cwd ++ r.path)) (hslash : r.path.getLast? = some 47#8)
    (hindex : disk.stat (cwd ++ (r.path ++ ascii "index.html")) ≠ none) :
    Serves disk cwd stream (cwd ++ (r.path ++ ascii "index.html")) ↔
      (cwd ++ (r.path ++ ascii "index.html")).length = 4095 ∧
        r.path ++ ascii "index.html" <+: cwd ++ (r.path ++ ascii "index.html") ∧
        disk.fopen (cwd ++ (r.path ++ ascii "index.html")) ≠ none := by
  obtain ⟨hne, -, -, -⟩ := request_path hr
  set s := r.path ++ ascii "index.html" with hs
  have hlast : (cwd ++ r.path).getLast? = some 47#8 := by
    rwa [List.getLast?_append_of_ne_nil _ hne]
  have hpathbuf : indexPath cwd (cwd ++ r.path) = snprintf 4096 (cwd ++ (cwd ++ s)) := by
    rw [indexPath, hs]
    simp only [List.append_assoc]
  have htwice := snprintf_twice_iff 4096 s hcwd
  rw [← hpathbuf] at htwice
  obtain ⟨statbuf, hanswer⟩ := (answer_of_isDir cwd hdir).2 hlast
  constructor
  · rintro ⟨path, reply, data, hprocess, hbody⟩
    obtain ⟨⟨-, rfl⟩, hreply⟩ := (process_replied_iff hr hget).mp hprocess
    rw [hanswer] at hreply
    cases hst : disk.stat (indexPath cwd (cwd ++ r.path)) with
    | none =>
      rw [hst] at hreply
      exact absurd hbody (index_body hreply)
    | some st =>
      rw [hst] at hreply
      rw [← Except.ok.inj hreply] at hbody
      obtain ⟨hname, hopen⟩ := sendFile_body.mp hbody
      obtain ⟨hlen, hprefix⟩ := htwice.mp hname
      refine ⟨hlen, hprefix, ?_⟩
      rw [← hname, hopen]
      exact Option.some_ne_none data
  · rintro ⟨hlen, hprefix, hopen⟩
    have hname := htwice.mpr ⟨hlen, hprefix⟩
    obtain ⟨data, hdata⟩ := Option.ne_none_iff_exists'.mp hopen
    obtain ⟨st, hst⟩ := Option.ne_none_iff_exists'.mp hindex
    rw [hname, hst] at hanswer
    have hfits : (cwd ++ r.path).length < 4096 := by
      rw [hs, List.length_append, List.length_append] at hlen
      rw [List.length_append]
      omega
    exact ⟨_, _, data, (process_replied_iff hr hget).mpr ⟨⟨hfits, rfl⟩, hanswer⟩,
      sendFile_body.mpr ⟨rfl, hdata⟩⟩

/-- Since every path starts with the working directory twice over, a directory's URL resolves only by
accident of lengths: if the header or the name of the index file is cut where the working directory
has begun again, or blanks hide it; or else if there is no index file to find. -/
theorem directory_resolves_iff (hcwd : cwd ≠ []) (hzero : 0 ∉ cwd)
    (hr : request stream = some r) (hget : r.isGet = true) (hhead : r.path.head? = some 47#8)
    (hdir : disk.isDir (cwd ++ r.path)) : Resolves disk cwd stream r.path ↔
      (r.path.getLast? ≠ some 47#8 → (cwd ++ (r.path ++ ascii "/")).length ≤ 4095 ∧
        Survives cwd (r.path ++ ascii "/")) ∧
      (r.path.getLast? = some 47#8 → disk.stat (cwd ++ (r.path ++ ascii "index.html")) ≠ none →
        (cwd ++ (r.path ++ ascii "index.html")).length = 4095 ∧
          r.path ++ ascii "index.html" <+: cwd ++ (r.path ++ ascii "index.html") ∧
          disk.fopen (cwd ++ (r.path ++ ascii "index.html")) ≠ none) := by
  constructor
  · intro h
    refine ⟨fun hslash => ?_, fun hslash hindex => ?_⟩
    · exact (redirects_iff hzero hr hget hhead hdir hslash).mp (h.1 hslash)
    · exact (serves_iff hcwd hr hget hdir hslash hindex).mp (h.2 hslash hindex)
  · intro h
    refine ⟨fun hslash => ?_, fun hslash hindex => ?_⟩
    · exact (redirects_iff hzero hr hget hhead hdir hslash).mpr (h.1 hslash)
    · exact (serves_iff hcwd hr hget hdir hslash hindex).mpr (h.2 hslash hindex)

/-- No redirection works for a working directory without blanks and a path of ordinary length. -/
theorem redirect_fails (hcwd : cwd ≠ []) (hzero : 0 ∉ cwd) (hblank : 32#8 ∉ cwd)
    (hr : request stream = some r) (hget : r.isGet = true) (hhead : r.path.head? = some 47#8)
    (hdir : disk.isDir (cwd ++ r.path)) (hslash : r.path.getLast? ≠ some 47#8)
    (hshort : r.path.length < 4084) :
    ¬ Redirects disk cwd stream (cwd ++ (r.path ++ ascii "/")) := by
  rw [redirects_iff hzero hr hget hhead hdir hslash]
  rintro ⟨-, k, c, hk, hcase⟩
  have hk0 : k = 0 := by
    by_contra hpos
    apply hblank
    rw [hk]
    exact List.mem_append_left _ (List.mem_replicate.mpr ⟨hpos, rfl⟩)
  rw [hk0, List.replicate_zero, List.nil_append] at hk
  rcases hcase with ⟨hc, -⟩ | ⟨hword, -⟩ | ⟨-, hlen⟩
  · exact hcwd (hk.trans hc)
  · apply hblank
    rw [hk]
    exact hword.subset (List.mem_append_right _ List.mem_cons_self)
  · have hone : (ascii "/").length = 1 := rfl
    rw [hk0, List.length_append, hone] at hlen
    omega

end Directories

/-- A directory with an index file. -/
def site : Files where
  stat path :=
    if path = ascii "/srv/docs" ∨ path = ascii "/srv/docs/" then some ⟨.directory, 4096, 0⟩
    else if path = ascii "/srv/docs/index.html" then some ⟨.regular, 5, 0⟩ else none
  fopen path := if path = ascii "/srv/docs/index.html" then some (ascii "hello") else none
  opendir path := if path = ascii "/srv/docs/" then some [ascii "index.html"] else none

theorem directory_resolves_iff_docs :
    Resolves site (ascii "/srv") (get (ascii "/docs/")) (ascii "/docs/") ↔
      ((ascii "/docs/").getLast? ≠ some 47#8 →
        (ascii "/srv" ++ (ascii "/docs/" ++ ascii "/")).length ≤ 4095 ∧
          Survives (ascii "/srv") (ascii "/docs/" ++ ascii "/")) ∧
      ((ascii "/docs/").getLast? = some 47#8 →
        site.stat (ascii "/srv" ++ (ascii "/docs/" ++ ascii "index.html")) ≠ none →
          (ascii "/srv" ++ (ascii "/docs/" ++ ascii "index.html")).length = 4095 ∧
            ascii "/docs/" ++ ascii "index.html" <+:
              ascii "/srv" ++ (ascii "/docs/" ++ ascii "index.html") ∧
            site.fopen (ascii "/srv" ++ (ascii "/docs/" ++ ascii "index.html")) ≠ none) :=
  directory_resolves_iff (r := ⟨ascii "GET", ascii "/docs/", ascii "HTTP/1.0"⟩) (by decide)
    (by decide) rfl rfl rfl rfl

/-- `/docs` leads to `/srv/srv/docs/`, and `/docs/` to a listing of the directory. -/
theorem directory_unresolved :
    (site.isDir (ascii "/srv/docs") ∧
      ¬ Resolves site (ascii "/srv") (get (ascii "/docs")) (ascii "/docs")) ∧
    site.isDir (ascii "/srv/docs/") ∧ site.stat (ascii "/srv/docs/index.html") ≠ none ∧
      ¬ Resolves site (ascii "/srv") (get (ascii "/docs/")) (ascii "/docs/") := by
  have hfirst : process site (ascii "/srv") (get (ascii "/docs")) =
      .replied (ascii "/srv/docs") (sendError 302 "Found" (some (ascii "Location: /srv/docs/"))
        "Directories must end with a slash.") := rfl
  have hsecond : resolved (ascii "/srv") (get (ascii "/srv/docs/")) =
      some (ascii "/srv/srv/docs/") := rfl
  have hlisting : process site (ascii "/srv") (get (ascii "/docs/")) =
      .replied (ascii "/srv/docs/") ⟨⟨200, "OK", none, some "text/html", -1, 0⟩,
        .index (ascii "/srv/docs/") true [⟨ascii "index.html", ⟨.regular, 5, 0⟩⟩]⟩ := rfl
  refine ⟨⟨rfl, fun h => ?_⟩, rfl, by decide, fun h => ?_⟩
  · obtain ⟨path, reply, loc, hprocess, hloc, hresolved⟩ := h.1 (by decide)
    cases hfirst.symm.trans hprocess
    have hpath : some (ascii "/srv/docs/") = some loc := hloc
    cases hpath
    exact absurd (hsecond.symm.trans hresolved) (by decide)
  · obtain ⟨path, reply, data, hprocess, hbody⟩ := h.2 (by decide) (by decide)
    cases hlisting.symm.trans hprocess
    cases hbody

end OperatingSystems.Web
