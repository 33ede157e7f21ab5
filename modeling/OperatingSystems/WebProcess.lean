import OperatingSystems.CStrings
import Mathlib.Data.Int.Notation
import Mathlib.Data.Nat.Notation

/-! `process` of `net.c`: a request line read from a connection, and what is sent back. The crash
draw before `fgets` and the log on standard output are left out. -/
namespace OperatingSystems.Web
open CStrings

/-- What `stat` tells of a file; `mode` is `S_ISDIR`. -/
inductive Mode
  | regular
  | directory
  deriving DecidableEq, Repr

structure Stat where
  mode : Mode
  st_size : ℤ
  st_mtime : ℤ
  deriving DecidableEq, Repr

/-- The system calls on paths; `none` is their failure. -/
structure Files where
  stat : List Byte → Option Stat
  fopen : List Byte → Option (List Byte)
  opendir : List Byte → Option (List (List Byte))

def Files.isDir (disk : Files) (path : List Byte) : Prop :=
  (disk.stat path).map Stat.mode = some .directory

/-- The arguments of `send_headers`; a date is printed unless it is `-1`. -/
structure Headers where
  status : ℕ
  title : String
  extra : Option (List Byte)
  mime : Option String
  length : ℤ
  date : ℤ
  deriving DecidableEq, Repr

/-- A line of the listing. -/
structure Row where
  d_name : List Byte
  st : Stat
  deriving DecidableEq, Repr

inductive Body
  | message (text : String)
  | file (path data : List Byte)
  | index (path : List Byte) (up : Bool) (rows : List Row)
  deriving DecidableEq, Repr

structure Reply where
  headers : Headers
  body : Body
  deriving DecidableEq, Repr

def getMimeType (name : List Byte) : Option String :=
  match strrchr 46#8 name with
  | none => none
  | some ext =>
    if ext = ascii ".html" ∨ ext = ascii ".htm" then some "text/html"
    else if ext = ascii ".jpg" ∨ ext = ascii ".jpeg" then some "image/jpeg"
    else if ext = ascii ".gif" then some "image/gif"
    else if ext = ascii ".png" then some "image/png"
    else if ext = ascii ".css" then some "text/css"
    else if ext = ascii ".au" then some "audio/basic"
    else if ext = ascii ".wav" then some "audio/wav"
    else if ext = ascii ".avi" then some "video/x-msvideo"
    else if ext = ascii ".mpeg" ∨ ext = ascii ".mpg" then some "video/mpeg"
    else if ext = ascii ".mp3" then some "audio/mpeg"
    else none

def sendError (status : ℕ) (title : String) (extra : Option (List Byte)) (text : String) :
    Reply where
  headers := ⟨status, title, extra, some "text/html", -1, -1⟩
  body := .message text

def sendFile (disk : Files) (path : List Byte) (statbuf : Stat) : Reply :=
  match disk.fopen path with
  | none => sendError 403 "Forbidden" none "Access denied."
  | some data =>
    let length := if statbuf.mode = .regular then statbuf.st_size else -1
    ⟨⟨200, "OK", none, getMimeType path, length, statbuf.st_mtime⟩, .file path data⟩

/-- The line that `fgets` left in `buf`, after the three calls of `strtok`. -/
structure Request where
  method : List Byte
  path : List Byte
  protocol : List Byte
  deriving DecidableEq, Repr

def parse (buf : List Byte) : Option Request := do
  let (method, buf) ← strtok 32#8 buf
  let (path, buf) ← strtok 32#8 buf
  let (protocol, _) ← strtok 13#8 buf
  some ⟨method, path, protocol⟩

/-- What is read of a connection. -/
def request (stream : List Byte) : Option Request := (fgets 4096 stream).bind parse

def Request.isGet (r : Request) : Bool := sameLetters r.method (ascii "GET")

/-- The loop over `readdir`. The call of `stat` is not checked: when it fails, `statbuf` is the one
of the entry before. `none` when `strcpy` and `strcat` leave `pathbuf`. -/
def rows (disk : Files) (path : List Byte) : List (List Byte) → Stat → Option (List Row)
  | [], _ => some []
  | d_name :: dir, statbuf => do
    let pathbuf ← sprintf 4096 (path ++ d_name)
    let statbuf := (disk.stat pathbuf).getD statbuf
    let rest ← rows disk path dir statbuf
    some (⟨d_name, statbuf⟩ :: rest)

/-- Undefined behaviour: an unbounded copy that leaves its buffer, or `readdir` on the null pointer
that a failed `opendir` returns. -/
inductive Fault
  | overflow
  | nullDir
  deriving DecidableEq, Repr

def index (disk : Files) (path : List Byte) (statbuf : Stat) : Except Fault Reply :=
  match disk.opendir path with
  | none => .error .nullDir
  | some dir =>
    match rows disk path dir statbuf with
    | none => .error .overflow
    | some rows => .ok ⟨⟨200, "OK", none, some "text/html", -1, statbuf.st_mtime⟩,
        .index path (1 < path.length) rows⟩

/-- The text of `extra` for a directory without its slash. -/
def location (path : List Byte) : List Byte :=
  snprintf 4096 (ascii "Location: " ++ path ++ ascii "/")

/-- Where a directory's index file is looked for; `path` starts with `cwd`. -/
def indexPath (cwd path : List Byte) : List Byte :=
  snprintf 4096 (cwd ++ path ++ ascii "index.html")

/-- `process` once `path` is composed. -/
def answer (disk : Files) (cwd : List Byte) (isGet : Bool) (path : List Byte) :
    Except Fault Reply :=
  if !isGet then .ok (sendError 501 "Not supported" none "Method is not supported.")
  else
    match disk.stat path with
    | none => .ok (sendError 404 "Not Found" none "File not found.")
    | some statbuf =>
      if statbuf.mode = .directory then
        if path.getLast? ≠ some 47#8 then
          .ok (sendError 302 "Found" (some (location path)) "Directories must end with a slash.")
        else
          let pathbuf := indexPath cwd path
          match disk.stat pathbuf with
          | some statbuf => .ok (sendFile disk pathbuf statbuf)
          | none => index disk path statbuf
      else .ok (sendFile disk path statbuf)

/-- The outcome of `process`: -1 with nothing sent, undefined behaviour, or 0 with a reply about
`path`. -/
inductive Outcome
  | closed
  | undefined (fault : Fault)
  | replied (path : List Byte) (reply : Reply)
  deriving DecidableEq, Repr

def process (disk : Files) (cwd stream : List Byte) : Outcome :=
  match request stream with
  | none => .closed
  | some r =>
    match sprintf 4096 (cwd ++ r.path) with
    | none => .undefined .overflow
    | some path =>
      match answer disk cwd r.isGet path with
      | .error fault => .undefined fault
      | .ok reply => .replied path reply

/-- The path that a request is resolved to: the argument of `stat`. -/
def resolved (cwd stream : List Byte) : Option (List Byte) :=
  (request stream).bind fun r => sprintf 4096 (cwd ++ r.path)

/-- The room in `pathbuf` is more than the name of the field. -/
theorem location_eq (path : List Byte) :
    location path = ascii "Location: " ++ (path ++ ascii "/").take 4085 := by
  rw [location, snprintf, List.append_assoc, List.take_append]
  rfl

/-- A listing that is sent is one of some rows. -/
theorem index_eq_ok {disk : Files} {path : List Byte} {statbuf : Stat} {reply : Reply}
    (h : index disk path statbuf = .ok reply) : ∃ rows, reply =
      ⟨⟨200, "OK", none, some "text/html", -1, statbuf.st_mtime⟩,
        .index path (1 < path.length) rows⟩ := by
  unfold index at h
  cases hdir : disk.opendir path with
  | none => simp [hdir] at h
  | some dir =>
    cases hrows : rows disk path dir statbuf with
    | none => simp [hdir, hrows] at h
    | some rows =>
      simp only [hdir, hrows, Except.ok.injEq] at h
      exact ⟨rows, h.symm⟩

theorem sprintf_eq_some_iff {size : ℕ} {s t : List Byte} :
    sprintf size s = some t ↔ s.length < size ∧ s = t := by
  simp [sprintf]

/-- Every reply is about the path that the request is resolved to. -/
theorem process_eq_replied_iff {disk : Files} {cwd stream path : List Byte} {reply : Reply} :
    process disk cwd stream = .replied path reply ↔ ∃ r, request stream = some r ∧
      resolved cwd stream = some path ∧ answer disk cwd r.isGet path = .ok reply := by
  cases hr : request stream with
  | none => simp [process, hr]
  | some r =>
    cases hpath : sprintf 4096 (cwd ++ r.path) with
    | none => simp [process, resolved, hr, hpath]
    | some path' =>
      cases hanswer : answer disk cwd r.isGet path' with
      | error fault =>
        simp only [process, resolved, hr, hpath, hanswer, Option.bind_some, Option.some.injEq,
          reduceCtorEq, false_iff]
        rintro ⟨r', rfl, rfl, hreply⟩
        simp [hanswer] at hreply
      | ok reply' =>
        simp only [process, resolved, hr, hpath, hanswer, Option.bind_some, Option.some.injEq,
          Outcome.replied.injEq, exists_eq_left']
        constructor
        · rintro ⟨rfl, rfl⟩
          exact ⟨rfl, hanswer⟩
        · rintro ⟨rfl, hreply⟩
          exact ⟨rfl, Except.ok.inj (hanswer.symm.trans hreply)⟩

/-- The first two words of a line, and behind them a byte that can begin the protocol. -/
def Words (buf method path : List Byte) : Prop :=
  ∃ i j rest, buf = List.replicate i 32#8 ++
      (method ++ 32#8 :: (List.replicate j 32#8 ++ (path ++ 32#8 :: rest))) ∧
    (method ≠ [] ∧ 32#8 ∉ method) ∧ (path ≠ [] ∧ 32#8 ∉ path) ∧ ∃ b ∈ rest, b ≠ 13#8

/-- The calls of `strtok` find the words of the line. -/
theorem parse_iff {buf method path : List Byte} :
    (∃ protocol, parse buf = some ⟨method, path, protocol⟩) ↔ Words buf method path := by
  constructor
  · rintro ⟨protocol, h⟩
    simp only [parse, Option.bind_eq_bind, Option.bind_eq_some_iff, Option.some.injEq] at h
    obtain ⟨⟨method', s⟩, hmethod, ⟨path', t⟩, hpath, ⟨protocol', u⟩, hprotocol, h⟩ := h
    cases h
    -- a token that ends the string leaves nothing for the next call
    have ht : t ≠ [] := by
      rintro rfl
      simp [strtok_nil] at hprotocol
    have hs : s ≠ [] := by
      rintro rfl
      simp [strtok_nil] at hpath
    obtain ⟨hmne, hmd, i, hi⟩ := strtok_iff.mp hmethod
    obtain ⟨hpne, hpd, j, hj⟩ := strtok_iff.mp hpath
    have hbuf := hi.resolve_left fun h => hs h.2
    have hrest := hj.resolve_left fun h => ht h.2
    have hsome : (strtok 13#8 t).isSome := Option.isSome_of_eq_some hprotocol
    exact ⟨i, j, t, hrest ▸ hbuf, ⟨hmne, hmd⟩, ⟨hpne, hpd⟩, strtok_isSome_iff.mp hsome⟩
  · rintro ⟨i, j, rest, rfl, ⟨hmne, hmd⟩, ⟨hpne, hpd⟩, hrest⟩
    obtain ⟨⟨protocol, u⟩, hprotocol⟩ := Option.isSome_iff_exists.mp (strtok_isSome_iff.mpr hrest)
    refine ⟨protocol, ?_⟩
    rw [parse, strtok_skip i hmne hmd (by simp)]
    simp only [Option.bind_eq_bind, Option.bind_some, List.tail_cons]
    rw [strtok_skip j hpne hpd (by simp)]
    simp only [Option.bind_some, List.tail_cons, hprotocol]

theorem request_iff {stream method path : List Byte} :
    (∃ protocol, request stream = some ⟨method, path, protocol⟩) ↔
      ∃ buf, fgets 4096 stream = some buf ∧ Words buf method path := by
  simp only [request, Option.bind_eq_some_iff, ← parse_iff]
  constructor
  · rintro ⟨protocol, buf, hbuf, hparse⟩
    exact ⟨buf, hbuf, protocol, hparse⟩
  · rintro ⟨buf, hbuf, protocol, hparse⟩
    exact ⟨protocol, buf, hbuf, hparse⟩

/-- Beside the path a line holds a method, two blanks and something for the protocol. -/
theorem Words.length_le {buf method path : List Byte} (h : Words buf method path) :
    method.length + path.length + 3 ≤ buf.length := by
  obtain ⟨i, j, rest, rfl, -, -, b, hb, -⟩ := h
  have hrest := List.length_pos_of_mem hb
  simp only [List.length_append, List.length_cons, List.length_replicate]
  omega

/-- What a request's path can be. -/
theorem request_path {stream : List Byte} {r : Request} (h : request stream = some r) :
    r.path ≠ [] ∧ 32#8 ∉ r.path ∧ 10#8 ∉ r.path ∧ 0 ∉ r.path := by
  obtain ⟨buf, hbuf, i, j, rest, hshape, -, ⟨hpath, hblank⟩, -⟩ := request_iff.mp ⟨r.protocol, h⟩
  have hsub : ∀ b ∈ r.path, b ∈ buf := by
    intro b hb
    rw [hshape]
    simp [hb]
  have hsplit : buf = (List.replicate i 32#8 ++
      (r.method ++ 32#8 :: (List.replicate j 32#8 ++ r.path))) ++ 32#8 :: rest := by
    rw [hshape]
    simp
  have hnewline := newline_notMem_fgets (hsplit ▸ hbuf) (by simp)
  refine ⟨hpath, hblank, ?_, ?_⟩
  · intro hmem
    exact hnewline (by simp [hmem])
  · intro hmem
    exact zero_notMem_fgets hbuf (hsub 0 hmem)

/-- A client's request for `path`. -/
def get (path : List Byte) : List Byte := ascii "GET " ++ (path ++ ascii " HTTP/1.0\r\n\r\n")

/-- The call for the method takes `GET` and its blank; the other two see the rest of the line. -/
theorem request_get_append (s : List Byte) : request (ascii "GET " ++ s) =
    (strtok 32#8 (cString (line 10#8 (s.take 4091)))).bind fun x =>
      (strtok 13#8 x.2).bind fun y => some ⟨ascii "GET", x.1, y.1⟩ := by
  have htake : (ascii "GET " ++ s).take (4096 - 1) = ascii "GET " ++ s.take 4091 := by
    rw [List.take_append]
    rfl
  have hline : line 10#8 (ascii "GET " ++ s.take 4091) =
      ascii "GET " ++ line 10#8 (s.take 4091) := line_append (by decide) _
  have hzero : ∀ b ∈ ascii "GET ", decide (b ≠ 0) = true := by decide
  have hbuf : fgets 4096 (ascii "GET " ++ s) =
      some (ascii "GET " ++ cString (line 10#8 (s.take 4091))) := by
    rw [fgets, if_neg (by simp [ascii]), htake, hline, cString, cString,
      List.takeWhile_append_of_pos hzero]
  have hmethod : ∀ x, strtok 32#8 (ascii "GET " ++ x) = some (ascii "GET", x) := fun x =>
    strtok_skip (d := 32#8) (w := ascii "GET") (t := 32#8 :: x) 0 (by decide) (by decide) (by simp)
  rw [request, hbuf, Option.bind_some, parse, hmethod]
  rfl

/-- The path is the first word behind the method, and something follows it. -/
theorem request_of_get {s : List Byte} {r : Request} (h : request (ascii "GET " ++ s) = some r) :
    r.method = ascii "GET" ∧ ∃ j, List.replicate j 32#8 ++ (r.path ++ [32#8]) <+: s := by
  rw [request_get_append] at h
  obtain ⟨⟨path, t⟩, hpath, h⟩ := Option.bind_eq_some_iff.mp h
  obtain ⟨⟨protocol, u⟩, hprotocol, h⟩ := Option.bind_eq_some_iff.mp h
  cases h
  have ht : t ≠ [] := by
    rintro rfl
    simp [strtok_nil] at hprotocol
  obtain ⟨-, -, j, hj⟩ := strtok_iff.mp hpath
  have hline := hj.resolve_left fun h => ht h.2
  refine ⟨rfl, j, ?_⟩
  have hword : List.replicate j 32#8 ++ (path ++ [32#8]) <+: cString (line 10#8 (s.take 4091)) :=
    ⟨t, by simp [hline]⟩
  exact ((hword.trans (cString_isPrefix _)).trans (line_isPrefix _ _)).trans (List.take_prefix _ _)

/-- A word behind the method, and behind it at least one byte that can begin the protocol, is the
path. -/
theorem request_get {w t : List Byte} {b : Byte} (k : ℕ) (hne : w ≠ []) (hblank : 32#8 ∉ w)
    (hnewline : 10#8 ∉ w) (hw : 0 ∉ w) (ht : 0 ∉ t) (hb : b ∈ t.take (4090 - (k + w.length)))
    (hcr : b ≠ 13#8) : ∃ protocol,
      request (ascii "GET " ++ (List.replicate k 32#8 ++ (w ++ 32#8 :: t))) =
        some ⟨ascii "GET", w, protocol⟩ := by
  have hpos : 0 < 4090 - (k + w.length) := by
    by_contra hzero
    rw [show 4090 - (k + w.length) = 0 by omega] at hb
    simp at hb
  set n := 4090 - (k + w.length) with hn
  have htake : (List.replicate k 32#8 ++ (w ++ 32#8 :: t)).take 4091 =
      (List.replicate k 32#8 ++ (w ++ [32#8])) ++ t.take n := by
    rw [show List.replicate k 32#8 ++ (w ++ 32#8 :: t) =
        (List.replicate k 32#8 ++ (w ++ [32#8])) ++ t by simp, List.take_append,
      List.take_of_length_le (by simp; omega)]
    congr 2
    simp
    omega
  have hfirst : 10#8 ∉ List.replicate k 32#8 ++ (w ++ [32#8]) := by
    simp [hnewline]
  have hzero : 0 ∉ (List.replicate k 32#8 ++ (w ++ [32#8])) ++ line 10#8 (t.take n) := by
    intro hmem
    have htail : 0 ∈ w ∨ 0 ∈ line 10#8 (t.take n) := by simpa using hmem
    exact ht (List.mem_of_mem_take ((line_isPrefix _ _).subset (htail.resolve_left hw)))
  have hline : cString (line 10#8 ((List.replicate k 32#8 ++ (w ++ 32#8 :: t)).take 4091)) =
      List.replicate k 32#8 ++ (w ++ 32#8 :: line 10#8 (t.take n)) := by
    rw [htake, line_append hfirst, cString_of_notMem hzero]
    simp
  -- whichever byte the line keeps, it is no carriage return
  have hprotocol : (strtok 13#8 (line 10#8 (t.take n))).isSome := by
    rcases mem_line (e := 10#8) hb with hkept | hend
    · exact strtok_isSome hkept hcr
    · exact strtok_isSome hend (by decide)
  obtain ⟨⟨protocol, u⟩, hprotocol⟩ := Option.isSome_iff_exists.mp hprotocol
  refine ⟨protocol, ?_⟩
  rw [request_get_append, hline, strtok_skip k hne hblank (by simp), Option.bind_some,
    List.tail_cons, hprotocol]
  rfl

/-- Up to 4089 bytes, so that the line has room for one more after the blank. -/
theorem request_get_word {w : List Byte} (hne : w ≠ []) (hblank : 32#8 ∉ w) (hnewline : 10#8 ∉ w)
    (hw : 0 ∉ w) (hlen : w.length ≤ 4089) :
    ∃ protocol, request (get w) = some ⟨ascii "GET", w, protocol⟩ := by
  have hH : 72#8 ∈ (ascii "HTTP/1.0\r\n\r\n").take (4090 - (0 + w.length)) := by
    rw [show 4090 - (0 + w.length) = 4089 - w.length + 1 by omega]
    exact List.mem_cons_self
  exact request_get (t := ascii "HTTP/1.0\r\n\r\n") 0 hne hblank hnewline hw (by decide) hH
    (by decide)

end OperatingSystems.Web
