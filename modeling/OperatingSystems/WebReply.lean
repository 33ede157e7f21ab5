import OperatingSystems.Formats
import OperatingSystems.WebRedirect

/-! The bytes that `send_headers`, `send_error`, `send_file` and the listing of `net.c` write, and
what a client reads from them. -/
namespace OperatingSystems.Web
open CStrings Formats

def SERVER : List Byte := ascii "webserver/1.0"

def PROTOCOL : List Byte := ascii "HTTP/1.0"

def RFC1123FMT : String := "%a, %d %b %Y %H:%M:%S GMT"

/-- `time(NULL)`, and what `strftime` makes of `gmtime` in a format. -/
structure Clock where
  now : ℤ
  strftime : String → ℤ → List Byte

/-- A number that is passed for an `int`. -/
def int (n : ℤ) : Value := .int (BitVec.ofInt 32 n)

def sendHeaders (clock : Clock) (h : Headers) : List Byte :=
  printf "%s %d %s\r\n" [.word PROTOCOL, int h.status, .word (ascii h.title)] ++
  printf "Server: %s\r\n" [.word SERVER] ++
  printf "Date: %s\r\n" [.word (clock.strftime RFC1123FMT clock.now)] ++
  h.extra.elim [] (fun extra => printf "%s\r\n" [.word extra]) ++
  h.mime.elim [] (fun mime => printf "Content-Type: %s\r\n" [.word (ascii mime)]) ++
  (if 0 ≤ (BitVec.ofInt 32 h.length).toInt then
    printf "Content-Length: %d\r\n" [int h.length] else []) ++
  (if h.date ≠ -1 then
    printf "Last-Modified: %s\r\n" [.word (clock.strftime RFC1123FMT h.date)] else []) ++
  ascii "Connection: close\r\n" ++ ascii "\r\n"

/-- `%10d`. -/
def printTen (n : ℤ) : List Byte :=
  let s := (int n).print .decimal
  List.replicate (10 - s.length) 32#8 ++ s

def Row.print (clock : Clock) (row : Row) : List Byte :=
  let dir : Bool := row.st.mode = .directory
  let timebuf := clock.strftime "%d-%b-%Y %H:%M:%S" row.st.st_mtime
  printf "<A HREF=\"%s%s\">" [.word row.d_name, .word (if dir then ascii "/" else [])] ++
  printf "%s%s" [.word row.d_name, .word (if dir then ascii "/</A>" else ascii "</A> ")] ++
  List.replicate (32 - row.d_name.length) 32#8 ++
  (if dir then printf "%s\r\n" [.word timebuf]
    else printf "%s " [.word timebuf] ++ printTen row.st.st_size ++ ascii "\r\n")

/-- What follows the headers. -/
def Reply.text (clock : Clock) (reply : Reply) : List Byte :=
  match reply.body with
  | .message text =>
    let status := int reply.headers.status
    let title := Value.word (ascii reply.headers.title)
    printf "<HTML><HEAD><TITLE>%d %s</TITLE></HEAD>\r\n" [status, title] ++
    printf "<BODY><H4>%d %s</H4>\r\n" [status, title] ++
    printf "%s\r\n" [.word (ascii text)] ++ ascii "</BODY></HTML>\r\n"
  | .file _ data => data
  | .index path up rows =>
    printf "<HTML><HEAD><TITLE>Index of %s</TITLE></HEAD>\r\n<BODY>" [.word path] ++
    printf "<H4>Index of %s</H4>\r\n<PRE>\n" [.word path] ++
    ascii "Name                             Last Modified              Size\r\n" ++
    ascii "<HR>\r\n" ++ (if up then ascii "<A HREF=\"..\">..</A>\r\n" else []) ++
    rows.flatMap (Row.print clock) ++
    printf "</PRE>\r\n<HR>\r\n<ADDRESS>%s</ADDRESS>\r\n</BODY></HTML>\r\n" [.word SERVER]

/-- All that is written for a reply. -/
def Reply.bytes (clock : Clock) (reply : Reply) : List Byte :=
  sendHeaders clock reply.headers ++ reply.text clock

/-! ### A client's reading -/

/-- The lines of a message without their ends, up to the first empty one, and what follows it. -/
def readHead : ℕ → List Byte → Option (List (List Byte) × List Byte)
  | 0, _ => none
  | n + 1, s =>
    let l := line 10#8 s
    if l = ascii "\r\n" then some ([], s.drop l.length)
    else (readHead n (s.drop l.length)).map fun p => (l.take (l.length - 2) :: p.1, p.2)

/-- The first field of a name. -/
def field (name : String) (fields : List (List Byte)) : Option (List Byte) :=
  (fields.find? ((ascii name).isPrefixOf ·)).map (·.drop (ascii name).length)

structure Message where
  status : BitVec 32
  location : Option (List Byte)
  mime : Option (List Byte)
  length : Option (BitVec 32)
  content : List Byte
  deriving DecidableEq

def receive (s : List Byte) : Option Message :=
  match readHead s.length s with
  | some (first :: fields, content) =>
    match (sscanf first "HTTP/1.0 %d").2 with
    | [.int status] => some {
        status, content
        location := field "Location: " fields
        mime := field "Content-Type: " fields
        length := (field "Content-Length: " fields).map atoi }
    | _ => none
  | _ => none

theorem readHead_append {lines : List (List Byte)} {n : ℕ}
    (hlines : ∀ l ∈ lines, l ≠ [] ∧ 10#8 ∉ l) (hn : lines.length < n) (t : List Byte) :
    readHead n (lines.flatMap (· ++ ascii "\r\n") ++ (ascii "\r\n" ++ t)) = some (lines, t) := by
  induction lines generalizing n with
  | nil =>
    obtain ⟨n, rfl⟩ : ∃ k, n = k + 1 := ⟨n - 1, by rw [List.length_nil] at hn; omega⟩
    rfl
  | cons l lines ih =>
    rw [List.length_cons] at hn
    obtain ⟨n, rfl⟩ : ∃ k, n = k + 1 := ⟨n - 1, by omega⟩
    obtain ⟨⟨hne, hnewline⟩, hrest⟩ := List.forall_mem_cons.mp hlines
    have hcr : 10#8 ∉ l ++ [13#8] := by simp [hnewline]
    -- The line ends at its own newline.
    have hline (s : List Byte) : line 10#8 (l ++ ascii "\r\n" ++ s) = l ++ ascii "\r\n" := by
      have hend : l ++ ascii "\r\n" ++ s = (l ++ [13#8]) ++ 10#8 :: s := by simp [ascii]
      rw [hend, line_append hcr, line, if_pos rfl]
      simp [ascii]
    have hempty : l ++ ascii "\r\n" ≠ ascii "\r\n" := fun h => hne (List.append_left_eq_self.mp h)
    rw [List.flatMap_cons, List.append_assoc, readHead, hline, if_neg hempty, List.drop_left,
      ih hrest (by omega)]
    simp [ascii]

theorem field_append (name : String) (l m : List (List Byte)) :
    field name (l ++ m) = (field name l).or (field name m) := by
  rw [field, List.find?_append, field, field]
  cases l.find? ((ascii name).isPrefixOf ·) <;> rfl

theorem field_self (name : String) (value : List Byte) :
    field name [ascii name ++ value] = some value := by
  have hprefix : (ascii name).isPrefixOf (ascii name ++ value) = true :=
    List.isPrefixOf_iff_prefix.mpr (List.prefix_append _ _)
  rw [field, List.find?_cons_of_pos hprefix, Option.map_some, List.drop_left]

theorem field_of_not (name : String) {l : List Byte} (h : (ascii name).isPrefixOf l = false) :
    field name [l] = none := by
  rw [field, List.find?_cons_of_neg (by simp [h])]
  rfl

/-! ### What the server writes -/

/-- The first line. -/
def statusLine (h : Headers) : List Byte :=
  PROTOCOL ++ (32#8 :: (int h.status).print .decimal) ++ 32#8 :: ascii h.title

/-- The lines of `sendHeaders` behind the first, without their ends. -/
def fieldLines (clock : Clock) (h : Headers) : List (List Byte) :=
  [ascii "Server: " ++ SERVER] ++ [ascii "Date: " ++ clock.strftime RFC1123FMT clock.now] ++
  h.extra.toList ++ (h.mime.map fun mime => ascii "Content-Type: " ++ ascii mime).toList ++
  (if 0 ≤ (BitVec.ofInt 32 h.length).toInt then
    [ascii "Content-Length: " ++ (int h.length).print .decimal] else []) ++
  (if h.date ≠ -1 then [ascii "Last-Modified: " ++ clock.strftime RFC1123FMT h.date] else []) ++
  [ascii "Connection: close"]

/-- A value behind the name of its field. -/
theorem printf_field {fmt name : String} {d : Directive} (v : Value) (hd : ∀ b, d ≠ .plain b)
    (hfmt : format fmt.toList = (ascii name).map .plain ++ [d, .plain 13#8, .plain 10#8]) :
    printf fmt [v] = ascii name ++ v.print d ++ ascii "\r\n" := by
  rw [printf, hfmt, print_plain, print_value d _ v [] hd, List.append_assoc]
  rfl

theorem printf_word {fmt name : String} (s : List Byte)
    (hfmt : format fmt.toList = (ascii name).map .plain ++ [.word, .plain 13#8, .plain 10#8]) :
    printf fmt [.word s] = ascii name ++ s ++ ascii "\r\n" :=
  printf_field (.word s) (fun _ => Directive.noConfusion) hfmt

theorem printf_status (s t : List Byte) (n : ℤ) :
    printf "%s %d %s\r\n" [.word s, int n, .word t] =
      s ++ (32#8 :: (int n).print .decimal) ++ 32#8 :: t ++ ascii "\r\n" := by
  have hfmt : format "%s %d %s\r\n".toList =
      [.word, .plain 32#8, .decimal, .plain 32#8, .word, .plain 13#8, .plain 10#8] := by decide
  rw [printf, hfmt]
  simp only [print, List.append_assoc, List.cons_append]
  rfl

theorem sendHeaders_eq (clock : Clock) (h : Headers) :
    sendHeaders clock h =
      (statusLine h :: fieldLines clock h).flatMap (· ++ ascii "\r\n") ++ ascii "\r\n" := by
  have hclose : ascii "Connection: close\r\n" = ascii "Connection: close" ++ ascii "\r\n" := rfl
  have hserver : printf "Server: %s\r\n" [.word SERVER] =
      ascii "Server: " ++ SERVER ++ ascii "\r\n" := printf_word SERVER (by decide)
  have hdate (s : List Byte) : printf "Date: %s\r\n" [.word s] =
      ascii "Date: " ++ s ++ ascii "\r\n" := printf_word s (by decide)
  have hlength : printf "Content-Length: %d\r\n" [int h.length] =
      ascii "Content-Length: " ++ (int h.length).print .decimal ++ ascii "\r\n" :=
    printf_field (int h.length) (fun _ => Directive.noConfusion) (by decide)
  have hmodified (s : List Byte) : printf "Last-Modified: %s\r\n" [.word s] =
      ascii "Last-Modified: " ++ s ++ ascii "\r\n" := printf_word s (by decide)
  have hextra : h.extra.elim [] (fun extra => printf "%s\r\n" [.word extra]) =
      h.extra.toList.flatMap (· ++ ascii "\r\n") := by
    cases h.extra with
    | none => rfl
    | some extra =>
      rw [Option.elim_some, Option.toList_some, List.flatMap_singleton]
      exact @printf_word "%s\r\n" "" extra (by decide)
  have hmime : h.mime.elim [] (fun mime => printf "Content-Type: %s\r\n" [.word (ascii mime)]) =
      (h.mime.map fun mime => ascii "Content-Type: " ++ ascii mime).toList.flatMap
        (· ++ ascii "\r\n") := by
    cases h.mime with
    | none => rfl
    | some mime =>
      rw [Option.elim_some, Option.map_some, Option.toList_some, List.flatMap_singleton]
      exact printf_word (ascii mime) (by decide)
  have hoptional (p : Prop) [Decidable p] (l : List Byte) :
      (if p then l ++ ascii "\r\n" else []) =
        (if p then [l] else []).flatMap (· ++ ascii "\r\n") := by
    split_ifs
    · rw [List.flatMap_singleton]
    · rfl
  rw [sendHeaders, printf_status, hserver, hdate, hextra, hmime, hlength, hmodified, hclose,
    hoptional, hoptional, fieldLines, statusLine]
  simp only [List.flatMap_cons, List.flatMap_append, List.flatMap_nil, List.append_nil,
    List.append_assoc]

/-- The five lines that a reply can begin with. -/
inductive StatusText : ℕ → String → Prop
  | ok : StatusText 200 "OK"
  | found : StatusText 302 "Found"
  | forbidden : StatusText 403 "Forbidden"
  | notFound : StatusText 404 "Not Found"
  | notSupported : StatusText 501 "Not supported"

/-- What the headers of a reply are. -/
structure Headers.Sent (h : Headers) : Prop where
  status : StatusText h.status h.title
  extra : ∀ extra, h.extra = some extra →
    ∃ location, extra = ascii "Location: " ++ location ∧ 10#8 ∉ location
  mime : ∀ mime, h.mime = some mime → 10#8 ∉ ascii mime

theorem getMimeType_sent (name : List Byte) :
    ∀ mime, getMimeType name = some mime → 10#8 ∉ ascii mime := by
  have hbranch {p : Prop} [Decidable p] {m : String} {o : Option String} (hm : 10#8 ∉ ascii m)
      (ho : ∀ mime, o = some mime → 10#8 ∉ ascii mime) :
      ∀ mime, (if p then some m else o) = some mime → 10#8 ∉ ascii mime := by
    intro mime h
    by_cases hp : p
    · rw [if_pos hp, Option.some_inj] at h
      exact h ▸ hm
    · rw [if_neg hp] at h
      exact ho mime h
  have hnone (mime : String) (h : none = some mime) : 10#8 ∉ ascii mime :=
    absurd h.symm (Option.some_ne_none mime)
  unfold getMimeType
  cases strrchr 46#8 name with
  | none => exact hnone
  | some ext =>
    -- The ten kinds of file.
    iterate 10 refine hbranch (by decide) ?_
    exact hnone

theorem StatusText.scanned {status : ℕ} {title : String} (h : StatusText status title) :
    (sscanf (PROTOCOL ++ (32#8 :: (int status).print .decimal) ++ 32#8 :: ascii title)
      "HTTP/1.0 %d").2 = [.int (BitVec.ofNat 32 status)] ∧
    10#8 ∉ PROTOCOL ++ (32#8 :: (int status).print .decimal) ++ 32#8 :: ascii title := by
  cases h <;> decide +kernel

theorem no_extra (e : List Byte) (h : none = some e) :
    ∃ location, e = ascii "Location: " ++ location ∧ 10#8 ∉ location :=
  absurd h.symm (Option.some_ne_none e)

theorem sendError_sent {status : ℕ} {title : String} (hstatus : StatusText status title)
    {extra : Option (List Byte)} (hextra : ∀ e, extra = some e →
      ∃ location, e = ascii "Location: " ++ location ∧ 10#8 ∉ location) (text : String) :
    (sendError status title extra text).headers.Sent := by
  refine ⟨hstatus, hextra, ?_⟩
  rintro mime ⟨⟩
  decide

theorem sendFile_sent (disk : Files) (path : List Byte) (statbuf : Stat) :
    (sendFile disk path statbuf).headers.Sent := by
  unfold sendFile
  cases disk.fopen path with
  | none => exact sendError_sent .forbidden no_extra _
  | some data => exact ⟨.ok, no_extra, getMimeType_sent path⟩

/-- What `answer` can give. -/
inductive Answers (disk : Files) (path : List Byte) : Reply → Prop
  | notSupported : Answers disk path
      (sendError 501 "Not supported" none "Method is not supported.")
  | notFound : Answers disk path (sendError 404 "Not Found" none "File not found.")
  | found : Answers disk path
      (sendError 302 "Found" (some (location path)) "Directories must end with a slash.")
  | file (name : List Byte) (statbuf : Stat) (hstat : disk.stat name = some statbuf) :
      Answers disk path (sendFile disk name statbuf)
  | listing (up : Bool) (rows : List Row) (date : ℤ) : Answers disk path
      ⟨⟨200, "OK", none, some "text/html", -1, date⟩, .index path up rows⟩

theorem answers_of_answer {disk : Files} {cwd path : List Byte} {isGet : Bool} {reply : Reply}
    (h : answer disk cwd isGet path = .ok reply) : Answers disk path reply := by
  unfold answer at h
  by_cases hget : (!isGet) = true
  · rw [if_pos hget] at h
    cases h
    exact .notSupported
  rw [if_neg hget] at h
  cases hstat : disk.stat path with
  | none =>
    rw [hstat] at h
    cases h
    exact .notFound
  | some statbuf =>
    rw [hstat] at h
    dsimp only at h
    by_cases hdir : statbuf.mode = .directory
    · rw [if_pos hdir] at h
      by_cases hslash : path.getLast? ≠ some 47#8
      · rw [if_pos hslash] at h
        cases h
        exact .found
      · rw [if_neg hslash] at h
        cases hindex : disk.stat (indexPath cwd path) with
        | some statbuf' =>
          rw [hindex] at h
          cases h
          exact .file _ _ hindex
        | none =>
          rw [hindex] at h
          obtain ⟨rows, rfl⟩ := index_eq_ok h
          exact .listing _ _ _
    · rw [if_neg hdir] at h
      cases h
      exact .file _ _ hstat

theorem Answers.sent {disk : Files} {path : List Byte} {reply : Reply}
    (h : Answers disk path reply) (hpath : 10#8 ∉ path) : reply.headers.Sent := by
  cases h with
  | notSupported => exact sendError_sent .notSupported no_extra _
  | notFound => exact sendError_sent .notFound no_extra _
  | found =>
    apply sendError_sent .found
    rintro e ⟨⟩
    refine ⟨_, location_eq path, fun hmem => ?_⟩
    have hmem := List.mem_of_mem_take hmem
    rw [List.mem_append] at hmem
    rcases hmem with hmem | hmem
    · exact hpath hmem
    · exact absurd hmem (by decide)
  | file name statbuf _ => exact sendFile_sent disk name statbuf
  | listing up rows date =>
    refine ⟨.ok, no_extra, ?_⟩
    rintro mime ⟨⟩
    decide

/-- A file is sent under the name that `stat` was called with. -/
theorem Answers.of_file {disk : Files} {path name data : List Byte} {reply : Reply}
    (h : Answers disk path reply) (hbody : reply.body = .file name data) :
    ∃ statbuf, disk.stat name = some statbuf ∧ reply = ⟨⟨200, "OK", none, getMimeType name,
      if statbuf.mode = .regular then statbuf.st_size else -1, statbuf.st_mtime⟩,
      .file name data⟩ := by
  cases h with
  | file name' statbuf hstat =>
    unfold sendFile at hbody ⊢
    cases hopen : disk.fopen name' with
    | none =>
      rw [hopen] at hbody
      cases hbody
    | some bytes =>
      rw [hopen] at hbody
      cases hbody
      exact ⟨statbuf, hstat, rfl⟩
  | _ => cases hbody

theorem process_sent {disk : Files} {cwd stream path : List Byte} {reply : Reply}
    (hcwd : 10#8 ∉ cwd) (h : process disk cwd stream = .replied path reply) :
    reply.headers.Sent := by
  obtain ⟨r, hr, hpath, hanswer⟩ := process_eq_replied_iff.mp h
  rw [resolved, hr, Option.bind_some, sprintf_eq_some_iff] at hpath
  obtain ⟨-, -, hnewline, -⟩ := request_path hr
  apply (answers_of_answer hanswer).sent
  rw [← hpath.2, List.mem_append]
  exact not_or.mpr ⟨hcwd, hnewline⟩

/-! ### What is read is what was written -/

section
variable {clock : Clock} {h : Headers}

theorem newline_notMem_decimal (n : ℤ) : 10#8 ∉ (int n).print .decimal := by
  obtain ⟨b, s, hprint, hle, -⟩ := print_decimal (BitVec.ofInt 32 n)
  rw [int, hprint]
  intro hmem
  exact absurd (hle _ hmem) (by decide)

theorem named_line {name : String} (hname : ascii name ≠ [] ∧ 10#8 ∉ ascii name) {v : List Byte}
    (hv : 10#8 ∉ v) : ascii name ++ v ≠ [] ∧ 10#8 ∉ ascii name ++ v := by
  refine ⟨fun hnil => hname.1 (List.append_eq_nil_iff.mp hnil).1, ?_⟩
  rw [List.mem_append]
  exact not_or.mpr ⟨hname.2, hv⟩

theorem fieldLines_clean (hclock : ∀ fmt t, 10#8 ∉ clock.strftime fmt t) (hsent : h.Sent) :
    ∀ l ∈ fieldLines clock h, l ≠ [] ∧ 10#8 ∉ l := by
  intro l hl
  simp only [fieldLines, List.mem_append, List.mem_singleton, Option.mem_toList,
    Option.map_eq_some_iff] at hl
  rcases hl with (((((rfl | rfl) | hextra) | ⟨mime, hmime, rfl⟩) | hlength) | hdate) | rfl
  · exact named_line (by decide) (by decide)
  · exact named_line (by decide) (hclock _ _)
  · obtain ⟨location, rfl, hlocation⟩ := hsent.extra l hextra
    exact named_line (by decide) hlocation
  · exact named_line (by decide) (hsent.mime mime hmime)
  · split_ifs at hlength
    · rw [List.mem_singleton.mp hlength]
      exact named_line (by decide) (newline_notMem_decimal _)
    · exact absurd hlength List.not_mem_nil
  · split_ifs at hdate
    · rw [List.mem_singleton.mp hdate]
      exact named_line (by decide) (hclock _ _)
    · exact absurd hdate List.not_mem_nil
  · decide

theorem readHead_bytes (hclock : ∀ fmt t, 10#8 ∉ clock.strftime fmt t) {reply : Reply}
    (hsent : reply.headers.Sent) :
    readHead (reply.bytes clock).length (reply.bytes clock) =
      some (statusLine reply.headers :: fieldLines clock reply.headers, reply.text clock) := by
  have hlines : ∀ l ∈ statusLine reply.headers :: fieldLines clock reply.headers,
      l ≠ [] ∧ 10#8 ∉ l := by
    refine List.forall_mem_cons.mpr ⟨⟨?_, ?_⟩, fieldLines_clean hclock hsent⟩
    · simp [statusLine]
    · exact hsent.status.scanned.2
  have hlong (lines : List (List Byte)) :
      lines.length ≤ (lines.flatMap (· ++ ascii "\r\n")).length := by
    induction lines with
    | nil => exact le_rfl
    | cons l lines ih =>
      have hend : (ascii "\r\n").length = 2 := rfl
      rw [List.flatMap_cons, List.length_append, List.length_append, List.length_cons]
      omega
  rw [Reply.bytes, sendHeaders_eq, List.append_assoc]
  apply readHead_append hlines
  have hlen := hlong (statusLine reply.headers :: fieldLines clock reply.headers)
  have hend : (ascii "\r\n").length = 2 := rfl
  rw [List.length_append, List.length_append]
  omega

/-- The field `other` is not the one called `name`. -/
def Differs (name other : String) : Prop :=
  ∀ v, (ascii name).isPrefixOf (ascii other ++ v) = false

theorem field_other {name other : String} (hother : Differs name other) (v : List Byte) :
    field name [ascii other ++ v] = none :=
  field_of_not name (hother v)

theorem field_optional (name : String) (p : Prop) [Decidable p] (l : List Byte) :
    field name (if p then [l] else []) = if p then field name [l] else none := by
  split_ifs <;> rfl

theorem field_option (name : String) (o : Option (List Byte)) :
    field name o.toList = o.bind fun l => field name [l] := by
  cases o <;> rfl

/-- The fields that are in every reply, or tell of the file's date, have other names. -/
theorem field_fieldLines {name : String} (hserver : Differs name "Server: ")
    (hdate : Differs name "Date: ") (hmodified : Differs name "Last-Modified: ")
    (hclose : Differs name "Connection: close") (clock : Clock) (h : Headers) :
    field name (fieldLines clock h) =
      ((h.extra.bind fun extra => field name [extra]).or
        (h.mime.bind fun mime => field name [ascii "Content-Type: " ++ ascii mime])).or
        (if 0 ≤ (BitVec.ofInt 32 h.length).toInt then
          field name [ascii "Content-Length: " ++ (int h.length).print .decimal] else none) := by
  have hlast : field name [ascii "Connection: close"] = none := by
    have hnone := field_other hclose []
    rwa [List.append_nil] at hnone
  simp only [fieldLines, field_append, field_optional, field_option, hlast,
    field_other hserver, field_other hdate, field_other hmodified, ite_self, Option.none_or,
    Option.or_none, Option.bind_map]
  rfl

theorem extra_other {name : String} (hlocation : Differs name "Location: ") (hsent : h.Sent) :
    (h.extra.bind fun extra => field name [extra]) = none := by
  rw [Option.bind_eq_none_iff]
  intro extra hextra
  obtain ⟨location, rfl, -⟩ := hsent.extra extra hextra
  exact field_other hlocation location

theorem field_location (clock : Clock) (reply : Reply) (hsent : reply.headers.Sent) :
    field "Location: " (fieldLines clock reply.headers) = reply.redirect := by
  have hmime : Differs "Location: " "Content-Type: " := fun _ => rfl
  have hlength : Differs "Location: " "Content-Length: " := fun _ => rfl
  rw [field_fieldLines (fun _ => rfl) (fun _ => rfl) (fun _ => rfl) (fun _ => rfl), Reply.redirect]
  simp only [field_other hmime, field_other hlength, ite_self, Option.or_none,
    Option.bind_fun_none]
  apply Option.bind_congr
  intro extra hextra
  obtain ⟨location, rfl, -⟩ := hsent.extra extra hextra
  have hprefix : (ascii "Location: ").isPrefixOf (ascii "Location: " ++ location) = true :=
    List.isPrefixOf_iff_prefix.mpr (List.prefix_append _ _)
  rw [field_self, if_pos hprefix, List.drop_left]

theorem field_mime (clock : Clock) (hsent : h.Sent) :
    field "Content-Type: " (fieldLines clock h) = h.mime.map ascii := by
  have hlength : Differs "Content-Type: " "Content-Length: " := fun _ => rfl
  rw [field_fieldLines (fun _ => rfl) (fun _ => rfl) (fun _ => rfl) (fun _ => rfl),
    extra_other (fun _ => rfl) hsent]
  simp only [field_other hlength, field_self, ite_self, Option.or_none, Option.none_or]
  exact Option.map_eq_bind.symm

theorem field_length (clock : Clock) (hsent : h.Sent) :
    field "Content-Length: " (fieldLines clock h) =
      if 0 ≤ (BitVec.ofInt 32 h.length).toInt then some ((int h.length).print .decimal)
      else none := by
  have hmime : Differs "Content-Length: " "Content-Type: " := fun _ => rfl
  rw [field_fieldLines (fun _ => rfl) (fun _ => rfl) (fun _ => rfl) (fun _ => rfl),
    extra_other (fun _ => rfl) hsent]
  simp only [field_other hmime, field_self, Option.bind_fun_none, Option.none_or]

theorem receive_bytes (hclock : ∀ fmt t, 10#8 ∉ clock.strftime fmt t) {reply : Reply}
    (hsent : reply.headers.Sent) :
    receive (reply.bytes clock) = some {
      status := BitVec.ofNat 32 reply.headers.status
      location := reply.redirect
      mime := reply.headers.mime.map ascii
      length := if 0 ≤ (BitVec.ofInt 32 reply.headers.length).toInt then
        some (BitVec.ofInt 32 reply.headers.length) else none
      content := reply.text clock } := by
  have hstatus : (sscanf (statusLine reply.headers) "HTTP/1.0 %d").2 =
      [.int (BitVec.ofNat 32 reply.headers.status)] := hsent.status.scanned.1
  have hlength : (field "Content-Length: " (fieldLines clock reply.headers)).map atoi =
      if 0 ≤ (BitVec.ofInt 32 reply.headers.length).toInt then
        some (BitVec.ofInt 32 reply.headers.length) else none := by
    rw [field_length clock hsent]
    split_ifs
    · rw [Option.map_some, int, atoi_print]
    · rfl
  rw [receive, readHead_bytes hclock hsent]
  dsimp only
  rw [hstatus]
  dsimp only
  rw [field_location clock reply hsent, field_mime clock hsent, hlength]

end

/-- Whatever the client sent and the server's disk holds, nothing of it adds a line to the headers
or ends them early; the client reads the status, the redirection and the kind of file of the reply,
and behind the headers its text. A regular file comes with its length, whole. -/
theorem reply_received (disk : Files) (cwd stream path : List Byte) (reply : Reply) (clock : Clock)
    (hclock : ∀ fmt t, 10#8 ∉ clock.strftime fmt t) (hcwd : 10#8 ∉ cwd)
    (h : process disk cwd stream = .replied path reply) :
    readHead (reply.bytes clock).length (reply.bytes clock) =
      some (statusLine reply.headers :: fieldLines clock reply.headers, reply.text clock) ∧
    (∃ length, receive (reply.bytes clock) = some ⟨BitVec.ofNat 32 reply.headers.status,
      reply.redirect, reply.headers.mime.map ascii, length, reply.text clock⟩) ∧
    ∀ name data st_mtime, reply.body = .file name data →
      disk.stat name = some ⟨.regular, data.length, st_mtime⟩ → data.length < 2^31 →
      receive (reply.bytes clock) = some ⟨200, none, (getMimeType name).map ascii,
        some (BitVec.ofNat 32 data.length), data⟩ := by
  have hsent := process_sent hcwd h
  have hreceive := receive_bytes hclock hsent
  refine ⟨readHead_bytes hclock hsent, ⟨_, hreceive⟩, ?_⟩
  intro name data st_mtime hbody hstat hshort
  obtain ⟨r, -, -, hanswer⟩ := process_eq_replied_iff.mp h
  obtain ⟨statbuf, hstat', hreply⟩ := (answers_of_answer hanswer).of_file hbody
  obtain rfl := Option.some_inj.mp (hstat.symm.trans hstat')
  have hlength : (BitVec.ofInt 32 (data.length : ℤ)).toInt = data.length := by
    rw [BitVec.toInt_ofInt, Int.bmod_eq_of_le (by omega) (by omega)]
  have hpos : 0 ≤ (BitVec.ofInt 32 (data.length : ℤ)).toInt := by
    rw [hlength]
    exact Int.natCast_nonneg _
  rw [hreceive, hreply]
  dsimp only
  rw [if_pos rfl, if_pos hpos, BitVec.ofInt_natCast]
  rfl

/-- 1 January 1970, at any time. -/
def epoch : Clock := ⟨0, fun _ _ => ascii "Thu, 01 Jan 1970 00:00:00 GMT"⟩

theorem reply_received_docs : ∃ path reply,
    process site [] (get (ascii "/srv/docs/index.html")) = .replied path reply ∧
      receive (reply.bytes epoch) =
        some ⟨200, none, some (ascii "text/html"), some 5, ascii "hello"⟩ := by
  have hclock : 10#8 ∉ ascii "Thu, 01 Jan 1970 00:00:00 GMT" := by decide
  have hreply : process site [] (get (ascii "/srv/docs/index.html")) =
      .replied (ascii "/srv/docs/index.html")
        ⟨⟨200, "OK", none, some "text/html", 5, 0⟩,
          .file (ascii "/srv/docs/index.html") (ascii "hello")⟩ := rfl
  obtain ⟨-, -, hfile⟩ := reply_received site [] (get (ascii "/srv/docs/index.html")) _ _ epoch
    (fun _ _ => hclock) List.not_mem_nil hreply
  exact ⟨_, _, hreply, hfile _ _ _ rfl rfl (by decide)⟩

end OperatingSystems.Web
