import OperatingSystems.Formats
import OperatingSystems.WebProcess

/-! The query of `client.c`, and what the server takes it for. -/
namespace OperatingSystems.Web
open CStrings Formats

def PAGE : List Byte := ascii "/index.html"

def USERAGENT : List Byte := ascii "HTMLGET 1.0"

def tpl : String := "GET /%s HTTP/1.0\r\nHost: %s\r\nUser-Agent: %s\r\n\r\n"

/-- The page without a slash in front. -/
def getpage (page : List Byte) : List Byte := if page.head? = some 47#8 then page.tail else page

/-- `none` when the text does not fit what was allocated. -/
def buildGetQuery (host page : List Byte) : Option (List Byte) :=
  let query :=
    host.length + (getpage page).length + USERAGENT.length + (ascii tpl).length - 5
  sprintf query (printf tpl [.word (getpage page), .word host, .word USERAGENT])

variable {host page : List Byte}

/-- Where the three words stand. -/
theorem printf_tpl (page host agent : List Byte) :
    printf tpl [.word page, .word host, .word agent] = ascii "GET " ++ (47#8 :: page ++
      32#8 :: (ascii "HTTP/1.0\r\nHost: " ++ host ++ ascii "\r\nUser-Agent: " ++ agent ++
        ascii "\r\n\r\n")) := by
  simp [printf, tpl, format, print, Value.print, ascii]

theorem buildGetQuery_eq (host page : List Byte) : ∃ query, buildGetQuery host page = some query ∧
    query.length + 1 =
      host.length + (getpage page).length + USERAGENT.length + (ascii tpl).length - 5 ∧
    query = ascii "GET " ++ (47#8 :: getpage page ++
      32#8 :: (ascii "HTTP/1.0\r\nHost: " ++ host ++ ascii "\r\nUser-Agent: " ++ USERAGENT ++
        ascii "\r\n\r\n")) := by
  refine ⟨_, sprintf_eq_some_iff.mpr ⟨?_, rfl⟩, ?_, printf_tpl _ _ _⟩
  · rw [printf_tpl]
    simp [ascii, tpl, USERAGENT]
    omega
  · rw [printf_tpl]
    simp [ascii, tpl, USERAGENT]
    omega

theorem mem_getpage {b : Byte} (hb : b ≠ 47#8) : b ∈ getpage page ↔ b ∈ page := by
  rw [getpage]
  split_ifs with hslash
  · obtain ⟨rest, rfl⟩ := List.head?_eq_some_iff.mp hslash
    rw [List.tail_cons, List.mem_cons]
    exact ⟨Or.inr, fun h => h.resolve_left hb⟩
  · exact Iff.rfl

/-- A path that was read leaves room for the method, the blanks and one more byte. -/
theorem request_length {stream path protocol : List Byte}
    (h : request stream = some ⟨ascii "GET", path, protocol⟩) : path.length ≤ 4089 := by
  obtain ⟨buf, hbuf, hwords⟩ := request_iff.mp ⟨protocol, h⟩
  have hlen := hwords.length_le
  have hfgets := length_fgets hbuf
  have hget : (ascii "GET").length = 3 := rfl
  omega

/-- The client's query fills what it allocates to the last byte; and the server reads the page from
it that the client was asked for exactly if no blank or newline is in it and it has at most 4088
bytes. Then the server does what it does on the bare request. -/
theorem query_served_iff (host page : List Byte) (hhost : 0 ∉ host) (hpage : 0 ∉ page) :
    ∃ query, buildGetQuery host page = some query ∧
      query.length + 1 =
        host.length + (getpage page).length + USERAGENT.length + (ascii tpl).length - 5 ∧
      ((∃ protocol, request query = some ⟨ascii "GET", 47#8 :: getpage page, protocol⟩) ↔
        32#8 ∉ page ∧ 10#8 ∉ page ∧ (getpage page).length ≤ 4088) ∧
      (32#8 ∉ page → 10#8 ∉ page → (getpage page).length ≤ 4088 → ∀ disk cwd,
        process disk cwd query = process disk cwd (get (47#8 :: getpage page))) := by
  obtain ⟨query, hquery, hlen, hshape⟩ := buildGetQuery_eq host page
  have hserved (hblank : 32#8 ∉ page) (hnewline : 10#8 ∉ page)
      (hshort : (getpage page).length ≤ 4088) :
      (∃ protocol, request query = some ⟨ascii "GET", 47#8 :: getpage page, protocol⟩) ∧
        ∃ protocol, request (get (47#8 :: getpage page)) =
          some ⟨ascii "GET", 47#8 :: getpage page, protocol⟩ := by
    have hne : 47#8 :: getpage page ≠ [] := List.cons_ne_nil _ _
    have hword {b : Byte} (hb : b ≠ 47#8) (h : b ∉ page) : b ∉ 47#8 :: getpage page := by
      rw [List.mem_cons, mem_getpage hb, not_or]
      exact ⟨hb, h⟩
    have hlen : (47#8 :: getpage page).length ≤ 4089 := by
      rw [List.length_cons]
      omega
    have hblank' := hword (by decide) hblank
    have hnewline' := hword (by decide) hnewline
    have hzero' := hword (by decide) hpage
    refine ⟨?_, request_get_word hne hblank' hnewline' hzero' hlen⟩
    rw [hshape]
    apply request_get 0 hne hblank' hnewline' (by simpa using hzero') (b := 72#8)
    · simp only [List.mem_append, not_or]
      exact ⟨⟨⟨⟨by decide, hhost⟩, by decide⟩, by decide⟩, by decide⟩
    · obtain ⟨n, hn⟩ : ∃ n, 4090 - (0 + (47#8 :: getpage page).length) = n + 1 :=
        ⟨4089 - (47#8 :: getpage page).length, by omega⟩
      rw [hn]
      exact List.mem_cons_self
    · decide
  refine ⟨query, hquery, hlen, ⟨?_, ?_⟩, ?_⟩
  · rintro ⟨protocol, hr⟩
    obtain ⟨-, hblank, hnewline, -⟩ := request_path hr
    have hshort := request_length hr
    rw [List.mem_cons, not_or, mem_getpage (by decide)] at hblank hnewline
    rw [List.length_cons] at hshort
    exact ⟨hblank.2, hnewline.2, by omega⟩
  · rintro ⟨hblank, hnewline, hshort⟩
    exact (hserved hblank hnewline hshort).1
  · intro hblank hnewline hshort disk cwd
    obtain ⟨⟨protocol, hr⟩, ⟨protocol', hr'⟩⟩ := hserved hblank hnewline hshort
    rw [process, process, hr, hr']
    rfl

/-- The default page. -/
theorem query_served_iff_PAGE : ∃ query protocol,
    buildGetQuery (ascii "localhost") PAGE = some query ∧
      request query = some ⟨ascii "GET", ascii "/index.html", protocol⟩ := by
  obtain ⟨query, hquery, -, hiff, -⟩ :=
    query_served_iff (ascii "localhost") PAGE (by decide) (by decide)
  obtain ⟨protocol, hr⟩ := hiff.mpr ⟨by decide, by decide, by decide⟩
  exact ⟨query, protocol, hquery, hr⟩

end OperatingSystems.Web
