import OperatingSystems.VMInput
import OperatingSystems.VMStats

/-! `input_gen.c`, and the simulator on a file that it has written. `rand` is the sequence of the
numbers that the library function returns. -/
namespace OperatingSystems.InputGen
open CStrings Formats VM

/-- A request as it is drawn; a R has no byte. -/
structure Drawn where
  pid : ℤ
  page : ℤ
  offset : ℤ
  byte : Option ℕ

def Drawn.addr (d : Drawn) : ℤ := d.page * 256 + d.offset

/-- The draws of one round of the loop, from the `k`-th number on, and how many they were. -/
def draw (MAX_VPN NUM_PROC : ℤ) (rand : ℕ → ℕ) (k : ℕ) : Drawn × ℕ :=
  let pid := (rand k : ℤ).tmod NUM_PROC
  let page := (rand (k + 1) : ℤ).tmod MAX_VPN
  let offset := rand (k + 2) % 0xFF
  if rand (k + 3) % 10 < 5 then (⟨pid, page, offset, none⟩, 4)
  else if rand (k + 4) % 2 = 0 then (⟨pid, page, offset, some (rand (k + 5) % 26 + 65)⟩, 6)
  else (⟨pid, page, offset, some (rand (k + 5) % 26 + 97)⟩, 6)

/-- The requests of a file, one after the other. -/
def drawAll (MAX_VPN NUM_PROC : ℤ) (rand : ℕ → ℕ) : ℕ → ℕ → List Drawn
  | 0, _ => []
  | n + 1, k =>
    let (d, used) := draw MAX_VPN NUM_PROC rand k
    d :: drawAll MAX_VPN NUM_PROC rand n (k + used)

def Drawn.print (d : Drawn) : List Byte :=
  match d.byte with
  | none => printf "%d %c 0x%04x\n" [.int (BitVec.ofInt 32 d.pid), .char 82#8,
      .int (BitVec.ofInt 32 d.addr)]
  | some byte => printf "%d %c 0x%04x %c\n" [.int (BitVec.ofInt 32 d.pid), .char 87#8,
      .int (BitVec.ofInt 32 d.addr), .char (BitVec.ofNat 8 byte)]

/-- What is written for three numbers; `none` where a remainder by 0 is taken. -/
def generate (rand : ℕ → ℕ) (MAX_VPN NUM_PROC req_num : BitVec 32) : Option (List Byte) :=
  if 0 < req_num.toInt ∧ (MAX_VPN = 0 ∨ NUM_PROC = 0) then none
  else some (printf "# PAGES: %d, # PROCS: %d\n" [.int MAX_VPN, .int NUM_PROC] ++
    (drawAll MAX_VPN.toInt NUM_PROC.toInt rand req_num.toInt.toNat 0).flatMap Drawn.print)

def main (rand : ℕ → ℕ) : List (List Byte) → Option (List Byte)
  | _ :: pages :: procs :: requests :: _ => generate rand (atoi pages) (atoi procs) (atoi requests)
  | _ => some (ascii "usage: ./input_gen [# PAGES] [# PROCS] [# requests] \n")

/-- The request that the simulator makes of a line; for a R it does not look at the byte. -/
def Drawn.request (d : Drawn) : Request :=
  match d.byte with
  | none => ⟨3, d.pid, 'R', d.addr, 'A'⟩
  | some byte => ⟨4, d.pid, 'W', d.addr, toChar (BitVec.ofNat 8 byte)⟩

/-- What `draw` gives for numbers of pages and processes in the range of the simulator. -/
structure Drawn.Valid (MAX_VPN NUM_PROC : ℤ) (d : Drawn) : Prop where
  pid : 0 ≤ d.pid ∧ d.pid < NUM_PROC
  page : 0 ≤ d.page ∧ d.page < MAX_VPN
  offset : 0 ≤ d.offset ∧ d.offset < 255
  byte : ∀ b ∈ d.byte, 65 ≤ b ∧ b ≤ 122

theorem draw_valid {MAX_VPN NUM_PROC : ℤ} (hpages : 1 ≤ MAX_VPN) (hprocs : 1 ≤ NUM_PROC)
    (rand : ℕ → ℕ) (k : ℕ) : (draw MAX_VPN NUM_PROC rand k).1.Valid MAX_VPN NUM_PROC := by
  have hpid := Int.emod_nonneg (rand k : ℤ) (show NUM_PROC ≠ 0 by omega)
  have hpid' := Int.emod_lt_of_pos (rand k : ℤ) (show 0 < NUM_PROC by omega)
  have hpage := Int.emod_nonneg (rand (k + 1) : ℤ) (show MAX_VPN ≠ 0 by omega)
  have hpage' := Int.emod_lt_of_pos (rand (k + 1) : ℤ) (show 0 < MAX_VPN by omega)
  rw [← Int.tmod_eq_emod_of_nonneg (Int.natCast_nonneg _)] at hpid hpid' hpage hpage'
  unfold draw
  split_ifs
  · exact ⟨⟨hpid, hpid'⟩, ⟨hpage, hpage'⟩, by dsimp only; omega, by simp⟩
  · refine ⟨⟨hpid, hpid'⟩, ⟨hpage, hpage'⟩, by dsimp only; omega, ?_⟩
    intro b hb
    rw [← Option.some.inj hb]
    omega
  · refine ⟨⟨hpid, hpid'⟩, ⟨hpage, hpage'⟩, by dsimp only; omega, ?_⟩
    intro b hb
    rw [← Option.some.inj hb]
    omega

theorem drawAll_valid {MAX_VPN NUM_PROC : ℤ} (hpages : 1 ≤ MAX_VPN) (hprocs : 1 ≤ NUM_PROC)
    (rand : ℕ → ℕ) (n k : ℕ) : ∀ d ∈ drawAll MAX_VPN NUM_PROC rand n k,
      d.Valid MAX_VPN NUM_PROC := by
  induction n generalizing k with
  | zero => simp [drawAll]
  | succ n ih =>
    intro d hd
    rcases List.mem_cons.mp hd with rfl | hd
    · exact draw_valid hpages hprocs rand k
    · exact ih _ d hd

theorem length_drawAll (MAX_VPN NUM_PROC : ℤ) (rand : ℕ → ℕ) (n k : ℕ) :
    (drawAll MAX_VPN NUM_PROC rand n k).length = n := by
  induction n generalizing k with
  | zero => rfl
  | succ n ih => rw [drawAll, List.length_cons, ih]

/-! ### A printed line is read as the request that was drawn -/

variable {MAX_VPN NUM_PROC : ℤ} {d : Drawn}

theorem toInt_ofInt {n : ℤ} (h0 : 0 ≤ n) (h1 : n < 2^31) : (BitVec.ofInt 32 n).toInt = n := by
  rw [BitVec.toInt_ofInt]
  exact Int.bmod_eq_of_le (by omega) (by omega)

/-- The format of a R without the newline; a W goes on with a blank and its byte. -/
def written : List Directive :=
  [.decimal, .plain 32#8, .char, .plain 32#8, .plain 48#8, .plain 120#8, .hex 4]

/-- The line without the newline. -/
def Drawn.text (d : Drawn) : List Byte :=
  match d.byte with
  | none => Formats.print written [.int (BitVec.ofInt 32 d.pid), .char 82#8,
      .int (BitVec.ofInt 32 d.addr)]
  | some byte => Formats.print (written ++ [.plain 32#8, .char]) [.int (BitVec.ofInt 32 d.pid),
      .char 87#8, .int (BitVec.ofInt 32 d.addr), .char (BitVec.ofNat 8 byte)]

theorem format_read : format "%d %c 0x%04x\n".toList = written ++ [.plain 10#8] := by decide

theorem format_write :
    format "%d %c 0x%04x %c\n".toList = written ++ [.plain 32#8, .char] ++ [.plain 10#8] := by
  decide

theorem Drawn.print_eq (d : Drawn) : d.print = d.text ++ [10#8] := by
  unfold Drawn.print Drawn.text
  cases d.byte with
  | none =>
    dsimp only
    rw [printf, format_read]
    simp [written, Formats.print]
  | some byte =>
    dsimp only
    rw [printf, format_write]
    simp [written, Formats.print]

theorem Drawn.Valid.addr (h : d.Valid MAX_VPN NUM_PROC) (hpages : MAX_VPN ≤ 256) :
    0 ≤ d.addr ∧ d.addr < 2^16 ∧ d.addr >>> (8 : ℕ) = d.page := by
  have hpage := h.page
  have hoffset := h.offset
  have hshift := Int.shiftRight_eq_div_pow d.addr 8
  unfold Drawn.addr at hshift ⊢
  refine ⟨by omega, by omega, ?_⟩
  omega

/-- The number in front, its digits and how many there are. -/
theorem Drawn.Valid.print_pid (h : d.Valid MAX_VPN NUM_PROC) (hprocs : NUM_PROC ≤ 256) :
    Value.print .decimal (.int (BitVec.ofInt 32 d.pid)) = digits 10 d.pid.toNat ∧
      (digits 10 d.pid.toNat).length ≤ 3 := by
  have hpid := h.pid
  have hint : (BitVec.ofInt 32 d.pid).toInt = d.pid := toInt_ofInt hpid.1 (by omega)
  constructor
  · rw [Value.print, hint, if_neg (by omega)]
    congr 1
    omega
  · exact length_digits_le (by decide) (by decide) (by omega)

theorem Drawn.Valid.print_addr (h : d.Valid MAX_VPN NUM_PROC) (hpages : MAX_VPN ≤ 256) :
    Value.print (.hex 4) (.int (BitVec.ofInt 32 d.addr)) = padded 4 16 d.addr.toNat ∧
      (padded 4 16 d.addr.toNat).length ≤ 4 := by
  obtain ⟨h0, h1, -⟩ := h.addr hpages
  constructor
  · rw [Value.print]
    congr 1
    rw [BitVec.toNat_ofInt]
    omega
  · exact (length_padded_le (by decide : 2 ≤ 16) (by decide : 1 ≤ 4) (by omega)).trans le_rfl

/-- The line: the two numbers, the letter between them, and what a W has behind them. -/
theorem Drawn.Valid.text_eq (h : d.Valid MAX_VPN NUM_PROC) (hpages : MAX_VPN ≤ 256)
    (hprocs : NUM_PROC ≤ 256) : ∃ letter rest, d.text = digits 10 d.pid.toNat ++
      ([32#8, letter, 32#8, 48#8, 120#8] ++ (padded 4 16 d.addr.toNat ++ rest)) ∧
      32#8 ≤ letter ∧ rest.length ≤ 2 ∧ ∀ b ∈ rest, 32#8 ≤ b := by
  unfold Drawn.text
  cases hbyte : d.byte with
  | none =>
    refine ⟨82#8, [], ?_, by decide, by decide, by simp⟩
    simp only [written, Formats.print, (h.print_pid hprocs).1, (h.print_addr hpages).1]
    simp [Value.print]
  | some byte =>
    have hrange := h.byte byte hbyte
    refine ⟨87#8, [32#8, BitVec.ofNat 8 byte], ?_, by decide, by simp, ?_⟩
    · simp only [written, Formats.print, List.cons_append, List.nil_append,
        (h.print_pid hprocs).1, (h.print_addr hpages).1]
      simp [Value.print]
    · intro b hb
      rcases List.mem_pair.mp hb with rfl | rfl
      · decide
      · simp only [BitVec.le_def, BitVec.toNat_ofNat]
        omega

/-- The line is one line of text, no comment, and fits in the buffer. -/
theorem Drawn.Valid.text_facts (h : d.Valid MAX_VPN NUM_PROC) (hpages : MAX_VPN ≤ 256)
    (hprocs : NUM_PROC ≤ 256) : 10#8 ∉ d.text ∧ 0 ∉ d.text ∧ d.text.length + 1 < 256 ∧
      isComment (d.text ++ [10#8]) = false := by
  obtain ⟨letter, rest, htext, hletter, hrest, hbytes⟩ := h.text_eq hpages hprocs
  have hpid : ∀ b ∈ digits 10 d.pid.toNat, 48#8 ≤ b := fun b hb =>
    (of_isDigit (isDigit_of_mem_digits (by decide) (by decide) hb)).1
  have haddr : ∀ b ∈ padded 4 16 d.addr.toNat, 48#8 ≤ b := fun b hb =>
    (of_isDigit (isDigit_of_mem_padded (by decide) (by decide) hb)).1
  have hlen := (h.print_pid hprocs).2
  have hlen' := (h.print_addr hpages).2
  have hall : ∀ b ∈ d.text, 32#8 ≤ b := by
    have htrans : ∀ b : Byte, 48#8 ≤ b → 32#8 ≤ b := fun b hb => BitVec.le_trans (by decide) hb
    have hmiddle : ∀ b ∈ [32#8, letter, 32#8, 48#8, 120#8], 32#8 ≤ b := by
      simp [hletter]
    intro b hb
    rw [htext] at hb
    rcases List.mem_append.mp hb with hb | hb
    · exact htrans b (hpid b hb)
    rcases List.mem_append.mp hb with hb | hb
    · exact hmiddle b hb
    rcases List.mem_append.mp hb with hb | hb
    · exact htrans b (haddr b hb)
    · exact hbytes b hb
  refine ⟨fun hmem => absurd (hall _ hmem) (by decide), fun hmem => absurd (hall _ hmem) (by decide),
    ?_, ?_⟩
  · rw [htext]
    simp only [List.length_append, List.length_cons, List.length_nil]
    omega
  · have hne := digits_ne_nil 10 d.pid.toNat
    rw [htext]
    generalize digits 10 d.pid.toNat = s at hne hpid
    cases s with
    | nil => exact absurd rfl hne
    | cons b s =>
      have hb := hpid b List.mem_cons_self
      have h35 : ¬b = 35#8 := fun he => absurd (he ▸ hb) (by decide)
      have h37 : ¬b = 37#8 := fun he => absurd (he ▸ hb) (by decide)
      simp [isComment, h35, h37]

/-- The width only matters to printing. -/
theorem scan_line (s : List Byte) : Formats.scan (format "%d %c 0x%x %c".toList) s =
    Formats.scan (written ++ [.plain 32#8, .char]) s := by
  rw [format_line]
  rfl

theorem forall_head {P : Byte → Prop} {b : Byte} {t : List Byte} (h : P b) :
    ∀ c ∈ (b :: t).head?, P c := fun _ hc => Option.some.inj hc ▸ h

/-- A R ends before the last conversion. -/
theorem sscanf_read (hbyte : d.byte = none) : sscanf (d.text ++ [10#8]) "%d %c 0x%x %c" =
    (3, [.int (BitVec.ofInt 32 d.pid), .char 82#8, .int (BitVec.ofInt 32 d.addr)]) := by
  have hread : Readable written [.int (BitVec.ofInt 32 d.pid), .char 82#8,
      .int (BitVec.ofInt 32 d.addr)] [10#8] :=
    ⟨trivial, forall_head (by decide), fun _ => forall_head (by decide), trivial, trivial,
      fun _ => forall_head (by decide), fun hb => absurd hb (by decide),
      fun hb => absurd hb (by decide), trivial, forall_head (by decide), rfl⟩
  have hscan := scan_print written [.plain 32#8, .char] _ [10#8] hread
  have hrest : Formats.scan [.plain 32#8, .char] [10#8] = ([], true) := by decide
  rw [hrest] at hscan
  rw [sscanf, scan_line, Drawn.text, hbyte]
  dsimp only
  rw [hscan]
  rfl

theorem sscanf_write {byte : ℕ} (hbyte : d.byte = some byte) (hrange : 65 ≤ byte ∧ byte ≤ 122) :
    sscanf (d.text ++ [10#8]) "%d %c 0x%x %c" = (4, [.int (BitVec.ofInt 32 d.pid), .char 87#8,
      .int (BitVec.ofInt 32 d.addr), .char (BitVec.ofNat 8 byte)]) := by
  have hspace : isspace (BitVec.ofNat 8 byte) = false := by
    apply isspace_of_le
    apply BitVec.le_trans (show 33#8 ≤ 65#8 by decide)
    simp only [BitVec.le_def, BitVec.toNat_ofNat]
    omega
  have hread : Readable (written ++ [.plain 32#8, .char]) [.int (BitVec.ofInt 32 d.pid),
      .char 87#8, .int (BitVec.ofInt 32 d.addr), .char (BitVec.ofNat 8 byte)] [10#8] :=
    ⟨trivial, forall_head (by decide), fun _ => forall_head (by decide), trivial, trivial,
      fun _ => forall_head (by decide), fun hb => absurd hb (by decide),
      fun hb => absurd hb (by decide), trivial, forall_head (by decide),
      fun _ => forall_head hspace, trivial, trivial, rfl⟩
  have hscan := scan_print (written ++ [.plain 32#8, .char]) [] _ [10#8] hread
  rw [List.append_nil] at hscan
  rw [sscanf, scan_line, Drawn.text, hbyte]
  dsimp only
  rw [hscan]
  rfl

/-- A variable holds a drawn number. -/
theorem Drawn.Valid.toInt (h : d.Valid MAX_VPN NUM_PROC) (hpages : MAX_VPN ≤ 256)
    (hprocs : NUM_PROC ≤ 256) : (BitVec.ofInt 32 d.pid).toInt = d.pid ∧
      (BitVec.ofInt 32 d.addr).toInt = d.addr := by
  have hpid := h.pid
  obtain ⟨h0, h1, -⟩ := h.addr hpages
  exact ⟨toInt_ofInt hpid.1 (by omega), toInt_ofInt h0 (by omega)⟩

/-- Serving the line that was printed is serving what was drawn. -/
theorem Drawn.Valid.serveRequest (h : d.Valid MAX_VPN NUM_PROC) (hpages : MAX_VPN ≤ 256)
    (hprocs : NUM_PROC ≤ 256) (cfg : Config) (heap : Heap) (s : Machine) (vars : Variables) :
    VM.serveRequest cfg heap s ((vars.scan (d.text ++ [10#8])).2.request
      (vars.scan (d.text ++ [10#8])).1) = VM.serveRequest cfg heap s d.request := by
  obtain ⟨hpid, haddr⟩ := h.toInt hpages hprocs
  cases hbyte : d.byte with
  | none =>
    have hscan := sscanf_read hbyte
    have hrequest : (vars.scan (d.text ++ [10#8])).2.request (vars.scan (d.text ++ [10#8])).1 =
        { d.request with byte := toChar vars.byte } := by
      rw [Variables.scan, hscan, Drawn.request, hbyte]
      simp only [Variables.store, Variables.request, hpid, haddr]
      rfl
    rw [hrequest]
    apply serveRequest_byte
    intro hw
    rw [Drawn.request, hbyte] at hw
    have hletter : ¬ 'R' = 'W' := by decide
    exact absurd hw hletter
  | some byte =>
    have hscan := sscanf_write hbyte (h.byte byte hbyte)
    have hrequest : (vars.scan (d.text ++ [10#8])).2.request (vars.scan (d.text ++ [10#8])).1 =
        d.request := by
      rw [Variables.scan, hscan, Drawn.request, hbyte]
      simp only [Variables.store, Variables.request, hpid, haddr]
      rfl
    rw [hrequest]

/-- The drawn request passes every check. -/
theorem Drawn.Valid.inRange (h : d.Valid MAX_VPN NUM_PROC) (hpages : MAX_VPN ≤ 256)
    (cfg : Config) (hvpn : cfg.MAX_VPN = MAX_VPN) (hpid : cfg.MAX_PID = NUM_PROC) :
    d.request.InRange cfg := by
  obtain ⟨h0, h1, hpage⟩ := h.addr hpages
  have hp := h.pid
  have hv := h.page
  have hrange : cfg.InRange ⟨d.pid, d.addr >>> (8 : ℕ)⟩ := by
    rw [hpage]
    exact ⟨hp.1, hpid ▸ hp.2, hv.1, hvpn ▸ hv.2⟩
  unfold Drawn.request
  cases d.byte with
  | none =>
    have hscanned : if 'R' = 'R' then (3 : ℤ) ≤ 3 else (4 : ℤ) ≤ 3 := by decide
    exact ⟨Or.inl rfl, hscanned, h0, hrange⟩
  | some byte =>
    have hscanned : if 'W' = 'R' then (3 : ℤ) ≤ 4 else (4 : ℤ) ≤ 4 := by decide
    exact ⟨Or.inr rfl, hscanned, h0, hrange⟩

/-! ### The file -/

theorem mainLoop_printed (cfg : Config) (heap : Heap) (hpages : MAX_VPN ≤ 256)
    (hprocs : NUM_PROC ≤ 256) (ds : List Drawn) (hds : ∀ d ∈ ds, d.Valid MAX_VPN NUM_PROC)
    (vars : Variables) (s : Machine) :
    mainLoop cfg heap s (scanLines vars (ds.map Drawn.print)) =
      mainLoop cfg heap s (ds.map fun d => .request d.request) := by
  induction ds generalizing vars s with
  | nil => rfl
  | cons d ds ih =>
    have hd := hds d List.mem_cons_self
    have hcomment := (hd.text_facts hpages hprocs).2.2.2
    have hrest := ih fun e he => hds e (List.mem_cons_of_mem d he)
    rw [List.map_cons, List.map_cons, scanLines, d.print_eq, hcomment, if_neg (by decide)]
    simp only [mainLoop, serveLine, hd.serveRequest hpages hprocs cfg heap s vars, hrest]

theorem buffers_printed (hpages : MAX_VPN ≤ 256) (hprocs : NUM_PROC ≤ 256) (ds : List Drawn)
    (hds : ∀ d ∈ ds, d.Valid MAX_VPN NUM_PROC) :
    allBuffers 256 (ds.flatMap Drawn.print) = ds.map Drawn.print := by
  induction ds with
  | nil => rfl
  | cons d ds ih =>
    obtain ⟨hnewline, hzero, hlen, -⟩ := (hds d List.mem_cons_self).text_facts hpages hprocs
    rw [List.flatMap_cons, List.map_cons, d.print_eq, List.append_assoc, List.singleton_append,
      allBuffers_line hnewline hzero hlen, ih fun e he => hds e (List.mem_cons_of_mem d he)]

theorem format_header : format "# PAGES: %d, # PROCS: %d".toList =
    (ascii "# PAGES: ").map .plain ++ .decimal :: ((ascii ", # PROCS: ").map .plain ++ [.decimal]) ∧
    format "# PAGES: %d, # PROCS: %d\n".toList =
      format "# PAGES: %d, # PROCS: %d".toList ++ [.plain 10#8] := by decide +kernel

/-- The first line is read back, whatever the numbers are. -/
theorem scanHeader_printed (MAX_VPN NUM_PROC : BitVec 32) :
    ∃ s, printf "# PAGES: %d, # PROCS: %d\n" [.int MAX_VPN, .int NUM_PROC] = s ++ [10#8] ∧
      10#8 ∉ s ∧ 0 ∉ s ∧ s.length + 1 < 256 ∧
      scanHeader (s ++ [10#8]) = (MAX_VPN, NUM_PROC) := by
  obtain ⟨b, s, hpages, hbytes, hlen⟩ := print_decimal MAX_VPN
  obtain ⟨c, t, hprocs, hbytes', hlen'⟩ := print_decimal NUM_PROC
  have hspace : ∀ b : Byte, 45#8 ≤ b → isspace b = false := fun b hb =>
    isspace_of_le (BitVec.le_trans (by decide) hb)
  have hdecimal : ∀ b, Directive.decimal ≠ .plain b := by simp
  have htext : Formats.print (format "# PAGES: %d, # PROCS: %d".toList)
      [.int MAX_VPN, .int NUM_PROC] =
        ascii "# PAGES: " ++ (b :: s ++ (ascii ", # PROCS: " ++ (c :: t))) := by
    rw [format_header.1, print_plain, print_value _ _ _ _ hdecimal, print_plain,
      print_value _ _ _ _ hdecimal, hpages, hprocs, Formats.print, List.append_nil]
  have hread : Readable (format "# PAGES: %d, # PROCS: %d".toList)
      [.int MAX_VPN, .int NUM_PROC] [10#8] := by
    rw [format_header.1]
    refine readable_plain (by decide) ?_ ⟨trivial, ?_, readable_plain (by decide) ?_
      ⟨trivial, forall_head (by decide), rfl⟩⟩
    · rw [print_value _ _ _ _ hdecimal, hpages]
      exact forall_head (hspace b (hbytes b List.mem_cons_self))
    · rw [print_plain]
      exact forall_head (by decide)
    · rw [print_value _ _ _ _ hdecimal, hprocs]
      exact forall_head (hspace c (hbytes' c List.mem_cons_self))
  have hall : ∀ d ∈ ascii "# PAGES: " ++ (b :: s ++ (ascii ", # PROCS: " ++ (c :: t))),
      32#8 ≤ d := by
    have htrans : ∀ b : Byte, 45#8 ≤ b → 32#8 ≤ b := fun b hb => BitVec.le_trans (by decide) hb
    have hliteral : (∀ d ∈ ascii "# PAGES: ", 32#8 ≤ d) ∧ ∀ d ∈ ascii ", # PROCS: ", 32#8 ≤ d := by
      decide
    intro d hd
    rcases List.mem_append.mp hd with hd | hd
    · exact hliteral.1 d hd
    rcases List.mem_append.mp hd with hd | hd
    · exact htrans d (hbytes d hd)
    rcases List.mem_append.mp hd with hd | hd
    · exact hliteral.2 d hd
    · exact htrans d (hbytes' d hd)
  refine ⟨Formats.print (format "# PAGES: %d, # PROCS: %d".toList)
    [.int MAX_VPN, .int NUM_PROC], ?_, ?_, ?_, ?_, ?_⟩
  · rw [printf, format_header.2, print_append _ _ _ _ hread]
    rfl
  · rw [htext]
    exact fun hmem => absurd (hall _ hmem) (by decide)
  · rw [htext]
    exact fun hmem => absurd (hall _ hmem) (by decide)
  · have hliteral : (ascii "# PAGES: ").length = 9 ∧ (ascii ", # PROCS: ").length = 11 := by decide
    rw [htext, List.length_append, List.length_append, List.length_append, hliteral.1, hliteral.2]
    omega
  · have hscan := scan_print _ [] _ [10#8] hread
    rw [List.append_nil] at hscan
    rw [scanHeader, sscanf, hscan]
    rfl

/-- Drawn requests are served one by one; there are too few for the counter of `fifo` to overflow. -/
theorem drawn_served (cfg : Config) (heap : Heap) (hcfg : cfg.Accepted) (ds : List Drawn)
    (hds : ∀ d ∈ ds, d.Valid cfg.MAX_VPN cfg.MAX_PID) (hlen : ds.length < 2^31) :
    ∃ replies s, mainLoop cfg heap (init cfg heap) (ds.map fun d => .request d.request) =
        some (replies, s) ∧ replies.length = ds.length ∧
      (∀ reply ∈ replies, reply.byte?.isSome) ∧
      s.stats.hitCount.toInt + s.stats.missCount.toInt = ds.length := by
  have hrs : ∀ r ∈ ds.map Drawn.request, r.InRange cfg := by
    intro r hr
    obtain ⟨d, hd, rfl⟩ := List.mem_map.mp hr
    exact (hds d hd).inRange hcfg.MAX_VPN.2 cfg rfl rfl
  have hmax := hcfg.MAX_PFN.1
  have hfew := evictions_le cfg heap (init cfg heap) (ds.map Drawn.request)
  rw [List.length_map] at hfew
  obtain ⟨replies, s, -, hmain, hreplies, -, haccess, hb⟩ := requests_history cfg heap hmax _
    (requests_admissible cfg heap hmax _ hrs fun _ => by omega)
    (fun past s => (∀ a ∈ past, a.2.byte?.isSome) ∧ Balanced cfg (answered past) s)
    ⟨fun a ha => absurd ha List.not_mem_nil, balanced_init heap hmax⟩ (by
      intro past s r reply t _ h _ ht
      refine ⟨?_, by rw [answered_concat]; exact h.2.of_served ht⟩
      intro a ha
      rcases List.mem_append.mp ha with ha | ha
      · exact h.1 a ha
      · rw [List.mem_singleton.mp ha]
        cases ht <;> rfl)
  rw [answered_zip hreplies] at hb
  rw [List.map_map] at hmain
  rw [List.length_map] at hreplies
  refine ⟨replies, s, hmain, hreplies, ?_, ?_⟩
  · intro reply hreply
    have hzip : ((ds.map Drawn.request).zip replies).map Prod.snd = replies :=
      List.map_snd_zip (by rw [List.length_map, hreplies])
    rw [← hzip] at hreply
    obtain ⟨a, ha, rfl⟩ := List.mem_map.mp hreply
    exact haccess a ha
  · have hsum := hits_add_misses replies
    rw [← hreplies]
    exact hb.sum_iff.mpr ⟨by omega, by omega⟩

/-- The simulator understands the generator: for numbers of pages and processes that it accepts, the
file is read as the header's numbers and exactly the requests drawn, each is in range and is served,
and the counters add up to the number of requests asked for. -/
theorem generated_file_served (rand : ℕ → ℕ) (heap : Heap) (vars : Variables)
    (gen vm pages procs requests frames policy name : List Byte) (p : Policy)
    (hpages : 1 ≤ (atoi pages).toInt ∧ (atoi pages).toInt ≤ 256)
    (hprocs : 1 ≤ (atoi procs).toInt ∧ (atoi procs).toInt ≤ 256)
    (hframes : 1 ≤ (atoi frames).toInt ∧ (atoi frames).toInt ≤ 256)
    (hpolicy : replacementPolicy (atoi policy) = some p) :
    ∃ file, main rand [gen, pages, procs, requests] = some file ∧
      ∀ fopen, fopen name = some file → ∃ replies s,
        VM.main fopen heap vars [vm, frames, policy, name] = some (.served replies s) ∧
        mainLoop ⟨(atoi frames).toInt, (atoi pages).toInt, (atoi procs).toInt, p⟩ heap
          (init ⟨(atoi frames).toInt, (atoi pages).toInt, (atoi procs).toInt, p⟩ heap)
          ((drawAll (atoi pages).toInt (atoi procs).toInt rand (atoi requests).toInt.toNat 0).map
            fun d => .request d.request) = some (replies, s) ∧
        replies.length = (atoi requests).toInt.toNat ∧ (∀ reply ∈ replies, reply.byte?.isSome) ∧
        s.stats.hitCount.toInt + s.stats.missCount.toInt = (atoi requests).toInt.toNat := by
  set cfg : Config := ⟨(atoi frames).toInt, (atoi pages).toInt, (atoi procs).toInt, p⟩ with hcfg
  set ds := drawAll (atoi pages).toInt (atoi procs).toInt rand (atoi requests).toInt.toNat 0 with hds
  have hvalid : ∀ d ∈ ds, d.Valid (atoi pages).toInt (atoi procs).toInt :=
    drawAll_valid hpages.1 hprocs.1 rand _ 0
  have hlen : ds.length = (atoi requests).toInt.toNat := length_drawAll ..
  have haccepted : cfg.Accepted := ⟨hpages, hframes, hprocs⟩
  obtain ⟨header, hprint, hnewline, hzero, hshort, hscan⟩ :=
    scanHeader_printed (atoi pages) (atoi procs)
  refine ⟨header ++ [10#8] ++ ds.flatMap Drawn.print, ?_, ?_⟩
  · have hpages0 : atoi pages ≠ 0 := by
      intro h
      rw [h] at hpages
      exact absurd hpages.1 (by decide)
    have hprocs0 : atoi procs ≠ 0 := by
      intro h
      rw [h] at hprocs
      exact absurd hprocs.1 (by decide)
    rw [main, generate, if_neg fun h => h.2.elim hpages0 hprocs0, hprint]
  · intro fopen hfile
    have hbuffers : allBuffers 256 (header ++ [10#8] ++ ds.flatMap Drawn.print) =
        (header ++ [10#8]) :: ds.map Drawn.print := by
      rw [List.append_assoc, List.singleton_append, allBuffers_line hnewline hzero hshort,
        buffers_printed hpages.2 hprocs.2 ds hvalid]
    have hreqs := (atoi requests).toInt_lt
    obtain ⟨replies, s, hmain, hreplies, haccess, hcount⟩ :=
      drawn_served cfg heap haccepted ds hvalid (by omega)
    refine ⟨replies, s, ?_, hmain, hreplies.trans hlen, haccess, by omega⟩
    have hloop : inputLoop cfg heap vars (init cfg heap) (ds.map Drawn.print) =
        some (replies, s) := by
      rw [inputLoop_eq cfg heap vars vars rfl, mainLoop_printed cfg heap hpages.2 hprocs.2 ds hvalid,
        hmain]
    simp only [VM.main, hfile, hbuffers, hpolicy, hscan]
    rw [if_pos haccepted, hloop]
    rfl

/-- Five requests over four pages of two processes, under LRU with two frames. -/
theorem generated_file_served_five :
    ∃ file, main (fun k => 7 * k + 3) [ascii "input_gen", ascii "4", ascii "2", ascii "5"] =
        some file ∧
      ∀ fopen, fopen (ascii "in") = some file → ∃ replies s,
        VM.main fopen staleHeap ⟨0, 0, 0, 0⟩
          [ascii "vm", ascii "2", ascii "2", ascii "in"] = some (.served replies s) ∧
        replies.length = 5 := by
  obtain ⟨file, hmain, hserved⟩ := generated_file_served (fun k => 7 * k + 3) staleHeap
    ⟨0, 0, 0, 0⟩ (ascii "input_gen") (ascii "vm") (ascii "4") (ascii "2") (ascii "5") (ascii "2") (ascii "2") (ascii "in") .LRU
    (by decide +kernel) (by decide +kernel) (by decide +kernel) (by decide +kernel)
  refine ⟨file, hmain, fun fopen hfile => ?_⟩
  obtain ⟨replies, s, hvm, -, hlen, -⟩ := hserved fopen hfile
  exact ⟨replies, s, hvm, hlen.trans (by decide +kernel)⟩

end OperatingSystems.InputGen
