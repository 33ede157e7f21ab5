import OperatingSystems.VMMain
import Mathlib.Data.BitVec

/-! The checks of `main` before it calls the MMU, over all values that `sscanf` can store. -/
namespace OperatingSystems.VM

/-- The numbers `main` goes on with. -/
structure Config.Accepted (cfg : Config) : Prop where
  MAX_VPN : 1 ≤ cfg.MAX_VPN ∧ cfg.MAX_VPN ≤ 256
  MAX_PFN : 1 ≤ cfg.MAX_PFN ∧ cfg.MAX_PFN ≤ 256
  MAX_PID : 1 ≤ cfg.MAX_PID ∧ cfg.MAX_PID ≤ 256

/-- A line of which all four fields are scanned; `%d` and `%x` store an `int`. -/
def Request.parsed (pid : BitVec 32) (type : Char) (addr : BitVec 32) (byte : Char) : Request :=
  ⟨4, pid.toInt, type, addr.toInt, byte⟩

/-- The checks of the loop body: the message of the one that the line does not pass, or the
arguments that `MMU` is called with. -/
def Request.filter (cfg : Config) (r : Request) : Except String (ℤ × ℤ × Char) :=
  if r.type = 'R' ∧ r.ret < 3 ∨ r.type = 'W' ∧ r.ret < 4 then
    .error "Error: invalid input: %s\n"
  else if r.pid > cfg.MAX_PID - 1 then
    .error "[pid %d, %c] 0x%x: Invalid PID.\n"
  else if (r.type = 'R' ∨ r.type = 'W') ∧ r.VPN ≥ cfg.MAX_VPN then
    .error "[pid %d, %c] 0x%x: Invalid VPN.\n"
  else .ok (r.pid, r.VPN, r.type)

/-- The loop body is the checks, and then the MMU and the memory. -/
theorem serveRequest_filter (cfg : Config) (heap : Heap) (s : Machine) (r : Request) :
    serveRequest cfg heap s r =
      match r.filter cfg with
      | .error message => some (.refuse message, s)
      | .ok (pid, VPN, type) =>
        (MMU cfg heap pid VPN type s).map fun p => accessMemory cfg r p.1 p.2.1 p.2.2 := by
  unfold serveRequest Request.filter
  split_ifs
  · rfl
  · rfl
  · rfl
  · dsimp only
    cases MMU cfg heap r.pid r.VPN r.type s <;> rfl

/-- What gets through: the two numbers are compared with their upper bounds only, and the second
of them for R and W only. -/
theorem filter_ok_iff (cfg : Config) (r : Request) (call : ℤ × ℤ × Char) :
    r.filter cfg = .ok call ↔ call = (r.pid, r.VPN, r.type) ∧
      ¬(r.type = 'R' ∧ r.ret < 3 ∨ r.type = 'W' ∧ r.ret < 4) ∧ r.pid < cfg.MAX_PID ∧
        ((r.type = 'R' ∨ r.type = 'W') → r.VPN < cfg.MAX_VPN) := by
  unfold Request.filter
  split_ifs with hscan hpid hvpn
  · exact ⟨False.elim, fun h => absurd hscan h.2.1⟩
  · refine ⟨False.elim, fun h => ?_⟩
    omega
  · refine ⟨False.elim, fun h => ?_⟩
    have hlt := h.2.2.2 hvpn.1
    omega
  · rw [Except.ok.injEq]
    refine ⟨fun h => ⟨h.symm, hscan, by omega, fun ht => ?_⟩, fun h => h.1.symm⟩
    by_contra hge
    exact hvpn ⟨ht, by omega⟩

theorem msb_eq_false_iff_toInt (x : BitVec 32) : x.msb = false ↔ 0 ≤ x.toInt := by
  rw [BitVec.msb_eq_toInt, decide_eq_false_iff_not, not_lt]

/-- The calls of the MMU have both numbers in range exactly where the checks of the upper bounds
stop the line, or both sign bits are clear and the page number is compared at all. -/
theorem filter_in_range_iff (cfg : Config) (hcfg : cfg.Accepted) (pid addr : BitVec 32)
    (type byte : Char) :
    (∀ p v t, (Request.parsed pid type addr byte).filter cfg = .ok (p, v, t) →
        cfg.InRange ⟨p, v⟩) ↔
      cfg.MAX_PID ≤ pid.toInt ∨
        ((type = 'R' ∨ type = 'W') ∧ cfg.MAX_VPN * 256 ≤ addr.toInt) ∨
        (pid.msb = false ∧ addr.msb = false ∧
          (type = 'R' ∨ type = 'W' ∨ addr.toInt < cfg.MAX_VPN * 256)) := by
  have hshift := Int.shiftRight_eq_div_pow addr.toInt 8
  have hpos := hcfg.MAX_VPN.1
  have hscan : ¬(type = 'R' ∧ (4 : ℤ) < 3 ∨ type = 'W' ∧ (4 : ℤ) < 4) := by omega
  rw [msb_eq_false_iff_toInt, msb_eq_false_iff_toInt]
  constructor
  · intro h
    by_contra hno
    push Not at hno
    obtain ⟨hpid, hupper, hsign⟩ := hno
    -- the line is not stopped, so its numbers are in range
    have hcall : (Request.parsed pid type addr byte).filter cfg =
        .ok (pid.toInt, addr.toInt >>> (8 : ℕ), type) := by
      rw [filter_ok_iff]
      refine ⟨rfl, hscan, hpid, fun ht => ?_⟩
      have hlt := hupper ht
      change addr.toInt >>> (8 : ℕ) < cfg.MAX_VPN
      omega
    obtain ⟨hp, -, hv, hlt⟩ := h _ _ _ hcall
    dsimp only at hp hv hlt
    have hge := hsign hp (by omega)
    omega
  · intro h p v t hcall
    obtain ⟨heq, -, hpid, hvpn⟩ := (filter_ok_iff cfg _ _).mp hcall
    change (type = 'R' ∨ type = 'W') → addr.toInt >>> (8 : ℕ) < cfg.MAX_VPN at hvpn
    change pid.toInt < cfg.MAX_PID at hpid
    obtain ⟨rfl, hv⟩ := Prod.mk.inj heq
    obtain ⟨rfl, -⟩ := Prod.mk.inj hv
    rcases h with h | ⟨htype, h⟩ | ⟨hp, ha, h⟩
    · omega
    · have hlt := hvpn htype
      omega
    · have hlt : addr.toInt >>> (8 : ℕ) < cfg.MAX_VPN := by
        rcases h with h | h | h
        · exact hvpn (Or.inl h)
        · exact hvpn (Or.inr h)
        · omega
      refine ⟨hp, hpid, ?_, hlt⟩
      change 0 ≤ addr.toInt >>> (8 : ℕ)
      omega

/-- One process, one page: `0 R 0x0` is let through, in range. -/
theorem filter_in_range_iff_one :
    (Request.parsed 0 'R' 0 'x').filter ⟨1, 1, 1, .ZERO⟩ = .ok (0, 0, 'R') ∧
      (⟨1, 1, 1, .ZERO⟩ : Config).InRange ⟨0, 0⟩ :=
  have hcall : (Request.parsed 0 'R' 0 'x').filter ⟨1, 1, 1, .ZERO⟩ = .ok (0, 0, 'R') := by decide
  ⟨hcall, (filter_in_range_iff ⟨1, 1, 1, .ZERO⟩ ⟨by decide, by decide, by decide⟩ 0 0 'R' 'x').mpr
    (Or.inr (Or.inr ⟨by decide, by decide, Or.inl rfl⟩)) 0 0 'R' hcall⟩

/-- `-1 R 0x0` reaches the MMU. -/
theorem filter_out_of_range : ¬ ∀ p v t,
    (Request.parsed (-1) 'R' 0 'x').filter ⟨1, 1, 1, .ZERO⟩ = .ok (p, v, t) →
      (⟨1, 1, 1, .ZERO⟩ : Config).InRange ⟨p, v⟩ := by
  intro h
  have hcall : (Request.parsed (-1) 'R' 0 'x').filter ⟨1, 1, 1, .ZERO⟩ = .ok (-1, 0, 'R') := by
    decide
  exact absurd (h (-1) 0 'R' hcall) (by decide)

end OperatingSystems.VM
