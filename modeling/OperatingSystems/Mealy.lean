import Mathlib.Data.List.Forall2

/-! Partial deterministic machines with outputs. A step that is undefined (`none`)
ends the run: it stands for behaviour the program text gives no meaning to. -/
namespace OperatingSystems.Mealy

variable {σ α ρ τ : Type*} (step : σ → α → Option (ρ × σ))

/-- Feed the inputs in order, collecting the outputs. -/
def run : σ → List α → Option (List ρ × σ)
  | s, [] => some ([], s)
  | s, a :: as => (step s a).bind fun p => (run p.2 as).map fun q => (p.1 :: q.1, q.2)

/-- Every step of the run is taken from a state in which its input meets `ok`. -/
def Meets (ok : σ → α → Prop) : σ → List α → Prop
  | _, [] => True
  | s, a :: as => ok s a ∧ ∀ r t, step s a = some (r, t) → Meets ok t as

@[simp] theorem run_nil (s : σ) : run step s [] = some ([], s) := rfl

theorem run_cons_iff (s u : σ) (a : α) (as : List α) (rs : List ρ) :
    run step s (a :: as) = some (rs, u) ↔
      ∃ r t qs, step s a = some (r, t) ∧ run step t as = some (qs, u) ∧ rs = r :: qs := by
  simp only [run, Option.bind_eq_some_iff, Option.map_eq_some_iff, Prod.mk.injEq, Prod.exists]
  constructor
  · rintro ⟨r, t, hs, qs, v, hr, rfl, rfl⟩
    exact ⟨r, t, qs, hs, hr, rfl⟩
  · rintro ⟨r, t, qs, hs, hr, rfl⟩
    exact ⟨r, t, hs, qs, u, hr, rfl, rfl⟩

theorem run_append_iff (s u : σ) (as bs : List α) (rs : List ρ) :
    run step s (as ++ bs) = some (rs, u) ↔
      ∃ ps t qs, run step s as = some (ps, t) ∧ run step t bs = some (qs, u) ∧ rs = ps ++ qs := by
  induction as generalizing s rs with
  | nil => simp
  | cons a as ih =>
    simp only [List.cons_append, run_cons_iff, ih]
    constructor
    · rintro ⟨r, t, _, hs, ⟨ps, v, qs, hp, hq, rfl⟩, rfl⟩
      exact ⟨r :: ps, v, qs, ⟨r, t, ps, hs, hp, rfl⟩, hq, rfl⟩
    · rintro ⟨_, v, qs, ⟨r, t, ps, hs, hp, rfl⟩, hq, rfl⟩
      exact ⟨r, t, ps ++ qs, hs, ⟨ps, v, qs, hp, hq, rfl⟩, rfl⟩

theorem meets_append_iff (ok : σ → α → Prop) (s : σ) (as bs : List α) :
    Meets step ok s (as ++ bs) ↔
      Meets step ok s as ∧ ∀ rs t, run step s as = some (rs, t) → Meets step ok t bs := by
  induction as generalizing s with
  | nil => simp [Meets]
  | cons a as ih =>
    simp only [List.cons_append, Meets, ih, run_cons_iff]
    constructor
    · rintro ⟨ha, h⟩
      refine ⟨⟨ha, fun r t hs => (h r t hs).1⟩, ?_⟩
      rintro _ u ⟨r, t, qs, hs, hr, rfl⟩
      exact (h r t hs).2 qs u hr
    · rintro ⟨⟨ha, h⟩, hb⟩
      exact ⟨ha, fun r t hs => ⟨h r t hs, fun qs u hr => hb _ u ⟨r, t, qs, hs, hr, rfl⟩⟩⟩

theorem meets_of_forall (ok : σ → α → Prop) (s : σ) (as : List α)
    (h : ∀ t, ∀ a ∈ as, ok t a) : Meets step ok s as := by
  induction as generalizing s with
  | nil => trivial
  | cons a as ih =>
    exact ⟨h s a List.mem_cons_self, fun _ t _ => ih t fun u b hb => h u b (List.mem_cons_of_mem a hb)⟩

theorem meets_imp {ok ok' : σ → α → Prop} {s : σ} {as : List α}
    (h : ∀ a ∈ as, ∀ s, ok s a → ok' s a) (hm : Meets step ok s as) : Meets step ok' s as := by
  induction as generalizing s with
  | nil => trivial
  | cons a as ih =>
    have htail : ∀ b ∈ as, ∀ s, ok s b → ok' s b := fun b hb => h b (List.mem_cons_of_mem a hb)
    exact ⟨h a List.mem_cons_self s hm.1, fun r t hs => ih htail (hm.2 r t hs)⟩

/-- The machine with a history variable beside its state. -/
def noted {υ : Type*} (note : υ → σ → α → ρ → σ → υ) (s : σ × υ) (a : α) : Option (ρ × σ × υ) :=
  (step s.1 a).map fun p => (p.1, p.2, note s.2 s.1 a p.1 p.2)

theorem noted_eq_some_iff {υ : Type*} (note : υ → σ → α → ρ → σ → υ) (s t : σ) (v w : υ) (a : α)
    (r : ρ) : noted step note (s, v) a = some (r, t, w) ↔
      step s a = some (r, t) ∧ w = note v s a r t := by
  simp only [noted, Option.map_eq_some_iff, Prod.mk.injEq, Prod.exists]
  constructor
  · rintro ⟨_, _, hs, rfl, rfl, rfl⟩
    exact ⟨hs, rfl⟩
  · rintro ⟨hs, rfl⟩
    exact ⟨r, t, hs, rfl, rfl, rfl⟩

/-- A history variable takes no part in the run. -/
theorem run_noted_iff {υ : Type*} (note : υ → σ → α → ρ → σ → υ) (s t : σ) (v : υ) (as : List α)
    (rs : List ρ) :
    run step s as = some (rs, t) ↔ ∃ w, run (noted step note) (s, v) as = some (rs, t, w) := by
  induction as generalizing s v rs with
  | nil => simp [run]
  | cons a as ih =>
    simp only [run_cons_iff, Prod.exists, noted_eq_some_iff]
    constructor
    · rintro ⟨r, u, qs, hs, hr, rfl⟩
      obtain ⟨w, hw⟩ := (ih u (note v s a r u) qs).mp hr
      exact ⟨w, r, u, note v s a r u, qs, ⟨hs, rfl⟩, hw, rfl⟩
    · rintro ⟨w, r, u, v', qs, ⟨hs, -⟩, hw, rfl⟩
      exact ⟨r, u, qs, hs, (ih u v' qs).mpr ⟨w, hw⟩, rfl⟩

variable {step}

theorem meets_noted_iff {υ : Type*} (note : υ → σ → α → ρ → σ → υ) {ok : σ → α → Prop} {s : σ}
    (v : υ) {as : List α} :
    Meets (noted step note) (fun s a => ok s.1 a) (s, v) as ↔ Meets step ok s as := by
  induction as generalizing s v with
  | nil => exact Iff.rfl
  | cons a as ih =>
    simp only [Meets, Prod.forall, noted_eq_some_iff]
    apply and_congr_right
    intro _
    constructor
    · intro h r t hs
      exact (ih _).mp (h r t _ ⟨hs, rfl⟩)
    · rintro h r t w ⟨hs, -⟩
      exact (ih w).mpr (h r t hs)

/-- Where admissible steps keep `I`, two conditions that agree in `I` hold of the same runs. -/
theorem meets_iff_of_invariant {ok₁ ok₂ : σ → α → Prop} (ok : σ → α → Prop) (I : σ → Prop)
    (hstep : ∀ s a r t, I s → ok s a → step s a = some (r, t) → I t)
    (hiff : ∀ s a, I s → ok s a → (ok₁ s a ↔ ok₂ s a))
    {s : σ} {as : List α} (hs : I s) (hok : Meets step ok s as) :
    Meets step ok₁ s as ↔ Meets step ok₂ s as := by
  induction as generalizing s with
  | nil => exact Iff.rfl
  | cons a as ih =>
    have htail (r : ρ) (t : σ) (hst : step s a = some (r, t)) :=
      ih (hstep s a r t hs hok.1 hst) (hok.2 r t hst)
    exact and_congr (hiff s a hs hok.1)
      (forall_congr' fun r => forall_congr' fun t => forall_congr' fun hst => htail r t hst)

/-- Two machines that differ in their outputs only run through the same states. -/
theorem run_states {ω : Type*} (step' : σ → α → Option (ω × σ)) (ok : σ → α → Prop)
    (hsame : ∀ s a, ok s a → (step s a).map Prod.snd = (step' s a).map Prod.snd)
    {s : σ} {as : List α} (hok : Meets step ok s as) :
    (run step s as).map Prod.snd = (run step' s as).map Prod.snd := by
  induction as generalizing s with
  | nil => rfl
  | cons a as ih =>
    have hs := hsame s a hok.1
    rw [run, run]
    cases hx : step s a with
    | none =>
      rw [hx, Option.map_none, eq_comm, Option.map_eq_none_iff] at hs
      rw [hs]
      rfl
    | some p =>
      obtain ⟨r, t⟩ := p
      rw [hx, Option.map_some, eq_comm, Option.map_eq_some_iff] at hs
      obtain ⟨⟨q, u⟩, hx', rfl⟩ := hs
      rw [hx', Option.bind_some, Option.bind_some, Option.map_map, Option.map_map]
      exact ih (hok.2 r u hx)

/-- The invariant rule: what one admissible step preserves, a run of them preserves. -/
theorem invariant (ok : σ → α → Prop) (I : σ → Prop)
    (hstep : ∀ s a r t, I s → ok s a → step s a = some (r, t) → I t)
    {s t : σ} {as : List α} {rs : List ρ} (hs : I s) (hok : Meets step ok s as)
    (hrun : run step s as = some (rs, t)) : I t := by
  induction as generalizing s rs with
  | nil => simp_all
  | cons a as ih =>
    obtain ⟨r, u, qs, hsu, hr, rfl⟩ := (run_cons_iff step s t a as rs).mp hrun
    exact ih (hstep s a r u hs hok.1 hsu) (hok.2 r u hsu) hr

/-- The exactness rule: where the admissible steps keep the invariant `I`, and no other step leads
to a state in `P`, all states of a run are in `P` exactly if all its steps are admissible. -/
theorem always_iff_meets (ok : σ → α → Prop) (I P : σ → Prop) {as : List α}
    (hstep : ∀ s, ∀ a ∈ as, ∀ r t, I s → step s a = some (r, t) →
      (ok s a → I t) ∧ (P t → ok s a))
    (hP : ∀ s, I s → P s) {s t : σ} {rs : List ρ} (hs : I s)
    (hrun : run step s as = some (rs, t)) :
    (∀ k qs u, run step s (as.take k) = some (qs, u) → P u) ↔ Meets step ok s as := by
  induction as generalizing s rs with
  | nil =>
    refine ⟨fun _ => trivial, fun _ k qs u hu => ?_⟩
    rw [List.take_nil, run_nil, Option.some_inj, Prod.mk.injEq] at hu
    rw [← hu.2]
    exact hP s hs
  | cons a as ih =>
    obtain ⟨r, v, ps, hsv, hr, rfl⟩ := (run_cons_iff step s t a as rs).mp hrun
    obtain ⟨hkeep, hexact⟩ := hstep s a List.mem_cons_self r v hs hsv
    -- Each prefix but the empty one starts with the step `a`; its rest is a prefix of `as`.
    have htail (hv : I v) := ih (fun s b hb => hstep s b (List.mem_cons_of_mem a hb)) hv hr
    constructor
    · intro hall
      have hfirst : P v := by
        apply hall 1 [r] v
        rw [List.take_succ_cons, List.take_zero, run_cons_iff]
        exact ⟨r, v, [], hsv, rfl, rfl⟩
      have hok := hexact hfirst
      refine ⟨hok, fun r' v' hs' => ?_⟩
      rw [hsv, Option.some_inj, Prod.mk.injEq] at hs'
      rw [← hs'.2]
      apply (htail (hkeep hok)).mp
      intro k qs u hu
      apply hall (k+1) (r :: qs) u
      rw [List.take_succ_cons, run_cons_iff]
      exact ⟨r, v, qs, hsv, hu, rfl⟩
    · rintro ⟨hok, hrest⟩ k qs u hu
      cases k with
      | zero =>
        rw [List.take_zero, run_nil, Option.some_inj, Prod.mk.injEq] at hu
        rw [← hu.2]
        exact hP s hs
      | succ k =>
        rw [List.take_succ_cons, run_cons_iff] at hu
        obtain ⟨r', v', qs', hs', hu, -⟩ := hu
        rw [hsv, Option.some_inj, Prod.mk.injEq] at hs'
        rw [← hs'.2] at hu
        exact (htail (hkeep hok)).mpr (hrest r v hsv) k qs' u hu

/-- The progress rule: where admissible steps are defined, keep `I` and show outputs in `P`,
so do runs. -/
theorem total (ok : σ → α → Prop) (I : σ → Prop) (P : ρ → Prop)
    (hstep : ∀ s a, I s → ok s a → ∃ r t, step s a = some (r, t) ∧ P r ∧ I t)
    {s : σ} {as : List α} (hs : I s) (hok : Meets step ok s as) :
    ∃ rs t, run step s as = some (rs, t) ∧ (∀ r ∈ rs, P r) ∧ I t := by
  induction as generalizing s with
  | nil => exact ⟨[], s, rfl, fun _ h => absurd h List.not_mem_nil, hs⟩
  | cons a as ih =>
    obtain ⟨r, u, hsu, hr, hu⟩ := hstep s a hs hok.1
    obtain ⟨rs, t, hrun, hrs, ht⟩ := ih hu (hok.2 r u hsu)
    refine ⟨r :: rs, t, (run_cons_iff step s t a as _).mpr ⟨r, u, rs, hsu, hrun, rfl⟩, ?_, ht⟩
    intro q hq
    rcases List.mem_cons.mp hq with rfl | hq
    · exact hr
    · exact hrs q hq

/-- The progress rule with history: `I` may speak of all inputs so far and their outputs. -/
theorem history (ok : σ → α → Prop) (I : List (α × ρ) → σ → Prop)
    (hstep : ∀ past s a, I past s → ok s a →
      ∃ r t, step s a = some (r, t) ∧ I (past ++ [(a, r)]) t)
    {past : List (α × ρ)} {s : σ} {as : List α} (hs : I past s) (hok : Meets step ok s as) :
    ∃ rs t, run step s as = some (rs, t) ∧ rs.length = as.length ∧ I (past ++ as.zip rs) t := by
  induction as generalizing past s with
  | nil =>
    refine ⟨[], s, rfl, rfl, ?_⟩
    rw [List.zip_nil_left, List.append_nil]
    exact hs
  | cons a as ih =>
    obtain ⟨r, u, hsu, hu⟩ := hstep past s a hs hok.1
    obtain ⟨rs, t, hrun, hlen, ht⟩ := ih hu (hok.2 r u hsu)
    refine ⟨r :: rs, t, (run_cons_iff step s t a as _).mpr ⟨r, u, rs, hsu, hrun, rfl⟩,
      congrArg (· + 1) hlen, ?_⟩
    rw [List.zip_cons_cons, List.append_cons]
    exact ht

/-- A total machine that says what the outputs should be. -/
def outputs {υ ω : Type*} (spec : υ → α → ω × υ) : υ → List α → List ω
  | _, [] => []
  | v, a :: as => (spec v a).1 :: outputs spec (spec v a).2 as

/-- The state a total machine ends in. -/
def final {υ ω : Type*} (spec : υ → α → ω × υ) : υ → List α → υ
  | v, [] => v
  | v, a :: as => final spec (spec v a).2 as

theorem outputs_getElem? {υ ω : Type*} (spec : υ → α → ω × υ) (v : υ) (as : List α) (k : ℕ) :
    (outputs spec v as)[k]? = as[k]?.map fun a => (spec (final spec v (as.take k)) a).1 := by
  induction as generalizing v k with
  | nil => rfl
  | cons a as ih =>
    cases k with
    | zero => rfl
    | succ k => exact ih (spec v a).2 k

theorem run_total_spec {υ ω : Type*} (spec : υ → α → ω × υ) (v : υ) (as : List α) :
    run (fun v a => some (spec v a)) v as = some (outputs spec v as, final spec v as) := by
  induction as generalizing v with
  | nil => rfl
  | cons a as ih =>
    rw [run, Option.bind_some, ih]
    rfl

/-- The simulation rule for two machines fed the same inputs: a pair of steps that keeps `R`
and shows outputs related by `O` makes both runs defined, output by output related. -/
theorem lockstep {υ ω : Type*} (step' : υ → α → Option (ω × υ)) (O : ρ → ω → Prop)
    (ok : σ → α → Prop) (R : σ → υ → Prop)
    (hstep : ∀ s v a, R s v → ok s a →
      ∃ r t q w, step s a = some (r, t) ∧ step' v a = some (q, w) ∧ O r q ∧ R t w)
    {s : σ} {v : υ} {as : List α} (hs : R s v) (hok : Meets step ok s as) :
    ∃ rs t qs w, run step s as = some (rs, t) ∧ run step' v as = some (qs, w) ∧
      List.Forall₂ O rs qs ∧ R t w := by
  induction as generalizing s v with
  | nil => exact ⟨[], s, [], v, rfl, rfl, .nil, hs⟩
  | cons a as ih =>
    obtain ⟨r, t, q, w, hst, hvw, hout, ht⟩ := hstep s v a hs hok.1
    obtain ⟨rs, t', qs, w', hr, hq, houts, ht'⟩ := ih ht (hok.2 r t hst)
    exact ⟨r :: rs, t', q :: qs, w', (run_cons_iff step s t' a as _).mpr ⟨r, t, rs, hst, hr, rfl⟩,
      (run_cons_iff step' v w' a as _).mpr ⟨q, w, qs, hvw, hq, rfl⟩, .cons hout houts, ht'⟩

/-- The refinement rule: the second machine is total and says what the outputs should be. -/
theorem refines {υ ω : Type*} (spec : υ → α → ω × υ) (O : ρ → ω → Prop) (ok : σ → α → Prop)
    (R : σ → υ → Prop)
    (hstep : ∀ s v a, R s v → ok s a →
      ∃ r t, step s a = some (r, t) ∧ O r (spec v a).1 ∧ R t (spec v a).2)
    {s : σ} {v : υ} {as : List α} (hs : R s v) (hok : Meets step ok s as) :
    ∃ rs t, run step s as = some (rs, t) ∧ List.Forall₂ O rs (outputs spec v as) ∧
      R t (final spec v as) := by
  obtain ⟨rs, t, qs, w, hr, hq, hout, ht⟩ := lockstep (fun v a => some (spec v a)) O ok R
    (fun s v a hs ha => by
      obtain ⟨r, t, hst, hout, ht⟩ := hstep s v a hs ha
      exact ⟨r, t, _, _, hst, rfl, hout, ht⟩) hs hok
  rw [run_total_spec, Option.some_inj, Prod.mk.injEq] at hq
  obtain ⟨rfl, rfl⟩ := hq
  exact ⟨rs, t, hr, hout, ht⟩

/-- The simulation rule for a machine that is partial itself: what it does, the other does. -/
theorem simulates {υ : Type*} (step' : υ → α → Option (ρ × υ)) (R : σ → υ → Prop)
    (hstep : ∀ s v a r t, R s v → step s a = some (r, t) → ∃ w, step' v a = some (r, w) ∧ R t w)
    {s t : σ} {v : υ} {as : List α} {rs : List ρ} (hs : R s v)
    (hrun : run step s as = some (rs, t)) : ∃ w, run step' v as = some (rs, w) ∧ R t w := by
  induction as generalizing s v rs with
  | nil =>
    obtain ⟨rfl, rfl⟩ := Prod.mk.inj (Option.some.inj hrun)
    exact ⟨v, rfl, hs⟩
  | cons a as ih =>
    obtain ⟨r, s', qs, hst, hr, rfl⟩ := (run_cons_iff step s t a as rs).mp hrun
    obtain ⟨v', hvw, hs'⟩ := hstep s v a r s' hs hst
    obtain ⟨w, hw, ht⟩ := ih hs' hr
    exact ⟨w, (run_cons_iff step' v w a as _).mpr ⟨r, v', qs, hvw, hw, rfl⟩, ht⟩

end OperatingSystems.Mealy
