import OperatingSystems.WebThreads
import Mathlib.Data.List.Nodup
import Mathlib.Data.List.Range
import Mathlib.Data.Option.Basic
import Mathlib.Order.Basic

/-! The handover of requests from the listener to the workers: it is exact in precisely those
runs in which each thread enters the mutex section alone. -/
namespace OperatingSystems.Web

/-- What an atomic step does to the buffer: nothing, a store, or a pick-up. -/
theorem step_cases (t u : Server) (a : Action) (h : step t a = some ((), u)) :
    (u.request = t.request ∧ u.log = t.log ∧ u.pickups = t.pickups ∧ u.backlog = t.backlog ∧
      Alone t a) ∨
    (∃ s, a = .producerSection ∧ u.request = Function.update t.request t.sem_full
        (some ⟨t.log.length, s⟩) ∧ u.log = t.log ++ [⟨t.log.length, s⟩] ∧
      u.pickups = t.pickups ∧ u.backlog = t.backlog + 1 ∧ t.posting = 0) ∨
    (∃ j, a = .consumerSection j ∧ u.request = t.request ∧ u.log = t.log ∧
      u.pickups = t.pickups ++ [t.request t.sem_full] ∧ u.backlog + 1 = t.backlog ∧
      1 ≤ t.takers) := by
  cases moves_of_step h with
  | producerWait s hidle hempty =>
    left
    simp [Server.backlog, Server.posting, Server.takers, hidle, Alone]
  | producerSection s hs =>
    right
    left
    refine ⟨s, rfl, rfl, rfl, rfl, ?_, by simp [Server.posting, hs]⟩
    simp only [Server.backlog, Server.posting, Server.takers, Server.store, hs]
    simp
    omega
  | producerPost hstored =>
    left
    -- The request that was being posted is now counted by the semaphore.
    simp only [Server.backlog, Server.posting, Server.takers, hstored, Alone]
    simp
  | consumerWait j hidle hfull =>
    left
    -- The worker that got past `sem_wait` is counted as a taker instead of by the semaphore.
    have hcount := count_set_pool t.pool j .idle .waited .waited hidle
    simp only [reduceCtorEq, if_false, if_true] at hcount
    refine ⟨rfl, rfl, rfl, ?_, trivial⟩
    simp only [Server.backlog, Server.takers]
    change t.sem_full - 1 + t.posting + _ = _
    omega
  | consumerSection j hwaited =>
    right
    right
    have hcount := count_set_pool t.pool j .waited (.picked (t.request t.sem_full)) .waited hwaited
    simp only [reduceCtorEq, if_false, if_true] at hcount
    refine ⟨j, rfl, rfl, rfl, rfl, ?_, ?_⟩
    · change t.sem_full + t.posting + _ + 1 = t.sem_full + t.posting + t.pool.count .waited
      change t.sem_full + t.posting + (t.pool.set j _).count .waited + 1 = _
      omega
    · change 1 ≤ t.pool.count .waited
      omega
  | consumerPost j req hpicked =>
    left
    have hcount := count_set_pool t.pool j (.picked req) (.processing req) .waited hpicked
    simp only [reduceCtorEq, if_false] at hcount
    refine ⟨rfl, rfl, rfl, ?_, trivial⟩
    simp only [Server.backlog, Server.posting, Server.takers]
    omega
  | consumerProcess j req hprocessing =>
    left
    have hcount := count_set_pool t.pool j (.processing req) .idle .waited hprocessing
    simp only [reduceCtorEq, if_false] at hcount
    refine ⟨rfl, rfl, rfl, ?_, trivial⟩
    simp only [Server.backlog, Server.posting, Server.takers]
    omega

/-- The invariant of the runs in which threads enter alone: stores are numbered, nothing is
lost or duplicated, and a slot past the live part holds nothing that still waits. -/
structure Sound (t : Server) : Prop where
  numbered : t.log.map Ticket.number = List.range t.log.length
  intact : Intact t
  stale : ∀ i, t.backlog ≤ i → t.request i = none ∨ t.request i ∈ t.pickups

theorem sound_init (n : ℕ) : Sound (init n) := by
  have hcount : (List.replicate n Consumer.idle).count .waited = 0 := by
    simp [List.count_replicate]
  have hback : (init n).backlog = 0 := by
    simp [Server.backlog, Server.posting, Server.takers, init, hcount]
  refine ⟨rfl, ?_, fun _ _ => Or.inl rfl⟩
  rw [Intact, Server.waiting, hback]
  exact List.Perm.nil

theorem Sound.nodup {t : Server} (h : Sound t) : (t.pickups ++ t.waiting).Nodup := by
  have hlog : t.log.Nodup := by
    apply List.Nodup.of_map Ticket.number
    rw [h.numbered]
    exact List.nodup_range
  exact h.intact.nodup_iff.mpr (hlog.map (Option.some_injective _))

theorem waiting_of_backlog (t u : Server) (hreq : u.request = t.request)
    (hback : u.backlog = t.backlog) : u.waiting = t.waiting := by
  rw [Server.waiting, Server.waiting, hreq, hback]

/-- Entering alone keeps the invariant. -/
theorem Sound.of_step {t u : Server} {a : Action} (h : Sound t) (hstep : step t a = some ((), u))
    (hok : Alone t a) : Sound u := by
  have hperm := h.intact
  rcases step_cases t u a hstep with ⟨hreq, hlog, hpick, hback, _⟩ |
    ⟨s, rfl, hreq, hlog, hpick, hback, hpost⟩ | ⟨j, rfl, hreq, hlog, hpick, hback, _⟩
  · refine ⟨by rw [hlog]; exact h.numbered, ?_, ?_⟩
    · rw [Intact, waiting_of_backlog t u hreq hback, hlog, hpick]
      exact hperm
    · rw [hreq, hpick, hback]
      exact h.stale
  · -- a store alone goes to the slot just past the live part
    have hslot : t.sem_full = t.backlog := by
      have htakers : t.takers = 0 := hok
      rw [Server.backlog, htakers, hpost]
      rfl
    have hwait : u.waiting = t.waiting ++ [some ⟨t.log.length, s⟩] := by
      rw [Server.waiting, hback, List.range_succ, List.map_append, List.map_singleton, hreq,
        hslot, Function.update_self, Server.waiting]
      congr 1
      apply List.map_congr_left
      intro i hi
      rw [Function.update_of_ne (List.mem_range.mp hi).ne]
    refine ⟨?_, ?_, ?_⟩
    · rw [hlog, List.map_append, h.numbered, List.length_append, List.map_singleton]
      exact List.range_succ.symm
    · rw [Intact, hpick, hwait, hlog, List.map_append, ← List.append_assoc, List.map_singleton]
      exact hperm.append_right _
    · intro i hi
      rw [hback] at hi
      rw [hreq, hpick, Function.update_of_ne (by omega)]
      exact h.stale i (by omega)
  · -- a pick-up alone takes the top of the live part
    have hslot : t.backlog = t.sem_full + 1 := by
      rw [Server.backlog, hok.1, hok.2]
    have hwait : t.waiting = u.waiting ++ [t.request t.sem_full] := by
      rw [Server.waiting, hslot, List.range_succ, List.map_append, List.map_singleton,
        Server.waiting, hreq, show u.backlog = t.sem_full from by omega]
    refine ⟨by rw [hlog]; exact h.numbered, ?_, ?_⟩
    · rw [Intact, hpick, hlog]
      refine List.Perm.trans ?_ hperm
      rw [hwait, List.append_assoc]
      exact List.Perm.append_left _ List.perm_append_comm
    · intro i hi
      rw [hreq, hpick]
      by_cases hi' : i = t.sem_full
      · right
        rw [hi']
        exact List.mem_append_right _ List.mem_cons_self
      · rcases h.stale i (by omega) with h1 | h1
        · exact Or.inl h1
        · exact Or.inr (List.mem_append_left _ h1)

/-- A store while a worker is on its way lands on a waiting request, which is lost. -/
theorem Sound.store_breaks {t u : Server} (h : Sound t) {s : ℤ}
    (hreq : u.request = Function.update t.request t.sem_full (some ⟨t.log.length, s⟩))
    (hlog : u.log = t.log ++ [⟨t.log.length, s⟩]) (hpick : u.pickups = t.pickups)
    (hback : u.backlog = t.backlog + 1) (htakers : 0 < t.takers) : ¬Intact u := by
  have hnodup := h.nodup
  have hperm := h.intact
  intro hu
  have hslot : t.sem_full < t.backlog := by
    rw [Server.backlog]
    omega
  -- The request `x` there was waiting, so it must be found in `u`, among the pick-ups or again in
  -- the live part.
  have hx : t.request t.sem_full ∈ t.waiting :=
    List.mem_map.mpr ⟨t.sem_full, List.mem_range.mpr hslot, rfl⟩
  have hxlog : t.request t.sem_full ∈ t.log.map some :=
    hperm.mem_iff.mp (List.mem_append_right _ hx)
  have hxpick : t.request t.sem_full ∉ t.pickups := fun hin =>
    (List.nodup_append.mp hnodup).2.2 _ hin _ hx rfl
  have hxu : t.request t.sem_full ∈ u.pickups ++ u.waiting := by
    apply hu.mem_iff.mpr
    rw [hlog, List.map_append]
    exact List.mem_append_left _ hxlog
  rw [hpick, List.mem_append] at hxu
  rcases hxu with hin | hin
  · exact hxpick hin
  · obtain ⟨i, hi, he⟩ := List.mem_map.mp hin
    rw [List.mem_range, hback] at hi
    rw [hreq] at he
    by_cases hi' : i = t.sem_full
    · rw [hi', Function.update_self] at he
      obtain ⟨x, hxl, hxe⟩ := List.mem_map.mp hxlog
      rw [← he, Option.some_inj] at hxe
      have hnum : t.log.length ∈ t.log.map Ticket.number :=
        List.mem_map.mpr ⟨x, hxl, by rw [hxe]⟩
      rw [h.numbered, List.mem_range] at hnum
      omega
    · rw [Function.update_of_ne hi'] at he
      by_cases hlast : i = t.backlog
      · rcases h.stale i hlast.ge with hnone | hold
        · rw [hnone] at he
          rw [← he] at hxlog
          simp at hxlog
        · exact hxpick (he ▸ hold)
      · -- two slots of the live part never hold the same request
        have hinj := List.inj_on_of_nodup_map (List.nodup_append.mp hnodup).2.1
        exact hi' (hinj (List.mem_range.mpr (by omega)) (List.mem_range.mpr hslot) he)

/-- A pick-up while another thread is in the gap reads a slot that stays in the live part, so its
request is there twice. -/
theorem Sound.pickUp_breaks {t u : Server} (h : Sound t) (hreq : u.request = t.request)
    (hlog : u.log = t.log) (hpick : u.pickups = t.pickups ++ [t.request t.sem_full])
    (hback : u.backlog + 1 = t.backlog) (htakers : 1 ≤ t.takers)
    (hok : ¬(t.takers = 1 ∧ t.posting = 0)) : ¬Intact u := by
  intro hu
  have hslot : t.sem_full < u.backlog := by
    have hdef : t.backlog = t.sem_full + t.posting + t.takers := rfl
    omega
  have hlog' : (u.log.map some).Nodup := by
    rw [hlog]
    exact h.intact.nodup_iff.mp h.nodup
  -- What is picked up and what waits would have to be apart.
  have hdup := (List.nodup_append.mp (hu.nodup_iff.mpr hlog')).2.2
  refine hdup (t.request t.sem_full) ?_ (t.request t.sem_full) ?_ rfl
  · rw [hpick]
    exact List.mem_append_right _ List.mem_cons_self
  · rw [Server.waiting, hreq]
    exact List.mem_map.mpr ⟨t.sem_full, List.mem_range.mpr hslot, rfl⟩

/-- Entering while another thread is in the gap breaks the handover at once. -/
theorem Sound.broken {t u : Server} {a : Action} (h : Sound t) (hstep : step t a = some ((), u))
    (hok : ¬Alone t a) : ¬Intact u := by
  rcases step_cases t u a hstep with ⟨_, _, _, _, halone⟩ |
    ⟨s, rfl, hreq, hlog, hpick, hback, _⟩ | ⟨j, rfl, hreq, hlog, hpick, hback, htakers⟩
  · exact absurd halone hok
  · exact h.store_breaks hreq hlog hpick hback (Nat.pos_of_ne_zero hok)
  · exact h.pickUp_breaks hreq hlog hpick hback htakers hok

/-- For any number of workers and any interleaving: every state along the run hands requests
over exactly if and only if every mutex section of the run is entered alone. -/
theorem handoff_exact_iff (numThread : ℕ) (as : List Action) (rs : List Unit) (t : Server)
    (hrun : Mealy.run step (init numThread) as = some (rs, t)) :
    (∀ bs, bs <+: as → ∀ qs u, Mealy.run step (init numThread) bs = some (qs, u) → Intact u) ↔
      Mealy.Meets step Alone (init numThread) as := by
  have hstep (v : Server) (a : Action) (u : Server) (hv : Sound v) (hst : step v a = some ((), u)) :
      (Alone v a → Sound u) ∧ (Intact u → Alone v a) := by
    refine ⟨hv.of_step hst, fun hu => ?_⟩
    by_contra hok
    exact hv.broken hst hok hu
  rw [← Mealy.always_iff_meets Alone Sound Intact (fun v a _ _ u => hstep v a u)
    (fun _ hv => hv.intact) (sound_init numThread) hrun]
  constructor
  · intro hall k
    exact hall _ (List.take_prefix k as)
  · intro hall bs hbs
    rw [List.prefix_iff_eq_take.mp hbs]
    exact hall bs.length

/-- One request handed to one worker. -/
theorem handoff_exact_iff_single :
    (∀ bs, bs <+: [.producerWait 7, .producerSection, .producerPost, .consumerWait 0,
        .consumerSection 0] →
      ∀ qs u, Mealy.run step (init 1) bs = some (qs, u) → Intact u) ↔
      Mealy.Meets step Alone (init 1) [.producerWait 7, .producerSection, .producerPost,
        .consumerWait 0, .consumerSection 0] :=
  handoff_exact_iff 1 _ _ _ rfl

/-- Two requests, two workers that both pass `sem_wait` before either reads the buffer: both
read slot 0, so the first request is handed out twice and the second is lost. -/
theorem handoff_not_exact : ∃ rs t,
    Mealy.run step (init 2) [.producerWait 7, .producerSection, .producerPost,
      .producerWait 8, .producerSection, .producerPost, .consumerWait 0, .consumerWait 1,
      .consumerSection 0, .consumerSection 1] = some (rs, t) ∧
    t.log = [⟨0, 7⟩, ⟨1, 8⟩] ∧ t.pickups = [some ⟨0, 7⟩, some ⟨0, 7⟩] ∧ ¬Intact t := by
  refine ⟨_, _, rfl, ?_, ?_, ?_⟩ <;> decide

end OperatingSystems.Web
