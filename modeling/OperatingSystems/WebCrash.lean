import OperatingSystems.WebBuffer

/-! The threads of `webserver_multi.c` with the ways they end: a worker that `process` ends before it
reads its request, the listener when `accept` fails, and `thread_control`, which joins it and goes
through the pool. -/
namespace OperatingSystems.Web

/-- Where `thread_control` is after it has created the threads; at its end the process ends. -/
inductive Control
  | joining
  | checking (i : ℕ)
  | ended
  deriving DecidableEq, Repr

/-- `crashed` tells which workers have called `pthread_exit`. -/
structure System where
  server : Server
  crashed : ℕ → Bool
  listening : Bool
  control : Control

def boot (numThread : ℕ) : System := ⟨init numThread, fun _ => false, true, .joining⟩

inductive Event
  | thread (a : Action)
  | crash (j : ℕ)
  | acceptFails
  | control
  deriving DecidableEq, Repr

/-- The thread of the action is still in its loop. -/
def System.runs (t : System) : Action → Bool
  | .producerWait _ => t.listening
  | .producerSection => true
  | .producerPost => true
  | .consumerWait j => !t.crashed j
  | .consumerSection j => !t.crashed j
  | .consumerPost j => !t.crashed j
  | .consumerProcess j => !t.crashed j

/-- `pthread_tryjoin_np` is 0 for a thread that has ended, so it is the others that get a second
thread. -/
def System.check (t : System) (i : ℕ) : System :=
  if t.crashed i then { t with control := .checking (i + 1) }
  else { t with
    server := { t.server with pool := t.server.pool ++ [.idle] }
    control := .checking (i + 1) }

def System.next (numThread : ℕ) (t : System) : Event → Option (Unit × System)
  | .thread a =>
    if t.runs a then (step t.server a).map fun p => ((), { t with server := p.2 }) else none
  | .crash j =>
    match t.server.pool[j]? with
    | some (.processing _) =>
      if t.crashed j then none
      else some ((), { t with crashed := Function.update t.crashed j true })
    | _ => none
  | .acceptFails =>
    if t.listening ∧ t.server.listener = .idle then some ((), { t with listening := false })
    else none
  | .control =>
    match t.control with
    | .joining => if t.listening then none else some ((), { t with control := .checking 0 })
    | .checking i => some ((), if i < numThread then t.check i else { t with control := .ended })
    | .ended => none

/-- One step, as long as `main` has not returned. -/
def systemStep (numThread : ℕ) (t : System) (e : Event) : Option (Unit × System) :=
  if t.control = .ended then none else t.next numThread e

/-- The steps of the system, with what each needs and leaves. -/
inductive Goes (numThread : ℕ) (t : System) : Event → System → Prop
  | thread (a : Action) (s : Server) : t.runs a = true → step t.server a = some ((), s) →
      Goes numThread t (.thread a) { t with server := s }
  | crash (j : ℕ) (req : Option Ticket) : t.server.pool[j]? = some (.processing req) →
      t.crashed j = false →
      Goes numThread t (.crash j) { t with crashed := Function.update t.crashed j true }
  | acceptFails : t.listening = true → t.server.listener = .idle →
      Goes numThread t .acceptFails { t with listening := false }
  | join : t.control = .joining → t.listening = false →
      Goes numThread t .control { t with control := .checking 0 }
  | check (i : ℕ) : t.control = .checking i → i < numThread →
      Goes numThread t .control (t.check i)
  | finish (i : ℕ) : t.control = .checking i → Goes numThread t .control { t with control := .ended }

variable {numThread : ℕ} {t u : System} {e : Event}

theorem goes_of_step (h : systemStep numThread t e = some ((), u)) : Goes numThread t e u := by
  by_cases hended : t.control = .ended
  · rw [systemStep, if_pos hended] at h
    cases h
  rw [systemStep, if_neg hended] at h
  cases e with
  | thread a =>
    simp only [System.next] at h
    split_ifs at h with hruns
    obtain ⟨⟨⟨⟩, s⟩, hstep, hs⟩ := Option.map_eq_some_iff.mp h
    obtain ⟨-, rfl⟩ := Prod.mk.inj hs
    exact .thread a s hruns hstep
  | crash j =>
    simp only [System.next] at h
    split at h
    · rename_i req hreq
      split_ifs at h with hcrashed
      obtain ⟨-, rfl⟩ := Prod.mk.inj (Option.some.inj h)
      exact .crash j req hreq (Bool.eq_false_iff.mpr hcrashed)
    · cases h
  | acceptFails =>
    simp only [System.next] at h
    split_ifs at h with hfails
    obtain ⟨-, rfl⟩ := Prod.mk.inj (Option.some.inj h)
    exact .acceptFails hfails.1 hfails.2
  | control =>
    cases hc : t.control with
    | joining =>
      simp only [System.next, hc] at h
      split_ifs at h with hlistening
      obtain ⟨-, rfl⟩ := Prod.mk.inj (Option.some.inj h)
      exact .join hc (Bool.eq_false_iff.mpr hlistening)
    | checking i =>
      simp only [System.next, hc, Option.some.injEq, Prod.mk.injEq, true_and] at h
      split_ifs at h with hi
      · exact h ▸ .check i hc hi
      · exact h ▸ .finish i hc
    | ended => exact absurd hc hended

/-- What holds along every run: the permits, the place of a crashed worker, and a pool that does not
shrink. -/
structure Orderly (numThread : ℕ) (t : System) : Prop where
  conserved : Conserved t.server
  crashed : ∀ j, t.crashed j = true → ∃ req, t.server.pool[j]? = some (.processing req)
  pool : numThread ≤ t.server.pool.length
  listening : t.listening = true → t.control = .joining

theorem orderly_boot (numThread : ℕ) : Orderly numThread (boot numThread) :=
  ⟨conserved_init numThread, fun _ h => Bool.noConfusion h, by simp [boot, init], fun _ => rfl⟩

/-- The threads that act leave the place of a crashed worker alone. -/
theorem pool_of_step {a : Action} {s : Server} (hruns : t.runs a = true)
    (hstep : step t.server a = some ((), s)) {j : ℕ} (hj : t.crashed j = true) :
    s.pool[j]? = t.server.pool[j]? := by
  have hne {k : ℕ} (hk : (!t.crashed k) = true) : k ≠ j := by
    rintro rfl
    simp [hj] at hk
  cases moves_of_step hstep with
  | producerWait => rfl
  | producerSection => rfl
  | producerPost => rfl
  | consumerWait k => exact List.getElem?_set_ne (hne hruns)
  | consumerSection k => exact List.getElem?_set_ne (hne hruns)
  | consumerPost k => exact List.getElem?_set_ne (hne hruns)
  | consumerProcess k => exact List.getElem?_set_ne (hne hruns)

theorem length_pool_of_step {s s' : Server} {a : Action} (hstep : step s a = some ((), s')) :
    s'.pool.length = s.pool.length := by
  cases moves_of_step hstep with
  | producerWait => rfl
  | producerSection => rfl
  | producerPost => rfl
  | consumerWait => exact List.length_set
  | consumerSection => exact List.length_set
  | consumerPost => exact List.length_set
  | consumerProcess => exact List.length_set

/-- One thread more has no permit. -/
theorem Conserved.spawn {s : Server} (h : Conserved s) :
    Conserved { s with pool := s.pool ++ [.idle] } := by
  have hcount : (s.pool ++ [Consumer.idle]).countP Consumer.inFlight =
      s.pool.countP Consumer.inFlight := by
    rw [List.countP_append]
    rfl
  simp only [Conserved, Server.inFlight, hcount] at h ⊢
  exact h

theorem Orderly.of_step (h : Orderly numThread t) (hstep : systemStep numThread t e = some ((), u)) :
    Orderly numThread u := by
  obtain ⟨hconserved, hcrashed, hpool, hlistening⟩ := h
  cases goes_of_step hstep with
  | thread a s hruns hs =>
    refine ⟨hconserved.of_step hs, fun j hj => ?_, ?_, hlistening⟩
    · change ∃ req, s.pool[j]? = _
      rw [pool_of_step hruns hs hj]
      exact hcrashed j hj
    · change numThread ≤ s.pool.length
      rwa [length_pool_of_step hs]
  | crash j req hreq hj =>
    refine ⟨hconserved, fun k hk => ?_, hpool, hlistening⟩
    by_cases hkj : k = j
    · exact ⟨req, hkj ▸ hreq⟩
    · have hkeep : Function.update t.crashed j true k = t.crashed k := Function.update_of_ne hkj ..
      exact hcrashed k (hkeep ▸ hk)
  | acceptFails => exact ⟨hconserved, hcrashed, hpool, fun hl => Bool.noConfusion hl⟩
  | join hc hl => exact ⟨hconserved, hcrashed, hpool, fun hl' => absurd hl' (by simp [hl])⟩
  | check i hc hi =>
    have hnot : ¬t.listening = true := by
      intro hl
      rw [hlistening hl] at hc
      cases hc
    unfold System.check
    split_ifs with hcrash
    · exact ⟨hconserved, hcrashed, hpool, fun hl => absurd hl hnot⟩
    · refine ⟨hconserved.spawn, fun j hj => ?_, ?_, fun hl => absurd hl hnot⟩
      · obtain ⟨req, hreq⟩ := hcrashed j hj
        refine ⟨req, ?_⟩
        obtain ⟨hlt, -⟩ := List.getElem?_eq_some_iff.mp hreq
        exact (List.getElem?_append_left hlt).trans hreq
      · change numThread ≤ (t.server.pool ++ [Consumer.idle]).length
        rw [List.length_append]
        omega
  | finish i hc =>
    refine ⟨hconserved, hcrashed, hpool, fun hl => ?_⟩
    rw [hlistening hl] at hc
    cases hc

theorem orderly_of_run {es : List Event} {rs : List Unit}
    (hrun : Mealy.run (systemStep numThread) (boot numThread) es = some (rs, t)) :
    Orderly numThread t :=
  Mealy.invariant (fun _ _ => True) (Orderly numThread)
    (fun _ _ _ _ h _ hstep => h.of_step hstep) (orderly_boot numThread)
    (Mealy.meets_of_forall _ _ _ _ fun _ _ _ => trivial) hrun

/-! ### Where the server stops -/

/-- No thread can go on, whatever connection comes in. -/
def Stuck (numThread : ℕ) (t : System) : Prop :=
  ∀ e, e ≠ .acceptFails → systemStep numThread t e = none

/-- A worker that cannot go on is crashed, or waits for a request. -/
theorem Stuck.worker (h : Stuck numThread t) (hended : t.control ≠ .ended) {j : ℕ} {c : Consumer}
    (hc : t.server.pool[j]? = some c) (hj : t.crashed j = false) :
    c = .idle ∧ t.server.sem_full = 0 := by
  have hnone (a : Action) (hruns : t.runs a = true) : step t.server a = none := by
    have hthread := h (.thread a) Event.noConfusion
    rw [systemStep, if_neg hended, System.next, if_pos hruns] at hthread
    exact Option.map_eq_none_iff.mp hthread
  cases c with
  | idle =>
    have hwait := hnone (.consumerWait j) (by simp [System.runs, hj])
    simp only [step, hc, true_and, ite_eq_right_iff, reduceCtorEq, imp_false] at hwait
    exact ⟨rfl, by omega⟩
  | waited =>
    have hsection := hnone (.consumerSection j) (by simp [System.runs, hj])
    simp [step, hc] at hsection
  | picked req =>
    have hpost := hnone (.consumerPost j) (by simp [System.runs, hj])
    simp [step, hc] at hpost
  | processing req =>
    have hprocess := hnone (.consumerProcess j) (by simp [System.runs, hj])
    simp [step, hc] at hprocess

/-- Every worker has been ended, and the buffer is full of requests that nobody takes. -/
structure Abandoned (t : System) : Prop where
  listening : t.listening = true
  idle : t.server.listener = .idle
  full : t.server.sem_full = MAX_REQUEST
  crashed : ∀ j < t.server.pool.length, t.crashed j = true

theorem Stuck.abandoned (h : Stuck numThread t) (ho : Orderly numThread t)
    (hended : t.control ≠ .ended) : Abandoned t := by
  have hnone (a : Action) (hruns : t.runs a = true) : step t.server a = none := by
    have hthread := h (.thread a) Event.noConfusion
    rw [systemStep, if_neg hended, System.next, if_pos hruns] at hthread
    exact Option.map_eq_none_iff.mp hthread
  have hlistening : t.listening = true := by
    have hcontrol := h .control Event.noConfusion
    rw [systemStep, if_neg hended] at hcontrol
    by_contra hl
    cases hc : t.control with
    | joining => simp [System.next, hc, hl] at hcontrol
    | checking i => simp [System.next, hc] at hcontrol
    | ended => exact hended hc
  have hidle : t.server.listener = .idle := by
    cases hp : t.server.listener with
    | idle => rfl
    | waited s =>
      have hsection := hnone .producerSection rfl
      simp [step, hp] at hsection
    | stored =>
      have hpost := hnone .producerPost rfl
      simp [step, hp] at hpost
  have hempty : t.server.sem_empty = 0 := by
    have hwait := hnone (.producerWait 0) hlistening
    simp only [step, hidle, true_and, ite_eq_right_iff, reduceCtorEq, imp_false] at hwait
    omega
  -- No worker holds a permit: a crashed one has given its permit back before.
  have hflight : t.server.inFlight = 0 := by
    have hworkers : t.server.pool.countP Consumer.inFlight = 0 := by
      rw [List.countP_eq_zero]
      intro c hc
      obtain ⟨j, hj⟩ := List.mem_iff_getElem?.mp hc
      cases hcrash : t.crashed j with
      | true =>
        obtain ⟨req, hreq⟩ := ho.crashed j hcrash
        rw [hreq] at hj
        rw [← Option.some.inj hj]
        simp [Consumer.inFlight]
      | false =>
        rw [(h.worker hended hj hcrash).1]
        simp [Consumer.inFlight]
    simp [Server.inFlight, hidle, Producer.inFlight, hworkers]
  have hconserved := ho.conserved
  unfold Conserved at hconserved
  have hfull : t.server.sem_full = MAX_REQUEST := by omega
  refine ⟨hlistening, hidle, hfull, fun j hj => ?_⟩
  by_contra hcrash
  have hworker := h.worker hended (List.getElem?_eq_getElem hj) (Bool.eq_false_iff.mpr hcrash)
  rw [hfull] at hworker
  exact absurd hworker.2 (by decide)

/-- A crashed worker takes no step, and there is no other. -/
theorem Abandoned.stuck (h : Abandoned t) (ho : Orderly numThread t) : Stuck numThread t := by
  intro e he
  cases hstep : systemStep numThread t e with
  | none => rfl
  | some p =>
    exfalso
    obtain ⟨⟨⟩, u⟩ := p
    have hempty : t.server.sem_empty = 0 := by
      have hconserved := ho.conserved
      have hfull := h.full
      unfold Conserved at hconserved
      omega
    have hnot {j : ℕ} {c : Consumer} (hc : t.server.pool[j]? = some c) : ¬(!t.crashed j) = true := by
      obtain ⟨hlt, -⟩ := List.getElem?_eq_some_iff.mp hc
      simp [h.crashed j hlt]
    cases goes_of_step hstep with
    | thread a s hruns hs =>
      cases moves_of_step hs with
      | producerWait _ _ hpos => omega
      | producerSection s hs' => simp [h.idle] at hs'
      | producerPost hs' => simp [h.idle] at hs'
      | consumerWait j hj => exact hnot hj hruns
      | consumerSection j hj => exact hnot hj hruns
      | consumerPost j req hj => exact hnot hj hruns
      | consumerProcess j req hj => exact hnot hj hruns
    | crash j req hreq hj => exact hnot hreq (by simp [hj])
    | acceptFails => exact he rfl
    | join hc hl => simp [h.listening] at hl
    | check i hc => simp [ho.listening h.listening] at hc
    | finish i hc => simp [ho.listening h.listening] at hc

/-- Whatever the threads do and whichever workers crash, no permit is lost; and the threads can all
be stopped, before `main` returns, only by a full buffer whose workers have all crashed. -/
theorem stuck_iff (numThread : ℕ) (es : List Event) (rs : List Unit) (t : System)
    (hrun : Mealy.run (systemStep numThread) (boot numThread) es = some (rs, t))
    (hended : t.control ≠ .ended) :
    Conserved t.server ∧ (Stuck numThread t ↔ Abandoned t) := by
  have ho := orderly_of_run hrun
  exact ⟨ho.conserved, fun h => h.abandoned ho hended, fun h => h.stuck ho⟩

/-- The only worker crashes on its first request, and the server goes on. -/
def crashOne : List Event :=
  [.thread (.producerWait 7), .thread .producerSection, .thread .producerPost,
    .thread (.consumerWait 0), .thread (.consumerSection 0), .thread (.consumerPost 0), .crash 0]

theorem stuck_iff_crashOne : ∃ rs t, Mealy.run (systemStep 1) (boot 1) crashOne = some (rs, t) ∧
    Conserved t.server ∧ (Stuck 1 t ↔ Abandoned t) :=
  ⟨_, _, rfl, stuck_iff 1 crashOne _ _ rfl (by decide)⟩

/-! ### After the last worker -/

/-- The connections that can still be stored when nobody gives permits back. -/
def System.room (t : System) : ℕ :=
  t.server.log.length + t.server.sem_empty + if t.server.listener = .idle ∨
    t.server.listener = .stored then 0 else 1

/-- With all workers crashed `thread_control` starts no other, and nothing is picked up. -/
theorem crashed_step (ho : Orderly numThread t) (hall : ∀ j < t.server.pool.length, t.crashed j = true)
    (hstep : systemStep numThread t e = some ((), u)) :
    u.server.pool = t.server.pool ∧ u.crashed = t.crashed ∧ u.server.pickups = t.server.pickups ∧
      u.room = t.room := by
  have hnot {j : ℕ} {c : Consumer} (hc : t.server.pool[j]? = some c) : ¬(!t.crashed j) = true := by
    obtain ⟨hlt, -⟩ := List.getElem?_eq_some_iff.mp hc
    simp [hall j hlt]
  cases goes_of_step hstep with
  | thread a s hruns hs =>
    cases moves_of_step hs with
    | producerWait s hidle hpos =>
      refine ⟨rfl, rfl, rfl, ?_⟩
      simp [System.room, hidle]
      omega
    | producerSection s hs' =>
      refine ⟨rfl, rfl, rfl, ?_⟩
      simp [System.room, Server.store, hs']
      omega
    | producerPost hs' =>
      refine ⟨rfl, rfl, rfl, ?_⟩
      simp [System.room, hs']
    | consumerWait j hj => exact absurd hruns (hnot hj)
    | consumerSection j hj => exact absurd hruns (hnot hj)
    | consumerPost j req hj => exact absurd hruns (hnot hj)
    | consumerProcess j req hj => exact absurd hruns (hnot hj)
  | crash j req hreq hj => exact absurd (by simp [hj]) (hnot hreq)
  | acceptFails => exact ⟨rfl, rfl, rfl, rfl⟩
  | join => exact ⟨rfl, rfl, rfl, rfl⟩
  | check i hc hi =>
    have hcrash := hall i (Nat.lt_of_lt_of_le hi ho.pool)
    rw [System.check, if_pos hcrash]
    exact ⟨rfl, rfl, rfl, rfl⟩
  | finish => exact ⟨rfl, rfl, rfl, rfl⟩

/-- Once every worker has crashed the server never serves again: it accepts at most 100 connections
more, no request is picked up, and no worker is started, not even by `thread_control` at the end. -/
theorem crashed_for_good (numThread : ℕ) (es es' : List Event) (rs rs' : List Unit) (t u : System)
    (hrun : Mealy.run (systemStep numThread) (boot numThread) es = some (rs, t))
    (hall : ∀ j < t.server.pool.length, t.crashed j = true)
    (hrun' : Mealy.run (systemStep numThread) t es' = some (rs', u)) :
    u.server.pickups = t.server.pickups ∧ u.server.pool = t.server.pool ∧
      u.server.log.length ≤ t.server.log.length + MAX_REQUEST := by
  have ho := orderly_of_run hrun
  obtain ⟨hou, hpool, -, hpickups, hroom⟩ := Mealy.invariant (fun _ _ => True)
    (fun v => Orderly numThread v ∧ v.server.pool = t.server.pool ∧ v.crashed = t.crashed ∧
      v.server.pickups = t.server.pickups ∧ v.room = t.room)
    (fun v e r w hv _ hstep => by
      obtain ⟨hov, hpool, hcrashed, hpickups, hroom⟩ := hv
      obtain ⟨hpool', hcrashed', hpickups', hroom'⟩ := crashed_step hov
        (fun j hj => by rw [hcrashed]; exact hall j (hpool ▸ hj)) hstep
      exact ⟨hov.of_step hstep, hpool'.trans hpool, hcrashed'.trans hcrashed,
        hpickups'.trans hpickups, hroom'.trans hroom⟩)
    ⟨ho, rfl, rfl, rfl, rfl⟩ (Mealy.meets_of_forall _ _ _ _ fun _ _ _ => trivial) hrun'
  refine ⟨hpickups, hpool, ?_⟩
  -- the permits bound what can still be stored
  have hconserved := ho.conserved
  unfold Conserved Server.inFlight at hconserved
  unfold System.room at hroom
  have hone : (if t.server.listener = .idle ∨ t.server.listener = .stored then 0 else 1) ≤
      if t.server.listener.inFlight = true then 1 else 0 := by
    cases t.server.listener <;> simp [Producer.inFlight]
  omega

theorem crashed_for_good_crashOne : ∃ rs t rs' u,
    Mealy.run (systemStep 1) (boot 1) crashOne = some (rs, t) ∧
      Mealy.run (systemStep 1) t [.thread (.producerWait 8), .thread .producerSection] =
        some (rs', u) ∧
      u.server.pickups = t.server.pickups ∧ u.server.pool = t.server.pool ∧
      u.server.log.length ≤ t.server.log.length + MAX_REQUEST :=
  ⟨_, _, _, _, rfl, rfl, crashed_for_good 1 crashOne
    [.thread (.producerWait 8), .thread .producerSection] _ _ _ _ rfl (by decide) rfl⟩

end OperatingSystems.Web
