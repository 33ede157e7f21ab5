import OperatingSystems.WebThreads

/-! The buffer of `webserver_multi.c` is indexed inside its bounds, whatever the threads do: each
of the 100 permits is in one of the two semaphores or with a thread between its wait and its
post. -/
namespace OperatingSystems.Web

/-- The listener has taken a permit of `sem_empty` and not yet posted `sem_full`. -/
def Producer.inFlight : Producer → Bool
  | .idle => false
  | .waited _ => true
  | .stored => true

/-- The worker has taken a permit of `sem_full` and not yet posted `sem_empty`. -/
def Consumer.inFlight : Consumer → Bool
  | .waited => true
  | .picked _ => true
  | _ => false

/-- The threads between their wait and their post. -/
def Server.inFlight (t : Server) : ℕ :=
  (if t.listener.inFlight then 1 else 0) + t.pool.countP Consumer.inFlight

/-- No permit is lost or made. -/
def Conserved (t : Server) : Prop := t.sem_full + t.sem_empty + t.inFlight = MAX_REQUEST

theorem conserved_init (numThread : ℕ) : Conserved (init numThread) := by
  have hpool : (List.replicate numThread Consumer.idle).countP Consumer.inFlight = 0 := by
    simp [List.countP_replicate, Consumer.inFlight]
  simp [Conserved, Server.inFlight, init, Producer.inFlight, hpool]

/-- One worker moves on: the count changes by that worker. -/
theorem inFlight_set_pool (pool : List Consumer) (j : ℕ) (c d : Consumer)
    (h : pool[j]? = some c) :
    (pool.set j d).countP Consumer.inFlight + (if c.inFlight then 1 else 0) =
      pool.countP Consumer.inFlight + if d.inFlight then 1 else 0 := by
  obtain ⟨hj, hc⟩ := List.getElem?_eq_some_iff.mp h
  have hmem : c ∈ pool := by
    rw [← hc]
    exact List.getElem_mem hj
  have hpos : c.inFlight = true → 0 < pool.countP Consumer.inFlight := fun hcf =>
    List.countP_pos_iff.mpr ⟨c, hmem, hcf⟩
  rw [List.countP_set hj, hc]
  by_cases hcf : c.inFlight = true
  · have hone := hpos hcf
    rw [if_pos hcf]
    omega
  · rw [if_neg hcf]
    omega

/-- A permit goes from a semaphore to a thread, or from a thread to the other semaphore. -/
theorem Conserved.of_step {t u : Server} {a : Action} (h : Conserved t)
    (hstep : step t a = some ((), u)) : Conserved u := by
  -- One case for each kind of step: what a semaphore loses, a thread gains, or the other way.
  unfold Conserved Server.inFlight at h ⊢
  cases moves_of_step hstep with
  | producerWait s hidle hempty =>
    simp only [hidle, Producer.inFlight, Bool.false_eq_true, if_false, if_true] at h ⊢
    omega
  | producerSection s hs =>
    simp only [Server.store, hs, Producer.inFlight, if_true] at h ⊢
    exact h
  | producerPost hstored =>
    simp only [hstored, Producer.inFlight, Bool.false_eq_true, if_false, if_true] at h ⊢
    omega
  | consumerWait j hidle hfull =>
    have hcount := inFlight_set_pool t.pool j .idle .waited hidle
    simp only [Consumer.inFlight, Bool.false_eq_true, if_false, if_true] at hcount
    dsimp only
    omega
  | consumerSection j hwaited =>
    have hcount := inFlight_set_pool t.pool j .waited (.picked (t.request t.sem_full)) hwaited
    simp only [Consumer.inFlight, if_true] at hcount
    change t.sem_full + t.sem_empty + ((if t.listener.inFlight then 1 else 0) +
      (t.pool.set j (.picked (t.request t.sem_full))).countP Consumer.inFlight) = MAX_REQUEST
    omega
  | consumerPost j req hpicked =>
    have hcount := inFlight_set_pool t.pool j (.picked req) (.processing req) hpicked
    simp only [Consumer.inFlight, Bool.false_eq_true, if_false, if_true] at hcount
    dsimp only
    omega
  | consumerProcess j req hprocessing =>
    have hcount := inFlight_set_pool t.pool j (.processing req) .idle hprocessing
    simp only [Consumer.inFlight, Bool.false_eq_true, if_false] at hcount
    dsimp only
    omega

/-- A thread that is about to enter its mutex section holds a permit itself. -/
theorem Conserved.index_lt {t u : Server} {a : Action} (h : Conserved t)
    (hstep : step t a = some ((), u))
    (ha : a = .producerSection ∨ ∃ j, a = .consumerSection j) : t.sem_full < MAX_REQUEST := by
  have hpos : 0 < t.inFlight := by
    unfold Server.inFlight
    cases moves_of_step hstep with
    | producerSection s hs =>
      simp only [hs, Producer.inFlight, if_true]
      omega
    | consumerSection j hwaited =>
      have hmem := List.mem_of_getElem? hwaited
      have hworker : 0 < t.pool.countP Consumer.inFlight :=
        List.countP_pos_iff.mpr ⟨.waited, hmem, rfl⟩
      omega
    | _ => simp at ha
  unfold Conserved at h
  omega

/-- For any number of workers and any interleaving: in every state reached, the value of `sem_full`
that the listener or a worker reads in its mutex section, and takes as its index, is below 100. -/
theorem buffer_index_in_bounds (numThread : ℕ) (as : List Action) (rs : List Unit) (t : Server)
    (hrun : Mealy.run step (init numThread) as = some (rs, t)) :
    (∀ u, step t .producerSection = some ((), u) → t.sem_full < MAX_REQUEST) ∧
      ∀ j u, step t (.consumerSection j) = some ((), u) → t.sem_full < MAX_REQUEST := by
  have hok : Mealy.Meets step (fun _ _ => True) (init numThread) as :=
    Mealy.meets_of_forall step _ _ as fun _ _ _ => trivial
  have ht : Conserved t := Mealy.invariant (fun _ _ => True) Conserved
    (fun _ _ _ _ h _ hstep => h.of_step hstep) (conserved_init numThread) hok hrun
  constructor
  · intro u hu
    exact ht.index_lt hu (Or.inl rfl)
  · intro j u hu
    exact ht.index_lt hu (Or.inr ⟨j, rfl⟩)

/-- One request on its way to one worker. -/
theorem buffer_index_in_bounds_single : ∃ rs t u,
    Mealy.run step (init 1) [.producerWait 7, .producerSection, .producerPost, .consumerWait 0] =
        some (rs, t) ∧
      step t (.consumerSection 0) = some ((), u) ∧ t.sem_full < MAX_REQUEST :=
  ⟨_, _, _, rfl, rfl, (buffer_index_in_bounds 1
    [.producerWait 7, .producerSection, .producerPost, .consumerWait 0] _ _ rfl).2 0 _ rfl⟩

end OperatingSystems.Web
