import OperatingSystems.Mealy
import Mathlib.Data.Int.Notation
import Mathlib.Data.Nat.Notation
import Mathlib.Data.List.Count

/-! `webserver_multi.c`: the listener and the worker threads around the request buffer. The
atomic steps are `sem_wait`, the section under the mutex and `sem_post`; an action that its
thread cannot take (or a wait on a semaphore at 0) is `none`. -/
namespace OperatingSystems.Web

def MAX_REQUEST : ℕ := 100

/-- What a store puts in a slot: the socket, and a ghost number of the store, since the kernel
hands out closed descriptors again. -/
structure Ticket where
  number : ℕ
  socket : ℤ
  deriving DecidableEq, Repr

/-- Where the listener is in `producer(s)`. -/
inductive Producer
  | idle
  | waited (s : ℤ)
  | stored
  deriving DecidableEq, Repr

/-- Where a worker is in the loop of `consumer`. A slot never written reads as `none`. -/
inductive Consumer
  | idle
  | waited
  | picked (req : Option Ticket)
  | processing (req : Option Ticket)
  deriving DecidableEq, Repr

/-- The shared state and the threads; `log` and `pickups` are ghosts, everything ever stored
and everything ever read by a consumer, in order. -/
structure Server where
  sem_empty : ℕ
  sem_full : ℕ
  request : ℕ → Option Ticket
  listener : Producer
  pool : List Consumer
  log : List Ticket
  pickups : List (Option Ticket)

/-- `main` and `thread_control` with `numThread` workers. -/
def init (numThread : ℕ) : Server where
  sem_empty := MAX_REQUEST
  sem_full := 0
  request _ := none
  listener := .idle
  pool := List.replicate numThread .idle
  log := []
  pickups := []

inductive Action
  | producerWait (s : ℤ)
  | producerSection
  | producerPost
  | consumerWait (j : ℕ)
  | consumerSection (j : ℕ)
  | consumerPost (j : ℕ)
  | consumerProcess (j : ℕ)
  deriving DecidableEq, Repr

/-- `request[semfull] = s` -/
def Server.store (t : Server) (s : ℤ) : Server :=
  { t with
    request := Function.update t.request t.sem_full (some ⟨t.log.length, s⟩)
    listener := .stored
    log := t.log ++ [⟨t.log.length, s⟩] }

/-- `req = request[semfull]` -/
def Server.pickUp (t : Server) (j : ℕ) : Server :=
  { t with
    pool := t.pool.set j (.picked (t.request t.sem_full))
    pickups := t.pickups ++ [t.request t.sem_full] }

def step (t : Server) : Action → Option (Unit × Server)
  | .producerWait s =>
    if t.listener = .idle ∧ 0 < t.sem_empty then
      some ((), { t with sem_empty := t.sem_empty - 1, listener := .waited s })
    else none
  | .producerSection =>
    match t.listener with
    | .waited s => some ((), t.store s)
    | _ => none
  | .producerPost =>
    if t.listener = .stored then
      some ((), { t with sem_full := t.sem_full + 1, listener := .idle })
    else none
  | .consumerWait j =>
    if t.pool[j]? = some .idle ∧ 0 < t.sem_full then
      some ((), { t with sem_full := t.sem_full - 1, pool := t.pool.set j .waited })
    else none
  | .consumerSection j => if t.pool[j]? = some .waited then some ((), t.pickUp j) else none
  | .consumerPost j =>
    match t.pool[j]? with
    | some (.picked req) =>
      some ((), { t with sem_empty := t.sem_empty + 1, pool := t.pool.set j (.processing req) })
    | _ => none
  | .consumerProcess j =>
    match t.pool[j]? with
    | some (.processing _) => some ((), { t with pool := t.pool.set j .idle })
    | _ => none

/-- The steps a thread can take, with what each needs and leaves. -/
inductive Moves (t : Server) : Action → Server → Prop
  | producerWait (s : ℤ) : t.listener = .idle → 0 < t.sem_empty →
      Moves t (.producerWait s) { t with sem_empty := t.sem_empty - 1, listener := .waited s }
  | producerSection (s : ℤ) : t.listener = .waited s → Moves t .producerSection (t.store s)
  | producerPost : t.listener = .stored →
      Moves t .producerPost { t with sem_full := t.sem_full + 1, listener := .idle }
  | consumerWait (j : ℕ) : t.pool[j]? = some .idle → 0 < t.sem_full →
      Moves t (.consumerWait j) { t with sem_full := t.sem_full - 1, pool := t.pool.set j .waited }
  | consumerSection (j : ℕ) : t.pool[j]? = some .waited →
      Moves t (.consumerSection j) (t.pickUp j)
  | consumerPost (j : ℕ) (req : Option Ticket) : t.pool[j]? = some (.picked req) →
      Moves t (.consumerPost j)
        { t with sem_empty := t.sem_empty + 1, pool := t.pool.set j (.processing req) }
  | consumerProcess (j : ℕ) (req : Option Ticket) : t.pool[j]? = some (.processing req) →
      Moves t (.consumerProcess j) { t with pool := t.pool.set j .idle }

theorem moves_of_step {t u : Server} {a : Action} (h : step t a = some ((), u)) : Moves t a u := by
  cases a with
  | producerWait s =>
    simp only [step, Option.ite_none_right_eq_some, Option.some.injEq, Prod.mk.injEq,
      true_and] at h
    obtain ⟨⟨hidle, hempty⟩, rfl⟩ := h
    exact .producerWait s hidle hempty
  | producerSection =>
    simp only [step] at h
    split at h
    · rename_i s hs
      cases h
      exact .producerSection s hs
    · cases h
  | producerPost =>
    simp only [step, Option.ite_none_right_eq_some, Option.some.injEq, Prod.mk.injEq,
      true_and] at h
    obtain ⟨hstored, rfl⟩ := h
    exact .producerPost hstored
  | consumerWait j =>
    simp only [step, Option.ite_none_right_eq_some, Option.some.injEq, Prod.mk.injEq,
      true_and] at h
    obtain ⟨⟨hidle, hfull⟩, rfl⟩ := h
    exact .consumerWait j hidle hfull
  | consumerSection j =>
    simp only [step, Option.ite_none_right_eq_some, Option.some.injEq, Prod.mk.injEq,
      true_and] at h
    obtain ⟨hwaited, rfl⟩ := h
    exact .consumerSection j hwaited
  | consumerPost j =>
    simp only [step] at h
    split at h
    · rename_i req hpicked
      cases h
      exact .consumerPost j req hpicked
    · cases h
  | consumerProcess j =>
    simp only [step] at h
    split at h
    · rename_i req hprocessing
      cases h
      exact .consumerProcess j req hprocessing
    · cases h

/-- Workers between `sem_wait(&sem_full)` and the mutex section. -/
def Server.takers (t : Server) : ℕ := t.pool.count .waited

/-- Whether the listener is between the mutex section and `sem_post(&sem_full)`. -/
def Server.posting (t : Server) : ℕ := if t.listener = .stored then 1 else 0

/-- Requests stored and not yet picked up: `sem_full`, corrected by the threads that have
changed one of slot and semaphore but not yet the other. -/
def Server.backlog (t : Server) : ℕ := t.sem_full + t.posting + t.takers

/-- The buffer's live part, read by position: slot after slot up to the backlog, with whatever was
stored there last. -/
def Server.waiting (t : Server) : List (Option Ticket) := (List.range t.backlog).map t.request

/-- No request lost, duplicated, overwritten or invented: what consumers have read together with
what waits in the buffer, slot by slot, is exactly what the listener has stored, each store once. -/
def Intact (t : Server) : Prop := (t.pickups ++ t.waiting).Perm (t.log.map some)

instance (t : Server) : Decidable (Intact t) := inferInstanceAs (Decidable (List.Perm _ _))

/-- A thread enters the mutex section while no other thread stands between a semaphore
operation on `sem_full` and its section, or its section and the post. -/
def Alone (t : Server) : Action → Prop
  | .producerSection => t.takers = 0
  | .consumerSection _ => t.takers = 1 ∧ t.posting = 0
  | _ => True

theorem count_set_pool (pool : List Consumer) (j : ℕ) (c d a : Consumer)
    (h : pool[j]? = some c) :
    (pool.set j d).count a + (if c = a then 1 else 0) =
      pool.count a + if d = a then 1 else 0 := by
  obtain ⟨hj, hc⟩ := List.getElem?_eq_some_iff.mp h
  have hcount : 1 ≤ pool.count a ∨ c ≠ a := by
    by_cases hca : c = a
    · exact Or.inl (List.count_pos_iff.mpr (hca ▸ hc ▸ List.getElem_mem hj))
    · exact Or.inr hca
  rw [List.count_set hj, hc]
  simp only [beq_iff_eq]
  split_ifs <;> simp_all

end OperatingSystems.Web
