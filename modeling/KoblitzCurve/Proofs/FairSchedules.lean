import Mathlib.Algebra.Ring.Nat
import KoblitzCurve.Proofs.LockHolder

/-! Every call returns as long as no thread is left out for ever. A step that does anything leaves
less to do, and there always is a thread that can take one: the one that has the lock, and any other
if the lock is free. -/
namespace KoblitzCurve
open Precomputation

/-- The most steps that a call has to take from the stage on. -/
def Stage.left : Stage → ℕ
  | look => 6
  | acquire => 5
  | lookAgain => 4
  | work => 3
  | store _ => 2
  | release _ => 1

def Thread.left (thread : Thread) : ℕ :=
  7 * thread.pending.length + (thread.current.map fun entry => entry.2.left).getD 0

lemma Stage.left_first_le (request : Request) : (first request).left ≤ 6 := by
  cases request <;> simp [first, left]

lemma Advance.left_lt {call : Call} {memory memory' : Precomputation} {holder holder' : Option ℕ}
    {stage stage' : Stage} (h : Advance call memory holder stage memory' holder' stage') :
    stage'.left < stage.left := by
  cases h with
  | lock => split_ifs <;> simp [Stage.left]
  | _ => simp [Stage.left]

lemma Finish.left_pos {call : Call} {memory : Precomputation} {holder holder' : Option ℕ}
    {stage : Stage} {reply : Reply} (h : Finish call memory holder stage holder' reply) :
    0 < stage.left := by
  cases h <;> simp [Stage.left]

namespace SharedPrecomputation
variable {s : SharedPrecomputation} {programs : List (List Request)} {t : ℕ}

/-- No call is under way. -/
def Idle (s : SharedPrecomputation) : Prop :=
  ∀ thread ∈ s.threads, thread.current = none

/-- No call is under way, and none is still to be made. -/
def Finished (s : SharedPrecomputation) : Prop :=
  ∀ thread ∈ s.threads, thread.pending = [] ∧ thread.current = none

/-- The most steps that all threads together have to take. -/
def left (s : SharedPrecomputation) : ℕ :=
  (s.threads.map Thread.left).sum

lemma left_start (memory : Precomputation) (programs : List (List Request)) :
    (start memory programs).left = 7 * (programs.map List.length).sum := by
  rw [left, start]
  induction programs with
  | nil => rfl
  | cons program rest ih =>
    simp only [List.map_cons, List.sum_cons, ih, Nat.mul_add]
    rfl

lemma sum_map_set_lt {α : Type*} (f : α → ℕ) {xs : List α} {i : ℕ} {x y : α}
    (h : xs[i]? = some x) (hlt : f y < f x) :
    ((xs.set i y).map f).sum < (xs.map f).sum := by
  induction xs generalizing i with
  | nil => simp at h
  | cons head rest ih =>
    cases i with
    | zero =>
      obtain rfl : head = x := by simpa using h
      simpa using hlt
    | succ i => simpa using ih (by simpa using h)

lemma left_lt_of_set {thread next : Thread} (h : s.threads[t]? = some thread)
    (hlt : next.left < thread.left) (memory : Precomputation) (holder : Option ℕ)
    (log : List CallEvent) : left ⟨memory, holder, s.threads.set t next, log⟩ < s.left :=
  sum_map_set_lt Thread.left h hlt

lemma step_waits_or_left_lt (hn : Numbered programs s) (t : ℕ) :
    (s.Waits t ∧ s.step t = s) ∨ (s.step t).left < s.left := by
  obtain ⟨s', hs, hmove⟩ := s.exists_move t
  rw [hs]
  cases hmove with
  | stay waits => exact Or.inl ⟨waits, rfl⟩
  | @begin _ request _ thread =>
    refine Or.inr (left_lt_of_set thread ?_ _ _ _)
    have hfirst := Stage.left_first_le request
    simp only [Thread.left, Option.map_some, Option.map_none, Option.getD_some, Option.getD_none,
      List.length_cons]
    omega
  | advance thread step =>
    obtain ⟨rfl, -⟩ := hn.doing thread
    refine Or.inr (left_lt_of_set thread ?_ _ _ _)
    simpa [Thread.left] using step.left_lt
  | finish thread step =>
    obtain ⟨rfl, -⟩ := hn.doing thread
    refine Or.inr (left_lt_of_set thread ?_ _ _ _)
    simpa [Thread.left] using step.left_pos

/-- While there is anything to do, some thread can do some of it. -/
lemma exists_not_waits (hg : s.Guarded) (h : ¬s.Finished) :
    ∃ t < s.threads.length, ¬s.Waits t := by
  cases hholder : s.holder with
  | none =>
    simp only [Finished, not_forall] at h
    obtain ⟨thread, hmem, hleft⟩ := h
    obtain ⟨t, ht, hthread⟩ := List.getElem_of_mem hmem
    refine ⟨t, ht, fun hwaits => ?_⟩
    rcases hwaits thread (List.getElem?_eq_some_iff.mpr ⟨ht, hthread⟩) with hdone | ⟨-, hlock⟩
    · exact hleft hdone
    · exact hlock hholder
  | some t =>
    obtain ⟨call, stage, hdoing, rfl⟩ := hg.holder t hholder
    have hfits := hg.fits call stage hdoing
    obtain ⟨thread, hthread, hcurrent⟩ := hdoing
    refine ⟨call.thread, (List.getElem?_eq_some_iff.mp hthread).1, fun hwaits => ?_⟩
    rcases hwaits thread hthread with ⟨-, hnone⟩ | ⟨⟨other, hother⟩, -⟩
    · rw [hcurrent] at hnone
      contradiction
    · -- A thread that has the lock does not wait for it.
      obtain ⟨-, rfl⟩ := Prod.mk.inj (Option.some.inj (hcurrent.symm.trans hother))
      exact hfits.2 hholder

lemma Regular.left_run_le (h : Regular programs s) (schedule : List ℕ) :
    (s.run schedule).left ≤ s.left := by
  induction schedule generalizing s with
  | nil => exact Nat.le_refl _
  | cons t rest ih =>
    refine Nat.le_trans (ih (h.step t)) ?_
    rcases step_waits_or_left_lt h.numbered t with ⟨-, heq⟩ | hlt
    · exact Nat.le_of_eq (congrArg left heq)
    · exact Nat.le_of_lt hlt

lemma Regular.left_run_lt (h : Regular programs s) {schedule : List ℕ} (ht : t ∈ schedule)
    (hwaits : ¬s.Waits t) : (s.run schedule).left < s.left := by
  induction schedule generalizing s with
  | nil => contradiction
  | cons u rest ih =>
    rcases step_waits_or_left_lt h.numbered u with ⟨hu, heq⟩ | hlt
    · rcases List.mem_cons.mp ht with rfl | ht
      · exact absurd hu hwaits
      · have hrun : s.run (u :: rest) = s.run rest := congrArg (fun next => next.run rest) heq
        rw [hrun]
        exact ih h ht hwaits
    · exact Nat.lt_of_le_of_lt ((h.step u).left_run_le rest) hlt

lemma Finished.step_eq (h : s.Finished) (t : ℕ) : s.step t = s := by
  rw [step]
  split
  · rfl
  · rfl
  · have hthread := h _ (List.mem_of_getElem? ‹_›)
    simp at hthread
  · have hthread := h _ (List.mem_of_getElem? ‹_›)
    simp at hthread

lemma Finished.run_eq (h : s.Finished) (schedule : List ℕ) : s.run schedule = s := by
  induction schedule with
  | nil => rfl
  | cons t rest ih =>
    have hrest : s.run (t :: rest) = (s.step t).run rest := rfl
    rw [hrest, h.step_eq, ih]

/-- Enough rounds in each of which every thread has its turn end all calls. -/
theorem Regular.finished_of_rounds (h : Regular programs s) (rounds : List (List ℕ))
    (hrounds : ∀ round ∈ rounds, ∀ t < programs.length, t ∈ round)
    (hlength : s.left ≤ rounds.length) : (s.run rounds.flatten).Finished := by
  induction rounds generalizing s with
  | nil =>
    by_contra hunfinished
    obtain ⟨t, -, hwaits⟩ := exists_not_waits h.guarded hunfinished
    have hlt := h.left_run_lt (List.mem_singleton_self t) hwaits
    exact Nat.not_lt_zero _ (Nat.lt_of_lt_of_le hlt hlength)
  | cons round rest ih =>
    rw [List.flatten_cons, run_append]
    by_cases hfinished : s.Finished
    · rwa [hfinished.run_eq, hfinished.run_eq]
    · obtain ⟨t, ht, hwaits⟩ := exists_not_waits h.guarded hfinished
      rw [h.numbered.length] at ht
      have hlt := h.left_run_lt (hrounds round List.mem_cons_self t ht) hwaits
      refine ih (h.run round) (fun r hr => hrounds r (List.mem_cons_of_mem _ hr)) ?_
      rw [List.length_cons] at hlength
      omega

end SharedPrecomputation

end KoblitzCurve
