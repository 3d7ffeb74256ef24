import Mathlib.Data.List.Basic
import KoblitzCurve.SharedPrecomputation

/-! The steps of threads that share a precomputation: what a single step can do, and that a thread
makes the calls of its program one after the other. -/
namespace KoblitzCurve
open Precomputation

/-- A step within a call: what becomes of the memory, of the holder of the lock and of the stage. -/
inductive Advance (call : Call) :
    Precomputation → Option ℕ → Stage → Precomputation → Option ℕ → Stage → Prop
  | needed {memory holder flag} (goal : call.request.goal = some flag)
      (differs : memory.initialized ≠ flag) :
      Advance call memory holder .look memory holder .acquire
  | lock {memory} : Advance call memory none .acquire memory (some call.thread)
      (if call.request.goal.isSome then .lookAgain else .work)
  | reached {memory holder} (goal : call.request.goal = some memory.initialized) :
      Advance call memory holder .lookAgain memory holder (.release .done)
  | differs {memory holder} (goal : call.request.goal ≠ some memory.initialized) :
      Advance call memory holder .lookAgain memory holder .work
  | change {memory holder flag} (goal : call.request.goal = some flag) :
      Advance call memory holder .work (memory.work call.request).2 holder (.store flag)
  | answer {memory holder} (goal : call.request.goal = none) :
      Advance call memory holder .work (memory.work call.request).2 holder
        (.release (memory.work call.request).1)
  | publish {memory holder flag} :
      Advance call memory holder (.store flag) { memory with initialized := flag } holder
        (.release .done)

/-- The last step of a call: the holder of the lock after it, and the reply. -/
inductive Finish (call : Call) : Precomputation → Option ℕ → Stage → Option ℕ → Reply → Prop
  | flag {memory holder} (goal : call.request.goal = none) :
      Finish call memory holder .look holder (.isInitialized memory.initialized)
  | unneeded {memory holder} (goal : call.request.goal = some memory.initialized) :
      Finish call memory holder .look holder .done
  | unlock {memory holder reply} : Finish call memory holder (.release reply) none reply

namespace SharedPrecomputation
variable {s s' : SharedPrecomputation} {programs : List (List Request)}

/-- The thread, if there is one, has nothing left to do, or has to wait for the lock. -/
def Waits (s : SharedPrecomputation) (t : ℕ) : Prop :=
  ∀ thread, s.threads[t]? = some thread → (thread.pending = [] ∧ thread.current = none) ∨
    (∃ call, thread.current = some (call, .acquire)) ∧ s.holder ≠ none

/-- All that a step of thread `t` can do. -/
inductive Move (s : SharedPrecomputation) (t : ℕ) : SharedPrecomputation → Prop
  | stay (waits : s.Waits t) : Move s t s
  | begin {made request rest} (thread : s.threads[t]? = some ⟨made, request :: rest, none⟩) :
      Move s t ⟨s.memory, s.holder,
        s.threads.set t ⟨made + 1, rest, some (⟨t, made, request⟩, .first request)⟩,
        .began ⟨t, made, request⟩ :: s.log⟩
  | advance {made rest call stage memory holder stage'}
      (thread : s.threads[t]? = some ⟨made, rest, some (call, stage)⟩)
      (step : Advance call s.memory s.holder stage memory holder stage') :
      Move s t ⟨memory, holder,
        s.threads.set call.thread ⟨made, rest, some (call, stage')⟩, s.log⟩
  | finish {made rest call stage holder reply}
      (thread : s.threads[t]? = some ⟨made, rest, some (call, stage)⟩)
      (step : Finish call s.memory s.holder stage holder reply) :
      Move s t ⟨s.memory, holder, s.threads.set call.thread ⟨made, rest, none⟩,
        .ended call reply :: s.log⟩

lemma move_stepAt {t made : ℕ} {rest : List Request} {call : Call} {stage : Stage}
    (thread : s.threads[t]? = some ⟨made, rest, some (call, stage)⟩) :
    Move s t (s.stepAt ⟨made, rest, none⟩ call stage) := by
  cases stage with
  | look =>
    rw [stepAt]
    split
    · exact .finish thread (.flag ‹_›)
    · split
      · subst_vars
        exact .finish thread (.unneeded ‹_›)
      · exact .advance thread (.needed ‹_› ‹_›)
  | acquire =>
    rw [stepAt]
    split
    · rename_i holder hholder
      refine .stay fun other hother => ?_
      obtain rfl := Option.some.inj (thread.symm.trans hother)
      exact Or.inr ⟨⟨call, rfl⟩, by rw [hholder]; simp⟩
    · rename_i hfree
      have hstep : Advance call s.memory s.holder .acquire s.memory (some call.thread)
          (if call.request.goal.isSome then .lookAgain else .work) := hfree ▸ .lock
      exact .advance thread hstep
  | lookAgain =>
    rw [stepAt]
    split
    · exact .advance thread (.reached ‹_›)
    · exact .advance thread (.differs ‹_›)
  | work =>
    rw [stepAt]
    cases hgoal : call.request.goal with
    | none => exact .advance thread (.answer hgoal)
    | some flag => exact .advance thread (.change hgoal)
  | store flag => exact .advance thread .publish
  | release reply => exact .finish thread .unlock

theorem move_step (s : SharedPrecomputation) (t : ℕ) : Move s t (s.step t) := by
  rw [step]
  split
  · exact .stay (by simp [Waits, *])
  · exact .stay (by simp [Waits, *])
  · exact .begin ‹_›
  · exact move_stepAt ‹_›

/-- The call is under way, and its thread is at the given stage of it. -/
def Doing (s : SharedPrecomputation) (call : Call) (stage : Stage) : Prop :=
  ∃ thread, s.threads[call.thread]? = some thread ∧ thread.current = some (call, stage)

lemma exists_move (s : SharedPrecomputation) (t : ℕ) : ∃ s', s.step t = s' ∧ Move s t s' :=
  ⟨_, rfl, move_step s t⟩

/-- What every step keeps, every schedule keeps. -/
lemma run_keeps {P : SharedPrecomputation → Prop} (hstep : ∀ s t, P s → P (s.step t))
    (h : P s) (schedule : List ℕ) : P (s.run schedule) := by
  induction schedule generalizing s with
  | nil => exact h
  | cons t rest ih => exact ih (hstep s t h)

lemma run_append (s : SharedPrecomputation) (first second : List ℕ) :
    s.run (first ++ second) = (s.run first).run second :=
  List.foldl_append

lemma not_doing_start (memory : Precomputation) (programs : List (List Request)) (call : Call)
    (stage : Stage) : ¬(start memory programs).Doing call stage := by
  rintro ⟨thread, hthread, hcurrent⟩
  simp only [start, List.getElem?_map, Option.map_eq_some_iff] at hthread
  obtain ⟨program, -, rfl⟩ := hthread
  contradiction

/-- The other threads are where they were. -/
lemma getElem?_set_thread {t : ℕ} {thread : Thread} (h : s.threads[t]? = some thread)
    (next : Thread) (u : ℕ) :
    (s.threads.set t next)[u]? = if u = t then some next else s.threads[u]? := by
  obtain ⟨hlt, -⟩ := List.getElem?_eq_some_iff.mp h
  rw [List.getElem?_set]
  by_cases hu : u = t
  · subst hu
    rw [if_pos rfl, if_pos rfl, if_pos hlt]
  · rw [if_neg (Ne.symm hu), if_neg hu]

lemma doing_set {t : ℕ} {thread next : Thread} {memory : Precomputation} {holder : Option ℕ}
    {log : List CallEvent} (h : s.threads[t]? = some thread) {call : Call} {stage : Stage} :
    Doing ⟨memory, holder, s.threads.set t next, log⟩ call stage ↔
      if call.thread = t then next.current = some (call, stage) else s.Doing call stage := by
  simp only [Doing, getElem?_set_thread h]
  split_ifs <;> simp

end SharedPrecomputation

/-- The call is the one that its thread's program has at that number. -/
def Call.Of (programs : List (List Request)) (call : Call) : Prop :=
  (programs.getD call.thread [])[call.number]? = some call.request

namespace SharedPrecomputation
variable {s s' : SharedPrecomputation} {programs : List (List Request)} {t : ℕ}

/-- Threads make the calls of their programs in their order, each after the one before it. -/
structure Numbered (programs : List (List Request)) (s : SharedPrecomputation) : Prop where
  length : s.threads.length = programs.length
  pending : ∀ t thread, s.threads[t]? = some thread →
    thread.pending = (programs.getD t []).drop thread.made
  current : ∀ t thread call stage, s.threads[t]? = some thread →
    thread.current = some (call, stage) →
    call.thread = t ∧ call.number < thread.made ∧ .began call ∈ s.log
  began : ∀ call, .began call ∈ s.log → call.Of programs ∧
    ∃ thread, s.threads[call.thread]? = some thread ∧ call.number < thread.made
  past : ∀ call thread, call.Of programs → s.threads[call.thread]? = some thread →
    call.number < thread.made →
    (∃ stage, thread.current = some (call, stage)) ∨ ∃ reply, .ended call reply ∈ s.log
  inTurn : ∀ c d, c.Of programs → .began d ∈ s.log → c.thread = d.thread →
    c.number < d.number → ∃ reply, [.began d, .ended c reply].Sublist s.log

lemma numbered_start (memory : Precomputation) (programs : List (List Request)) :
    Numbered programs (start memory programs) := by
  have hthread : ∀ t thread, (start memory programs).threads[t]? = some thread →
      thread.made = 0 ∧ thread.pending = programs.getD t [] ∧ thread.current = none := by
    intro t thread h
    simp only [start, List.getElem?_map, Option.map_eq_some_iff] at h
    obtain ⟨program, hprogram, rfl⟩ := h
    simp [List.getD, hprogram]
  refine ⟨by simp [start], ?_, ?_, by simp [start], ?_, by simp [start]⟩
  · intro t thread h
    obtain ⟨hmade, hpending, -⟩ := hthread t thread h
    rw [hpending, hmade, List.drop_zero]
  · intro t thread call stage h hcurrent
    rw [(hthread t thread h).2.2] at hcurrent
    contradiction
  · intro call thread _ h hlt
    rw [(hthread _ thread h).1] at hlt
    contradiction

lemma Numbered.doing (hn : Numbered programs s) {made : ℕ} {rest : List Request} {call : Call}
    {stage : Stage} (h : s.threads[t]? = some ⟨made, rest, some (call, stage)⟩) :
    call.thread = t ∧ s.Doing call stage := by
  obtain ⟨rfl, -⟩ := hn.current t _ call stage h rfl
  exact ⟨rfl, _, h, rfl⟩

lemma Numbered.began_of_doing (hn : Numbered programs s) {call : Call} {stage : Stage}
    (h : s.Doing call stage) : .began call ∈ s.log := by
  obtain ⟨thread, hthread, hcurrent⟩ := h
  exact (hn.current _ thread call stage hthread hcurrent).2.2

/-- A new call is the next one of the program, and all before it have ended. -/
lemma Numbered.begin (hn : Numbered programs s) {made : ℕ} {request : Request}
    {rest : List Request} (h : s.threads[t]? = some ⟨made, request :: rest, none⟩) :
    Numbered programs ⟨s.memory, s.holder,
      s.threads.set t ⟨made + 1, rest, some (⟨t, made, request⟩, .first request)⟩,
      .began ⟨t, made, request⟩ :: s.log⟩ := by
  have hpending := hn.pending t _ h
  have hof : Call.Of programs ⟨t, made, request⟩ := by
    rw [Call.Of, ← Nat.add_zero made, ← List.getElem?_drop, ← hpending]
    rfl
  have hended : ∀ call, call.Of programs → call.thread = t → call.number < made →
      ∃ reply, .ended call reply ∈ s.log := by
    rintro call hcall rfl hlt
    have hpast := hn.past call _ hcall h hlt
    simpa using hpast
  refine ⟨by simpa using hn.length, ?_, ?_, ?_, ?_, ?_⟩
  · intro u thread hu
    rw [getElem?_set_thread h] at hu
    split_ifs at hu with htu
    · cases hu
      rw [htu, ← List.drop_drop, ← hpending]
      rfl
    · exact hn.pending u thread hu
  · intro u thread call stage hu hcurrent
    rw [getElem?_set_thread h] at hu
    split_ifs at hu with htu
    · cases hu
      cases hcurrent
      exact ⟨htu.symm, Nat.lt_succ_self _, List.mem_cons_self⟩
    · obtain ⟨hthread, hlt, hlog⟩ := hn.current u thread call stage hu hcurrent
      exact ⟨hthread, hlt, List.mem_cons_of_mem _ hlog⟩
  · intro call hcall
    simp only [getElem?_set_thread h]
    rcases List.mem_cons.mp hcall with heq | hcall
    · cases heq
      exact ⟨hof, by simp⟩
    · obtain ⟨hprogram, thread, hthread, hlt⟩ := hn.began call hcall
      refine ⟨hprogram, ?_⟩
      split_ifs with ht
      · rw [ht, h, Option.some.injEq] at hthread
        subst hthread
        exact ⟨_, rfl, Nat.lt_succ_of_lt hlt⟩
      · exact ⟨thread, hthread, hlt⟩
  · intro call thread hcall hu hlt
    simp only [List.mem_cons, reduceCtorEq, false_or]
    rw [getElem?_set_thread h] at hu
    split_ifs at hu with ht
    · cases hu
      rcases Nat.lt_succ_iff_lt_or_eq.mp hlt with hlt | heq
      · exact Or.inr (hended call hcall ht hlt)
      · obtain ⟨thread, number, asked⟩ := call
        simp only at ht heq
        subst ht heq
        obtain rfl : request = asked := Option.some.inj (hof.symm.trans hcall)
        exact Or.inl ⟨_, rfl⟩
    · exact hn.past call thread hcall hu hlt
  · intro c d hc hd hthread hlt
    rcases List.mem_cons.mp hd with heq | hd
    · cases heq
      obtain ⟨reply, hlog⟩ := hended c hc hthread hlt
      exact ⟨reply, (List.singleton_sublist.mpr hlog).cons_cons _⟩
    · obtain ⟨reply, hlog⟩ := hn.inTurn c d hc hd hthread hlt
      exact ⟨reply, hlog.cons _⟩

/-- A call goes on or ends: it stays the latest one of its thread. -/
lemma Numbered.goOn (hn : Numbered programs s) {made : ℕ} {rest : List Request} {call : Call}
    {stage : Stage} (h : s.threads[t]? = some ⟨made, rest, some (call, stage)⟩)
    {memory : Precomputation} {holder : Option ℕ} {next : Option (Call × Stage)}
    {log : List CallEvent} (hnext : ∀ d σ, next = some (d, σ) → d = call)
    (hlog : s.log.Sublist log) (hbegan : ∀ d, .began d ∈ log → .began d ∈ s.log)
    (hdone : (∃ σ, next = some (call, σ)) ∨ ∃ reply, .ended call reply ∈ log) :
    Numbered programs ⟨memory, holder, s.threads.set call.thread ⟨made, rest, next⟩, log⟩ := by
  obtain ⟨rfl, -⟩ := hn.doing h
  have hpending : rest = (programs.getD call.thread []).drop made := hn.pending _ _ h
  obtain ⟨-, hlt, hcall⟩ := hn.current _ _ call stage h rfl
  refine ⟨by simpa using hn.length, ?_, ?_, ?_, ?_, ?_⟩
  · intro u thread hu
    rw [getElem?_set_thread h] at hu
    split_ifs at hu with htu
    · cases hu
      rwa [htu]
    · exact hn.pending u thread hu
  · intro u thread d σ hu hcurrent
    rw [getElem?_set_thread h] at hu
    split_ifs at hu with htu
    · cases hu
      obtain rfl := hnext d σ hcurrent
      exact ⟨htu.symm, hlt, hlog.subset hcall⟩
    · obtain ⟨hthread, hlt, hbefore⟩ := hn.current u thread d σ hu hcurrent
      exact ⟨hthread, hlt, hlog.subset hbefore⟩
  · intro d hd
    obtain ⟨hof, thread, hthread, hlt⟩ := hn.began d (hbegan d hd)
    refine ⟨hof, ?_⟩
    rw [getElem?_set_thread h]
    split_ifs with hu
    · rw [hu, h, Option.some.injEq] at hthread
      exact ⟨_, rfl, by rwa [← hthread] at hlt⟩
    · exact ⟨thread, hthread, hlt⟩
  · intro d thread hd hu hlt
    rw [getElem?_set_thread h] at hu
    split_ifs at hu with htu
    · cases hu
      rw [← htu] at h
      rcases hn.past d _ hd h hlt with ⟨σ, hσ⟩ | ⟨reply, hreply⟩
      · cases hσ
        exact hdone
      · exact Or.inr ⟨reply, hlog.subset hreply⟩
    · refine (hn.past d thread hd hu hlt).imp id ?_
      rintro ⟨reply, hreply⟩
      exact ⟨reply, hlog.subset hreply⟩
  · intro c d hc hd hthread hlt
    obtain ⟨reply, hbefore⟩ := hn.inTurn c d hc (hbegan d hd) hthread hlt
    exact ⟨reply, hbefore.trans hlog⟩

theorem Numbered.step (hn : Numbered programs s) (t : ℕ) : Numbered programs (s.step t) := by
  obtain ⟨s', hs, hmove⟩ := s.exists_move t
  rw [hs]
  cases hmove with
  | stay => exact hn
  | begin thread => exact hn.begin thread
  | advance thread _ =>
    exact hn.goOn thread (by simp) (List.Sublist.refl _) (fun _ h => h) (Or.inl ⟨_, rfl⟩)
  | finish thread _ =>
    exact hn.goOn thread (by simp) (List.sublist_cons_self _ _) (by simp)
      (Or.inr ⟨_, List.mem_cons_self⟩)

end SharedPrecomputation

end KoblitzCurve
