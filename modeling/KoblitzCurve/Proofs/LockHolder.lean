import KoblitzCurve.Proofs.ThreadSteps

/-! Who has the lock, and what that is good for. A call past the lock is the only one there, so that
the flag which it has found is still the same when it works and when it stores the new flag. -/
namespace KoblitzCurve
open Precomputation

namespace Precomputation

lemma generateTable_initialized (s : Precomputation) :
    s.generateTable.initialized = s.initialized := by
  rw [generateTable]
  split_ifs <;> rfl

/-- The work that the lock guards leaves the flag alone. -/
theorem work_initialized (s : Precomputation) {request : Request} :
    (s.work request).2.initialized = s.initialized := by
  cases request with
  | init detected => exact s.generateTable_initialized
  | generateTable => exact s.generateTable_initialized
  | _ => rfl

/-- A request that finds the flag as it is to be has nothing to do. -/
theorem answer_of_goal {s : Precomputation} {request : Request}
    (h : request.goal = some s.initialized) : s.answer request = (.done, s) := by
  cases request <;> simp_all [Request.goal, answer, init, deinit]

/-- Otherwise its work and the new flag are all that it does. -/
theorem answer_of_work {s : Precomputation} {request : Request} {flag : Bool}
    (hgoal : request.goal = some flag) (hflag : s.initialized ≠ flag) :
    s.answer request = (.done, { (s.work request).2 with initialized := flag }) := by
  cases request with
  | init detected =>
    obtain rfl : true = flag := Option.some.inj hgoal
    simp [answer, init, work, hflag]
  | deinit =>
    obtain rfl : false = flag := Option.some.inj hgoal
    simp [answer, deinit, work, hflag]
  | _ => contradiction

theorem work_of_goal_none {s : Precomputation} {request : Request} (h : request.goal = none) :
    s.work request = s.answer request := by
  cases request <;> simp_all [Request.goal, work]

end Precomputation

/-- What is known of a call at a stage: whether its thread has the lock, and the flag. -/
def Stage.Fits (memory : Precomputation) (holder : Option ℕ) (call : Call) : Stage → Prop
  | look => (call.request.goal = none → call.request = .isInitialized) ∧
      holder ≠ some call.thread
  | acquire => call.request ≠ .isInitialized ∧ holder ≠ some call.thread
  | lookAgain => call.request ≠ .isInitialized ∧ holder = some call.thread
  | work => call.request ≠ .isInitialized ∧ call.request.goal ≠ some memory.initialized ∧
      holder = some call.thread
  | store flag => call.request.goal = some flag ∧ memory.initialized ≠ flag ∧
      holder = some call.thread
  | release _ => holder = some call.thread

namespace Stage
variable {memory memory' : Precomputation} {holder holder' : Option ℕ} {call : Call} {stage : Stage}

lemma first_fits (h : holder ≠ some call.thread) :
    (first call.request).Fits memory holder call := by
  obtain ⟨thread, number, request⟩ := call
  cases request <;> simp_all [first, Fits, Request.goal]

/-- What other threads do does not matter, as long as they respect the lock. -/
lemma Fits.frame (h : stage.Fits memory holder call)
    (hholder : holder' = some call.thread ↔ holder = some call.thread)
    (hflag : holder = some call.thread → memory'.initialized = memory.initialized) :
    stage.Fits memory' holder' call := by
  cases stage with
  | look => exact ⟨h.1, mt hholder.mp h.2⟩
  | acquire => exact ⟨h.1, mt hholder.mp h.2⟩
  | lookAgain => exact ⟨h.1, hholder.mpr h.2⟩
  | work => exact ⟨h.1, hflag h.2.2 ▸ h.2.1, hholder.mpr h.2.2⟩
  | store flag => exact ⟨h.1, hflag h.2.2 ▸ h.2.1, hholder.mpr h.2.2⟩
  | release reply => exact hholder.mpr h

end Stage

namespace Advance
variable {call : Call} {memory memory' : Precomputation} {holder holder' : Option ℕ}
  {stage stage' : Stage}

lemma fits (h : Advance call memory holder stage memory' holder' stage')
    (hstage : stage.Fits memory holder call) : stage'.Fits memory' holder' call := by
  cases h with
  | needed goal differs =>
    refine ⟨?_, hstage.2⟩
    intro heq
    rw [heq] at goal
    contradiction
  | lock =>
    cases hgoal : call.request.goal with
    | none => exact ⟨hstage.1, by rw [hgoal]; simp, rfl⟩
    | some flag => exact ⟨hstage.1, rfl⟩
  | reached goal => exact hstage.2
  | differs goal => exact ⟨hstage.1, goal, hstage.2⟩
  | change goal =>
    refine ⟨goal, ?_, hstage.2.2⟩
    rw [work_initialized]
    rintro rfl
    exact hstage.2.1 goal
  | answer goal => exact hstage.2.2
  | publish => exact hstage.2.2

lemma others (h : Advance call memory holder stage memory' holder' stage')
    (hstage : stage.Fits memory holder call) {t : ℕ} (ht : t ≠ call.thread) :
    (holder' = some t ↔ holder = some t) ∧
      (holder = some t → memory'.initialized = memory.initialized) := by
  cases h with
  | lock => simp [ht.symm]
  | change goal => exact ⟨Iff.rfl, fun _ => memory.work_initialized⟩
  | answer goal => exact ⟨Iff.rfl, fun _ => memory.work_initialized⟩
  | publish =>
    refine ⟨Iff.rfl, fun hholder => absurd hholder ?_⟩
    rw [hstage.2.2, Option.some.injEq]
    exact ht.symm
  | _ => exact ⟨Iff.rfl, fun _ => rfl⟩

end Advance

lemma Finish.holder {call : Call} {memory : Precomputation} {holder holder' : Option ℕ}
    {stage : Stage} {reply : Reply} (h : Finish call memory holder stage holder' reply)
    (hstage : stage.Fits memory holder call) (t : ℕ) :
    holder' = some t ↔ holder = some t ∧ t ≠ call.thread := by
  cases h with
  | unlock =>
    have hlock : holder = some call.thread := hstage
    simp [hlock, eq_comm]
  | _ =>
    refine ⟨fun heq => ⟨heq, ?_⟩, And.left⟩
    rintro rfl
    exact hstage.2 heq

namespace SharedPrecomputation
variable {s : SharedPrecomputation} {programs : List (List Request)}

/-- The lock is with a thread that is in a call, and every call is at a stage that fits that. -/
structure Guarded (s : SharedPrecomputation) : Prop where
  fits : ∀ call stage, s.Doing call stage → stage.Fits s.memory s.holder call
  holder : ∀ t, s.holder = some t → ∃ call stage, s.Doing call stage ∧ call.thread = t

lemma guarded_start (memory : Precomputation) (programs : List (List Request)) :
    Guarded (start memory programs) := by
  refine ⟨fun call stage h => ?_, by simp [start]⟩
  exact absurd h (not_doing_start memory programs call stage)

/-- A thread between its calls does not have the lock. -/
lemma Guarded.holder_ne (hg : s.Guarded) {t made : ℕ} {rest : List Request}
    (thread : s.threads[t]? = some ⟨made, rest, none⟩) : s.holder ≠ some t := by
  intro hholder
  obtain ⟨call, stage, ⟨other, hother, hcurrent⟩, rfl⟩ := hg.holder t hholder
  obtain rfl := Option.some.inj (thread.symm.trans hother)
  contradiction

theorem Guarded.step (hg : s.Guarded) (hn : Numbered programs s) (t : ℕ) :
    (s.step t).Guarded := by
  obtain ⟨s', hs, hmove⟩ := s.exists_move t
  rw [hs]
  cases hmove with
  | stay => exact hg
  | begin thread =>
    have hfree := hg.holder_ne thread
    refine ⟨fun d σ hd => ?_, fun u hu => ?_⟩
    · rw [doing_set thread] at hd
      split_ifs at hd with ht
      · cases hd
        exact Stage.first_fits hfree
      · exact hg.fits d σ hd
    · obtain ⟨d, σ, hd, rfl⟩ := hg.holder u hu
      have ht : d.thread ≠ t := fun heq => hfree (heq ▸ hu)
      exact ⟨d, σ, (doing_set thread).mpr (by rwa [if_neg ht]), rfl⟩
  | @advance _ _ call _ _ _ _ thread step =>
    obtain ⟨rfl, hdoing⟩ := hn.doing thread
    have hfits := hg.fits _ _ hdoing
    refine ⟨fun d σ hd => ?_, fun u hu => ?_⟩
    · rw [doing_set thread] at hd
      split_ifs at hd with ht
      · cases hd
        exact step.fits hfits
      · obtain ⟨hholder, hflag⟩ := step.others hfits ht
        exact (hg.fits d σ hd).frame hholder hflag
    · by_cases ht : u = call.thread
      · exact ⟨call, _, (doing_set thread).mpr (by rw [if_pos rfl]), ht.symm⟩
      · obtain ⟨d, σ, hd, rfl⟩ := hg.holder u ((step.others hfits ht).1.mp hu)
        exact ⟨d, σ, (doing_set thread).mpr (by rwa [if_neg ht]), rfl⟩
  | @finish _ _ call _ _ _ thread step =>
    obtain ⟨rfl, hdoing⟩ := hn.doing thread
    have hholder := step.holder (hg.fits _ _ hdoing)
    refine ⟨fun d σ hd => ?_, fun u hu => ?_⟩
    · rw [doing_set thread] at hd
      split_ifs at hd with ht
      refine (hg.fits d σ hd).frame ?_ fun _ => rfl
      rw [hholder, and_iff_left ht]
    · obtain ⟨hbefore, ht⟩ := (hholder u).mp hu
      obtain ⟨d, σ, hd, rfl⟩ := hg.holder u hbefore
      exact ⟨d, σ, (doing_set thread).mpr (by rwa [if_neg ht]), rfl⟩

/-- What the steps keep: the calls are in turn, and the lock is respected. -/
structure Regular (programs : List (List Request)) (s : SharedPrecomputation) : Prop where
  numbered : Numbered programs s
  guarded : s.Guarded

lemma regular_start (memory : Precomputation) (programs : List (List Request)) :
    Regular programs (start memory programs) :=
  ⟨numbered_start memory programs, guarded_start memory programs⟩

lemma Regular.step (h : Regular programs s) (t : ℕ) : Regular programs (s.step t) :=
  ⟨h.numbered.step t, h.guarded.step h.numbered t⟩

lemma Regular.run (h : Regular programs s) (schedule : List ℕ) :
    Regular programs (s.run schedule) :=
  run_keeps (fun _ t hs => hs.step t) h schedule

end SharedPrecomputation

end KoblitzCurve
