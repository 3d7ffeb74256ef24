import KoblitzCurve.Proofs.LockHolder
import KoblitzCurve.Proofs.RequestHistory

/-! An order of the calls that explains their replies. A call takes its place in it at one step of
its own: where it looks at the flag for the last time and has nothing to do, where it does work that
leaves the flag alone, and else where it stores the flag. -/
namespace KoblitzCurve
open Precomputation

/-- What is prepared after the calls in that order. -/
def outcome (memory : Precomputation) (order : List (Call × Reply)) : Precomputation :=
  (memory.answers (order.map fun entry => entry.1.request)).2

/-- One call after the other, in that order, has the reply that it had among the threads. A call
that had ended when another one began comes before it; the log has the latest event first. -/
structure Explains (memory : Precomputation) (log : List CallEvent)
    (order : List (Call × Reply)) : Prop where
  replies : (memory.answers (order.map fun entry => entry.1.request)).1 = order.map Prod.snd
  nodup : (order.map Prod.fst).Nodup
  began : ∀ call ∈ order.map Prod.fst, .began call ∈ log
  ended : ∀ call reply, .ended call reply ∈ log → (call, reply) ∈ order
  precedes : ∀ c d reply, [.began d, .ended c reply].Sublist log → d ∈ order.map Prod.fst →
    [c, d].Sublist (order.map Prod.fst)

section Order
variable {memory : Precomputation} {log : List CallEvent} {order : List (Call × Reply)}
  {call : Call} {reply : Reply}

lemma outcome_concat (memory : Precomputation) (order : List (Call × Reply))
    (entry : Call × Reply) :
    outcome memory (order ++ [entry]) = ((outcome memory order).answer entry.1.request).2 := by
  rw [outcome, List.map_append, List.map_singleton, answers_concat, outcome]

lemma mem_calls (h : (call, reply) ∈ order) : call ∈ order.map Prod.fst :=
  List.mem_map_of_mem h

namespace Explains

lemma nothing (memory : Precomputation) : Explains memory [] [] :=
  ⟨rfl, List.nodup_nil, by simp, by simp, by simp⟩

/-- A call that is under way takes effect after all the others. -/
lemma concat (h : Explains memory log order) (hbegan : .began call ∈ log)
    (hnew : call ∉ order.map Prod.fst)
    (hreply : ((outcome memory order).answer call.request).1 = reply) :
    Explains memory log (order ++ [(call, reply)]) := by
  have hcalls : (order ++ [(call, reply)]).map Prod.fst = order.map Prod.fst ++ [call] := by simp
  refine ⟨?_, ?_, ?_, ?_, ?_⟩
  · rw [List.map_append, List.map_singleton, answers_concat, h.replies, List.map_append,
      List.map_singleton]
    rw [outcome] at hreply
    rw [hreply]
  · rw [hcalls, List.nodup_append]
    refine ⟨h.nodup, List.nodup_singleton _, fun c hc d hd => ?_⟩
    obtain rfl := List.mem_singleton.mp hd
    rintro rfl
    exact hnew hc
  · intro c hc
    rw [hcalls, List.mem_append, List.mem_singleton] at hc
    rcases hc with hc | rfl
    · exact h.began c hc
    · exact hbegan
  · intro c r hc
    exact List.mem_append_left _ (h.ended c r hc)
  · intro c d r hsub hd
    rw [hcalls] at hd ⊢
    rcases List.mem_append.mp hd with hd | hd
    · exact (h.precedes c d r hsub hd).trans (List.sublist_append_left _ _)
    · obtain rfl := List.mem_singleton.mp hd
      have hc : c ∈ order.map Prod.fst := mem_calls (h.ended c r (hsub.subset (by simp)))
      exact (List.singleton_sublist.mpr hc).append (List.Sublist.refl [d])

/-- No call that has taken effect begins now. -/
lemma began_cons (h : Explains memory log order) (hnew : .began call ∉ log) :
    Explains memory (.began call :: log) order := by
  refine ⟨h.replies, h.nodup, ?_, ?_, ?_⟩
  · intro c hc
    exact List.mem_cons_of_mem _ (h.began c hc)
  · intro c r hc
    exact h.ended c r (by simpa using hc)
  · intro c d r hsub hd
    cases hsub with
    | cons _ hsub => exact h.precedes c d r hsub hd
    | cons_cons _ _ => exact absurd (h.began call hd) hnew

lemma ended_cons (h : Explains memory log order) (hmem : (call, reply) ∈ order) :
    Explains memory (.ended call reply :: log) order := by
  refine ⟨h.replies, h.nodup, ?_, ?_, ?_⟩
  · intro c hc
    exact List.mem_cons_of_mem _ (h.began c hc)
  · intro c r hc
    rcases List.mem_cons.mp hc with heq | hc
    · cases heq
      exact hmem
    · exact h.ended c r hc
  · intro c d r hsub hd
    cases hsub with
    | cons _ hsub => exact h.precedes c d r hsub hd

end Explains

end Order

namespace Stage
variable {s memory : Precomputation} {order : List (Call × Reply)} {call : Call} {stage : Stage}

/-- Whether a call that is at the stage has taken effect. -/
def Recorded (order : List (Call × Reply)) (call : Call) : Stage → Prop
  | release reply => (call, reply) ∈ order
  | _ => call ∉ order.map Prod.fst

/-- What a call finds that has the lock, after calls that together leave `s`. -/
def Finds (s memory : Precomputation) (request : Request) : Stage → Prop
  | store _ => memory = (s.work request).2
  | _ => memory = s

lemma recorded_iff (h : ∀ reply, stage ≠ .release reply) :
    stage.Recorded order call ↔ call ∉ order.map Prod.fst := by
  cases stage with
  | release reply => exact absurd rfl (h reply)
  | _ => exact Iff.rfl

lemma Recorded.concat {entry : Call × Reply} (h : stage.Recorded order call)
    (hentry : call ≠ entry.1) : stage.Recorded (order ++ [entry]) call := by
  cases stage with
  | release reply => exact List.mem_append_left _ h
  | _ =>
    have hnew : call ∉ order.map Prod.fst := h
    have hnew' : call ∉ (order ++ [entry]).map Prod.fst := by simp_all
    exact hnew'

lemma Finds.initialized {request : Request} (h : stage.Finds s memory request) :
    memory.initialized = s.initialized := by
  cases stage with
  | store flag =>
    have hmemory : memory = (s.work request).2 := h
    rw [hmemory, work_initialized]
  | _ =>
    have hmemory : memory = s := h
    rw [hmemory]

lemma first_ne_release (request : Request) (reply : Reply) : first request ≠ .release reply := by
  cases request <;> simp [first]

end Stage

/-- A step is all of what the request does, or none of it. -/
lemma Advance.effect {call : Call} {s memory memory' : Precomputation} {holder holder' : Option ℕ}
    {stage stage' : Stage} (h : Advance call memory holder stage memory' holder' stage')
    (hfits : stage.Fits memory holder call) (hfree : holder = none → memory = s)
    (hlocked : holder = some call.thread → stage.Finds s memory call.request) :
    (∀ reply, stage ≠ .release reply) ∧
      ((∃ reply, stage' = .release reply ∧ s.answer call.request = (reply, memory')) ∨
        (∀ reply, stage' ≠ .release reply) ∧
          (holder' = some call.thread → stage'.Finds s memory' call.request)) := by
  cases h with
  | needed goal differs =>
    exact ⟨by simp, Or.inr ⟨by simp, fun hholder => absurd hholder hfits.2⟩⟩
  | lock =>
    refine ⟨by simp, Or.inr ⟨fun reply => by split_ifs <;> simp, fun _ => ?_⟩⟩
    split_ifs <;> exact hfree rfl
  | reached goal =>
    obtain rfl : memory = s := hlocked hfits.2
    exact ⟨by simp, Or.inl ⟨_, rfl, answer_of_goal goal⟩⟩
  | differs goal =>
    exact ⟨by simp, Or.inr ⟨by simp, fun _ => hlocked hfits.2⟩⟩
  | change goal =>
    obtain rfl : memory = s := hlocked hfits.2.2
    exact ⟨by simp, Or.inr ⟨by simp, fun _ => rfl⟩⟩
  | answer goal =>
    obtain rfl : memory = s := hlocked hfits.2.2
    exact ⟨by simp, Or.inl ⟨_, rfl, by rw [work_of_goal_none goal]⟩⟩
  | publish =>
    obtain ⟨hgoal, hflag, hholder⟩ := hfits
    have hmemory : memory = (s.work call.request).2 := hlocked hholder
    rw [hmemory, work_initialized] at hflag
    refine ⟨by simp, Or.inl ⟨_, rfl, ?_⟩⟩
    rw [answer_of_work hgoal hflag, hmemory]

lemma Advance.elsewhere {call : Call} {memory memory' : Precomputation}
    {holder holder' : Option ℕ} {stage stage' : Stage}
    (h : Advance call memory holder stage memory' holder' stage')
    (hfits : stage.Fits memory holder call) (hholder : holder' ≠ some call.thread) :
    memory' = memory ∧ holder' = holder := by
  cases h with
  | needed => exact ⟨rfl, rfl⟩
  | lock => exact absurd rfl hholder
  | reached => exact ⟨rfl, rfl⟩
  | differs => exact ⟨rfl, rfl⟩
  | change => exact absurd hfits.2.2 hholder
  | answer => exact absurd hfits.2.2 hholder
  | publish => exact absurd hfits.2.2 hholder

lemma Finish.effect {call : Call} {s memory : Precomputation} {holder holder' : Option ℕ}
    {stage : Stage} {reply : Reply} (h : Finish call memory holder stage holder' reply)
    (hfits : stage.Fits memory holder call) (hflag : memory.initialized = s.initialized) :
    (stage = .release reply ∧ holder' = none) ∨
      (∀ other, stage ≠ .release other) ∧ holder' = holder ∧
        s.answer call.request = (reply, s) := by
  cases h with
  | flag goal =>
    refine Or.inr ⟨by simp, rfl, ?_⟩
    rw [hfits.1 goal, hflag, answer]
  | unneeded goal => exact Or.inr ⟨by simp, rfl, answer_of_goal (hflag ▸ goal)⟩
  | unlock => exact Or.inl ⟨rfl, rfl⟩

namespace SharedPrecomputation
variable {memory : Precomputation} {s : SharedPrecomputation} {programs : List (List Request)}
  {order : List (Call × Reply)}

/-- The order explains what has happened so far, and it says what is in the memory. -/
structure Linearized (memory : Precomputation) (s : SharedPrecomputation)
    (order : List (Call × Reply)) : Prop where
  explains : Explains memory s.log order
  recorded : ∀ call stage, s.Doing call stage → stage.Recorded order call
  free : s.holder = none → s.memory = outcome memory order
  locked : ∀ call stage, s.Doing call stage → s.holder = some call.thread →
    stage.Finds (outcome memory order) s.memory call.request

lemma linearized_start (memory : Precomputation) (programs : List (List Request)) :
    Linearized memory (start memory programs) [] := by
  have hidle := not_doing_start memory programs
  exact ⟨.nothing memory, fun c σ h => absurd h (hidle c σ), fun _ => rfl,
    fun c σ h => absurd h (hidle c σ)⟩

/-- The flag always is what the calls so far have made it. -/
lemma Linearized.initialized (hl : Linearized memory s order) (hg : s.Guarded) :
    s.memory.initialized = (outcome memory order).initialized := by
  cases hholder : s.holder with
  | none => rw [hl.free hholder]
  | some t =>
    obtain ⟨call, stage, hdoing, rfl⟩ := hg.holder t hholder
    exact (hl.locked call stage hdoing hholder).initialized

lemma Linearized.begin (hl : Linearized memory s order) (hg : s.Guarded)
    (hn : Numbered programs s) {t made : ℕ} {request : Request} {rest : List Request}
    (thread : s.threads[t]? = some ⟨made, request :: rest, none⟩) :
    Linearized memory ⟨s.memory, s.holder,
      s.threads.set t ⟨made + 1, rest, some (⟨t, made, request⟩, .first request)⟩,
      .began ⟨t, made, request⟩ :: s.log⟩ order := by
  have hnew : .began ⟨t, made, request⟩ ∉ s.log := by
    intro hmem
    obtain ⟨-, other, hother, hlt⟩ := hn.began _ hmem
    rw [thread, Option.some.injEq] at hother
    subst hother
    exact Nat.lt_irrefl _ hlt
  refine ⟨hl.explains.began_cons hnew, fun d σ hd => ?_, hl.free, fun d σ hd hholder => ?_⟩
  · rw [doing_set thread] at hd
    split_ifs at hd with ht
    · cases hd
      rw [Stage.recorded_iff (Stage.first_ne_release request)]
      exact fun hmem => hnew (hl.explains.began _ hmem)
    · exact hl.recorded d σ hd
  · have ht : d.thread ≠ t := fun heq => hg.holder_ne thread (heq ▸ hholder)
    rw [doing_set thread, if_neg ht] at hd
    exact hl.locked d σ hd hholder

lemma Linearized.advance (hl : Linearized memory s order) (hg : s.Guarded)
    (hn : Numbered programs s) {t made : ℕ} {rest : List Request} {call : Call}
    {stage stage' : Stage} {memory' : Precomputation} {holder : Option ℕ}
    (thread : s.threads[t]? = some ⟨made, rest, some (call, stage)⟩)
    (step : Advance call s.memory s.holder stage memory' holder stage') :
    ∃ order', Linearized memory ⟨memory', holder,
      s.threads.set call.thread ⟨made, rest, some (call, stage')⟩, s.log⟩ order' := by
  obtain ⟨rfl, hdoing⟩ := hn.doing thread
  have hfits := hg.fits _ _ hdoing
  obtain ⟨hbefore, heffect⟩ := step.effect hfits hl.free (hl.locked _ _ hdoing)
  have hnew : call ∉ order.map Prod.fst :=
    (Stage.recorded_iff hbefore).mp (hl.recorded _ _ hdoing)
  rcases heffect with ⟨reply, rfl, hanswer⟩ | ⟨hbefore', hfinds⟩
  · -- The call takes effect, while it has the lock.
    have hholder : holder = some call.thread := step.fits hfits
    have houtcome : outcome memory (order ++ [(call, reply)]) = memory' := by
      rw [outcome_concat, hanswer]
    refine ⟨order ++ [(call, reply)], ?_, fun d σ hd => ?_, fun (h : holder = none) => ?_,
      fun d σ hd (h : holder = some d.thread) => ?_⟩
    · exact hl.explains.concat (hn.began_of_doing hdoing) hnew (by rw [hanswer])
    · rw [doing_set thread] at hd
      split_ifs at hd with ht
      · cases hd
        exact List.mem_append_right _ List.mem_cons_self
      · exact (hl.recorded d σ hd).concat fun heq => ht (congrArg Call.thread heq)
    · exact absurd (hholder.symm.trans h) (by simp)
    · have ht : d.thread = call.thread := Option.some.inj (h.symm.trans hholder)
      rw [doing_set thread, if_pos ht] at hd
      cases hd
      exact houtcome.symm
  · -- The order stays as it is.
    refine ⟨order, hl.explains, fun d σ hd => ?_, fun (h : holder = none) => ?_,
      fun d σ hd (h : holder = some d.thread) => ?_⟩
    · rw [doing_set thread] at hd
      split_ifs at hd with ht
      · cases hd
        exact (Stage.recorded_iff hbefore').mpr hnew
      · exact hl.recorded d σ hd
    · obtain ⟨rfl, rfl⟩ := step.elsewhere hfits (by rw [h]; simp)
      exact hl.free h
    · rw [doing_set thread] at hd
      split_ifs at hd with ht
      · cases hd
        exact hfinds h
      · have hother : holder ≠ some call.thread := by
          rw [h, Ne, Option.some.injEq]
          exact ht
        obtain ⟨rfl, rfl⟩ := step.elsewhere hfits hother
        exact hl.locked d σ hd h

lemma Linearized.finish (hl : Linearized memory s order) (hg : s.Guarded)
    (hn : Numbered programs s) {t made : ℕ} {rest : List Request} {call : Call}
    {stage : Stage} {holder : Option ℕ} {reply : Reply}
    (thread : s.threads[t]? = some ⟨made, rest, some (call, stage)⟩)
    (step : Finish call s.memory s.holder stage holder reply) :
    ∃ order', Linearized memory ⟨s.memory, holder,
      s.threads.set call.thread ⟨made, rest, none⟩, .ended call reply :: s.log⟩ order' := by
  obtain ⟨rfl, hdoing⟩ := hn.doing thread
  have hfits := hg.fits _ _ hdoing
  have hothers : ∀ d σ, Doing ⟨s.memory, holder, s.threads.set call.thread ⟨made, rest, none⟩,
      .ended call reply :: s.log⟩ d σ → d.thread ≠ call.thread ∧ s.Doing d σ := by
    intro d σ hd
    rw [doing_set thread] at hd
    split_ifs at hd with ht
    exact ⟨ht, hd⟩
  rcases step.effect hfits (hl.initialized hg) with ⟨rfl, rfl⟩ | ⟨hbefore, rfl, hanswer⟩
  · -- The call has taken effect before, and gives the lock back.
    have hmem : (call, reply) ∈ order := hl.recorded _ _ hdoing
    refine ⟨order, hl.explains.ended_cons hmem, fun d σ hd => ?_, fun _ => ?_, by simp⟩
    · exact hl.recorded d σ (hothers d σ hd).2
    · exact hl.locked _ _ hdoing hfits
  · -- The call takes effect as it looks at the flag, and changes nothing.
    have hnew : call ∉ order.map Prod.fst :=
      (Stage.recorded_iff hbefore).mp (hl.recorded _ _ hdoing)
    have houtcome : outcome memory (order ++ [(call, reply)]) = outcome memory order := by
      rw [outcome_concat, hanswer]
    refine ⟨order ++ [(call, reply)], ?_, fun d σ hd => ?_, ?_, fun d σ hd => ?_⟩
    · refine Explains.ended_cons ?_ (List.mem_append_right _ List.mem_cons_self)
      exact hl.explains.concat (hn.began_of_doing hdoing) hnew (by rw [hanswer])
    · obtain ⟨ht, hd⟩ := hothers d σ hd
      exact (hl.recorded d σ hd).concat fun heq => ht (congrArg Call.thread heq)
    · rw [houtcome]
      exact hl.free
    · rw [houtcome]
      exact hl.locked d σ (hothers d σ hd).2

theorem Linearized.step (hl : Linearized memory s order) (hg : s.Guarded)
    (hn : Numbered programs s) (t : ℕ) : ∃ order', Linearized memory (s.step t) order' := by
  obtain ⟨s', hs, hmove⟩ := s.exists_move t
  rw [hs]
  cases hmove with
  | stay => exact ⟨order, hl⟩
  | begin thread => exact ⟨order, hl.begin hg hn thread⟩
  | advance thread step => exact hl.advance hg hn thread step
  | finish thread step => exact hl.finish hg hn thread step

end SharedPrecomputation

end KoblitzCurve
