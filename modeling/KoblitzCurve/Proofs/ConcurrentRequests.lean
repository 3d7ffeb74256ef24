import KoblitzCurve.Proofs.CallOrder
import KoblitzCurve.Proofs.FairSchedules

/-! Threads that share a precomputation get what they could have got one call at a time. What is
known of histories of requests then holds of threads too: if all of them set up and go on to
multiply, one table is built for them, and no table is handed out before it is complete. -/
namespace KoblitzCurve
open Precomputation JacobianPoint

namespace Precomputation
variable {s : Precomputation} {requests : List Request}

/-- A table stays as long as nothing gives it up, and no other is built. -/
lemma answers_of_table (htable : s.table.isSome)
    (hrequests : ∀ request ∈ requests, request ≠ .freeTable ∧ request ≠ .deinit) :
    (s.answers requests).2.table.isSome ∧ (s.answers requests).2.builds = s.builds := by
  induction requests generalizing s with
  | nil => exact ⟨htable, rfl⟩
  | cons request rest ih =>
    obtain ⟨hfree, hdeinit⟩ := hrequests request List.mem_cons_self
    have hkept : (s.answer request).2.table.isSome := by
      refine (answer_table s request).mpr (Or.inr ⟨htable, ?_⟩)
      rintro (rfl | ⟨rfl, -⟩)
      · exact hfree rfl
      · exact hdeinit rfl
    have hbuilds : (s.answer request).2.builds = s.builds := by
      rw [answer_builds]
      simp [Option.isNone_eq_false_iff.mpr htable]
    rw [← hbuilds]
    exact ih hkept fun r hr => hrequests r (List.mem_cons_of_mem _ hr)

/-- The first one to set up builds the only table. -/
lemma after_of_init_mem (hrequests : ∀ request ∈ requests,
      (∃ detected, request = .init detected) ∨ ∃ k, request = .mulGenerator k)
    (hinit : ∃ detected, .init detected ∈ requests) :
    (after requests).table.isSome ∧ (after requests).builds = 1 := by
  induction requests with
  | nil => simp at hinit
  | cons request rest ih =>
    have hrest : ∀ r ∈ rest, (∃ detected, r = .init detected) ∨ ∃ k, r = .mulGenerator k :=
      fun r hr => hrequests r (List.mem_cons_of_mem _ hr)
    rcases hrequests request List.mem_cons_self with ⟨detected, rfl⟩ | ⟨k, rfl⟩
    · have htable : (empty.answer (.init detected)).2.table.isSome := rfl
      refine answers_of_table htable fun r hr => ?_
      rcases hrest r hr with ⟨other, rfl⟩ | ⟨k, rfl⟩ <;> simp
    · exact ih hrest (by simpa using hinit)

end Precomputation

lemma mem_of_pair_sublist {α : Type*} {a b : α} {before later : List α}
    (h : [a, b].Sublist (before ++ b :: later)) (hnodup : (before ++ b :: later).Nodup) :
    a ∈ before := by
  induction before with
  | nil =>
    have hb : b ∉ later := (List.nodup_cons.mp hnodup).1
    cases h with
    | cons _ h => exact absurd (h.subset (by simp)) hb
    | cons_cons _ h => exact absurd (h.subset (by simp)) hb
  | cons x before ih =>
    cases h with
    | cons _ h => exact List.mem_cons_of_mem _ (ih h (List.nodup_cons.mp hnodup).2)
    | cons_cons _ h => exact List.mem_cons_self

namespace Explains
variable {memory : Precomputation} {log : List CallEvent} {order : List (Call × Reply)}
  {call : Call} {reply : Reply}

/-- A reply is the answer to the request after the calls before it. -/
lemma answer_of_ended (h : Explains memory log order) (hended : .ended call reply ∈ log) :
    ∃ before later, order = before ++ (call, reply) :: later ∧
      ((outcome memory before).answer call.request).1 = reply := by
  obtain ⟨before, later, rfl⟩ := List.append_of_mem (h.ended call reply hended)
  refine ⟨before, later, rfl, ?_⟩
  have hreplies := h.replies
  rw [List.map_append, List.map_cons, answers_append, List.map_append] at hreplies
  have hlater := (List.append_inj hreplies (by simp [answers_length])).2
  exact (List.cons.inj hlater).1

end Explains

namespace SharedPrecomputation
variable {memory : Precomputation} {programs : List (List Request)} {s : SharedPrecomputation}
  {order : List (Call × Reply)}

/-- The calls of the programs have the replies that they have if they are made one after the other
in that order, and leave what they leave then. -/
structure Serializes (memory : Precomputation) (programs : List (List Request))
    (s : SharedPrecomputation) (order : List (Call × Reply)) : Prop where
  explains : Explains memory s.log order
  ofPrograms : ∀ call ∈ order.map Prod.fst, call.Of programs
  inTurn : ∀ c d, c.Of programs → d ∈ order.map Prod.fst → c.thread = d.thread →
    c.number < d.number → [c, d].Sublist (order.map Prod.fst)
  idle : s.Idle → s.memory = outcome memory order ∧
    ∀ call, .began call ∈ s.log → call ∈ order.map Prod.fst
  finished : s.Finished → ∀ call, call.Of programs → ∃ reply, .ended call reply ∈ s.log

lemma Finished.idle (h : s.Finished) : s.Idle :=
  fun thread hthread => (h thread hthread).2

lemma Regular.ended_of_idle (h : Regular programs s) (hidle : s.Idle) {call : Call}
    {thread : Thread} (hcall : call.Of programs) (hthread : s.threads[call.thread]? = some thread)
    (hmade : call.number < thread.made) : ∃ reply, .ended call reply ∈ s.log := by
  refine (h.numbered.past call thread hcall hthread hmade).resolve_left ?_
  rintro ⟨stage, hcurrent⟩
  rw [hidle thread (List.mem_of_getElem? hthread)] at hcurrent
  contradiction

lemma Regular.holder_eq_none (h : Regular programs s) (hidle : s.Idle) : s.holder = none := by
  by_contra hne
  obtain ⟨t, hholder⟩ := Option.ne_none_iff_exists'.mp hne
  obtain ⟨call, stage, ⟨thread, hthread, hcurrent⟩, -⟩ := h.guarded.holder t hholder
  rw [hidle thread (List.mem_of_getElem? hthread)] at hcurrent
  contradiction

lemma Linearized.serializes (hl : Linearized memory s order) (h : Regular programs s) :
    Serializes memory programs s order := by
  refine ⟨hl.explains, fun call hcall => ?_, fun c d hc hd hthread hlt => ?_, fun hidle => ?_,
    fun hfinished call hcall => ?_⟩
  · exact (h.numbered.began call (hl.explains.began call hcall)).1
  · obtain ⟨reply, hlog⟩ :=
      h.numbered.inTurn c d hc (hl.explains.began d hd) hthread hlt
    exact hl.explains.precedes c d reply hlog hd
  · refine ⟨hl.free (h.holder_eq_none hidle), fun call hcall => ?_⟩
    obtain ⟨hof, thread, hthread, hlt⟩ := h.numbered.began call hcall
    obtain ⟨reply, hreply⟩ := h.ended_of_idle hidle hof hthread hlt
    exact mem_calls (hl.explains.ended call reply hreply)
  · obtain ⟨hlt, -⟩ := List.getElem?_eq_some_iff.mp hcall
    have hlen : call.thread < s.threads.length := by
      rw [h.numbered.length]
      by_contra hge
      rw [List.getD_eq_default _ _ (Nat.le_of_not_lt hge)] at hlt
      contradiction
    have hthread := List.getElem?_eq_getElem hlen
    refine h.ended_of_idle hfinished.idle hcall hthread (Nat.lt_of_lt_of_le hlt ?_)
    have hpending := h.numbered.pending _ _ hthread
    rw [(hfinished _ (List.getElem_mem hlen)).1, eq_comm, List.drop_eq_nil_iff] at hpending
    exact hpending

/-- At all times some order of the calls serializes them. -/
theorem exists_serializes (memory : Precomputation) (programs : List (List Request))
    (schedule : List ℕ) :
    ∃ order, Serializes memory programs ((start memory programs).run schedule) order := by
  have hrun : Regular programs ((start memory programs).run schedule) ∧
      ∃ order, Linearized memory ((start memory programs).run schedule) order := by
    refine run_keeps (P := fun s => Regular programs s ∧ ∃ order, Linearized memory s order) ?_
      ⟨regular_start memory programs, [], linearized_start memory programs⟩ schedule
    rintro s t ⟨hregular, order, hl⟩
    exact ⟨hregular.step t, hl.step hregular.guarded hregular.numbered t⟩
  obtain ⟨hregular, order, hl⟩ := hrun
  exact ⟨order, hl.serializes hregular⟩

/-- Enough rounds, in each of which every thread has a turn, end all calls. -/
theorem finished_of_rounds (memory : Precomputation) {programs : List (List Request)}
    (schedule : List ℕ) {rounds : List (List ℕ)}
    (hrounds : ∀ round ∈ rounds, ∀ t < programs.length, t ∈ round)
    (hlength : 7 * (programs.map List.length).sum ≤ rounds.length) :
    ((start memory programs).run (schedule ++ rounds.flatten)).Finished := by
  have hregular := regular_start memory programs
  rw [run_append]
  refine (hregular.run schedule).finished_of_rounds rounds hrounds ?_
  refine Nat.le_trans (hregular.left_run_le schedule) ?_
  rwa [left_start]

section Clients
variable {clients : List (ProcessorFeatures × Scalar)} {t : ℕ} {features : ProcessorFeatures}
  {k : Scalar} {reply : Reply}

/-- Each thread sets up, and multiplies then. -/
def clientPrograms (clients : List (ProcessorFeatures × Scalar)) : List (List Request) :=
  clients.map fun client => [.init client.1, .mulGenerator client.2]

lemma request_of_client {call : Call} (h : call.Of (clientPrograms clients)) :
    (∃ detected, call.request = .init detected) ∨ ∃ k, call.request = .mulGenerator k := by
  rw [Call.Of, clientPrograms, List.getD, List.getElem?_map] at h
  cases hclient : clients[call.thread]? with
  | none => simp [hclient] at h
  | some client =>
    simp only [hclient, Option.map_some, Option.getD_some] at h
    have hmem := List.mem_of_getElem? h
    simp only [List.mem_cons, List.not_mem_nil, or_false] at hmem
    exact hmem.imp (fun h => ⟨_, h⟩) fun h => ⟨_, h⟩

lemma init_of_client (hclient : clients[t]? = some (features, k)) :
    Call.Of (clientPrograms clients) ⟨t, 0, .init features⟩ := by
  simp [Call.Of, clientPrograms, hclient]

lemma mulGenerator_of_client (hclient : clients[t]? = some (features, k)) :
    Call.Of (clientPrograms clients) ⟨t, 1, .mulGenerator k⟩ := by
  simp [Call.Of, clientPrograms, hclient]

/-- Once one of the clients has set up, there is the table, and it was built once. -/
lemma Serializes.table_of_client (h : Serializes empty (clientPrograms clients) s order)
    {calls : List (Call × Reply)} (hcalls : calls.Sublist order)
    (hinit : ⟨t, 0, .init features⟩ ∈ calls.map Prod.fst) :
    (outcome empty calls).table.isSome ∧ (outcome empty calls).builds = 1 := by
  refine after_of_init_mem (fun request hrequest => ?_) ⟨features, ?_⟩
  · obtain ⟨entry, hentry, rfl⟩ := List.mem_map.mp hrequest
    exact request_of_client (h.ofPrograms _ (List.mem_map_of_mem (hcalls.subset hentry)))
  · obtain ⟨entry, hentry, heq⟩ := List.mem_map.mp hinit
    exact List.mem_map.mpr ⟨entry, hentry, by rw [heq]⟩

/-- A client has set up before it multiplies, so that there is a table then. -/
lemma Serializes.reply_of_client (h : Serializes empty (clientPrograms clients) s order)
    (hclient : clients[t]? = some (features, k))
    (hended : .ended ⟨t, 1, .mulGenerator k⟩ reply ∈ s.log) :
    reply = .point (.ok (.mulGenerator .full k)) := by
  obtain ⟨before, later, heq, hanswer⟩ := h.explains.answer_of_ended hended
  have hpair := h.inTurn _ _ (init_of_client hclient) (mem_calls (h.explains.ended _ _ hended))
    rfl Nat.zero_lt_one
  have hnodup := h.explains.nodup
  rw [heq, List.map_append, List.map_cons] at hpair hnodup
  have hbefore : before.Sublist order := heq ▸ List.sublist_append_left _ _
  obtain ⟨htable, -⟩ := h.table_of_client hbefore (mem_of_pair_sublist hpair hnodup)
  have hsound : (outcome empty before).Sound := sound_empty.answers _
  rw [← hanswer, (hsound.answer_of_table htable k).2]

lemma Serializes.builds_of_clients (h : Serializes empty (clientPrograms clients) s order)
    (hne : clients ≠ []) (hfinished : s.Finished) : s.memory.builds = 1 := by
  obtain ⟨⟨features, k⟩, rest, rfl⟩ := List.exists_cons_of_ne_nil hne
  have hinit : Call.Of (clientPrograms ((features, k) :: rest)) ⟨0, 0, .init features⟩ :=
    init_of_client rfl
  obtain ⟨reply, hended⟩ := h.finished hfinished _ hinit
  have hmem := mem_calls (h.explains.ended _ _ hended)
  rw [(h.idle hfinished.idle).1]
  exact (h.table_of_client (List.Sublist.refl order) hmem).2

lemma Serializes.replies_of_client (h : Serializes empty (clientPrograms clients) s order)
    (hfinished : s.Finished) (hclient : clients[t]? = some (features, k)) (reply : Reply) :
    (.ended ⟨t, 0, .init features⟩ reply ∈ s.log ↔ reply = .done) ∧
      (.ended ⟨t, 1, .mulGenerator k⟩ reply ∈ s.log ↔
        reply = .point (.ok (.mulGenerator .full k))) := by
  have hdone : ∀ reply, .ended ⟨t, 0, .init features⟩ reply ∈ s.log → reply = .done := by
    intro reply hended
    obtain ⟨before, later, -, hanswer⟩ := h.explains.answer_of_ended hended
    exact hanswer.symm
  obtain ⟨first, hfirst⟩ := h.finished hfinished _ (init_of_client hclient)
  obtain ⟨second, hsecond⟩ := h.finished hfinished _ (mulGenerator_of_client hclient)
  refine ⟨⟨hdone reply, ?_⟩, ⟨h.reply_of_client hclient, ?_⟩⟩
  · rintro rfl
    rwa [← hdone first hfirst]
  · rintro rfl
    rwa [← h.reply_of_client hclient hsecond]

end Clients

/-- What is handed out is the complete table, or a multiple that was read off it. -/
lemma Serializes.handles (h : Serializes memory programs s order) (hs : memory.Sound) {call : Call}
    {reply : Reply} (hended : .ended call reply ∈ s.log) :
    (∀ table, reply = .table (.ok table) → table = .full ∧ table.Complete) ∧
      ∀ p, reply = .point (.ok p) → ∃ k, call.request = .mulGenerator k ∧
        p.Represents ((k.toNat % groupOrder.toNat) • generator.toCurve) := by
  obtain ⟨before, -, -, hanswer⟩ := h.explains.answer_of_ended hended
  have hsound : (outcome memory before).Sound := hs.answers _
  refine ⟨?_, ?_⟩
  · rintro table rfl
    obtain rfl := hsound.answer_table hanswer
    exact ⟨rfl, GeneratorTable.complete_full⟩
  · rintro p rfl
    obtain ⟨k, hrequest, rfl⟩ := hsound.answer_point hanswer
    exact ⟨k, hrequest, mulGenerator_represents k⟩

/-- Whatever the schedule, the calls have the replies and leave the memory of the same calls made
one after the other, in an order in which none comes before one that had ended when it began. They
all return if no thread is left out for ever. Threads that set up and multiply have one table built
and get their multiples, and no table is handed out that is not complete. -/
theorem run_linearizable :
    (∀ (memory : Precomputation) (programs : List (List Request)) (schedule : List ℕ),
      ∃ order, Serializes memory programs ((start memory programs).run schedule) order) ∧
    (∀ (memory : Precomputation) (programs : List (List Request)) (schedule : List ℕ)
        (rounds : List (List ℕ)),
      (∀ round ∈ rounds, ∀ t < programs.length, t ∈ round) →
      7 * (programs.map List.length).sum ≤ rounds.length →
      ((start memory programs).run (schedule ++ rounds.flatten)).Finished) ∧
    (∀ (clients : List (ProcessorFeatures × Scalar)) (schedule : List ℕ),
      clients ≠ [] → ((start empty (clientPrograms clients)).run schedule).Finished →
      ((start empty (clientPrograms clients)).run schedule).memory.builds = 1 ∧
      ∀ t features k, clients[t]? = some (features, k) → ∀ reply,
        (.ended ⟨t, 0, .init features⟩ reply ∈
            ((start empty (clientPrograms clients)).run schedule).log ↔ reply = .done) ∧
        (.ended ⟨t, 1, .mulGenerator k⟩ reply ∈
            ((start empty (clientPrograms clients)).run schedule).log ↔
          reply = .point (.ok (.mulGenerator .full k)))) ∧
    (∀ (history : List Request) (programs : List (List Request)) (schedule : List ℕ) (call : Call)
        (reply : Reply),
      .ended call reply ∈ ((start (after history) programs).run schedule).log →
      (∀ table, reply = .table (.ok table) → table = .full ∧ table.Complete) ∧
      ∀ p, reply = .point (.ok p) → ∃ k, call.request = .mulGenerator k ∧
        p.Represents ((k.toNat % groupOrder.toNat) • generator.toCurve)) := by
  refine ⟨exists_serializes, ?_, ?_, ?_⟩
  · intro memory programs schedule rounds hrounds hlength
    exact finished_of_rounds memory schedule hrounds hlength
  · intro clients schedule hne hfinished
    obtain ⟨order, h⟩ := exists_serializes empty (clientPrograms clients) schedule
    exact ⟨h.builds_of_clients hne hfinished, fun t features k hclient =>
      h.replies_of_client hfinished hclient⟩
  · intro history programs schedule call reply hended
    obtain ⟨order, h⟩ := exists_serializes (after history) programs schedule
    exact h.handles (sound_after history) hended

/-- Two threads that set up at the same time, and one that takes the table and gives it up. -/
theorem run_linearizable_two_clients :
    ∃ s u : SharedPrecomputation,
      s = (start empty (clientPrograms [({}, .one), ({ avx := true }, .one)])).run
        ([0, 1, 1, 0, 0, 1] ++ (List.replicate 28 [0, 1]).flatten) ∧
      u = (start (after []) [[.init {}, .table, .deinit]]).run (List.replicate 14 0) ∧
      (∃ order, Serializes empty (clientPrograms [({}, .one), ({ avx := true }, .one)]) s order) ∧
      s.Finished ∧ s.memory.builds = 1 ∧
      .ended ⟨1, 1, .mulGenerator .one⟩ (.point (.ok (.mulGenerator .full .one))) ∈ s.log ∧
      .ended ⟨0, 1, .table⟩ (.table (.ok .full)) ∈ u.log ∧ GeneratorTable.full.Complete := by
  obtain ⟨hserial, hrounds, hclients, hhandles⟩ := run_linearizable
  have hturns : ∀ round ∈ List.replicate 28 [0, 1], ∀ t < 2, t ∈ round := by
    intro round hround t ht
    rw [List.eq_of_mem_replicate hround]
    interval_cases t <;> simp
  have hfinished := hrounds empty (clientPrograms [({}, .one), ({ avx := true }, .one)])
    [0, 1, 1, 0, 0, 1] _ hturns (by simp [clientPrograms])
  obtain ⟨hbuilds, hreplies⟩ := hclients _ _ (by simp) hfinished
  obtain ⟨-, hreply⟩ :=
    hreplies 1 { avx := true } .one rfl (.point (.ok (.mulGenerator .full .one)))
  have hmem : .ended ⟨0, 1, .table⟩ (.table (.ok .full)) ∈
      ((start (after []) [[.init {}, .table, .deinit]]).run (List.replicate 14 0)).log :=
    List.mem_cons_of_mem _ List.mem_cons_self
  refine ⟨_, _, rfl, rfl, hserial _ _ _, hfinished, hbuilds, hreply.mpr rfl, hmem, ?_⟩
  exact ((hhandles _ _ _ _ _ hmem).1 .full rfl).2

end SharedPrecomputation

end KoblitzCurve
