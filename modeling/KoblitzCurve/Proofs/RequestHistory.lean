import KoblitzCurve.Precomputation
import KoblitzCurve.Proofs.GeneratorMultiples

/-! What is prepared and answered after a history of requests, read off the history. The flag, the
table, the features and the number of builds each follow a rule of their own, as each is changed by
other requests; a table once handed out gives the multiples of the generator ever after. -/
namespace KoblitzCurve.Precomputation
open JacobianPoint
variable {s : Precomputation} {request : Request} {requests : List Request}

theorem answers_append (s : Precomputation) (first second : List Request) :
    s.answers (first ++ second) =
      ((s.answers first).1 ++ ((s.answers first).2.answers second).1,
        ((s.answers first).2.answers second).2) := by
  induction first generalizing s with
  | nil => rfl
  | cons request rest ih => simp [answers, ih]

theorem answers_concat (s : Precomputation) (requests : List Request) (request : Request) :
    s.answers (requests ++ [request]) =
      ((s.answers requests).1 ++ [((s.answers requests).2.answer request).1],
        ((s.answers requests).2.answer request).2) :=
  answers_append s requests [request]

lemma answers_length (s : Precomputation) (requests : List Request) :
    (s.answers requests).1.length = requests.length := by
  induction requests generalizing s with
  | nil => rfl
  | cons request rest ih => simp [answers, ih]

/-- What is prepared after the requests, if nothing was before them. -/
def after (requests : List Request) : Precomputation := (empty.answers requests).2

lemma after_concat (requests : List Request) (request : Request) :
    after (requests ++ [request]) = ((after requests).answer request).2 := by
  rw [after, answers_concat, after]

/-- Some request had the first property, and none after it had the second one. Both may depend on
what was prepared when the request was made. -/
def Since (P Q : Precomputation → Request → Prop) (requests : List Request) : Prop :=
  ∃ before request later, requests = before ++ request :: later ∧ P (after before) request ∧
    ∀ between next rest, later = between ++ next :: rest →
      ¬Q (after (before ++ request :: between)) next

lemma not_since_nil (P Q : Precomputation → Request → Prop) : ¬Since P Q [] := by
  rintro ⟨before, request, later, h, -⟩
  simp at h

lemma since_concat {P Q : Precomputation → Request → Prop} :
    Since P Q (requests ++ [request]) ↔
      P (after requests) request ∨ Since P Q requests ∧ ¬Q (after requests) request := by
  constructor
  · rintro ⟨before, first, later, h, hP, hQ⟩
    rcases List.eq_nil_or_concat later with rfl | ⟨later, last, rfl⟩
    · obtain ⟨rfl, hlast⟩ := List.append_inj' h rfl
      obtain rfl := List.singleton_inj.mp hlast
      exact Or.inl hP
    · rw [List.concat_eq_append, ← List.cons_append, ← List.append_assoc] at h
      obtain ⟨rfl, hlast⟩ := List.append_inj' h rfl
      obtain rfl := List.singleton_inj.mp hlast
      refine Or.inr ⟨⟨before, first, later, rfl, hP, ?_⟩, hQ later request [] (by simp)⟩
      intro between next rest hlater
      exact hQ between next (rest ++ [request]) (by simp [hlater])
  · rintro (hP | ⟨⟨before, first, later, rfl, hP, hQ⟩, hlast⟩)
    · exact ⟨requests, request, [], rfl, hP, by simp⟩
    · refine ⟨before, first, later ++ [request], by simp, hP, ?_⟩
      intro between next rest h
      rcases List.eq_nil_or_concat rest with rfl | ⟨rest, last, rfl⟩
      · obtain ⟨rfl, hnext⟩ := List.append_inj' h rfl
        obtain rfl := List.singleton_inj.mp hnext
        exact hlast
      · rw [List.concat_eq_append, ← List.cons_append, ← List.append_assoc] at h
        exact hQ between next rest (List.append_inj' h rfl).1

/-- A property that requests of one kind establish and those of another kind destroy. -/
lemma iff_since {F : Precomputation → Prop} {P Q : Precomputation → Request → Prop}
    (hempty : ¬F empty)
    (hanswer : ∀ s request, F (s.answer request).2 ↔ P s request ∨ F s ∧ ¬Q s request)
    (requests : List Request) : F (after requests) ↔ Since P Q requests := by
  induction requests using List.reverseRecOn with
  | nil => exact iff_of_false hempty (not_since_nil P Q)
  | append_singleton requests request ih => rw [after_concat, hanswer, since_concat, ih]

/-- The reply is that the flag is set. -/
def ReportsInitialized (s : Precomputation) : Prop :=
  s.answer .isInitialized = (.isInitialized true, s)

@[simp] lemma reportsInitialized_iff : s.ReportsInitialized ↔ s.initialized = true := by
  simp [ReportsInitialized, answer]

/-- The request builds the table if there is none. -/
def Fills (s : Precomputation) (request : Request) : Prop :=
  request = .generateTable ∨ (∃ detected, request = .init detected) ∧ ¬s.ReportsInitialized

/-- The request gives up the table if there is one. -/
def Empties (s : Precomputation) (request : Request) : Prop :=
  request = .freeTable ∨ request = .deinit ∧ s.ReportsInitialized

lemma answer_initialized (s : Precomputation) (request : Request) :
    (s.answer request).2.initialized = true ↔
      (∃ detected, request = .init detected) ∨ s.initialized = true ∧ request ≠ .deinit := by
  cases request with
  | init detected =>
    cases h : s.initialized <;> simp [answer, init, h]
  | deinit =>
    cases h : s.initialized <;> simp [answer, deinit, h]
  | generateTable =>
    cases h : s.table <;> simp [answer, generateTable, h]
  | freeTable => simp [answer, freeTable]
  | _ => simp [answer]

lemma generateTable_table (s : Precomputation) : s.generateTable.table.isSome := by
  cases h : s.table <;> simp [generateTable, h]

lemma answer_table (s : Precomputation) (request : Request) :
    (s.answer request).2.table.isSome ↔
      Fills s request ∨ s.table.isSome ∧ ¬Empties s request := by
  cases request with
  | init detected =>
    cases h : s.initialized <;>
      simp [answer, init, prepare, Fills, Empties, h, generateTable_table]
  | deinit =>
    cases h : s.initialized <;> simp [answer, deinit, discard, Fills, Empties, h]
  | generateTable => simp [answer, Fills, generateTable_table]
  | freeTable => simp [answer, freeTable, Fills, Empties]
  | _ => simp [answer, Fills, Empties]

/-- A build is counted when the table comes into its place, and only then. -/
lemma answer_builds (s : Precomputation) (request : Request) :
    (s.answer request).2.builds =
      s.builds + if s.table.isNone ∧ (s.answer request).2.table.isSome then 1 else 0 := by
  cases request with
  | init detected =>
    cases h : s.initialized <;> cases ht : s.table <;>
      simp [answer, init, prepare, generateTable, h, ht]
  | deinit =>
    cases h : s.initialized <;> cases ht : s.table <;> simp [answer, deinit, discard, h, ht]
  | generateTable =>
    cases ht : s.table <;> simp [answer, generateTable, ht]
  | freeTable => simp [answer, freeTable]
  | _ => cases ht : s.table <;> simp [answer, ht]

/-- What holds of a precomputation at all times: the features are known while it is initialized,
and the table, if there is one, is the complete one. -/
structure Sound (s : Precomputation) : Prop where
  features : s.features.isSome = s.initialized
  table : ∀ table, s.table = some table → table = .full

lemma sound_empty : Sound empty := ⟨rfl, by simp [empty]⟩

lemma Sound.generateTable (hs : s.Sound) : s.generateTable.Sound := by
  cases h : s.table with
  | none => exact ⟨by simpa [Precomputation.generateTable, h] using hs.features,
      by simp [Precomputation.generateTable, h]⟩
  | some table => simpa [Precomputation.generateTable, h] using hs

lemma Sound.answer (hs : s.Sound) (request : Request) : (s.answer request).2.Sound := by
  cases request with
  | init detected =>
    cases h : s.initialized with
    | true => simpa [Precomputation.answer, init, h] using hs
    | false =>
      simp only [Precomputation.answer, init, prepare, h, Bool.false_eq_true, if_false]
      exact ⟨rfl, hs.generateTable.table⟩
  | deinit =>
    cases h : s.initialized with
    | true =>
      simp only [Precomputation.answer, deinit, discard, h, if_true]
      exact ⟨rfl, by simp⟩
    | false => simpa [Precomputation.answer, deinit, h] using hs
  | generateTable => exact hs.generateTable
  | freeTable => exact ⟨hs.features, by simp [Precomputation.answer, freeTable]⟩
  | _ => exact hs

lemma Sound.answers (hs : s.Sound) (requests : List Request) : (s.answers requests).2.Sound := by
  induction requests generalizing s with
  | nil => exact hs
  | cons request rest ih => exact ih (hs.answer request)

lemma sound_after (requests : List Request) : (after requests).Sound :=
  sound_empty.answers requests

lemma Sound.answer_table (hs : s.Sound) {table : GeneratorTable}
    (h : (s.answer request).1 = .table (.ok table)) : table = .full := by
  cases request with
  | table =>
    simp only [Precomputation.answer, table?] at h
    cases ht : s.table with
    | none => simp [ht] at h
    | some kept =>
      simp only [ht, Reply.table.injEq, Except.ok.injEq] at h
      rw [← h]
      exact hs.table kept ht
  | _ => simp [Precomputation.answer] at h

/-- Every table that is handed out is the complete one. -/
theorem Sound.table_of_mem_answers (hs : s.Sound) {table : GeneratorTable}
    (h : .table (.ok table) ∈ (s.answers requests).1) : table = .full := by
  induction requests generalizing s with
  | nil => simp [Precomputation.answers] at h
  | cons request rest ih =>
    rcases List.mem_cons.mp h with hfirst | hrest
    · exact hs.answer_table hfirst.symm
    · exact ih (hs.answer request) hrest

/-- The number of requests that found no table and left one. -/
def fillings (requests : List Request) : ℕ :=
  (List.range requests.length).countP fun i =>
    (after (requests.take i)).table.isNone && (after (requests.take (i + 1))).table.isSome

lemma fillings_concat (requests : List Request) (request : Request) :
    fillings (requests ++ [request]) = fillings requests +
      if (after requests).table.isNone ∧ (after (requests ++ [request])).table.isSome then 1
      else 0 := by
  have hbefore : ∀ i ∈ List.range requests.length,
      ((after ((requests ++ [request]).take i)).table.isNone &&
        (after ((requests ++ [request]).take (i + 1))).table.isSome) =
      ((after (requests.take i)).table.isNone &&
        (after (requests.take (i + 1))).table.isSome) := by
    intro i hi
    rw [List.mem_range] at hi
    rw [List.take_append_of_le_length hi.le, List.take_append_of_le_length hi]
  have hlast : (requests ++ [request]).take (requests.length + 1) = requests ++ [request] :=
    List.take_of_length_le (by simp)
  rw [fillings, List.length_append, List.length_singleton, List.range_succ, List.countP_append,
    List.countP_congr fun i hi => by rw [hbefore i hi], fillings]
  simp [List.countP_cons, hlast]

lemma fillings_le_append (requests more : List Request) :
    fillings requests ≤ fillings (requests ++ more) := by
  induction more using List.reverseRecOn with
  | nil => rw [List.append_nil]
  | append_singleton more request ih =>
    rw [← List.append_assoc, fillings_concat]
    exact ih.trans (Nat.le_add_right _ _)

theorem after_builds (requests : List Request) :
    (after requests).builds = .ofNat (fillings requests) := by
  induction requests using List.reverseRecOn with
  | nil => rfl
  | append_singleton requests request ih =>
    rw [fillings_concat, after_concat, answer_builds, ih]
    split_ifs
    · rw [UInt64.ofNat_add]
      rfl
    · rw [UInt64.add_zero, Nat.add_zero]

/-- The count is exact, and does not decrease, as long as it has not come round. -/
lemma after_builds_toNat (h : fillings requests < 2 ^ 64) :
    (after requests).builds.toNat = fillings requests := by
  rw [after_builds, UInt64.toNat_ofNat_of_lt' h]

lemma after_builds_le {more : List Request} (h : fillings (requests ++ more) < 2 ^ 64) :
    (after requests).builds ≤ (after (requests ++ more)).builds := by
  have hle := fillings_le_append requests more
  rw [UInt64.le_iff_toNat_le, after_builds_toNat h, after_builds_toNat (hle.trans_lt h)]
  exact hle

lemma Sound.answer_of_table (hs : s.Sound) (h : s.table.isSome) (k : Scalar) :
    s.answer .table = (.table (.ok .full), s) ∧
      s.answer (.mulGenerator k) = (.point (.ok (.mulGenerator .full k)), s) := by
  obtain ⟨table, htable⟩ := Option.isSome_iff_exists.mp h
  obtain rfl := hs.table table htable
  simp [Precomputation.answer, table?, mulGenerator, htable, Except.map]

lemma answer_of_no_table (h : s.table = none) (k : Scalar) :
    s.answer .table = (.table (.error .notInitialized), s) ∧
      s.answer (.mulGenerator k) = (.point (.error .notInitialized), s) := by
  simp [answer, table?, mulGenerator, h, Except.map]

lemma Sound.answer_point (hs : s.Sound) {request : Request} {p : JacobianPoint}
    (h : (s.answer request).1 = .point (.ok p)) :
    ∃ k, request = .mulGenerator k ∧ p = .mulGenerator .full k := by
  cases request with
  | mulGenerator k =>
    cases htable : s.table with
    | none => simp [(answer_of_no_table htable k).2] at h
    | some table =>
      have hpoint := (hs.answer_of_table (by simp [htable]) k).2
      rw [hpoint, Reply.point.injEq, Except.ok.injEq] at h
      exact ⟨k, rfl, h.symm⟩
  | _ => simp [Precomputation.answer] at h

/-- The state after any history, read off the history, what it answers, and what the tables that it
has handed out are good for. The number of builds is exact as long as a word can hold it. -/
theorem after_history (requests : List Request) :
    (∃ flag, (after requests).answer .isInitialized = (.isInitialized flag, after requests) ∧
      (flag = true ↔ Since (fun _ request => ∃ detected, request = .init detected)
        (fun _ request => request = .deinit) requests)) ∧
    (∃ features, (after requests).answer .features = (.features features, after requests) ∧
      (features.isSome ↔ (after requests).ReportsInitialized)) ∧
    ((after requests).table.isSome ↔ Since Fills Empties requests) ∧
    (after requests).builds = .ofNat (fillings requests) ∧
    (∀ more, fillings (requests ++ more) < 2 ^ 64 →
      (after requests).builds.toNat = fillings requests ∧
      (after requests).builds ≤ (after (requests ++ more)).builds) ∧
    ((after requests).ReportsInitialized →
      ∀ detected, after (requests ++ [Request.init detected]) = after requests) ∧
    ((after requests).table.isSome → after (requests ++ [Request.generateTable]) = after requests ∧
      ∀ detected, (after (requests ++ [Request.init detected])).builds = (after requests).builds) ∧
    ((after requests).table.isSome → ∀ k : Scalar,
      (∃ table, (after requests).answer .table = (.table (.ok table), after requests)) ∧
      ∃ p, (after requests).answer (.mulGenerator k) = (.point (.ok p), after requests) ∧
        p.Represents ((k.toNat % groupOrder.toNat) • generator.toCurve)) ∧
    ((after requests).table = none → ∀ k : Scalar,
      (after requests).answer .table = (.table (.error .notInitialized), after requests) ∧
      (after requests).answer (.mulGenerator k) =
        (.point (.error .notInitialized), after requests)) ∧
    (∀ table, .table (.ok table) ∈ (empty.answers requests).1 → ∀ k : Scalar,
      (JacobianPoint.mulGenerator table k).Represents
        ((k.toNat % groupOrder.toNat) • generator.toCurve)) := by
  have hsound := sound_after requests
  refine ⟨⟨_, rfl, ?_⟩, ⟨_, rfl, ?_⟩, ?_, after_builds requests, ?_, ?_, ?_, ?_, ?_, ?_⟩
  · refine iff_since (F := fun s => s.initialized = true) (by simp [empty]) ?_ requests
    exact answer_initialized
  · rw [hsound.features, reportsInitialized_iff]
  · exact iff_since (F := fun s => s.table.isSome) (by simp [empty]) answer_table requests
  · intro more h
    exact ⟨after_builds_toNat ((fillings_le_append requests more).trans_lt h), after_builds_le h⟩
  · intro hinit detected
    rw [reportsInitialized_iff] at hinit
    simp [after_concat, answer, init, hinit]
  · intro htable
    refine ⟨by simp [after_concat, answer, generateTable, htable], fun detected => ?_⟩
    rw [after_concat, answer_builds]
    simp [Option.isNone_eq_false_iff.mpr htable]
  · intro htable k
    obtain ⟨hhandle, hpoint⟩ := hsound.answer_of_table htable k
    exact ⟨⟨_, hhandle⟩, _, hpoint, mulGenerator_represents k⟩
  · intro hnone k
    exact answer_of_no_table hnone k
  · intro table hmem k
    obtain rfl := sound_empty.table_of_mem_answers hmem
    exact mulGenerator_represents k

/-- A second setting up, a table that is built again, and one that is used after what it was taken
from has been released. -/
theorem after_history_released :
    (after [.init {}]).ReportsInitialized ∧ (after [.init {}]).table.isSome ∧
      after ([Request.init {}] ++ [Request.init { avx := true }]) = after [.init {}] ∧
      after ([Request.init {}] ++ [Request.generateTable]) = after [.init {}] ∧
      (∃ table, (after [.init {}]).answer .table = (.table (.ok table), after [.init {}])) ∧
    fillings ([Request.init {}] ++ [Request.freeTable, .generateTable]) < 2 ^ 64 ∧
      (after [.init {}]).builds.toNat = fillings [.init {}] ∧
      (after [.init {}]).builds ≤
        (after ([Request.init {}] ++ [Request.freeTable, .generateTable])).builds ∧
    (after [.init {}, .table, .deinit]).table = none ∧
      (after [.init {}, .table, .deinit]).answer .table =
        (.table (.error .notInitialized), after [.init {}, .table, .deinit]) ∧
      .table (.ok .full) ∈ (empty.answers [.init {}, .table, .deinit]).1 ∧
      (JacobianPoint.mulGenerator .full .one).Represents
        (((.one : Scalar).toNat % groupOrder.toNat) • generator.toCurve) := by
  obtain ⟨-, -, -, -, hcount, hagain, hpresent, hanswers, -, -⟩ := after_history [.init {}]
  obtain ⟨-, -, -, -, -, -, -, -, hreleased, hhandles⟩ :=
    after_history [.init {}, .table, .deinit]
  have hinit : (after [.init {}]).ReportsInitialized := reportsInitialized_iff.mpr rfl
  have htable : (after [.init {}]).table.isSome := rfl
  have hfillings : fillings ([Request.init {}] ++ [Request.freeTable, .generateTable]) < 2 ^ 64 := by
    decide
  have hnone : (after [.init {}, .table, .deinit]).table = none := rfl
  have hmem : .table (.ok .full) ∈ (empty.answers [.init {}, .table, .deinit]).1 :=
    List.mem_cons_of_mem _ List.mem_cons_self
  exact ⟨hinit, htable, hagain hinit _, (hpresent htable).1, (hanswers htable .one).1, hfillings,
    (hcount _ hfillings).1, (hcount _ hfillings).2, hnone, (hreleased hnone .one).1, hmem,
    hhandles _ hmem .one⟩

end KoblitzCurve.Precomputation
