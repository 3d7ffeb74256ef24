import KoblitzCurve.WindowTable
import KoblitzCurve.Proofs.PointArithmetic
import KoblitzCurve.Proofs.TableAccess

/-! The chain of a window table run on multiples in place of points. Line by line the registers
and the table hold the multiples of the point that this run gives, and these are known. A multiple
that has been filed stays in its place, where it is looked up. -/
namespace KoblitzCurve.WindowTable
variable {q : JacobianPoint} {Q : CurvePoint}

structure Multiples where
  registers : ℕ → ℕ
  table : List ℕ

def Line.count (m : Multiples) (line : Line) : Multiples :=
  let source := m.registers line.source
  let result :=
    match line.rule with
    | .double => source + source
    | .addBase => source + m.registers 0
  ⟨Function.update m.registers line.target result, m.table.set (line.multiple - 1).toNat result⟩

def Multiples.start : Multiples := ⟨Function.update 0 0 1, (List.replicate 16 0).set 0 1⟩

/-- Every point of the state represents the multiple in its place. -/
structure State.Holds (s : State) (m : Multiples) (Q : CurvePoint) : Prop where
  registers : ∀ i : Fin 5, s.registers[i].Represents (m.registers i • Q)
  table : List.Forall₂ (fun p n => p.Represents (n • Q)) s.table m.table
  length : m.table.length = 16

lemma forall₂_set {α β : Type*} {R : α → β → Prop} {l : List α} {k : List β}
    (h : List.Forall₂ R l k) {a : α} {b : β} (hab : R a b) (i : ℕ) :
    List.Forall₂ R (l.set i a) (k.set i b) := by
  induction h generalizing i with
  | nil => exact .nil
  | cons hhead htail ih =>
    cases i with
    | zero => exact .cons hab htail
    | succ i => exact .cons hhead (ih i)

namespace State.Holds
variable {s : State} {m : Multiples}

lemma table_length_le (h : s.Holds m Q) : s.table.length ≤ 2 ^ 32 := by
  rw [h.table.length_eq, h.length]
  decide

lemma file (h : s.Holds m Q) {p : JacobianPoint} {n : ℕ} (hp : p.Represents (n • Q))
    (target : Fin 5) (i : UInt32) :
    State.Holds ⟨s.registers.set target p, MaskedTable.scatter s.table p i⟩
      ⟨Function.update m.registers target n, m.table.set i.toNat n⟩ Q := by
  refine ⟨fun j => ?_, ?_, ?_⟩
  · simp only [Fin.getElem_fin, Vector.getElem_set, Function.update_apply, eq_comm]
    split_ifs
    · exact hp
    · exact h.registers j
  · rw [MaskedTable.scatter_eq h.table_length_le]
    exact forall₂_set h.table hp _
  · rw [List.length_set, h.length]

theorem step (h : s.Holds m Q) (line : Line) : (Line.run s line).Holds (Line.count m line) Q := by
  have hsource := h.registers line.source
  have hbase := h.registers 0
  rw [Line.run, Line.count]
  cases line.rule with
  | double =>
    have hresult := hsource.double
    rw [← add_nsmul] at hresult
    exact h.file hresult line.target _
  | addBase =>
    have hresult := hsource.add hbase
    rw [← add_nsmul] at hresult
    exact h.file hresult line.target _

theorem run (h : s.Holds m Q) (lines : List Line) :
    (lines.foldl Line.run s).Holds (lines.foldl Line.count m) Q := by
  induction lines generalizing s m with
  | nil => exact h
  | cons line rest ih => exact ih (h.step line)

end State.Holds

lemma start_holds (hq : q.Represents Q) : (start q).Holds .start Q := by
  have hneutral : State.Holds ⟨Vector.replicate 5 .neutral, List.replicate 16 .neutral⟩
      ⟨0, List.replicate 16 0⟩ Q := by
    have h0 : JacobianPoint.neutral.Represents (0 • Q) := by
      rw [zero_nsmul]
      exact JacobianPoint.represents_neutral
    refine ⟨fun i => ?_, ?_, rfl⟩
    · simp only [Fin.getElem_fin, Vector.getElem_replicate]
      exact h0
    · exact List.forall₂_iff_get.mpr ⟨rfl, fun i h h' => by
        simp only [List.get_eq_getElem, List.getElem_replicate]
        exact h0⟩
  have h1 : q.Represents (1 • Q) := by rwa [one_nsmul]
  exact hneutral.file h1 0 0

/-- The multiples that have been filed once the first `n` lines are done. -/
def filed (n : ℕ) : List ℕ := 1 :: (chain.take n).map fun line => line.multiple.toNat

/-- Although registers are overwritten, each line files the multiple that it is meant to file. Those
filed before stay in their places, and the other places are as they were. -/
lemma count_take : ∀ n ≤ 15, ((chain.take n).foldl Line.count .start).table =
    (List.range 16).map fun i => if i + 1 ∈ filed n then i + 1 else 0 := by
  decide

/-- The table once the first `n` lines are done. -/
def tableAfter (q : JacobianPoint) (n : ℕ) : List JacobianPoint :=
  ((chain.take n).foldl Line.run (start q)).table

theorem tableAfter_entries (hq : q.Represents Q) {n : ℕ} (hn : n ≤ 15) :
    List.Forall₂ (fun p m => p.Represents (m • Q)) (tableAfter q n)
      ((List.range 16).map fun i => if i + 1 ∈ filed n then i + 1 else 0) := by
  rw [← count_take n hn]
  exact ((start_holds hq).run (chain.take n)).table

lemma tableAfter_fifteen (q : JacobianPoint) : tableAfter q 15 = (ofPoint q).entries := by
  rw [tableAfter, List.take_of_length_le (by decide), ofPoint]

theorem ofPoint_entries (hq : q.Represents Q) :
    List.Forall₂ (fun p n => p.Represents (n • Q)) (ofPoint q).entries
      ((List.range 16).map (· + 1)) := by
  have hall : ((List.range 16).map fun i => if i + 1 ∈ filed 15 then i + 1 else 0) =
      (List.range 16).map (· + 1) := by decide
  have h := tableAfter_entries hq (le_refl 15)
  rwa [hall, tableAfter_fifteen] at h

lemma run_table_length (s : State) (lines : List Line) :
    (lines.foldl Line.run s).table.length = s.table.length := by
  induction lines generalizing s with
  | nil => rfl
  | cons line rest ih => rw [List.foldl_cons, ih, Line.run, MaskedTable.scatter_length]

theorem ofPoint_length (q : JacobianPoint) : (ofPoint q).entries.length = 16 := by
  rw [ofPoint, run_table_length, start, MaskedTable.scatter_length, List.length_replicate]

/-- The zero beyond the table is the point at infinity too. -/
theorem lookup_represents (hq : q.Represents Q) (k : UInt32) :
    ((ofPoint q).lookup k).Represents ((if k.toNat ≤ 16 then k.toNat else 0) • Q) := by
  have hall := List.forall₂_iff_get.mp (ofPoint_entries hq)
  have hblank : (MaskedEntry.blank : JacobianPoint).Represents 0 :=
    JacobianPoint.represents_of_z_eq_zero (by decide) rfl
  rw [lookup]
  generalize (ofPoint q).entries = table at *
  have hlength : table.length = 16 := hall.1
  rw [← hlength]
  refine MaskedTable.gather_multiple (by omega) hblank (fun i hi => ?_) k
  have hentry := hall.2 i hi (by rwa [← hall.1])
  simpa only [List.get_eq_getElem, List.getElem_map, List.getElem_range] using hentry

lemma tableAfter_getElem? (hq : q.Represents Q) {n : ℕ} (hn : n ≤ 15) {k : ℕ} (hpos : 1 ≤ k)
    (hk : k ≤ 16) : ∃ p, (tableAfter q n)[k - 1]? = some p ∧
      p.Represents ((if k ∈ filed n then k else 0) • Q) := by
  obtain ⟨hlength, hentries⟩ := List.forall₂_iff_get.mp (tableAfter_entries hq hn)
  have hi : k - 1 < (tableAfter q n).length := by
    rw [hlength, List.length_map, List.length_range]
    omega
  have hentry := hentries (k - 1) hi (by rwa [← hlength])
  simp only [List.get_eq_getElem, List.getElem_map, List.getElem_range,
    Nat.sub_add_cancel hpos] at hentry
  exact ⟨_, List.getElem?_eq_getElem hi, hentry⟩

lemma lookup_beyond (q : JacobianPoint) {k : UInt32} (hk : ¬(1 ≤ k.toNat ∧ k.toNat ≤ 16)) :
    (ofPoint q).lookup k = ⟨.zero, .zero, .zero⟩ := by
  have hlength := ofPoint_length q
  rw [lookup, MaskedTable.gather_pred (by omega), hlength, if_neg hk]
  rfl

/-- Line by line the chain files the multiples of a point of the curve, the point at infinity with
any X and Y among them, and no line disturbs what another one has filed. Each multiple from 1 to 16
is then found in its place, and any other number gives the point with all coordinates zero. -/
theorem lookup_multiples (hq : q.Reduced) (hcurve : q.isOnCurve = Mask.yes) :
    filed 15 = [1, 2, 3, 4, 6, 5, 7, 8, 12, 10, 14, 13, 11, 15, 9, 16] ∧
    (∀ n ≤ 15, ∀ k, 1 ≤ k → k ≤ 16 → ∃ p, (tableAfter q n)[k - 1]? = some p ∧
      p.Represents ((if k ∈ filed n then k else 0) • q.toCurve)) ∧
    (ofPoint q).entries = tableAfter q 15 ∧
    (∀ k : UInt32, 1 ≤ k.toNat ∧ k.toNat ≤ 16 →
      ((ofPoint q).lookup k).Represents (k.toNat • q.toCurve)) ∧
    ∀ k : UInt32, ¬(1 ≤ k.toNat ∧ k.toNat ≤ 16) →
      (ofPoint q).lookup k = ⟨.zero, .zero, .zero⟩ ∧
        ((ofPoint q).lookup k).isInfinity = Mask.yes := by
  have hrepresents := JacobianPoint.represents_toCurve hq hcurve
  refine ⟨by decide, fun n hn k => tableAfter_getElem? hrepresents hn, (tableAfter_fifteen q).symm,
    fun k hk => ?_, fun k hk => ?_⟩
  · have h := lookup_represents hrepresents k
    rwa [if_pos hk.2] at h
  · have hzero := lookup_beyond q hk
    refine ⟨hzero, ?_⟩
    rw [hzero]
    decide

/-- The generator, before the multiple 9 is filed and afterwards, and the point at infinity with
X = 1 and Y = 0. -/
theorem lookup_multiples_generator :
    JacobianPoint.generator.Reduced ∧ JacobianPoint.generator.isOnCurve = Mask.yes ∧
      (∃ p, (tableAfter .generator 13)[15 - 1]? = some p ∧
        p.Represents (15 • JacobianPoint.generator.toCurve)) ∧
      ((ofPoint .generator).lookup 9).Represents (9 • JacobianPoint.generator.toCurve) ∧
      (ofPoint .generator).lookup 0 = ⟨.zero, .zero, .zero⟩ ∧
      (ofPoint .generator).lookup 17 = ⟨.zero, .zero, .zero⟩ ∧
      (⟨.montOne, .zero, .zero⟩ : JacobianPoint).Reduced ∧
      (⟨.montOne, .zero, .zero⟩ : JacobianPoint).isOnCurve = Mask.yes ∧
      ((ofPoint ⟨.montOne, .zero, .zero⟩).lookup 16).Represents
        (16 • (⟨.montOne, .zero, .zero⟩ : JacobianPoint).toCurve) := by
  have hgen : JacobianPoint.generator.Reduced := by decide
  have hgen' : JacobianPoint.generator.isOnCurve = Mask.yes := by decide +kernel
  have hinf : (⟨.montOne, .zero, .zero⟩ : JacobianPoint).Reduced := by decide
  have hinf' : (⟨.montOne, .zero, .zero⟩ : JacobianPoint).isOnCurve = Mask.yes := by decide +kernel
  obtain ⟨-, hstages, -, hmultiple, hother⟩ := lookup_multiples hgen hgen'
  obtain ⟨-, -, -, hmultiple', -⟩ := lookup_multiples hinf hinf'
  have hfifteen := hstages 13 (by decide) 15 (by decide) (by decide)
  rw [if_pos (by decide)] at hfifteen
  exact ⟨hgen, hgen', hfifteen, hmultiple 9 (by decide), (hother 0 (by decide)).1,
    (hother 17 (by decide)).1, hinf, hinf', hmultiple' 16 (by decide)⟩

end KoblitzCurve.WindowTable
