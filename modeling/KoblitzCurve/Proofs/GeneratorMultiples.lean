import KoblitzCurve.Proofs.AffinePoints
import KoblitzCurve.Proofs.ScalarMultiplication

/-! The generator table holds the multiples that it is meant to hold, and sums of its entries are
the multiples of the generator, the same as those computed without the table. -/
namespace KoblitzCurve

namespace GeneratorTable
open JacobianPoint
variable {p : JacobianPoint} {P : CurvePoint} {row : List AffinePoint}
  {rows : List (List AffinePoint)} {m : ℕ}

/-- The first `m` entries of the row are the multiples of the group element from 1 on. -/
structure RowHolds (m : ℕ) (row : List AffinePoint) (P : CurvePoint) : Prop where
  length : row.length = columnCount
  entries : ∀ i (hi : i < row.length), i < m → row[i].Represents ((i + 1) • P)

/-- From row to row the group element is doubled seven times over. -/
inductive RowsHold (m : ℕ) : List (List AffinePoint) → CurvePoint → Prop
  | nil (P : CurvePoint) : RowsHold m [] P
  | cons {row rest P} : RowHolds m row P → RowsHold m rest (2 ^ 7 • P) → RowsHold m (row :: rest) P

lemma toNat_column (hm : m < columnCount) : m.toUInt32.toNat = m :=
  UInt32.toNat_ofNat_of_lt' (Nat.lt_trans hm (by decide))

lemma RowHolds.file (h : RowHolds m row P) (hm : m < columnCount) {a : AffinePoint}
    (ha : a.Represents ((m + 1) • P)) :
    RowHolds (m + 1) (MaskedTable.scatter row a m.toUInt32) P := by
  have hlength : row.length ≤ 2 ^ 32 := by
    rw [h.length]
    decide
  rw [MaskedTable.scatter_eq hlength, toNat_column hm]
  refine ⟨by rw [List.length_set, h.length], fun i hi hlt => ?_⟩
  rw [List.length_set] at hi
  rw [List.getElem_set]
  split_ifs with heq
  · rwa [← heq]
  · exact h.entries i hi (by omega)

lemma RowsHold.file (h : RowsHold m rows P) (hm : m < columnCount)
    (hp : p.Represents ((m + 1) • P)) : RowsHold (m + 1) (fileColumn m.toUInt32 p rows) P := by
  induction h generalizing p with
  | nil P => exact .nil P
  | cons hrow _ ih =>
    -- the next row gets the multiple of 2^7 times the point of this one
    have hnext := hp.doubleTimes 7
    rw [nsmul_left_comm] at hnext
    exact .cons (hrow.file hm hp.toAffineMont) (ih hnext)

lemma fileColumn_length (column : UInt32) (p : JacobianPoint) (rows : List (List AffinePoint)) :
    (fileColumn column p rows).length = rows.length := by
  induction rows generalizing p with
  | nil => rfl
  | cons row rest ih => rw [fileColumn, List.length_cons, List.length_cons, ih]

lemma rowsHold_replicate (hrow : row.length = columnCount) (count : ℕ) (P : CurvePoint) :
    RowsHold 0 (List.replicate count row) P := by
  induction count generalizing P with
  | zero => exact .nil P
  | succ count ih =>
    have hempty : RowHolds 0 row P := ⟨hrow, fun i _ hi => absurd hi (Nat.not_lt_zero i)⟩
    exact .cons hempty (ih _)

/-- The next multiple is ready, and those before it are in their places. -/
structure Filed (m : ℕ) (s : JacobianPoint × List (List AffinePoint)) : Prop where
  next : s.1.Represents ((m + 1) • generator.toCurve)
  rows : RowsHold m s.2 generator.toCurve
  length : s.2.length = rowCount

lemma filed_start : Filed 0 (generator, emptyRows) := by
  refine ⟨?_, rowsHold_replicate rfl rowCount _, rfl⟩
  rw [zero_add, one_nsmul]
  exact represents_generator

lemma Filed.advance {s : JacobianPoint × List (List AffinePoint)} (h : Filed m s)
    (hm : m < columnCount) : Filed (m + 1) (advance s m) := by
  refine ⟨?_, h.rows.file hm h.next, ?_⟩
  · rw [succ_nsmul]
    exact h.next.add represents_generator
  · rw [GeneratorTable.advance, fileColumn_length, h.length]

lemma filed_columns (n : ℕ) (hn : n ≤ columnCount) :
    Filed n ((List.range n).foldl GeneratorTable.advance (generator, emptyRows)) := by
  induction n with
  | zero => exact filed_start
  | succ n ih =>
    rw [List.range_succ, List.foldl_append]
    exact (ih (Nat.le_of_succ_le hn)).advance hn

lemma RowsHold.getD_row (h : RowsHold m rows P) {r : ℕ} (hr : r < rows.length) :
    RowHolds m (rows.getD r []) (2 ^ (7 * r) • P) := by
  induction h generalizing r with
  | nil P => exact absurd hr (Nat.not_lt_zero r)
  | cons hrow _ ih =>
    cases r with
    | zero => rwa [Nat.mul_zero, pow_zero, one_nsmul]
    | succ r =>
      rw [List.getD_cons_succ, Nat.mul_succ, pow_add, mul_nsmul']
      exact ih (Nat.lt_of_succ_lt_succ hr)

lemma full_row_holds {r : ℕ} (hr : r < rowCount) :
    RowHolds columnCount (full.rows.getD r []) (2 ^ (7 * r) • generator.toCurve) := by
  have h := filed_columns columnCount (Nat.le_refl _)
  exact h.rows.getD_row (hr.trans_eq h.length.symm)

theorem lookup_represents {r : ℕ} (hr : r < rowCount) (k : UInt32) :
    (full.lookup r k).Represents
      ((if k.toNat ≤ columnCount then k.toNat else 0) • 2 ^ (7 * r) • generator.toCurve) := by
  have hrow := full_row_holds hr
  rw [lookup, ← hrow.length]
  refine MaskedTable.gather_multiple ?_ AffinePoint.represents_infinity (fun i hi => ?_) k
  · rw [hrow.length]
    decide
  · exact hrow.entries i hi (hi.trans_eq hrow.length)

/-- Every entry of the table is the multiple of the generator that belongs in its place. -/
def Complete (table : GeneratorTable) : Prop :=
  ∀ row < rowCount, ∀ k : UInt32, (table.lookup row k).Represents
    ((if k.toNat ≤ columnCount then k.toNat else 0) • 2 ^ (7 * row) • generator.toCurve)

lemma complete_full : full.Complete :=
  fun _ hrow k => lookup_represents hrow k

end GeneratorTable

namespace JacobianPoint
variable {p : JacobianPoint} {P : CurvePoint}

lemma signedEntry_represents {r : ℕ} (hr : r < GeneratorTable.rowCount) {d : SignedDigit}
    (hd : d.Within GeneratorTable.columnCount) :
    (signedEntry .full r d).Represents (d.value • 2 ^ (7 * r) • generator.toCurve) := by
  have hlookup := GeneratorTable.lookup_represents hr d.magnitude
  rw [if_pos hd.magnitude] at hlookup
  have hsigned := AffinePoint.Represents.negateIf hlookup (d.negative = Mask.yes)
  rwa [← hd.negative_eq, ← hd.value_zsmul] at hsigned

lemma zsmul_digitSum_cons {M : Type*} [AddCommGroup M] (r : ℕ) (d : SignedDigit)
    (higher : List SignedDigit) (P : M) :
    d.value • 2 ^ (7 * r) • P + (2 ^ (7 * (r + 1)) * Scalar.digitSum 7 higher) • P =
      (2 ^ (7 * r) * Scalar.digitSum 7 (d :: higher)) • P := by
  rw [Scalar.digitSum, ← natCast_zsmul, ← mul_zsmul, ← add_zsmul]
  push_cast
  ring_nf

lemma addEntries_represents (ds : List SignedDigit)
    (hds : ∀ d ∈ ds, d.Within GeneratorTable.columnCount) {r : ℕ}
    (hr : r + ds.length ≤ GeneratorTable.rowCount) (hp : p.Represents P) :
    (addEntries .full r p ds).Represents
      (P + (2 ^ (7 * r) * Scalar.digitSum 7 ds) • generator.toCurve) := by
  induction ds generalizing r p P with
  | nil =>
    rw [addEntries, Scalar.digitSum, mul_zero, zero_zsmul, add_zero]
    exact hp
  | cons d higher ih =>
    rw [List.length_cons] at hr
    have hlt : r < GeneratorTable.rowCount := by omega
    have hnext : r + 1 + higher.length ≤ GeneratorTable.rowCount := by omega
    have hentry := signedEntry_represents hlt (hds d List.mem_cons_self)
    have hrest := ih (fun e he => hds e (List.mem_cons_of_mem _ he)) hnext (hp.addAffine hentry)
    rwa [add_assoc, zsmul_digitSum_cons] at hrest

theorem mulGenerator_represents (k : Scalar) :
    (mulGenerator .full k).Represents ((k.toNat % groupOrder.toNat) • generator.toCurve) := by
  have hsum : Scalar.digitSum 7 (Scalar.digits 7 GeneratorTable.rowCount k) = _ :=
    Scalar.digitSum_digits (by decide) (by decide) (by decide) k
  have hwithin : ∀ d ∈ Scalar.digits 7 GeneratorTable.rowCount k, d.Within 64 :=
    Scalar.within_digits (by decide) (by decide) 36 k
  have hlength : (Scalar.digits 7 GeneratorTable.rowCount k).length = GeneratorTable.rowCount := by
    simp [Scalar.digits, GeneratorTable.rowCount]
  rw [← natCast_zsmul, ← hsum, mulGenerator]
  generalize Scalar.digits 7 GeneratorTable.rowCount k = ds at *
  cases ds with
  | nil => contradiction
  | cons d higher =>
    rw [List.length_cons, Nat.add_comm] at hlength
    have hrow : 0 < GeneratorTable.rowCount := by decide
    have hfirst := signedEntry_represents hrow (hwithin d List.mem_cons_self)
    have hrest := addEntries_represents higher
      (fun e he => hwithin e (List.mem_cons_of_mem _ he)) hlength.le hfirst
    rwa [zsmul_digitSum_cons, Nat.mul_zero, pow_zero, one_mul] at hrest

/-- The multiples from the table of the generator are those computed without it, for every scalar,
reduced or not. -/
theorem mulGenerator_equals_mul (k : Scalar) :
    (mulGenerator .full k).Represents ((k.toNat % groupOrder.toNat) • generator.toCurve) ∧
      (mulGenerator .full k).equals (generator.mul k) = Mask.yes := by
  have hfast := mulGenerator_represents k
  have hslow := represents_generator.mul k
  exact ⟨hfast, (hfast.equals_iff hslow).mpr rfl⟩

end JacobianPoint

end KoblitzCurve
