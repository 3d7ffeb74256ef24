import Mathlib.Algebra.Ring.Nat
import Mathlib.Data.List.GetD
import Mathlib.Tactic.Lemma
import Mathlib.Tactic.SplitIfs
import KoblitzCurve.MaskedTable

/-! What the passes over whole tables read and write. With no more than 2^32 entries each index
meets at most one place, and the pass is an access to that place. -/
namespace KoblitzCurve

/-- The two masks in use choose one of the values as it is. -/
class LawfulMaskedEntry (α : Type) [MaskedEntry α] : Prop where
  replaceIf_zero : ∀ a b : α, MaskedEntry.replaceIf a b 0 = a
  replaceIf_yes : ∀ a b : α, MaskedEntry.replaceIf a b Mask.yes = b

instance : LawfulMaskedEntry JacobianPoint :=
  ⟨JacobianPoint.replaceIf_zero, JacobianPoint.replaceIf_yes⟩

instance : LawfulMaskedEntry AffinePoint := ⟨AffinePoint.replaceIf_zero, AffinePoint.replaceIf_yes⟩

namespace MaskedTable
variable {α : Type} [MaskedEntry α]

lemma scatterFrom_length (value : α) (i j : UInt32) (table : List α) :
    (scatterFrom value i j table).length = table.length := by
  induction table generalizing j with
  | nil => rfl
  | cons e rest ih => rw [scatterFrom, List.length_cons, List.length_cons, ih]

theorem scatter_length (table : List α) (value : α) (i : UInt32) :
    (scatter table value i).length = table.length := scatterFrom_length value i 0 table

variable [LawfulMaskedEntry α]

lemma replaceIf_ofEq (a b : α) (i : UInt32) {j : Nat} (hj : j < 2 ^ 32) :
    MaskedEntry.replaceIf a b (Mask.ofEq i (.ofNat j)) = if i.toNat = j then b else a := by
  have hij : i = .ofNat j ↔ i.toNat = j := by
    rw [← UInt32.toNat_inj, UInt32.toNat_ofNat_of_lt' hj]
  rw [Mask.ofEq_eq]
  by_cases h : i.toNat = j
  · rw [if_pos (hij.mpr h), if_pos h, LawfulMaskedEntry.replaceIf_yes]
  · rw [if_neg (mt hij.mp h), if_neg h, LawfulMaskedEntry.replaceIf_zero]

/-- Places before `j` have been passed already: for these the value kept so far remains. -/
lemma gatherFrom_eq (i : UInt32) (table : List α) (kept : α) (j : Nat)
    (hj : j + table.length ≤ 2 ^ 32) :
    gatherFrom i (.ofNat j) kept table =
      if j ≤ i.toNat then table.getD (i.toNat - j) kept else kept := by
  induction table generalizing kept j with
  | nil => simp only [gatherFrom, List.getD_nil, ite_self]
  | cons e rest ih =>
    rw [List.length_cons] at hj
    have hnext : UInt32.ofNat j + 1 = .ofNat (j + 1) := (UInt32.ofNat_add j 1).symm
    rw [gatherFrom, replaceIf_ofEq _ _ _ (by omega), hnext, ih _ _ (by omega)]
    rcases Nat.lt_trichotomy i.toNat j with h | h | h
    · rw [if_neg (by omega), if_neg (by omega), if_neg (by omega)]
    · rw [if_neg (by omega), if_pos h, if_pos (by omega), h, Nat.sub_self, List.getD_cons_zero]
    · have hplace : i.toNat - j = i.toNat - (j + 1) + 1 := by omega
      rw [if_pos (by omega), if_neg (by omega), if_pos (by omega), hplace, List.getD_cons_succ]

theorem gather_eq {table : List α} (h : table.length ≤ 2 ^ 32) (i : UInt32) :
    gather table i = table.getD i.toNat MaskedEntry.blank := by
  have hfrom := gatherFrom_eq i table MaskedEntry.blank 0 (by omega)
  rwa [if_pos (Nat.zero_le _)] at hfrom

lemma scatterFrom_eq (value : α) (i : UInt32) (table : List α) (j : Nat)
    (hj : j + table.length ≤ 2 ^ 32) :
    scatterFrom value i (.ofNat j) table =
      if j ≤ i.toNat then table.set (i.toNat - j) value else table := by
  induction table generalizing j with
  | nil => simp only [scatterFrom, List.set_nil, ite_self]
  | cons e rest ih =>
    rw [List.length_cons] at hj
    have hnext : UInt32.ofNat j + 1 = .ofNat (j + 1) := (UInt32.ofNat_add j 1).symm
    rw [scatterFrom, replaceIf_ofEq _ _ _ (by omega), hnext, ih _ (by omega)]
    rcases Nat.lt_trichotomy i.toNat j with h | h | h
    · rw [if_neg (by omega), if_neg (by omega), if_neg (by omega)]
    · rw [if_pos h, if_neg (by omega), if_pos (by omega), h, Nat.sub_self, List.set_cons_zero]
    · have hplace : i.toNat - j = i.toNat - (j + 1) + 1 := by omega
      rw [if_neg (by omega), if_pos (by omega), if_pos (by omega), hplace, List.set_cons_succ]

theorem scatter_eq {table : List α} (h : table.length ≤ 2 ^ 32) (value : α) (i : UInt32) :
    scatter table value i = table.set i.toNat value := by
  have hfrom := scatterFrom_eq value i table 0 (by omega)
  rwa [if_pos (Nat.zero_le _)] at hfrom

/-- The index before zero is beyond every table, as are those from its length on. -/
lemma gather_pred {table : List α} (h : table.length < 2 ^ 32) (k : UInt32) :
    gather table (k - 1) =
      if 1 ≤ k.toNat ∧ k.toNat ≤ table.length then table.getD (k.toNat - 1) MaskedEntry.blank
      else MaskedEntry.blank := by
  have hk := k.toNat_lt
  have hpred : (k - 1).toNat = (2 ^ 32 - 1 + k.toNat) % 2 ^ 32 := UInt32.toNat_sub k 1
  rw [gather_eq (Nat.le_of_lt h), hpred]
  split_ifs with hplace
  · congr 1
    omega
  · exact List.getD_eq_default _ _ (by omega)

/-- A table of the multiples from 1 on, read at one less than the multiple that is wanted. -/
theorem gather_multiple {M : Type*} [AddMonoid M] {R : α → M → Prop} {P : M} {table : List α}
    (hlength : table.length < 2 ^ 32) (hblank : R MaskedEntry.blank 0)
    (h : ∀ i (hi : i < table.length), R table[i] ((i + 1) • P)) (k : UInt32) :
    R (gather table (k - 1)) ((if k.toNat ≤ table.length then k.toNat else 0) • P) := by
  rw [gather_pred hlength]
  by_cases hplace : 1 ≤ k.toNat ∧ k.toNat ≤ table.length
  · have hi : k.toNat - 1 < table.length := by omega
    have hentry := h _ hi
    rw [if_pos hplace, if_pos hplace.2, List.getD_eq_getElem _ _ hi]
    rwa [Nat.sub_add_cancel hplace.1] at hentry
  · have hzero : (if k.toNat ≤ table.length then k.toNat else 0) = 0 := by
      split_ifs <;> omega
    rw [if_neg hplace, hzero, zero_nsmul]
    exact hblank

lemma scatter_getElem? {table : List α} (h : table.length ≤ 2 ^ 32) (value : α) (i : UInt32)
    (k : ℕ) : (scatter table value i)[k]? =
      if k = i.toNat ∧ k < table.length then some value else table[k]? := by
  rw [scatter_eq h, List.getElem?_set]
  by_cases hk : i.toNat = k
  · subst hk
    by_cases hlt : i.toNat < table.length
    · rw [if_pos rfl, if_pos hlt, if_pos ⟨rfl, hlt⟩]
    · rw [if_pos rfl, if_neg hlt, if_neg fun hboth => hlt hboth.2,
        List.getElem?_eq_none (Nat.le_of_not_lt hlt)]
  · rw [if_neg hk, if_neg fun hboth => hk hboth.1.symm]

theorem gather_scatter_eq {table : List α} (h : table.length ≤ 2 ^ 32) (value : α) (i j : UInt32) :
    gather (scatter table value i) j =
      if j = i ∧ i.toNat < table.length then value else gather table j := by
  have hlength := h
  rw [← scatter_length table value i] at hlength
  have hcond : j.toNat = i.toNat ∧ j.toNat < table.length ↔ j = i ∧ i.toNat < table.length := by
    rw [UInt32.toNat_inj]
    exact and_congr_right fun hij => by rw [hij]
  rw [gather_eq hlength, gather_eq h, List.getD_eq_getElem?_getD, List.getD_eq_getElem?_getD,
    scatter_getElem? h, if_congr hcond rfl rfl]
  split_ifs
  · rfl
  · rfl

/-- What a reading and a writing give, with `zero` for what is not in the table. -/
structure AccessLaws (zero : α) (table : List α) (value : α) (i j : UInt32) : Prop where
  read : gather table i = if h : i.toNat < table.length then table[i.toNat] else zero
  length : (scatter table value i).length = table.length
  written : ∀ k, (scatter table value i)[k]? =
    if k = i.toNat ∧ k < table.length then some value else table[k]?
  read_written : gather (scatter table value i) j =
    if j = i ∧ i.toNat < table.length then value else gather table j

theorem accessLaws {table : List α} (h : table.length ≤ 2 ^ 32) (value : α) (i j : UInt32) :
    AccessLaws MaskedEntry.blank table value i j where
  read := by
    rw [gather_eq h]
    split_ifs with hi
    · exact List.getD_eq_getElem _ _ hi
    · exact List.getD_eq_default _ _ (Nat.le_of_not_lt hi)
  length := scatter_length table value i
  written := scatter_getElem? h value i
  read_written := gather_scatter_eq h value i j

/-- Tables of both kinds are read and written at one place, or at none, whatever the indices. -/
theorem tables_accessLaws (points : List JacobianPoint) (entries : List AffinePoint)
    (hpoints : points.length < 2 ^ 32) (hentries : entries.length < 2 ^ 32) (p : JacobianPoint)
    (a : AffinePoint) (i j : UInt32) :
    AccessLaws ⟨.zero, .zero, .zero⟩ points p i j ∧ AccessLaws ⟨.zero, .zero⟩ entries a i j :=
  ⟨accessLaws (Nat.le_of_lt hpoints) p i j, accessLaws (Nat.le_of_lt hentries) a i j⟩

/-- Entries at place 1, beyond the table, and at an index that differs from 1 in the top bit only. -/
theorem tables_accessLaws_top_bit :
    [JacobianPoint.generator, .neutral].length < 2 ^ 32 ∧ [AffinePoint.infinity].length < 2 ^ 32 ∧
      gather [JacobianPoint.generator, .neutral] 0xFFFFFFFF = ⟨.zero, .zero, .zero⟩ ∧
      gather (scatter [JacobianPoint.generator, .neutral] .generator 1) 1 = .generator ∧
      gather (scatter [JacobianPoint.generator, .neutral] .generator 0x80000001) 1 =
        gather [JacobianPoint.generator, .neutral] 1 ∧
      (scatter [AffinePoint.infinity] ⟨.zero, .montOne⟩ 0x80000000)[0]? =
        some AffinePoint.infinity := by
  have hpoints : [JacobianPoint.generator, .neutral].length < 2 ^ 32 := by decide
  have hentries : [AffinePoint.infinity].length < 2 ^ 32 := by decide
  have hlaws := tables_accessLaws _ _ hpoints hentries .generator ⟨.zero, .montOne⟩
  exact ⟨hpoints, hentries, (hlaws 0xFFFFFFFF 0).1.read.trans (dif_neg (by decide)),
    (hlaws 1 1).1.read_written.trans (if_pos (by decide)),
    (hlaws 0x80000001 1).1.read_written.trans (if_neg (by decide)),
    ((hlaws 0x80000000 0).2.written 0).trans (if_neg (by decide))⟩

end MaskedTable

end KoblitzCurve
