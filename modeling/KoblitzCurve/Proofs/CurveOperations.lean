import KoblitzCurve.Proofs.GeneratorMultiples

/-! Sequences of operations on points. Each operation takes its operands from what has been produced
before it, and whatever it produces has reduced coordinates and is on the curve. -/
namespace KoblitzCurve

/-- The points and the affine points produced so far, the latest first. -/
structure Produced where
  points : List JacobianPoint
  entries : List AffinePoint

namespace Produced

/-- The point at a place; where nothing has been produced that is the point at infinity. -/
def point (s : Produced) (i : ℕ) : JacobianPoint := s.points.getD i .neutral

def entry (s : Produced) (i : ℕ) : AffinePoint := s.entries.getD i .infinity

end Produced

/-- The operations that give a point. Operands are given by their places. -/
inductive PointOp
  | generator
  | neutral
  | ofAffine (x y : FieldElement)
  | ofAffineMont (a : ℕ)
  | add (p q : ℕ)
  | addAffine (p a : ℕ)
  | sub (p q : ℕ)
  | neg (p : ℕ)
  | double (p : ℕ)
  | doubleTimes (p n : ℕ)
  | replaceIf (p q : ℕ) (flag : Bool)
  | negateIf (p : ℕ) (flag : Bool)
  | windowLookup (p : ℕ) (k : UInt32)
  | mul (p : ℕ) (k : Scalar)
  | mulGenerator (k : Scalar)

inductive EntryOp
  | infinity
  | toAffineMont (p : ℕ)
  | replaceIf (a b : ℕ) (flag : Bool)
  | negateIf (a : ℕ) (flag : Bool)
  | generatorLookup (row : Fin GeneratorTable.rowCount) (k : UInt32)

inductive CurveOp
  | point (op : PointOp)
  | entry (op : EntryOp)

namespace PointOp

def run (s : Produced) : PointOp → Except Fault JacobianPoint
  | generator => .ok .generator
  | neutral => .ok .neutral
  | ofAffine x y => JacobianPoint.ofAffine x y
  | ofAffineMont a => .ok (.ofAffineMont (s.entry a))
  | add p q => .ok (s.point p + s.point q)
  | addAffine p a => .ok ((s.point p).addAffine (s.entry a))
  | sub p q => .ok (s.point p - s.point q)
  | neg p => .ok (-s.point p)
  | double p => .ok (s.point p).double
  | doubleTimes p n => .ok ((s.point p).doubleTimes n)
  | replaceIf p q flag => .ok ((s.point p).replaceIf (s.point q) (if flag then Mask.yes else 0))
  | negateIf p flag => .ok ((s.point p).negateIf (if flag then Mask.yes else 0))
  | windowLookup p k => .ok ((WindowTable.ofPoint (s.point p)).lookup k)
  | mul p k => .ok ((s.point p).mul k)
  | mulGenerator k => .ok (.mulGenerator .full k)

end PointOp

namespace EntryOp

def run (s : Produced) : EntryOp → AffinePoint
  | infinity => .infinity
  | toAffineMont p => (s.point p).toAffineMont
  | replaceIf a b flag => (s.entry a).replaceIf (s.entry b) (if flag then Mask.yes else 0)
  | negateIf a flag => (s.entry a).negateIf (if flag then Mask.yes else 0)
  | generatorLookup row k => GeneratorTable.full.lookup row k

end EntryOp

namespace Produced

/-- An operation that fails produces nothing. -/
def step (s : Produced) : CurveOp → Produced
  | .point op =>
    match op.run s with
    | .ok p => { s with points := p :: s.points }
    | .error _ => s
  | .entry op => { s with entries := op.run s :: s.entries }

def run (ops : List CurveOp) : Produced := ops.foldl step ⟨[], []⟩

/-- All that has been produced stands for elements of the group. -/
structure Valid (s : Produced) : Prop where
  points : ∀ p ∈ s.points, ∃ P, p.Represents P
  entries : ∀ a ∈ s.entries, ∃ P, a.Represents P

lemma forall_getD {α : Type*} {R : α → Prop} {l : List α} {d : α} (hl : ∀ a ∈ l, R a) (hd : R d)
    (i : ℕ) : R (l.getD i d) := by
  rcases Nat.lt_or_ge i l.length with hi | hi
  · rw [List.getD_eq_getElem _ _ hi]
    exact hl _ (List.getElem_mem hi)
  · rwa [List.getD_eq_default _ _ hi]

lemma Valid.point {s : Produced} (hs : s.Valid) (i : ℕ) : ∃ P, (s.point i).Represents P :=
  forall_getD hs.points ⟨0, JacobianPoint.represents_neutral⟩ i

lemma Valid.entry {s : Produced} (hs : s.Valid) (i : ℕ) : ∃ P, (s.entry i).Represents P :=
  forall_getD hs.entries ⟨0, AffinePoint.represents_infinity⟩ i

end Produced

lemma PointOp.run_represents {s : Produced} (hs : s.Valid) (op : PointOp) {r : JacobianPoint}
    (h : op.run s = .ok r) : ∃ P, r.Represents P := by
  cases op with
  | generator =>
    obtain rfl := Except.ok.inj h
    exact ⟨_, JacobianPoint.represents_generator⟩
  | neutral =>
    obtain rfl := Except.ok.inj h
    exact ⟨_, JacobianPoint.represents_neutral⟩
  | ofAffine x y => exact ⟨_, JacobianPoint.represents_of_ofAffine h⟩
  | ofAffineMont a =>
    obtain rfl := Except.ok.inj h
    exact hs.entry a
  | add p q =>
    obtain rfl := Except.ok.inj h
    obtain ⟨P, hp⟩ := hs.point p
    obtain ⟨Q, hq⟩ := hs.point q
    exact ⟨_, hp.add hq⟩
  | addAffine p a =>
    obtain rfl := Except.ok.inj h
    obtain ⟨P, hp⟩ := hs.point p
    obtain ⟨Q, ha⟩ := hs.entry a
    exact ⟨_, hp.addAffine ha⟩
  | sub p q =>
    obtain rfl := Except.ok.inj h
    obtain ⟨P, hp⟩ := hs.point p
    obtain ⟨Q, hq⟩ := hs.point q
    exact ⟨_, hp.sub hq⟩
  | neg p =>
    obtain rfl := Except.ok.inj h
    obtain ⟨P, hp⟩ := hs.point p
    exact ⟨_, hp.neg⟩
  | double p =>
    obtain rfl := Except.ok.inj h
    obtain ⟨P, hp⟩ := hs.point p
    exact ⟨_, hp.double⟩
  | doubleTimes p n =>
    obtain rfl := Except.ok.inj h
    obtain ⟨P, hp⟩ := hs.point p
    exact ⟨_, hp.doubleTimes n⟩
  | replaceIf p q flag =>
    obtain rfl := Except.ok.inj h
    obtain ⟨P, hp⟩ := hs.point p
    obtain ⟨Q, hq⟩ := hs.point q
    exact ⟨_, hp.replaceIf hq _⟩
  | negateIf p flag =>
    obtain rfl := Except.ok.inj h
    obtain ⟨P, hp⟩ := hs.point p
    exact ⟨_, hp.negateIf _⟩
  | windowLookup p k =>
    obtain rfl := Except.ok.inj h
    obtain ⟨P, hp⟩ := hs.point p
    exact ⟨_, WindowTable.lookup_represents hp k⟩
  | mul p k =>
    obtain rfl := Except.ok.inj h
    obtain ⟨P, hp⟩ := hs.point p
    exact ⟨_, hp.mul k⟩
  | mulGenerator k =>
    obtain rfl := Except.ok.inj h
    exact ⟨_, JacobianPoint.mulGenerator_represents k⟩

lemma EntryOp.run_represents {s : Produced} (hs : s.Valid) (op : EntryOp) :
    ∃ P, (op.run s).Represents P := by
  cases op with
  | infinity => exact ⟨_, AffinePoint.represents_infinity⟩
  | toAffineMont p =>
    obtain ⟨P, hp⟩ := hs.point p
    exact ⟨_, hp.toAffineMont⟩
  | replaceIf a b flag =>
    obtain ⟨P, ha⟩ := hs.entry a
    obtain ⟨Q, hb⟩ := hs.entry b
    exact ⟨_, ha.replaceIf hb _⟩
  | negateIf a flag =>
    obtain ⟨P, ha⟩ := hs.entry a
    exact ⟨_, ha.negateIf _⟩
  | generatorLookup row k => exact ⟨_, GeneratorTable.lookup_represents row.isLt k⟩

namespace Produced
variable {s : Produced}

lemma Valid.step (hs : s.Valid) (op : CurveOp) : (s.step op).Valid := by
  cases op with
  | point op =>
    rw [Produced.step]
    cases h : op.run s with
    | ok p =>
      refine ⟨fun q hq => ?_, hs.entries⟩
      rcases List.mem_cons.mp hq with rfl | hq
      · exact op.run_represents hs h
      · exact hs.points q hq
    | error _ => exact hs
  | entry op =>
    refine ⟨hs.points, fun a ha => ?_⟩
    rcases List.mem_cons.mp ha with rfl | ha
    · exact op.run_represents hs
    · exact hs.entries a ha

lemma Valid.foldl_step (hs : s.Valid) (ops : List CurveOp) :
    (ops.foldl Produced.step s).Valid := by
  induction ops generalizing s with
  | nil => exact hs
  | cons op rest ih => exact ih (hs.step op)

lemma valid_run (ops : List CurveOp) : (run ops).Valid := by
  have hnone : Valid ⟨[], []⟩ := by
    constructor
    · intro p hp
      contradiction
    · intro a ha
      contradiction
  exact hnone.foldl_step ops

/-- After any sequence of operations every point has reduced coordinates and is on the curve, and
every affine point is (0, 0) or made of a solution of the equation. -/
theorem run_onCurve (ops : List CurveOp) :
    (∀ p ∈ (run ops).points, p.Reduced ∧ p.isOnCurve = Mask.yes) ∧
      ∀ a ∈ (run ops).entries, a.x.Reduced ∧ a.y.Reduced ∧ (a = .infinity ∨
        ∃ x y : FieldElement, x.Reduced ∧ y.Reduced ∧
          y.toNat ^ 2 ≡ x.toNat ^ 3 + 7 [MOD fieldModulus.toNat] ∧
          a.x = x.toMont ∧ a.y = y.toMont) := by
  have hvalid := valid_run ops
  constructor
  · intro p hp
    obtain ⟨P, h⟩ := hvalid.points p hp
    exact ⟨h.reduced, h.isOnCurve⟩
  · intro a ha
    obtain ⟨P, h⟩ := hvalid.entries a ha
    refine ⟨h.reduced_x, h.reduced_y, ?_⟩
    by_cases hfin : a = .infinity
    · exact Or.inl hfin
    · exact Or.inr (h.exists_solution hfin)

theorem run_onCurve_double :
    JacobianPoint.generator + JacobianPoint.generator ∈
        (run [.point .generator, .point (.add 0 0), .entry (.toAffineMont 0)]).points ∧
      (JacobianPoint.generator + JacobianPoint.generator).isOnCurve = Mask.yes ∧
      (JacobianPoint.generator + JacobianPoint.generator).toAffineMont ∈
        (run [.point .generator, .point (.add 0 0), .entry (.toAffineMont 0)]).entries ∧
      (JacobianPoint.generator + JacobianPoint.generator).toAffineMont.x.Reduced := by
  obtain ⟨hpoints, hentries⟩ :=
    run_onCurve [.point .generator, .point (.add 0 0), .entry (.toAffineMont 0)]
  exact ⟨List.mem_cons_self, (hpoints _ List.mem_cons_self).2, List.mem_cons_self,
    (hentries _ List.mem_cons_self).1⟩

end Produced

end KoblitzCurve
