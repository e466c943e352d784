import BeamEnvelope.Proofs.Optics.RealNumbers
import BeamEnvelope.Proofs.Machine.OnAxis

/-!
# The physical block of the second moments

The row and the column of the homogeneous coordinate hold no moments of the six others. A map that
shifts nothing keeps them out of the physical block, and only a generic element can shift anything:
its matrix is applied as it is given. Nothing else of a beam is computed from second moments at all.
-/

namespace BeamEnvelope

open Scalar

section Agreement

variable {K : Type}

namespace State

/-- States that differ in their second moments at most. -/
structure AgreeBesidesSigma (st st' : State K) : Prop where
  centroid : st.centroid = st'.centroid
  real : st.real = st'.real
  reference : st.reference = st'.reference
  position : st.position = st'.position

/-- States that differ in the homogeneous row and column at most. -/
structure AgreePhysically (st st' : State K) : Prop extends st.AgreeBesidesSigma st' where
  sigma (i j : Axis) (hi : i ≠ Axis.one) (hj : j ≠ Axis.one) : st.sigma i j = st'.sigma i j

end State

def Element.setsSigma (e : Element K) : Bool :=
  match e.action with
  | .source s => s.sigma.isSome
  | _ => false

variable [Scalar K] {frequency length : K} {st st' : State K}

namespace State.AgreeBesidesSigma

theorem transport (h : st.AgreeBesidesSigma st') (r : PhaseMatrix K) :
    (st.transport r).AgreeBesidesSigma (st'.transport r) where
  centroid := by rw [State.transport, State.transport, h.centroid]
  real := h.real
  reference := h.reference
  position := h.position

theorem alignReal (h : st.AgreeBesidesSigma st') : st.alignReal.AgreeBesidesSigma st'.alignReal where
  centroid := h.centroid
  real := by rw [State.alignReal, State.alignReal, h.real, h.reference, h.centroid]
  reference := h.reference
  position := h.position

theorem coast (h : st.AgreeBesidesSigma st') (r : PhaseMatrix K) (length frequency : K) :
    (st.coast r length frequency).AgreeBesidesSigma (st'.coast r length frequency) := by
  obtain ⟨hcentroid, hreal, hreference, hposition⟩ := h.transport r
  refine alignReal ⟨hcentroid, hreal, ?_, hposition⟩
  rw [hreference]

theorem accelerate (h : st.AgreeBesidesSigma st') (c : Cavity K) (kin : Kinematics K)
    (length frequency : K) : (c.accelerate st kin length frequency).AgreeBesidesSigma
      (c.accelerate st' kin length frequency) := by
  have hmapped := h.transport (c.map st'.reference kin length frequency)
  rw [Cavity.accelerate, Cavity.accelerate, h.reference]
  refine alignReal ⟨?_, ?_, rfl, hmapped.position⟩
  · rw [Cavity.centroid, Cavity.centroid, h.real, hmapped.centroid]
  · rw [h.real]

theorem seed (h : st.AgreeBesidesSigma st') (s : Seed K) :
    (st.seed s).AgreeBesidesSigma (st'.seed s) where
  centroid := congrArg s.centroid.getD h.centroid
  real := rfl
  reference := rfl
  position := h.position

/-- Nothing but second moments depends on second moments. -/
theorem advance (h : st.AgreeBesidesSigma st') (e : Element K) :
    (e.advance frequency st).AgreeBesidesSigma (e.advance frequency st') := by
  suffices hact : (e.act frequency st).AgreeBesidesSigma (e.act frequency st') from
    ⟨hact.centroid, hact.real, hact.reference, congrArg (· + e.length) hact.position⟩
  rw [Element.act, Element.act, h.reference]
  cases e.action with
  | source s => exact h.seed s
  | generic r => exact h.transport r
  | cavity c =>
    cases Kinematics.ofReference? st'.reference frequency with
    | some kin => exact h.accelerate c kin e.length frequency
    | none => exact h.coast _ _ _
  | marker | drift | bend b | quadrupole s | solenoid s => exact h.coast _ _ _

end State.AgreeBesidesSigma

theorem Element.sigma_advance_source {e : Element K} {s : Seed K} (he : e.action = .source s)
    (frequency : K) (st : State K) : (e.advance frequency st).sigma = s.sigma.getD st.sigma := by
  rw [Element.advance, Element.act, he]
  rfl

/-- Behind an element that sets second moments there is no trace of earlier ones. -/
theorem State.AgreeBesidesSigma.advance_of_setsSigma (h : st.AgreeBesidesSigma st') {e : Element K}
    (he : e.setsSigma) : (e.advance frequency st).AgreePhysically (e.advance frequency st') := by
  refine ⟨h.advance e, fun i j _ _ => ?_⟩
  rw [Element.setsSigma] at he
  split at he
  · rename_i s haction
    obtain ⟨sigma, hsigma⟩ := Option.isSome_iff_exists.1 he
    rw [e.sigma_advance_source haction, e.sigma_advance_source haction, hsigma]
    rfl
  · cases he

end Agreement

/-- Exact numbers have one zero, and all of them are numbers. -/
instance : SignedZeros ℝ where
  isZero_zero := by simp
  eq_of_isZero ha hb := by
    rw [isZero_real] at ha hb
    exact decide_eq_true (ha.trans hb.symm)
  alike_of_eq h := .inl (of_decide_eq_true h)
  isZero_eq_false_of_isPositive h := (isZero_eq_false_real _).2 ((isPositive_real _).1 h).ne'
  zero_add x ha := .inl (by rw [(isZero_real _).1 ha, zero_add])
  add_zero x ha := .inl (by rw [(isZero_real _).1 ha, add_zero])
  zero_sub x ha hb := .inl (by rw [(isZero_real _).1 ha, (isZero_real _).1 hb])
  sub_zero x ha := .inl (by rw [(isZero_real _).1 ha, sub_zero])
  isVoid_sub_self x := .inl (by simp)
  isVoid_zero_mul x ha := .inl (by simp [(isZero_real _).1 ha])
  isVoid_mul_zero x ha := .inl (by simp [(isZero_real _).1 ha])
  isVoid_zero_div x ha := .inl (by simp [(isZero_real _).1 ha])
  zero_mul x ha hb := .inl (by rw [(isZero_real _).1 ha, (isZero_real _).1 hb])
  mul_zero x ha hb := .inl (by rw [(isZero_real _).1 ha, (isZero_real _).1 hb])
  zero_div x ha hb := .inl (by rw [(isZero_real _).1 ha, (isZero_real _).1 hb])
  one_mul x := by simp
  mul_one x := by simp
  isNaN_add_left x h := by simp [isNaN, eq] at h
  isNaN_add_right x h := by simp [isNaN, eq] at h
  isNaN_sub_left x h := by simp [isNaN, eq] at h
  isNaN_mul_left x h := by simp [isNaN, eq] at h
  isNaN_mul_right x h := by simp [isNaN, eq] at h
  isNaN_div_left x h := by simp [isNaN, eq] at h
  cos_eq_of_isZero ha hb := by rw [(isZero_real _).1 ha, (isZero_real _).1 hb]
  isNaN_cos h := by simp [isNaN, eq] at h

namespace PhaseMatrix

variable {a b r : PhaseMatrix ℝ} {i j : Axis}

/-- Over exact numbers a map keeps the axis if its last column shifts no coordinate. -/
theorem keepsAxis_iff_eq_zero : r.KeepsAxis ↔ ∀ i, i ≠ Axis.one → r i Axis.one = 0 := by
  have hvoid (x : ℝ) : IsVoid x ↔ x = 0 := by simp [IsVoid, isNaN, eq]
  simp only [KeepsAxis, hvoid]

/-- A map without shifts maps the physical block on its own. -/
theorem KeepsAxis.congruence_apply (hr : r.KeepsAxis)
    (hab : ∀ i j, i ≠ Axis.one → j ≠ Axis.one → a i j = b i j) (hi : i ≠ Axis.one)
    (hj : j ≠ Axis.one) : (r * a * r.transpose) i j = (r * b * r.transpose) i j := by
  rw [keepsAxis_iff_eq_zero] at hr
  rw [mul_apply, mul_apply]
  -- a term with a homogeneous index has a zero of the last column for a factor
  refine congrArg sumAxes (funext fun k => ?_)
  rw [transpose_apply, mul_apply, mul_apply]
  by_cases hk : k = Axis.one
  · rw [hk, hr j hj, mul_zero, mul_zero]
  · refine congrArg (· * r j k) (congrArg sumAxes (funext fun l => ?_))
    by_cases hl : l = Axis.one
    · rw [hl, hr i hi, zero_mul, zero_mul]
    · rw [hab l k hl hk]

/-- No moment but the homogeneous one. -/
def homogeneous (c : ℝ) : PhaseMatrix ℝ :=
  ofFn fun i j => if i = Axis.one ∧ j = Axis.one then c else 0

theorem homogeneous_apply (c : ℝ) (i j : Axis) :
    homogeneous c i j = if i = Axis.one ∧ j = Axis.one then c else 0 := ofFn_apply _ i j

/-- A map that shifts a coordinate makes a second moment of it from the homogeneous one. -/
theorem congruence_homogeneous (r : PhaseMatrix ℝ) (c : ℝ) (i : Axis) :
    (r * homogeneous c * r.transpose) i i = r i Axis.one * r i Axis.one * c := by
  simp only [mul_apply, transpose_apply, homogeneous_apply, sumAxes]
  simp [Axis.one]
  ring

end PhaseMatrix

/-- A generic element whose matrix shifts a coordinate. -/
def Element.IsShift (e : Element ℝ) : Prop := ∃ r, e.action = .generic r ∧ ¬ r.KeepsAxis

variable {frequency : ℝ} {st st' : State ℝ} {e : Element ℝ}

/-- Whatever does not seed the beam maps its second moments by one matrix. -/
theorem Element.sigma_advance (he : e.type ≠ .source) (frequency : ℝ) (st : State ℝ) :
    (e.advance frequency st).sigma = e.transferMap st.reference frequency * st.sigma *
      (e.transferMap st.reference frequency).transpose := by
  have hacts := e.acts frequency st
  rw [Element.advance]
  generalize e.act frequency st = next at hacts
  cases hacts with
  | seed s haction => exact absurd (congrArg Action.type haction) he
  | transport r haction =>
    rw [transferMap, haction]
    rfl
  | coast => rfl
  | accelerate c kin haction hkin =>
    rw [transferMap, haction]
    simp only [hkin]
    rfl

/-- Every element but a shift computes the physical block from the physical block. -/
theorem State.AgreePhysically.advance (h : st.AgreePhysically st') (he : ¬ e.IsShift) :
    (e.advance frequency st).AgreePhysically (e.advance frequency st') := by
  refine ⟨h.toAgreeBesidesSigma.advance e, fun i j hi hj => ?_⟩
  have hmapped (hsource : e.type ≠ .source)
      (hkeeps : (e.transferMap st.reference frequency).KeepsAxis) :
      (e.advance frequency st).sigma i j = (e.advance frequency st').sigma i j := by
    rw [e.sigma_advance hsource, e.sigma_advance hsource, ← h.reference]
    exact hkeeps.congruence_apply h.sigma hi hj
  cases haction : e.action with
  | source s =>
    rw [e.sigma_advance_source haction, e.sigma_advance_source haction]
    cases s.sigma with
    | none => exact h.sigma i j hi hj
    | some sigma => rfl
  | generic r =>
    refine hmapped (by simp [Element.type, haction, Action.type]) ?_
    rw [Element.transferMap, haction]
    exact by_contra fun hshift => he ⟨r, haction, hshift⟩
  | marker | drift | bend b | quadrupole s | solenoid s | cavity c =>
    exact hmapped (by simp [Element.type, haction, Action.type])
      (e.keepsAxis_transferMap (by simp [Element.type, haction, Action.type]) _ _)

/-- A shift does not: it makes moments of a coordinate from the homogeneous one. -/
theorem Element.IsShift.exists_not_agreePhysically (he : e.IsShift) (frequency : ℝ) :
    ∃ st st', st.AgreePhysically st' ∧
      ¬ (e.advance frequency st).AgreePhysically (e.advance frequency st') := by
  obtain ⟨r, haction, hshift⟩ := he
  rw [PhaseMatrix.keepsAxis_iff_eq_zero] at hshift
  push Not at hshift
  obtain ⟨i, hi, hentry⟩ := hshift
  have hmap (p : Particle ℝ) : e.transferMap p frequency = r := by rw [transferMap, haction]
  have hsource : e.type ≠ .source := by simp [type, haction, Action.type]
  have hsigma (sigma : PhaseMatrix ℝ) :
      (e.advance frequency { State.start with sigma }).sigma = r * sigma * r.transpose := by
    rw [e.sigma_advance hsource, hmap]
  refine ⟨{ State.start with sigma := .homogeneous 0 }, { State.start with sigma := .homogeneous 1 },
    ⟨⟨rfl, rfl, rfl, rfl⟩, fun i j hi _ => ?_⟩, fun hagree => ?_⟩
  · rw [PhaseMatrix.homogeneous_apply, PhaseMatrix.homogeneous_apply, if_neg fun h => hi h.1,
      if_neg fun h => hi h.1]
  · have hblock := hagree.sigma i i hi hi
    rw [hsigma, hsigma, PhaseMatrix.congruence_homogeneous, PhaseMatrix.congruence_homogeneous,
      mul_zero, mul_one] at hblock
    exact hentry (mul_self_eq_zero.1 hblock.symm)

theorem State.AgreeBesidesSigma.foldl (h : st.AgreeBesidesSigma st') (es : List (Element ℝ)) :
    (es.foldl (fun st e => e.advance frequency st) st).AgreeBesidesSigma
      (es.foldl (fun st e => e.advance frequency st) st') := by
  induction es generalizing st st' with
  | nil => exact h
  | cons e es ih => exact ih (h.advance e)

/-- What a shift has mixed is gone behind an element that sets second moments. -/
theorem State.AgreeBesidesSigma.foldl_agreePhysically {es : List (Element ℝ)}
    (h : st.AgreeBesidesSigma st') (hst : st.AgreePhysically st' ∨ ∃ s ∈ es, s.setsSigma)
    (hes : ∀ front e back, es = front ++ e :: back → e.IsShift → ∃ s ∈ back, s.setsSigma) :
    (es.foldl (fun st e => e.advance frequency st) st).AgreePhysically
      (es.foldl (fun st e => e.advance frequency st) st') := by
  induction es generalizing st st' with
  | nil => exact hst.elim id fun ⟨s, hs, _⟩ => absurd hs List.not_mem_nil
  | cons e es ih =>
    refine ih (h.advance e) ?_ fun front f back hcut => hes (e :: front) f back (by rw [hcut]; rfl)
    cases hsets : e.setsSigma with
    | true => exact .inl (h.advance_of_setsSigma hsets)
    | false =>
      by_cases hshift : e.IsShift
      · exact .inr (hes [] e es rfl hshift)
      · refine hst.imp (fun hst => hst.advance hshift) ?_
        rintro ⟨s, hs, hlater⟩
        rcases List.mem_cons.1 hs with rfl | hs
        · rw [hsets] at hlater
          cases hlater
        · exact ⟨s, hs, hlater⟩

/-- Runs of two beams that differ in the homogeneous row and column of the second moments only: the
first moments, both particles and the position come out the same whatever is passed, and so does the
physical block if behind every shift some source sets second moments anew. Shifts do mix. -/
theorem Machine.propagate_agreePhysically (m : Machine ℝ) (span : Span)
    (h : st.AgreePhysically st') :
    (m.propagate span st).AgreeBesidesSigma (m.propagate span st') ∧
    ((∀ front e back, span.select m.elements = front ++ e :: back → e.IsShift →
      ∃ s ∈ back, s.setsSigma) →
      (m.propagate span st).AgreePhysically (m.propagate span st')) := by
  rw [propagate_eq_foldl, propagate_eq_foldl]
  exact ⟨h.toAgreeBesidesSigma.foldl _, h.toAgreeBesidesSigma.foldl_agreePhysically (.inl h)⟩

/-- A generic element that adds one to `x`. -/
noncomputable def unitShift : Element ℝ :=
  ⟨"shift", 0, 0, [], .generic (PhaseMatrix.identity.set Axis.x Axis.one 1)⟩

/-- A beam at rest with a homogeneous second moment. -/
noncomputable def filledStart : State ℝ :=
  { State.start with sigma := State.start.sigma.set Axis.one Axis.one 1 }

theorem start_agreePhysically : (.start : State ℝ).AgreePhysically filledStart := by
  refine ⟨⟨rfl, rfl, rfl, rfl⟩, fun i j hi _ => ?_⟩
  rw [filledStart, PhaseMatrix.set_apply, if_neg fun h => hi h.1]

theorem isShift_unitShift : unitShift.IsShift := by
  refine ⟨_, rfl, fun hkeeps => ?_⟩
  have hentry := PhaseMatrix.keepsAxis_iff_eq_zero.1 hkeeps Axis.x (by decide)
  rw [PhaseMatrix.set_apply, if_pos ⟨rfl, rfl⟩] at hentry
  exact one_ne_zero hentry

/-- A shift, a source with second moments of its own, and a drift. -/
noncomputable def reseededCell : Machine ℝ where
  name := "cell"
  frequency := 1
  elements := [unitShift,
    ⟨"s", 1, 0, [], .source { sigma := some .identity, charge := 1, restEnergy := 1, kineticEnergy := 1 }⟩,
    ⟨"d", 2, 1, [], .drift⟩]

theorem reseededCell_agreePhysically :
    (.start : State ℝ).AgreePhysically filledStart ∧ unitShift ∈ reseededCell.elements ∧
      (reseededCell.propagate {} .start).AgreePhysically (reseededCell.propagate {} filledStart) := by
  refine ⟨start_agreePhysically, List.mem_cons_self,
    (Machine.propagate_agreePhysically reseededCell {} start_agreePhysically).2 ?_⟩
  intro front e back hcut hshift
  rw [Span.select_all, reseededCell] at hcut
  match front with
  | [] =>
    obtain ⟨-, rfl⟩ := List.cons.inj hcut
    exact ⟨_, List.mem_cons_self, rfl⟩
  | [f] =>
    obtain ⟨-, hcut⟩ := List.cons.inj hcut
    obtain ⟨rfl, -⟩ := List.cons.inj hcut
    obtain ⟨r, haction, -⟩ := hshift
    cases haction
  | [f, g] =>
    obtain ⟨-, hcut⟩ := List.cons.inj hcut
    obtain ⟨-, hcut⟩ := List.cons.inj hcut
    obtain ⟨rfl, -⟩ := List.cons.inj hcut
    obtain ⟨r, haction, -⟩ := hshift
    cases haction
  | f :: g :: k :: front => simp at hcut

noncomputable def shiftCell : Machine ℝ := ⟨"cell", 80.5e6, [unitShift]⟩

/-- Behind it a homogeneous second moment shows in the physical block. -/
theorem shiftCell_not_agreePhysically :
    (.start : State ℝ).AgreePhysically filledStart ∧
      ¬ (shiftCell.propagate {} .start).AgreePhysically (shiftCell.propagate {} filledStart) := by
  refine ⟨start_agreePhysically, fun hagree => ?_⟩
  have hblock := hagree.sigma Axis.x Axis.x (by decide) (by decide)
  have hstep (st : State ℝ) :
      (shiftCell.propagate {} st).sigma = (unitShift.advance 80.5e6 st).sigma := rfl
  have hmap (p : Particle ℝ) :
      unitShift.transferMap p 80.5e6 = PhaseMatrix.identity.set Axis.x Axis.one 1 := rfl
  rw [hstep, hstep, unitShift.sigma_advance (by decide), unitShift.sigma_advance (by decide), hmap,
    hmap] at hblock
  simp only [PhaseMatrix.mul_apply, PhaseMatrix.sumAxes, PhaseMatrix.transpose_apply,
    PhaseMatrix.set_apply, PhaseMatrix.identity_apply, filledStart, State.start] at hblock
  simp [Axis.x, Axis.one] at hblock

end BeamEnvelope
