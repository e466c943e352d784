import BeamEnvelope.Proofs.Machine.Propagation

/-!
# What every reached beam satisfies

The real and the reference particle are moved on by different rules, but wherever a beam has been
carried to, both have the energies and velocities that belong together, and the same ones. Only the
`betaGamma` of the reference may be another than its velocity says: behind a cavity it is the mean
over the gap, until a source starts the tracks anew.
-/

namespace BeamEnvelope

variable {K : Type} [Scalar K]

namespace Particle

/-- Total energy and velocity are those that follow from the other energies. -/
structure IsConsistent (p : Particle K) : Prop where
  totalEnergy : p.totalEnergy = p.restEnergy + p.kineticEnergy
  velocity : (p.gamma, p.beta) = Particle.velocity p.restEnergy p.kineticEnergy

/-- Two particles of one kind at one velocity. -/
structure Agree (p q : Particle K) : Prop where
  charge : p.charge = q.charge
  restEnergy : p.restEnergy = q.restEnergy
  kineticEnergy : p.kineticEnergy = q.kineticEnergy
  totalEnergy : p.totalEnergy = q.totalEnergy
  gamma : p.gamma = q.gamma
  beta : p.beta = q.beta

variable {p q : Particle K}

theorem isConsistent_updateVelocity (p : Particle K) : p.updateVelocity.IsConsistent := ⟨rfl, rfl⟩

theorem isConsistent_seed (charge restEnergy kineticEnergy : K) :
    (seed charge restEnergy kineticEnergy).IsConsistent := ⟨rfl, rfl⟩

theorem IsConsistent.agree (hp : p.IsConsistent) (hq : q.IsConsistent)
    (charge : p.charge = q.charge) (restEnergy : p.restEnergy = q.restEnergy)
    (kineticEnergy : p.kineticEnergy = q.kineticEnergy) : p.Agree q := by
  have hvelocity : (p.gamma, p.beta) = (q.gamma, q.beta) := by
    rw [hp.velocity, hq.velocity, restEnergy, kineticEnergy]
  refine ⟨charge, restEnergy, kineticEnergy, ?_, ?_, ?_⟩
  · rw [hp.totalEnergy, hq.totalEnergy, restEnergy, kineticEnergy]
  · exact congrArg Prod.fst hvelocity
  · exact congrArg Prod.snd hvelocity

/-- A consistent particle has nothing to update. -/
theorem IsConsistent.updateVelocity_eq (hp : p.IsConsistent) : p.updateVelocity = p := by
  obtain ⟨htotal, hvelocity⟩ := hp
  have hgamma := congrArg Prod.fst hvelocity
  have hbeta := congrArg Prod.snd hvelocity
  simp only at hgamma hbeta
  simp only [updateVelocity, ← htotal, ← hgamma, ← hbeta]

theorem IsConsistent.coast_eq (hp : p.IsConsistent) (length frequency : K) :
    p.coast length frequency = { p with
      centroidEnergy := p.kineticEnergy
      phase := p.phase + phaseAdvance length p.beta frequency } := by
  rw [coast, hp.updateVelocity_eq]

end Particle

namespace Passage

def restarts (p : Passage K) : Bool := p.element.type == .source

/-- Whether the passage leads through a cavity that does not act as a drift. -/
def accelerates (frequency : K) (p : Passage K) : Bool :=
  p.element.type == .cavity && (Kinematics.ofReference? p.before.reference frequency).isSome

/-- The mean velocity of the reference in front of and behind a passage, times its mean Lorentz
factor. -/
def meanBetaGamma (p : Passage K) : K :=
  (p.before.reference.beta + p.behind.reference.beta) / 2.0 *
    ((p.before.reference.gamma + p.behind.reference.gamma) / 2.0)

end Passage

/-- The last passage that accelerated the beam since the tracks were started. -/
def lastAcceleration? (frequency : K) (history : List (Passage K)) : Option (Passage K) :=
  (history.reverse.takeWhile fun p => !p.restarts).find? fun p => p.accelerates frequency

theorem lastAcceleration?_append (frequency : K) (history : List (Passage K)) (p : Passage K) :
    lastAcceleration? frequency (history ++ [p]) =
      if p.restarts then none
      else if p.accelerates frequency then some p else lastAcceleration? frequency history := by
  rw [lastAcceleration?, List.reverse_append, List.reverse_singleton, List.singleton_append,
    List.takeWhile_cons]
  cases p.restarts with
  | true => rfl
  | false =>
    cases h : p.accelerates frequency with
    | true => simp [h]
    | false => simp [h, lastAcceleration?]

/-- Phase and energy of the real particle are those of the reference with the offsets of the
centroid. -/
structure State.IsAligned (st : State K) : Prop where
  phase : st.real.phase = st.reference.phase + st.centroid Axis.s
  centroidEnergy : st.real.centroidEnergy = st.real.kineticEnergy + st.centroid Axis.ps * 1e6

/-- What holds of a beam, wherever it has been carried to. The passages that it has made are listed
in `history`. -/
structure Coherent (frequency : K) (history : List (Passage K)) (st : State K) : Prop where
  homogeneous : st.centroid Axis.one = 1.0
  real : st.real.IsConsistent
  real_betaGamma : st.real.betaGamma = st.real.beta * st.real.gamma
  reference : st.reference.IsConsistent
  reference_centroidEnergy : st.reference.centroidEnergy = st.reference.kineticEnergy
  agree : st.real.Agree st.reference
  reference_betaGamma : st.reference.betaGamma =
    match lastAcceleration? frequency history with
    | none => st.reference.beta * st.reference.gamma
    | some p => p.meanBetaGamma
  /-- The last element was passed by particles in motion. -/
  aligned : ∀ p, history.getLast? = some p → p.element.movesBeam → st.IsAligned

/-- The first moments that a seed sets end in 1. -/
def Seed.IsHomogeneous (s : Seed K) : Prop := ∀ v, s.centroid = some v → v Axis.one = 1.0

variable {frequency : K} {history : List (Passage K)} {st next : State K} {e : Element K}
  {p : Passage K}

omit [Scalar K] in
theorem PhaseVector.set_of_ne (v : PhaseVector K) {i j : Axis} (a : K) (h : j ≠ i) :
    v.set i a j = v j :=
  (ofFn_apply _ j).trans (if_neg h)

theorem State.transport_one (st : State K) (r : PhaseMatrix K) :
    (st.transport r).centroid Axis.one = 1.0 :=
  (PhaseVector.ofFn_apply _ _).trans (if_pos rfl)

theorem State.isAligned_alignReal (st : State K) : st.alignReal.IsAligned := ⟨rfl, rfl⟩

theorem Coherent.restart (charge restEnergy kineticEnergy : K)
    (hone : st.centroid Axis.one = 1.0) (hlast : lastAcceleration? frequency history = none)
    (haligned : ∀ p, history.getLast? = some p → p.element.movesBeam = false) :
    Coherent frequency history (st.restart charge restEnergy kineticEnergy) where
  homogeneous := hone
  real := Particle.isConsistent_seed ..
  real_betaGamma := rfl
  reference := Particle.isConsistent_seed ..
  reference_centroidEnergy := rfl
  agree := ⟨rfl, rfl, rfl, rfl, rfl, rfl⟩
  reference_betaGamma := by
    rw [hlast]
    rfl
  aligned p hp hmoves := absurd hmoves (by simp [haligned p hp])

theorem Seed.IsHomogeneous.centroid_one {s : Seed K} (hs : s.IsHomogeneous)
    (hone : st.centroid Axis.one = 1.0) : (st.seed s).centroid Axis.one = 1.0 := by
  change (s.centroid.getD st.centroid) Axis.one = 1.0
  cases hv : s.centroid with
  | none => exact hone
  | some v => exact hs v hv

theorem State.override_one (o : Overrides K) (hone : st.centroid Axis.one = 1.0) :
    (st.override o).centroid Axis.one = 1.0 := by
  have hchosen : ((o.centroid.map fun v => v.set Axis.one 1.0).getD st.centroid) Axis.one = 1.0 := by
    cases o.centroid with
    | none => exact hone
    | some v => exact (PhaseVector.ofFn_apply _ _).trans (if_pos rfl)
  rw [State.override]
  split <;> exact hchosen

/-- A beam that has passed nothing yet may be overridden. -/
theorem Coherent.override (h : Coherent frequency [] st) (o : Overrides K) :
    Coherent frequency [] (st.override o) := by
  have hone := State.override_one o h.homogeneous
  rw [State.override] at hone ⊢
  split
  next hset =>
    rw [if_pos hset] at hone
    exact .restart _ _ _ hone rfl fun p hp => by simp at hp
  next hset =>
    rw [if_neg hset] at hone
    exact ⟨hone, h.real, h.real_betaGamma, h.reference, h.reference_centroidEnergy, h.agree,
      h.reference_betaGamma, fun p hp => by simp at hp⟩

/-- A passage that starts the tracks anew. -/
theorem Coherent.seed (h : Coherent frequency history st) {s : Seed K} (hs : s.IsHomogeneous)
    (hp : p.element.action = .source s) : Coherent frequency (history ++ [p]) (st.seed s) := by
  have hrestarts : p.restarts = true := by
    rw [Passage.restarts, Element.type, hp]
    rfl
  refine .restart _ _ _ (hs.centroid_one h.homogeneous) ?_ fun q hq => ?_
  · rw [lastAcceleration?_append, hrestarts, if_pos rfl]
  · rw [List.getLast?_concat] at hq
    obtain rfl := Option.some.inj hq
    rw [Element.movesBeam, Element.type, hp]
    rfl

/-- A passage that leaves the velocities as they are. -/
theorem Coherent.glide (h : Coherent frequency history st) (hrestarts : p.restarts = false)
    (haccelerates : p.accelerates frequency = false) (hone : next.centroid Axis.one = 1.0)
    (hreal : next.real = { st.real with
      phase := next.real.phase, centroidEnergy := next.real.centroidEnergy })
    (hreference : next.reference = { st.reference with phase := next.reference.phase })
    (haligned : p.element.movesBeam → next.IsAligned) :
    Coherent frequency (history ++ [p]) next := by
  refine ⟨hone, ?_, ?_, ?_, ?_, ?_, ?_, fun q hq => ?_⟩
  · rw [hreal]
    exact ⟨h.real.totalEnergy, h.real.velocity⟩
  · rw [hreal]
    exact h.real_betaGamma
  · rw [hreference]
    exact ⟨h.reference.totalEnergy, h.reference.velocity⟩
  · rw [hreference]
    exact h.reference_centroidEnergy
  · rw [hreal, hreference]
    exact ⟨h.agree.charge, h.agree.restEnergy, h.agree.kineticEnergy, h.agree.totalEnergy,
      h.agree.gamma, h.agree.beta⟩
  · rw [lastAcceleration?_append, hrestarts, haccelerates, hreference]
    exact h.reference_betaGamma
  · rw [List.getLast?_concat] at hq
    obtain rfl := Option.some.inj hq
    exact haligned

theorem Coherent.transport (h : Coherent frequency history st) (hrestarts : p.restarts = false)
    (haccelerates : p.accelerates frequency = false) (hmoves : p.element.movesBeam = false)
    (r : PhaseMatrix K) : Coherent frequency (history ++ [p]) (st.transport r) :=
  h.glide hrestarts haccelerates (st.transport_one r) rfl rfl (by simp [hmoves])

theorem Coherent.coast (h : Coherent frequency history st) (hrestarts : p.restarts = false)
    (haccelerates : p.accelerates frequency = false) (r : PhaseMatrix K) (length : K) :
    Coherent frequency (history ++ [p]) (st.coast r length frequency) := by
  have hupdate : st.real.update = st.real := by
    rw [Particle.update, h.real.updateVelocity_eq, ← h.real_betaGamma]
  have hreal : (st.coast r length frequency).real = { st.real.update with
      phase := (st.coast r length frequency).real.phase
      centroidEnergy := (st.coast r length frequency).real.centroidEnergy } := rfl
  have hreference : (st.coast r length frequency).reference = { st.reference.updateVelocity with
      phase := (st.coast r length frequency).reference.phase
      centroidEnergy := st.reference.updateVelocity.kineticEnergy } := rfl
  rw [hupdate] at hreal
  rw [h.reference.updateVelocity_eq, ← h.reference_centroidEnergy] at hreference
  exact h.glide hrestarts haccelerates (st.transport_one r) hreal hreference
    fun _ => State.isAligned_alignReal _

theorem Cavity.accelerate_one (c : Cavity K) (st : State K) (kin : Kinematics K)
    (length frequency : K) : (c.accelerate st kin length frequency).centroid Axis.one = 1.0 := by
  change (c.centroid st _ (st.transport _).centroid length frequency) Axis.one = 1.0
  rw [Cavity.centroid]
  split
  · exact (PhaseVector.set_of_ne _ _ (by decide)).trans
      ((PhaseVector.set_of_ne _ _ (by decide)).trans (st.transport_one _))
  · exact st.transport_one _

/-- A passage through a cavity: both tracks gain what the reference gains. -/
theorem Coherent.accelerate (h : Coherent frequency history st) {c : Cavity K}
    {kin : Kinematics K} (he : e.action = .cavity c)
    (hkin : Kinematics.ofReference? st.reference frequency = some kin) :
    Coherent frequency (history ++ [⟨e, st, e.advance frequency st⟩])
      (c.accelerate st kin e.length frequency) := by
  have hact : e.advance frequency st = { c.accelerate st kin e.length frequency with
      position := (c.accelerate st kin e.length frequency).position + e.length } := by
    rw [Element.advance, Element.act, he]
    simp only [hkin]
  have hlast : lastAcceleration? frequency (history ++ [⟨e, st, e.advance frequency st⟩]) =
      some ⟨e, st, e.advance frequency st⟩ := by
    have hrestarts : Passage.restarts ⟨e, st, e.advance frequency st⟩ = false := by
      rw [Passage.restarts, Element.type, he]
      rfl
    have haccelerates : Passage.accelerates frequency ⟨e, st, e.advance frequency st⟩ = true := by
      rw [Passage.accelerates, Element.type, he, hkin]
      rfl
    rw [lastAcceleration?_append, hrestarts, haccelerates]
    rfl
  have hreal := Particle.isConsistent_updateVelocity
    { st.real with kineticEnergy :=
        st.real.kineticEnergy + (c.crossing st.reference e.length frequency).gain }
  have hreference := Particle.isConsistent_updateVelocity
    { st.reference with kineticEnergy := (c.crossing st.reference e.length frequency).exitEnergy }
  -- both particles gain the same energy, so equal energies in front give equal ones behind
  have hgain : st.real.kineticEnergy + (c.crossing st.reference e.length frequency).gain =
      (c.crossing st.reference e.length frequency).exitEnergy := by
    rw [h.agree.kineticEnergy]
    rfl
  have hagree := hreal.agree hreference h.agree.charge h.agree.restEnergy hgain
  refine ⟨c.accelerate_one st kin e.length frequency, ⟨hreal.1, hreal.2⟩, rfl,
    ⟨hreference.1, hreference.2⟩, rfl, ⟨hagree.1, hagree.2, hagree.3, hagree.4, hagree.5, hagree.6⟩,
    ?_, fun _ _ _ => State.isAligned_alignReal _⟩
  rw [hlast, hact]
  rfl

/-- One element keeps a beam coherent, whatever it is. -/
theorem Coherent.advance (h : Coherent frequency history st)
    (he : ∀ s, e.seed? = some s → s.IsHomogeneous) :
    Coherent frequency (history ++ [⟨e, st, e.advance frequency st⟩]) (e.advance frequency st) := by
  suffices hact : Coherent frequency (history ++ [⟨e, st, e.advance frequency st⟩])
      (e.act frequency st) from
    ⟨hact.1, hact.2, hact.3, hact.4, hact.5, hact.6, hact.7, fun p hp hmoves =>
      ⟨(hact.aligned p hp hmoves).1, (hact.aligned p hp hmoves).2⟩⟩
  have htype : e.type = e.action.type := rfl
  have hrestarts (hne : e.action.type ≠ .source) :
      Passage.restarts ⟨e, st, e.advance frequency st⟩ = false := by
    simpa [Passage.restarts, htype] using hne
  have haccelerates (hne : e.action.type ≠ .cavity) :
      Passage.accelerates frequency ⟨e, st, e.advance frequency st⟩ = false := by
    simp [Passage.accelerates, htype, hne]
  rw [Element.act]
  cases haction : e.action with
  | source s => exact h.seed (he s (by rw [Element.seed?, haction])) haction
  | generic r =>
    have hmoves : e.movesBeam = false := by
      rw [Element.movesBeam, htype, haction]
      rfl
    exact h.transport (hrestarts (by simp [haction, Action.type]))
      (haccelerates (by simp [haction, Action.type])) hmoves r
  | cavity c =>
    cases hkin : Kinematics.ofReference? st.reference frequency with
    | some kin => exact h.accelerate haction hkin
    | none =>
      -- without kinematics a cavity is one more drift
      refine h.coast (hrestarts (by simp [haction, Action.type])) ?_ _ _
      simp [Passage.accelerates, hkin]
  | marker | drift | bend b | quadrupole s | solenoid s =>
    exact h.coast (hrestarts (by simp [haction, Action.type]))
      (haccelerates (by simp [haction, Action.type])) _ _

def stateBehind (start : State K) (history : List (Passage K)) : State K :=
  (history.getLast?.map Passage.behind).getD start

omit [Scalar K] in
theorem stateBehind_cons (start : State K) (p : Passage K) (history : List (Passage K)) :
    stateBehind start (p :: history) = stateBehind p.behind history := by
  cases history with
  | nil => rfl
  | cons q history => rw [stateBehind, stateBehind, List.getLast?_cons_cons]; rfl

theorem stateBehind_passages (start : State K) (es : List (Element K)) :
    stateBehind start (passages frequency start es) =
      es.foldl (fun st e => e.advance frequency st) start := by
  induction es generalizing start with
  | nil => rfl
  | cons e es ih => rw [passages, stateBehind_cons, ih, List.foldl_cons]

/-- A row of elements keeps a beam coherent behind each of them. -/
theorem Coherent.passages (h : Coherent frequency history st) {es : List (Element K)}
    (hes : ∀ e ∈ es, ∀ s, e.seed? = some s → s.IsHomogeneous) {front behind : List (Passage K)}
    (hcut : BeamEnvelope.passages frequency st es = front ++ behind) :
    Coherent frequency (history ++ front) (stateBehind st front) := by
  induction es generalizing st history front with
  | nil =>
    obtain ⟨rfl, -⟩ := List.append_eq_nil_iff.1 hcut.symm
    rw [List.append_nil]
    exact h
  | cons e es ih =>
    obtain ⟨he, hes⟩ := List.forall_mem_cons.1 hes
    cases front with
    | nil =>
      rw [List.append_nil]
      exact h
    | cons p front =>
      rw [BeamEnvelope.passages, List.cons_append, List.cons.injEq] at hcut
      obtain ⟨rfl, hcut⟩ := hcut
      have hrest := ih (h.advance he) hes hcut
      rw [List.append_assoc, List.singleton_append] at hrest
      rw [stateBehind_cons]
      exact hrest

namespace Machine

variable (m : Machine K)

/-- The passages of a beam that is carried through one span after another. -/
def journey : State K → List Span → List (Passage K)
  | _, [] => []
  | st, span :: spans => m.passages span st ++ journey (m.propagate span st) spans

theorem journey_eq_passages (st : State K) (spans : List Span) :
    m.journey st spans =
      BeamEnvelope.passages m.frequency st (spans.flatMap fun span => span.select m.elements) := by
  induction spans generalizing st with
  | nil => rfl
  | cons span spans ih =>
    rw [journey, ih, List.flatMap_cons, passages_append, propagate_eq_foldl]
    rfl

/-- The last passage ends in the state that the propagations end in. -/
theorem stateBehind_journey (st : State K) (spans : List Span) :
    stateBehind st (m.journey st spans) = spans.foldl (fun st span => m.propagate span st) st := by
  rw [journey_eq_passages, stateBehind_passages, List.foldl_flatMap]
  simp only [propagate_eq_foldl]

variable {m}

omit [Scalar K] in
theorem mem_elements_of_mem_select {span : Span} {e : Element K}
    (h : e ∈ span.select m.elements) : e ∈ m.elements :=
  List.mem_of_mem_take (List.mem_of_mem_drop h)

end Machine

/-- A beam without energy is coherent, since nothing is added to zeros. -/
theorem Coherent.start (frequency : K) (htotal : (0.0 : K) + 0.0 = 0.0)
    (hvelocity : Particle.velocity (0.0 : K) 0.0 = (1.0, 0.0)) (hproduct : (0.0 : K) * 1.0 = 0.0) :
    Coherent frequency [] (.start : State K) := by
  have hrest : (.rest : Particle K).IsConsistent := ⟨htotal.symm, hvelocity.symm⟩
  exact ⟨(PhaseVector.ofFn_apply _ _).trans (if_pos rfl), hrest, hproduct.symm, hrest, rfl,
    ⟨rfl, rfl, rfl, rfl, rfl, rfl⟩, hproduct.symm, fun p hp => by simp at hp⟩

/-- A fresh beam is coherent if one without a source is. -/
theorem Coherent.freshState {m : Machine K} (hstart : Coherent m.frequency [] (.start : State K))
    (hm : ∀ e ∈ m.elements, ∀ s, e.seed? = some s → s.IsHomogeneous) (o : Overrides K) :
    Coherent m.frequency [] (m.freshState o) := by
  refine .override ?_ o
  cases hseed : m.elements.findSome? Element.seed? with
  | none => exact hstart
  | some s =>
    obtain ⟨e, he, hs⟩ := List.exists_of_findSome?_eq_some hseed
    exact .restart _ _ _ ((hm e he s hs).centroid_one hstart.homogeneous) rfl
      fun p hp => by simp at hp

omit [Scalar K] in
theorem one_of_ofMoments? {one : K} {xs : List K} {v : PhaseVector K}
    (h : PhaseVector.ofMoments? one xs = some v) : v Axis.one = one := by
  unfold PhaseVector.ofMoments? at h
  split at h
  · obtain rfl := Option.some.inj h
    exact (PhaseVector.ofFn_apply _ _).trans (dif_neg (by decide))
  · cases h

theorem Component.exists_of_demand {α : Type} {key : String} {shape : Shape}
    {read : Value → Option α} {value? : Option Value} {a : α}
    (h : demand key shape read value? = .ok (some a)) :
    ∃ value, value? = some value ∧ read value = some a := by
  cases value? with
  | none => cases h
  | some value =>
    rw [demand] at h
    split at h
    · rename_i b hb
      cases h
      exact ⟨value, rfl, hb⟩
    · cases h

/-- The moments of a seed are what its component's parameters are read as. -/
theorem Component.moments_of_seed {globals : Dictionary Value} {c : Component} {s : Seed Float}
    (h : c.seed globals = .ok s) :
    c.moments? globals "moment0" = .ok s.centroid ∧ c.matrix? globals "initial" = .ok s.sigma := by
  obtain ⟨centroid, hcentroid, h⟩ := bind_eq_ok.1 h
  obtain ⟨sigma, hsigma, h⟩ := bind_eq_ok.1 h
  obtain ⟨charge, -, h⟩ := bind_eq_ok.1 h
  obtain ⟨restEnergy, -, h⟩ := bind_eq_ok.1 h
  obtain ⟨kineticEnergy, -, h⟩ := bind_eq_ok.1 h
  cases h
  exact ⟨hcentroid, hsigma⟩

theorem Component.isHomogeneous_of_seed {globals : Dictionary Value} {c : Component}
    {s : Seed Float} (h : c.seed globals = .ok s) : s.IsHomogeneous := by
  intro v hv
  have hcentroid := (moments_of_seed h).1
  rw [hv] at hcentroid
  obtain ⟨value, -, hread⟩ := exists_of_demand hcentroid
  obtain ⟨xs, -, hxs⟩ := Option.bind_eq_some_iff.1 hread
  exact one_of_ofMoments? hxs

theorem Component.type_of_action {globals : Dictionary Value} {c : Component} {length : Float}
    {type : ElementType} {a : Action Float} (h : c.action globals length type = .ok a) :
    a.type = type := by
  cases type with
  | marker =>
    rw [action] at h
    split at h <;> cases h
    rfl
  | drift =>
    cases h
    rfl
  | bend | quadrupole | solenoid | cavity | source | generic =>
    obtain ⟨x, -, rfl⟩ := map_eq_ok.1 h
    rfl

/-- Only a source seeds a beam. -/
theorem Component.seed_of_action {globals : Dictionary Value} {c : Component} {length : Float}
    {type : ElementType} {s : Seed Float} (h : c.action globals length type = .ok (.source s)) :
    c.seed globals = .ok s := by
  obtain rfl := type_of_action h
  obtain ⟨t, ht, hsource⟩ := map_eq_ok.1 h
  cases hsource
  exact ht

theorem Component.isHomogeneous_of_element {globals : Dictionary Value} {c : Component}
    {index : Nat} {e : Element Float} (h : c.element globals index = .ok e) :
    ∀ s, e.seed? = some s → s.IsHomogeneous := by
  rw [Component.element] at h
  split at h
  · obtain ⟨length, -, h⟩ := bind_eq_ok.1 h
    obtain ⟨action, haction, h⟩ := bind_eq_ok.1 h
    obtain ⟨aperture, -, h⟩ := bind_eq_ok.1 h
    cases h
    intro s hs
    cases action with
    | source t =>
      obtain rfl := Option.some.inj hs
      exact isHomogeneous_of_seed (seed_of_action haction)
    | _ => cases hs
  · cases h

namespace Machine

theorem exists_component_of_mem {globals : Dictionary Value} {n : Nat} {cs : List Component}
    {es : List (Element Float)} (h : elementsFrom globals n cs = .ok es) :
    ∀ e ∈ es, ∃ c ∈ cs, ∃ index, c.element globals index = .ok e := by
  induction cs generalizing n es with
  | nil =>
    cases h
    exact fun e he => absurd he List.not_mem_nil
  | cons c cs ih =>
    obtain ⟨e, rest, he, hrest, rfl⟩ := elementsFrom_cons_eq_ok h
    refine List.forall_mem_cons.2 ⟨⟨c, List.mem_cons_self, n, he⟩, fun f hf => ?_⟩
    obtain ⟨d, hd, found⟩ := ih hrest f hf
    exact ⟨d, List.mem_cons_of_mem _ hd, found⟩

theorem isHomogeneous_of_ofLattice {lattice : Lattice} {m : Machine Float}
    (h : ofLattice lattice = .ok m) : ∀ e ∈ m.elements, ∀ s, e.seed? = some s → s.IsHomogeneous := by
  obtain ⟨-, -, h⟩ := bind_eq_ok.1 h
  obtain ⟨es, hes, h⟩ := bind_eq_ok.1 h
  cases h
  intro e he
  obtain ⟨c, -, index, hc⟩ := exists_component_of_mem hes e he
  exact Component.isHomogeneous_of_element hc

theorem zero_add_zero : (0.0 : Float) + 0.0 = 0.0 := by decide +kernel

theorem zero_mul_one : (0.0 : Float) * 1.0 = 0.0 := by decide +kernel

theorem velocity_zero : Particle.velocity (0.0 : Float) 0.0 = (1.0, 0.0) := by decide +kernel

theorem coherent_start (frequency : Float) : Coherent frequency [] (.start : State Float) :=
  .start frequency zero_add_zero velocity_zero zero_mul_one

/-- A fresh beam is coherent, whether a source seeds it or not. -/
theorem coherent_freshState {m : Machine Float}
    (hm : ∀ e ∈ m.elements, ∀ s, e.seed? = some s → s.IsHomogeneous) (o : Overrides Float) :
    Coherent m.frequency [] (m.freshState o) :=
  (coherent_start m.frequency).freshState hm o

/-- Propagation after propagation, a fresh beam of a built machine stays coherent: behind each
element on the way, and so at the end. -/
theorem ofLattice_coherent {lattice : Lattice} {m : Machine Float} (h : ofLattice lattice = .ok m)
    (o : Overrides Float) (spans : List Span) :
    (∀ front behind, m.journey (m.freshState o) spans = front ++ behind →
      Coherent m.frequency front (stateBehind (m.freshState o) front)) ∧
    stateBehind (m.freshState o) (m.journey (m.freshState o) spans) =
      spans.foldl (fun st span => m.propagate span st) (m.freshState o) := by
  refine ⟨fun front behind hcut => ?_, m.stateBehind_journey _ _⟩
  have hseeds := isHomogeneous_of_ofLattice h
  rw [journey_eq_passages] at hcut
  refine (coherent_freshState hseeds o).passages (fun e he => ?_) hcut
  obtain ⟨span, -, hselected⟩ := List.mem_flatMap.1 he
  exact hseeds e (mem_elements_of_mem_select hselected)

/-- A source, a drift and a cavity with a marker behind it. -/
def cavityCell : Lattice where
  name := "cell"
  globals := .ofList [("sim_type", .text simulationType), ("IonEs", .scalar 931494000.0)]
  components := [
    ⟨"s", "source", .ofList [("IonZ", .scalar 0.5), ("IonEk", .scalar 500000.0),
      ("moment0", .vector [0.5, 0.0, 0.0, 0.0, 0.25, 0.0])]⟩,
    ⟨"d", "drift", .ofList [("L", .scalar 0.25)]⟩,
    ⟨"gap", "rfcavity", .ofList [("L", .scalar 0.5), ("f", .scalar 80.5e6)]⟩,
    ⟨"end", "marker", ∅⟩]

theorem cavityCell_coherent :
    ∃ m, ofLattice cavityCell = .ok m ∧
      let fresh := m.freshState { kineticEnergy := some 600000.0 }
      let spans : List Span := [⟨.unbounded, .excluded 1⟩, .between 1 4]
      (m.journey fresh spans).length = 4 ∧
      (lastAcceleration? m.frequency (m.journey fresh spans)).isSome ∧
      Coherent m.frequency (m.journey fresh spans)
        (spans.foldl (fun st span => m.propagate span st) fresh) := by
  have h : ofLattice cavityCell = .ok _ := rfl
  refine ⟨_, h, ?_, ?_, ?_⟩
  · rfl
  · decide +kernel
  · obtain ⟨hcoherent, hend⟩ := ofLattice_coherent h { kineticEnergy := some 600000.0 }
      [⟨.unbounded, .excluded 1⟩, .between 1 4]
    rw [← hend]
    exact hcoherent _ [] (List.append_nil _).symm

end Machine

end BeamEnvelope
