import BeamEnvelope.Machine.Simulation
import BeamEnvelope.Proofs.Machine.Propagation

/-!
# What a simulation tells and what it returns

The events of a simulation, the trace and the state in the end come from different places: the
range is put together from the request and the machine, the propagation confines it once more, and
the indices that are told stand in the elements. They agree for every source and every request,
since a built machine is numbered and a range that is not within it is refused.
-/

namespace BeamEnvelope

namespace Span

variable {α : Type}

theorem select_between_self (a : Nat) (xs : List α) : (between a a).select xs = [] := by
  rw [select_between, List.drop_eq_nil_iff, List.length_take]
  exact Nat.min_le_left _ _

/-- A stretch of a list that is numbered has its numbers in order. -/
theorem map_select_between (index : α → Nat) {xs : List α}
    (hindex : xs.map index = List.range xs.length) {a b : Nat} (hb : b ≤ xs.length) :
    ((between a b).select xs).map index = List.range' a (b - a) := by
  rw [select_between, List.map_drop, List.map_take, hindex, List.take_range, Nat.min_eq_left hb,
    List.range_eq_range', List.drop_range', Nat.zero_add, Nat.mul_one]

end Span

namespace Machine

section Stretch

variable {K : Type} [Scalar K] {m : Machine K}

theorem propagate_between_self (a : Nat) (st : State K) : m.propagate (.between a a) st = st := by
  rw [propagate_eq_foldl, Span.select_between_self]
  rfl

theorem propagate_between_succ {a i : Nat} (ha : a ≤ i) (hi : i < m.elements.length)
    (st : State K) : m.propagate (.between a (i + 1)) st =
      m.elements[i].advance m.frequency (m.propagate (.between a i) st) := by
  have hone : (Span.between i (i + 1)).select m.elements = [m.elements[i]] := by
    rw [Span.select_between, List.drop_take, Nat.add_sub_cancel_left,
      List.drop_eq_getElem_cons hi, List.take_succ_cons, List.take_zero]
  rw [m.propagate_between_append ha (Nat.le_succ i), m.propagate_eq_foldl (.between i (i + 1)), hone]
  rfl

/-- The trace of a stretch of a numbered machine, by the indices alone. -/
theorem IsNumbered.trace_eq_map_range' (hm : m.IsNumbered) {a b : Nat}
    (hb : b ≤ m.elements.length) (st : State K) : m.trace (.between a b) st =
      (List.range' a (b - a)).map fun i => (i, m.propagate (.between a (i + 1)) st) := by
  rw [hm.trace_between, ← Span.map_select_between Element.index hm hb, List.map_map]
  rfl

end Stretch

def ofSource (source : List UInt8) : Except Refusal (Machine Float) :=
  match Glps.read source with
  | .error fault => .error (.unread fault)
  | .ok lattice => ofLattice lattice

def sourceWarnings (source : List UInt8) : List Warning :=
  match Glps.read source with
  | .error _ => []
  | .ok lattice => buildWarnings lattice

theorem isNumbered_of_ofSource {source : List UInt8} {m : Machine Float}
    (h : ofSource source = .ok m) : m.IsNumbered := by
  rw [ofSource] at h
  split at h
  · cases h
  · exact isNumbered_of_ofLattice h

end Machine

namespace Simulation

/-- Behind the first source there is the default start of a simulation with overrides. -/
theorem defaultStart_eq_findIdx? {m : Machine Float} (hm : m.IsNumbered)
    (overrides : Overrides Float) : defaultStart m overrides =
      if overrides.isEmpty then 0
      else (m.elements.findIdx? fun e => e.type == .source).elim 0 (· + 1) := by
  rw [defaultStart, Machine.ofType]
  cases overrides.isEmpty with
  | true => rfl
  | false =>
    simp only [Bool.false_eq_true, if_false, List.head?_filter]
    cases hfound : m.elements.findIdx? fun e => e.type == .source with
    | none =>
      rw [List.find?_eq_none.2 fun e he => by simp [List.findIdx?_eq_none_iff.1 hfound e he]]
      rfl
    | some i =>
      obtain ⟨hi, hsource, hbefore⟩ := List.findIdx?_eq_some_iff_getElem.1 hfound
      have hfirst : m.elements.find? (fun e => e.type == .source) = some m.elements[i] :=
        List.find?_eq_some_iff_getElem.2 ⟨hsource, i, hi, rfl, fun j hj => by simp [hbefore j hj]⟩
      simp [hfirst, hm.index_getElem hi]

end Simulation

namespace Request

variable (request : Request) (m : Machine Float)

/-- The index of the first element, chosen or by default. -/
def start : Nat := request.start?.getD (Simulation.defaultStart m request.overrides)

/-- The index behind the last element, chosen or by default. -/
def stop : Nat := request.stop?.getD m.elements.length

/-- Whether the requested elements are a stretch of the machine. -/
def Fits : Prop := request.start m ≤ request.stop m ∧ request.stop m ≤ m.elements.length

instance : Decidable (request.Fits m) := inferInstanceAs (Decidable (_ ∧ _))

def outcome : Outcome where
  start := request.start m
  stop := request.stop m
  state := m.propagate (.between (request.start m) (request.stop m))
    (m.freshState request.overrides)
  trace :=
    if request.trace then
      m.trace (.between (request.start m) (request.stop m)) (m.freshState request.overrides)
    else []

/-- What is said of elements that are skipped without having been told to. -/
def announcement : List Event :=
  if request.start? = none ∧ 0 < Simulation.defaultStart m request.overrides then
    [.message ("Starting at element " ++ toString (Simulation.defaultStart m request.overrides) ++
      " so that overrides are not reseeded by the source.")]
  else []

end Request

/-- What is told of a run through consecutive elements. -/
def Event.progress (start stop : Nat) : List Event :=
  .propagationStart (stop - start) ::
    (List.range' start (stop - start)).map .elementAdvanced ++ [.propagationFinish]

/-- What a simulation returns that carries out a request. -/
structure Outcome.CarriesOut (outcome : Outcome) (m : Machine Float) (request : Request) : Prop where
  start : outcome.start = request.start m
  stop : outcome.stop = request.stop m
  state : outcome.state =
    m.propagate (.between outcome.start outcome.stop) (m.freshState request.overrides)
  /-- No element, no change. -/
  still : outcome.start = outcome.stop → outcome.state = m.freshState request.overrides
  indices : outcome.trace.map Prod.fst =
    if request.trace then List.range' outcome.start (outcome.stop - outcome.start) else []
  /-- An entry holds what its element makes of the state in front of it. -/
  entries : ∀ entry ∈ outcome.trace, ∃ e, m.elements[entry.1]? = some e ∧ entry.2 =
    e.advance m.frequency
      (m.propagate (.between outcome.start entry.1) (m.freshState request.overrides))
  ending : ∀ entry, outcome.trace.getLast? = some entry → entry.2 = outcome.state

/-- What is told and returned of a request to a machine that has been built. -/
structure Simulation.Account.Reports (account : Account (Except Refusal (Machine Float × Outcome)))
    (m : Machine Float) (built : List Warning) (request : Request) : Prop where
  events : account.events = .phaseStart "Building machine" :: .phaseFinish ::
    (request.announcement m ++
      if request.Fits m then Event.progress (request.start m) (request.stop m) else [])
  refused : ∀ cause, account.result = .error cause ↔
    ¬request.Fits m ∧ cause = .range (request.start m) (request.stop m) m.elements.length
  returned : ∀ n outcome, account.result = .ok (n, outcome) →
    n = m ∧ outcome.CarriesOut m request
  /-- Without a stretch of the machine nothing is propagated. -/
  warnings : account.warnings = built ++
    if request.Fits m then
      m.warnings (.between (request.start m) (request.stop m)) (m.freshState request.overrides)
    else []

namespace Simulation

variable {m : Machine Float} (request : Request)

theorem chooseStart_eq (m : Machine Float) :
    chooseStart m request = (request.start m, request.announcement m) := by
  rw [chooseStart, Request.start, Request.announcement]
  cases request.start? with
  | some start => simp
  | none => cases h : defaultStart m request.overrides <;> simp

theorem simulate_of_not_fits (h : ¬request.Fits m) : simulate m request =
    ⟨.error (.range (request.start m) (request.stop m) m.elements.length),
      request.announcement m, []⟩ := by
  have hout : request.stop m < request.start m ∨ m.elements.length < request.stop m := by
    rw [Request.Fits] at h
    omega
  rw [simulate, chooseStart_eq]
  exact if_pos (by simpa [Request.stop] using hout)

theorem simulate_of_fits (h : request.Fits m) : simulate m request =
    ⟨.ok (request.outcome m),
      request.announcement m ++ .propagationStart (request.stop m - request.start m) ::
        (m.trace (.between (request.start m) (request.stop m))
          (m.freshState request.overrides)).map (fun entry => .elementAdvanced entry.1) ++
        [.propagationFinish],
      m.warnings (.between (request.start m) (request.stop m))
        (m.freshState request.overrides)⟩ := by
  have hin : ¬(request.stop m < request.start m ∨ m.elements.length < request.stop m) := by
    rw [Request.Fits] at h
    omega
  rw [simulate, chooseStart_eq]
  exact if_neg (by simpa [Request.stop] using hin)

theorem outcome_trace (hm : m.IsNumbered) (h : request.Fits m) : (request.outcome m).trace =
    if request.trace then
      (List.range' (request.start m) (request.stop m - request.start m)).map fun i =>
        (i, m.propagate (.between (request.start m) (i + 1)) (m.freshState request.overrides))
    else [] := by
  rw [Request.outcome, hm.trace_eq_map_range' h.2]

theorem outcome_carriesOut (hm : m.IsNumbered) (h : request.Fits m) :
    (request.outcome m).CarriesOut m request := by
  have htrace := outcome_trace request hm h
  obtain ⟨hle, hcount⟩ := h
  refine { start := rfl, stop := rfl, state := rfl, still := ?_, indices := ?_, entries := ?_,
           ending := ?_ }
  · intro heq
    have hstop : request.start m = request.stop m := heq
    rw [Request.outcome, ← hstop]
    exact Machine.propagate_between_self _ _
  · rw [htrace]
    cases request.trace <;> simp [Request.outcome, Function.comp_def]
  · intro entry hentry
    cases hkept : request.trace with
    | false => simp [htrace, hkept] at hentry
    | true =>
      simp only [htrace, hkept, if_true, List.mem_map, List.mem_range'_1] at hentry
      obtain ⟨i, ⟨hfirst, hlast⟩, rfl⟩ := hentry
      have hi : i < m.elements.length := by omega
      exact ⟨m.elements[i], List.getElem?_eq_getElem hi,
        Machine.propagate_between_succ hfirst hi _⟩
  · intro entry hentry
    cases hkept : request.trace with
    | false => simp [htrace, hkept] at hentry
    | true =>
      simp only [htrace, hkept, if_true, List.getLast?_map, List.getLast?_range',
        Option.map_eq_some_iff] at hentry
      obtain ⟨i, hi, rfl⟩ := hentry
      have hstop : i + 1 = request.stop m := by
        split at hi <;> cases hi
        omega
      rw [hstop]
      rfl

/-- A built machine reports as its requests ask. -/
theorem reports (hm : m.IsNumbered) (built : List Warning) :
    Account.Reports
      { result := (simulate m request).result.map fun outcome => (m, outcome)
        events := .phaseStart "Building machine" :: .phaseFinish :: (simulate m request).events
        warnings := built ++ (simulate m request).warnings } m built request := by
  by_cases h : request.Fits m
  · rw [simulate_of_fits request h]
    have hindices : (m.trace (.between (request.start m) (request.stop m))
        (m.freshState request.overrides)).map (fun entry => Event.elementAdvanced entry.1) =
        (List.range' (request.start m) (request.stop m - request.start m)).map
          .elementAdvanced := by
      rw [hm.trace_eq_map_range' h.2, List.map_map]
      rfl
    refine { events := ?_, refused := ?_, returned := ?_, warnings := ?_ }
    · simp only [hindices, if_pos h, Event.progress, List.append_assoc, List.cons_append]
    · simp [Except.map, h]
    · intro n outcome hreturned
      cases hreturned
      exact ⟨rfl, outcome_carriesOut request hm h⟩
    · rw [if_pos h]
  · rw [simulate_of_not_fits request h]
    refine { events := ?_, refused := ?_, returned := ?_, warnings := ?_ }
    · simp only [if_neg h, List.append_nil]
    · simp [Except.map, h, eq_comm]
    · intro n outcome hreturned
      cases hreturned
    · rw [if_neg h]

/-- Every simulation of a source tells what comes of it: that the machine cannot be built, or else
what the request asks of the machine. -/
theorem run_reports (source : List UInt8) :
    match Machine.ofSource source with
    | .error cause => run source request =
        ⟨.error (.machine cause), [.phaseStart "Building machine"], Machine.sourceWarnings source⟩
    | .ok m => (run source request).Reports m (Machine.sourceWarnings source) request := by
  cases hm : Machine.ofSource source with
  | error cause =>
    rw [Machine.ofSource] at hm
    rw [run, Machine.sourceWarnings]
    cases hread : Glps.read source with
    | error fault =>
      rw [hread] at hm
      cases hm
      rfl
    | ok lattice =>
      rw [hread] at hm
      simp only at hm
      simp only [hm]
  | ok m =>
    have hnumbered := Machine.isNumbered_of_ofSource hm
    have hreports := reports request hnumbered (Machine.sourceWarnings source)
    rw [Machine.ofSource] at hm
    cases hread : Glps.read source with
    | error fault =>
      rw [hread] at hm
      cases hm
    | ok lattice =>
      rw [hread] at hm
      simp only at hm
      simpa only [run, hread, hm, Machine.sourceWarnings] using hreports

end Simulation

end BeamEnvelope
