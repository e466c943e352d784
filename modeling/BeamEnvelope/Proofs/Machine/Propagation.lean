import BeamEnvelope.Machine.Propagation
import BeamEnvelope.Proofs.Result
import Mathlib.Data.Nat.Init

/-!
# Spans are obeyed and propagation can be resumed

A span confined to a machine stays inside it and covers exactly the elements whose index it contains,
although the index behind a bound is capped at the largest machine integer. Spans of consecutive
stretches cover what the span of the whole stretch covers, so the state, the warnings and the trace
of a run do not depend on where it was interrupted.
-/

namespace BeamEnvelope

variable {K : Type} [Scalar K] {α : Type}

namespace Span

def contains (span : Span) (index : Nat) : Bool :=
  (match span.start with
    | .included i => i ≤ index
    | .excluded i => i < index
    | .unbounded => true) &&
  (match span.stop with
    | .included i => index ≤ i
    | .excluded i => index < i
    | .unbounded => true)

variable (span : Span)

theorem clamp_fst_le (count : Nat) : (span.clamp count).1 ≤ (span.clamp count).2 :=
  Nat.min_le_right _ _

theorem clamp_snd_le (count : Nat) : (span.clamp count).2 ≤ count := Nat.min_le_right _ _

/-- Capping the index behind a bound loses no element, since none has so large an index. -/
theorem clamp_iff_contains {count index : Nat} (hcount : count ≤ maxIndex) (h : index < count) :
    (span.clamp count).1 ≤ index ∧ index < (span.clamp count).2 ↔ span.contains index := by
  have hfirst : (span.clamp count).1 ≤ index ∧ index < (span.clamp count).2 ↔
      span.first ≤ index ∧ index < span.limit count := by
    simp only [clamp]
    omega
  rw [hfirst]
  obtain ⟨start, stop⟩ := span
  cases start <;> cases stop <;> simp [first, limit, next, contains] <;> omega

theorem select_all (xs : List α) : ({} : Span).select xs = xs := by
  have hclamp : ({} : Span).clamp xs.length = (0, xs.length) := by simp [clamp, limit, first]
  rw [select, hclamp, List.take_length, List.drop_zero]

theorem select_between (a b : Nat) (xs : List α) :
    (between a b).select xs = (xs.take b).drop a := by
  have htake : xs.take (min b xs.length) = xs.take b := by
    rw [List.take_eq_take_iff]
    omega
  have hclamp : (between a b).clamp xs.length = (min a (min b xs.length), min b xs.length) := rfl
  rw [select, hclamp, htake]
  by_cases h : a ≤ min b xs.length
  · rw [Nat.min_eq_left h]
  · have hlength : (xs.take b).length = min b xs.length := List.length_take
    rw [List.drop_of_length_le (by omega), List.drop_of_length_le (by omega)]

/-- Consecutive stretches select what the whole stretch selects. -/
theorem select_between_append {a b c : Nat} (hab : a ≤ b) (hbc : b ≤ c) (xs : List α) :
    (between a c).select xs = (between a b).select xs ++ (between b c).select xs := by
  rw [select_between, select_between, select_between]
  have hsplit : xs.take c = xs.take b ++ (xs.take c).drop b := by
    have htake : xs.take b = (xs.take c).take b := by rw [List.take_take, Nat.min_eq_left hbc]
    rw [htake, List.take_append_drop]
  conv_lhs => rw [hsplit]
  rw [List.drop_append, List.length_take]
  by_cases h : a ≤ min b xs.length
  · rw [Nat.sub_eq_zero_of_le h, List.drop_zero]
  · have hnil : (xs.take c).drop b = [] := by
      rw [List.drop_eq_nil_iff, List.length_take]
      omega
    rw [hnil, List.drop_nil]

/-- In a list numbered from `n` on a stretch is chosen by the numbers. -/
theorem take_drop_eq_filter (index : α → Nat) {n : Nat} {xs : List α}
    (hindex : xs.map index = List.range' n xs.length) (a b : Nat) :
    (xs.take (b - n)).drop (a - n) =
      xs.filter fun x => decide (a ≤ index x ∧ index x < b) := by
  induction xs generalizing n with
  | nil => simp
  | cons x xs ih =>
    rw [List.map_cons, List.length_cons, List.range'_succ, List.cons.injEq] at hindex
    obtain ⟨hx, hxs⟩ := hindex
    have hrest := ih hxs
    rw [List.filter_cons, ← hrest, hx]
    by_cases hb : n < b
    · have htake : b - n = b - (n + 1) + 1 := by omega
      rw [htake, List.take_succ_cons]
      by_cases ha : a ≤ n
      · have hzero : a - n = 0 := by omega
        have hzero' : a - (n + 1) = 0 := by omega
        simp [ha, hb, hzero, hzero']
      · have hdrop : a - n = a - (n + 1) + 1 := by omega
        rw [hdrop, List.drop_succ_cons]
        simp [ha]
    · have htake : b - n = 0 := by omega
      have htake' : b - (n + 1) = 0 := by omega
      simp [hb, htake, htake']

theorem select_eq_filter (index : α → Nat) {xs : List α}
    (hindex : xs.map index = List.range xs.length) (hlength : xs.length ≤ maxIndex) :
    span.select xs = xs.filter fun x => span.contains (index x) := by
  rw [List.range_eq_range'] at hindex
  have h := take_drop_eq_filter index hindex (span.clamp xs.length).1 (span.clamp xs.length).2
  rw [Nat.sub_zero, Nat.sub_zero] at h
  rw [select, h]
  apply List.filter_congr
  intro x hx
  have hmem : index x ∈ List.range' 0 xs.length := hindex ▸ List.mem_map_of_mem hx
  rw [Bool.eq_iff_iff, decide_eq_true_iff]
  exact span.clamp_iff_contains hlength (by simpa using hmem)

end Span

theorem passages_append (frequency : K) (st : State K) (xs ys : List (Element K)) :
    passages frequency st (xs ++ ys) = passages frequency st xs ++
      passages frequency (xs.foldl (fun st e => e.advance frequency st) st) ys := by
  induction xs generalizing st with
  | nil => rfl
  | cons e xs ih => simp [passages, ih]

namespace Machine

variable (m : Machine K)

theorem run_fst {σ : Type} (span : Span) (observer : Option (Observer K σ)) (start : State K × σ) :
    (m.run span observer start).1 =
      (span.select m.elements).foldl (fun st e => e.advance m.frequency st) start.1 := by
  rw [run]
  generalize span.select m.elements = es
  induction es generalizing start with
  | nil => rfl
  | cons e es ih => exact ih _

theorem propagate_eq_foldl (span : Span) (st : State K) : m.propagate span st =
    (span.select m.elements).foldl (fun st e => e.advance m.frequency st) st :=
  m.run_fst span none (st, ())

/-- An observer only looks on. -/
theorem observe_fst {σ : Type} (span : Span) (view : Observer K σ) (st : State K) (seen : σ) :
    (m.observe span view st seen).1 = m.propagate span st := by
  rw [observe, run_fst, propagate_eq_foldl]

theorem trace_eq_map_passages (span : Span) (st : State K) :
    m.trace span st = (m.passages span st).map fun p => (p.element.index, p.behind) := by
  rw [trace, observe, run, passages]
  generalize span.select m.elements = es
  suffices h : ∀ entries : Array (Nat × State K),
      (es.foldl (fun (st, seen) e =>
        (e.advance m.frequency st, Observer.trace seen e (e.advance m.frequency st)))
        (st, entries)).2.toList = entries.toList ++
      (BeamEnvelope.passages m.frequency st es).map fun p => (p.element.index, p.behind) by
    simpa using h #[]
  intro entries
  induction es generalizing st entries with
  | nil => simp [BeamEnvelope.passages]
  | cons e es ih =>
    rw [List.foldl_cons, ih]
    simp [BeamEnvelope.passages, Observer.trace]

section Split

variable {a b c : Nat} (hab : a ≤ b) (hbc : b ≤ c) (st : State K)
include hab hbc

theorem propagate_between_append : m.propagate (.between a c) st =
    m.propagate (.between b c) (m.propagate (.between a b) st) := by
  rw [propagate_eq_foldl, propagate_eq_foldl, propagate_eq_foldl,
    Span.select_between_append hab hbc, List.foldl_append]

theorem passages_between_append : m.passages (.between a c) st =
    m.passages (.between a b) st ++ m.passages (.between b c) (m.propagate (.between a b) st) := by
  rw [passages, Span.select_between_append hab hbc, passages_append, ← propagate_eq_foldl]
  rfl

theorem warnings_between_append : m.warnings (.between a c) st =
    m.warnings (.between a b) st ++ m.warnings (.between b c) (m.propagate (.between a b) st) := by
  rw [warnings, passages_between_append m hab hbc, List.flatMap_append]
  rfl

theorem trace_between_append : m.trace (.between a c) st =
    m.trace (.between a b) st ++ m.trace (.between b c) (m.propagate (.between a b) st) := by
  rw [trace_eq_map_passages, passages_between_append m hab hbc, List.map_append,
    trace_eq_map_passages, trace_eq_map_passages]

end Split

/-- Whether every element bears the index of its place. -/
def IsNumbered : Prop := m.elements.map Element.index = List.range m.elements.length

variable {m}

omit [Scalar K] in
theorem IsNumbered.index_getElem (hm : m.IsNumbered) {i : Nat} (h : i < m.elements.length) :
    m.elements[i].index = i := by
  have hmap : (m.elements.map Element.index)[i]? = some i := by
    rw [show m.elements.map Element.index = _ from hm, List.getElem?_range h]
  simpa [h] using hmap

/-- Behind each element the trace of a run holds the state that a run up to there ends in. -/
theorem IsNumbered.trace_between (hm : m.IsNumbered) (a c : Nat) (st : State K) :
    m.trace (.between a c) st = ((Span.between a c).select m.elements).map fun e =>
      (e.index, m.propagate (.between a (e.index + 1)) st) := by
  by_cases hac : a ≤ c
  · -- on the end of the span: one index more is one element more, or none behind the last one
    induction c, hac using Nat.le_induction with
    | base =>
      have hnil : (Span.between a a).select m.elements = [] := by
        rw [Span.select_between, List.drop_eq_nil_iff, List.length_take]
        exact Nat.min_le_left _ _
      rw [trace_eq_map_passages, passages, hnil]
      rfl
    | succ c hac ih =>
      rw [trace_between_append m hac (Nat.le_succ c), ih,
        Span.select_between_append hac (Nat.le_succ c), List.map_append]
      congr 1
      rw [trace_eq_map_passages, passages]
      by_cases hc : c < m.elements.length
      · have hone : (Span.between c (c + 1)).select m.elements = [m.elements[c]] := by
          rw [Span.select_between, List.drop_take, Nat.add_sub_cancel_left,
            List.drop_eq_getElem_cons hc, List.take_succ_cons, List.take_zero]
        have hnext : m.propagate (.between a (c + 1)) st =
            m.elements[c].advance m.frequency (m.propagate (.between a c) st) := by
          rw [propagate_between_append m hac (Nat.le_succ c), m.propagate_eq_foldl (.between c (c + 1)),
            hone]
          rfl
        rw [hone, List.map_singleton, hm.index_getElem hc, hnext]
        simp [BeamEnvelope.passages, hm.index_getElem hc]
      · have hnone : (Span.between c (c + 1)).select m.elements = [] := by
          rw [Span.select_between, List.drop_eq_nil_iff, List.length_take]
          omega
        rw [hnone]
        rfl
  · have hnil : (Span.between a c).select m.elements = [] := by
      rw [Span.select_between, List.drop_eq_nil_iff, List.length_take]
      omega
    rw [trace_eq_map_passages, passages, hnil]
    rfl

/-- What a span means for runs of a machine. -/
structure ObeysSpans (m : Machine K) : Prop where
  /-- A confined span is a stretch of the elements. -/
  within (span : Span) : (span.clamp m.elements.length).1 ≤ (span.clamp m.elements.length).2 ∧
    (span.clamp m.elements.length).2 ≤ m.elements.length
  /-- An element is found at the index it bears: each once, and in ascending order. -/
  numbered : m.IsNumbered
  /-- Exactly the elements that the span contains act, one after another. -/
  contained (span : Span) (st : State K) : m.propagate span st =
    (m.elements.filter fun e => span.contains e.index).foldl
      (fun st e => e.advance m.frequency st) st
  observed {σ : Type} (span : Span) (view : Observer K σ) (st : State K) (seen : σ) :
    (m.observe span view st seen).1 = m.propagate span st
  resumed {a b c : Nat} (hab : a ≤ b) (hbc : b ≤ c) (st : State K) :
    m.propagate (.between a c) st = m.propagate (.between b c) (m.propagate (.between a b) st)
  warnings_resumed {a b c : Nat} (hab : a ≤ b) (hbc : b ≤ c) (st : State K) :
    m.warnings (.between a c) st =
      m.warnings (.between a b) st ++ m.warnings (.between b c) (m.propagate (.between a b) st)
  trace_resumed {a b c : Nat} (hab : a ≤ b) (hbc : b ≤ c) (st : State K) :
    m.trace (.between a c) st =
      m.trace (.between a b) st ++ m.trace (.between b c) (m.propagate (.between a b) st)
  /-- The trace holds one entry for each element that the span contains. -/
  trace_entries (a c : Nat) (st : State K) : m.trace (.between a c) st =
    (m.elements.filter fun e => (Span.between a c).contains e.index).map fun e =>
      (e.index, m.propagate (.between a (e.index + 1)) st)

theorem IsNumbered.obeysSpans (hm : m.IsNumbered) (hlength : m.elements.length ≤ Span.maxIndex) :
    m.ObeysSpans where
  within span := ⟨span.clamp_fst_le _, span.clamp_snd_le _⟩
  numbered := hm
  contained span st := by rw [propagate_eq_foldl, span.select_eq_filter Element.index hm hlength]
  observed := m.observe_fst
  resumed := m.propagate_between_append
  warnings_resumed := m.warnings_between_append
  trace_resumed := m.trace_between_append
  trace_entries a c st := by
    rw [hm.trace_between, Span.select_eq_filter _ Element.index hm hlength]

end Machine

namespace Machine

theorem index_of_element {globals : Dictionary Value} {c : Component} {index : Nat}
    {e : Element Float} (h : c.element globals index = .ok e) : e.index = index := by
  rw [Component.element] at h
  split at h
  · obtain ⟨length, -, h⟩ := bind_eq_ok.1 h
    obtain ⟨action, -, h⟩ := bind_eq_ok.1 h
    obtain ⟨aperture, -, h⟩ := bind_eq_ok.1 h
    cases h
    rfl
  · cases h

theorem elementsFrom_cons_eq_ok {globals : Dictionary Value} {n : Nat} {c : Component}
    {cs : List Component} {es : List (Element Float)}
    (h : elementsFrom globals n (c :: cs) = .ok es) :
    ∃ e rest, c.element globals n = .ok e ∧ elementsFrom globals (n + 1) cs = .ok rest ∧
      es = e :: rest := by
  rw [elementsFrom] at h
  split at h
  · cases h
  · rename_i e he
    obtain ⟨rest, hrest, h⟩ := bind_eq_ok.1 h
    cases h
    exact ⟨e, rest, he, hrest, rfl⟩

theorem index_of_elementsFrom {globals : Dictionary Value} {n : Nat} {cs : List Component}
    {es : List (Element Float)} (h : elementsFrom globals n cs = .ok es) :
    es.map Element.index = List.range' n es.length := by
  induction cs generalizing n es with
  | nil =>
    cases h
    rfl
  | cons c cs ih =>
    obtain ⟨e, rest, he, hrest, rfl⟩ := elementsFrom_cons_eq_ok h
    rw [List.map_cons, index_of_element he, ih hrest, List.length_cons, List.range'_succ]

theorem isNumbered_of_ofLattice {lattice : Lattice} {m : Machine Float}
    (h : ofLattice lattice = .ok m) : m.IsNumbered := by
  obtain ⟨-, -, h⟩ := bind_eq_ok.1 h
  obtain ⟨es, hes, h⟩ := bind_eq_ok.1 h
  cases h
  rw [IsNumbered, List.range_eq_range']
  exact index_of_elementsFrom hes

/-- A built machine obeys every span. Its elements are counted by a machine integer. -/
theorem ofLattice_obeysSpans {lattice : Lattice} {m : Machine Float}
    (h : ofLattice lattice = .ok m) (hlength : m.elements.length ≤ Span.maxIndex) : m.ObeysSpans :=
  (isNumbered_of_ofLattice h).obeysSpans hlength

def twoDrifts : Lattice where
  name := "cell"
  globals := .ofList [("sim_type", .text simulationType)]
  components := [⟨"d1", "drift", .ofList [("L", .scalar 1.0)]⟩, ⟨"d2", "drift", ∅⟩]

theorem twoDrifts_obeysSpans :
    ∃ m, ofLattice twoDrifts = .ok m ∧ m.elements.length = 2 ∧ m.ObeysSpans := by
  have h : ofLattice twoDrifts = .ok _ := rfl
  exact ⟨_, h, rfl, ofLattice_obeysSpans h (by decide)⟩

end Machine

end BeamEnvelope
