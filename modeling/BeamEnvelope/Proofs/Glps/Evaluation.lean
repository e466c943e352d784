import BeamEnvelope.Proofs.Dictionary
import BeamEnvelope.Proofs.Glps.Grammar
import BeamEnvelope.Proofs.Result

/-!
# Evaluation on the way and evaluation of trees

The steps that a reader takes with what it has read succeed exactly where the evaluation of trees
does, with the same result. Only the faults know positions, so the position of a step is irrelevant.
-/

namespace BeamEnvelope.Glps

open Grammar

variable {pos : Position} {what : String}

theorem finite_eq_ok {x y : Float} : finite pos what x = .ok y ↔ finite? x = some y := by
  unfold finite finite?
  split <;> simp

theorem mapM_finite_eq_ok {α : Type} {f : α → Float} {xs : List α} {ys : List Float} :
    xs.mapM (fun x => finite pos what (f x)) = .ok ys ↔
      xs.mapM (fun x => finite? (f x)) = some ys := by
  simp only [mapM_eq_ok, mapM_eq_some, finite_eq_ok]

theorem binary_eq_ok {op : Operator} {a b v : Value} :
    binary pos op a b = .ok v ↔ combine? op a b = some v := by
  cases a with
  | scalar x =>
    cases b with
    | scalar y => simp [binary, combine?, bind_eq_ok, finite_eq_ok, pure, Except.pure]
    | vector ys => simp [binary, combine?, bind_eq_ok, mapM_finite_eq_ok, pure, Except.pure]
    | text s => simp [binary, combine?]
  | vector xs =>
    cases b with
    | scalar y => simp [binary, combine?, bind_eq_ok, mapM_finite_eq_ok, pure, Except.pure]
    | vector ys =>
      by_cases h : xs.length = ys.length
      · have hm := @mapM_finite_eq_ok pos op.noun Float id
        simp only [id_eq] at hm
        simp [binary, combine?, h, bind_eq_ok, hm, pure, Except.pure]
      · simp [binary, combine?, h]
    | text s => simp [binary, combine?]
  | text s => cases b <;> simp [binary, combine?]

theorem negate_eq_ok {a v : Value} : negate pos a = .ok v ↔ opposite? a = some v := by
  cases a <;> simp [negate, opposite?]

theorem call_eq_ok {f : Function} {a v : Value} : call pos f a = .ok v ↔ result? f a = some v := by
  cases a with
  | scalar x => simp [call, result?, bind_eq_ok, finite_eq_ok, pure, Except.pure]
  | vector xs => simp [call, result?]
  | text s => simp [call, result?]

theorem entry_eq_ok {a : Value} {x : Float} : entry pos a = .ok x ↔ a.scalar? = some x := by
  cases a <;> simp [entry, Value.scalar?]

namespace Scope

def environment (scope : Scope) : Environment := scope.definitions.reverse

theorem lookup_environment (scope : Scope) (n : String) :
    scope.environment.lookup n = scope.get? n := lookup_reverse scope.distinct

theorem value_eq_ok {scope : Scope} {n : String} {v : Value} :
    scope.value n pos = .ok v ↔
      ∃ symbol, scope.environment.lookup n = some symbol ∧ symbol.value? = some v := by
  rw [lookup_environment, value]
  cases scope.get? n with
  | none => simp
  | some symbol => cases symbol <;> simp [Symbol.value?]

theorem components_eq_ok {scope : Scope} {n : String} {cs : List Component} :
    scope.components n pos = .ok cs ↔
      ∃ symbol, scope.environment.lookup n = some symbol ∧ components? symbol = some cs := by
  rw [lookup_environment, components]
  cases scope.get? n with
  | none => simp
  | some symbol => cases symbol <;> simp [components?]

theorem define_eq_ok {scope next : Scope} {n : String} {symbol : Symbol} :
    scope.define n symbol pos = .ok next ↔
      scope.environment.lookup n = none ∧
        next.environment = scope.environment ++ [(n, symbol)] := by
  have hmem : n ∉ scope.definitions.map (·.1) ↔ scope.environment.lookup n = none := by
    rw [lookup_environment, get?, lookup_eq_none_iff_not_mem]
  unfold define
  split
  · rename_i h
    simp only [reduceCtorEq, false_iff, not_and]
    exact fun hnone => absurd h (hmem.2 hnone)
  · rename_i h
    simp only [Except.ok.injEq, hmem.1 h, true_and]
    constructor
    · rintro rfl
      rw [environment, environment, List.reverse_cons]
    · intro henv
      obtain ⟨definitions, distinct⟩ := next
      simp only [environment, ← List.reverse_cons, List.reverse_inj] at henv
      subst henv
      rfl

theorem define_of_lookup_eq_none {scope : Scope} {n : String} {symbol : Symbol}
    (h : scope.environment.lookup n = none) : ∃ next, scope.define n symbol pos = .ok next ∧
      next.environment = scope.environment ++ [(n, symbol)] := by
  cases hdefine : scope.define n symbol pos with
  | ok next => exact ⟨next, rfl, (define_eq_ok.1 hdefine).2⟩
  | error f =>
    rw [lookup_environment, get?, lookup_eq_none_iff_not_mem] at h
    simp [define, h] at hdefine

end Scope

end BeamEnvelope.Glps
