import BeamEnvelope.Glps.Reading
import BeamEnvelope.Proofs.Result
import Mathlib.Data.List.Chain

/-!
# Routines that count their nesting

A source can be read by routines that call one another without a bound of their own, with one
counter beside them: it is raised where a unary expression is entered, lowered where it is left with
a value or a fault, and no unary expression is entered at `maxNesting`. Such routines come to an end
because tokens run out. They do what the readers do whose depth is bounded, and leave the counter as
they found it.
-/

namespace BeamEnvelope.Glps

open SourceReader

inductive Routine where
  | expression | term | unary | signed | primary | vector
deriving DecidableEq

namespace Routine

def callees : Routine → List Routine
  | expression => [term]
  | term => [unary]
  | unary => [signed]
  | signed => [unary, primary]
  | primary => [expression, vector]
  | vector => [expression]

/-- Calls lead to lower ranks, unless they lead to `unary`. -/
def rank : Routine → Nat
  | unary => 5
  | signed => 4
  | primary => 3
  | vector => 2
  | expression => 1
  | term => 0

theorem rank_lt_of_mem_callees {callee caller : Routine} (h : callee ∈ caller.callees)
    (hcallee : callee ≠ unary) : callee.rank < caller.rank := by
  revert h hcallee
  cases callee <;> cases caller <;> decide

theorem rank_lt_of_ne {r : Routine} (h : r ≠ unary) : r.rank < unary.rank := by
  revert h
  cases r <;> decide

end Routine

structure Calls where
  /-- The counter. -/
  depth : Nat := 0
  /-- The calls that have not returned, the innermost one first. -/
  active : List Routine := []
  /-- Every row of calls that were active together. -/
  seen : List (List Routine) := []
  /-- What was ahead in front of every pass of a loop, and behind it. -/
  passes : List (Stream × Stream) := []

/-- A computation that counts its calls, also when it fails. -/
abbrev Counted (α : Type) := EStateM Fault Calls α

def passed (front behind : Stream) : Counted Unit :=
  modify fun calls => { calls with passes := (front, behind) :: calls.passes }

/-- A reader that counts, for streams of less than `n` tokens. -/
abbrev CountedReader (n : Nat) (α : Type) :=
  (s : Stream) → s.length < n → Counted (Reading α s)

namespace CountedReader

variable {n : Nat} {α β : Type}

/-- A reader that calls no routine. -/
def lift (p : SourceReader α) : CountedReader n α := fun s _ => MonadExcept.ofExcept (p s)

def bind (p : CountedReader n α) (f : α → CountedReader n β) : CountedReader n β := fun s h => do
  let a ← p s h
  let b ← f a.value a.rest (Nat.lt_trans a.shorter h)
  return ⟨b.value, b.rest, Nat.lt_trans b.shorter a.shorter⟩

def check (p : CountedReader n α) (f : α → Except Fault β) : CountedReader n β := fun s h => do
  let a ← p s h
  return ⟨← MonadExcept.ofExcept (f a.value), a.rest, a.shorter⟩

/-- Goes on behind a token, where less is left. -/
def behind (p : SourceReader α) (f : α → CountedReader n β) : CountedReader (n + 1) β :=
  fun s h => do
    let a ← MonadExcept.ofExcept (p s)
    let b ← f a.value a.rest (Nat.lt_of_lt_of_le a.shorter (Nat.le_of_lt_succ h))
    return ⟨b.value, b.rest, Nat.lt_trans b.shorter a.shorter⟩

def commaSeparated (item : α → CountedReader n α) (expected : Expected) (state : α) :
    CountedReader n α := fun s h => do
  let one ← item state s h
  if one.rest.mark? == some .comma then
    let gap ← MonadExcept.ofExcept ((mark .comma expected).check (fun _ => .ok ()) one.rest)
    passed s gap.rest
    let more ← commaSeparated item expected one.value gap.rest
      (Nat.lt_trans gap.shorter (Nat.lt_trans one.shorter h))
    return ⟨more.value, more.rest,
      Nat.lt_trans more.shorter (Nat.lt_trans gap.shorter one.shorter)⟩
  else
    passed s one.rest
    return one
termination_by s => s.length
decreasing_by exact Nat.lt_trans gap.shorter one.shorter

def chainFrom (operand : CountedReader n Value) (operator? : Mark → Option Operator) {s : Stream}
    (h : s.length < n) (left : Reading Value s) : Counted (Reading Value s) :=
  if (left.rest.mark?.bind operator?).isNone then return left
  else do
    let op ← MonadExcept.ofExcept
      (accept (fun t => t.mark?.bind operator?) .expression left.rest)
    let right ← operand op.rest (Nat.lt_trans op.shorter (Nat.lt_trans left.shorter h))
    let v ← MonadExcept.ofExcept (binary op.value.2 op.value.1 left.value right.value)
    passed left.rest right.rest
    chainFrom operand operator? h ⟨v, right.rest,
      Nat.lt_trans right.shorter (Nat.lt_trans op.shorter left.shorter)⟩
termination_by left.rest.length
decreasing_by exact Nat.lt_trans right.shorter op.shorter

def chain (operand : CountedReader n Value) (operator? : Mark → Option Operator) :
    CountedReader n Value := fun s h => do
  chainFrom operand operator? h (← operand s h)

end CountedReader

namespace Counting

open CountedReader

variable {α : Type} {n : Nat}

/-- Runs a routine, whose call is active until it returns. -/
def called (r : Routine) (body : Counted α) : Counted α := fun calls =>
  match body { calls with
    active := r :: calls.active
    seen := (r :: calls.active) :: calls.seen } with
  | .ok a after => .ok a { after with active := after.active.tail }
  | .error f after => .error f { after with active := after.active.tail }

/-- Raises the counter and lowers it again. -/
def deeper (body : Counted α) : Counted α := fun calls =>
  match body { calls with depth := calls.depth + 1 } with
  | .ok a after => .ok a { after with depth := after.depth - 1 }
  | .error f after => .error f { after with depth := after.depth - 1 }

def enclosed (e : CountedReader n Value) : CountedReader (n + 1) Value :=
  behind (mark .openParen .openParen) fun _ =>
    bind e fun v => check (lift (mark .closeParen .closeParen)) fun _ => .ok v

def vectorEntry (e : CountedReader n Value) (entries : List Float) :
    CountedReader n (List Float) := fun s h =>
  check e (fun v => return entries ++ [← entry (s.position?.getD {}) v]) s h

def entries (e : CountedReader n Value) : CountedReader n Value := fun s h =>
  if s.mark? = some .closeBracket then
    check (lift (mark .closeBracket .entryEnd)) (fun _ => .ok (.vector [])) s h
  else
    bind (commaSeparated (vectorEntry e) .entryEnd []) (fun xs =>
      check (lift (mark .closeBracket .entryEnd)) fun _ => .ok (.vector xs)) s h

mutual

def expression (scope : Scope) (s : Stream) : Counted (Reading Value s) :=
  called .expression (chain (n := s.length + 1) (fun t _ => term scope t) additive? s
    (Nat.lt_succ_self _))
termination_by (s.length, 5)
decreasing_by
  rw [Prod.lex_def]
  omega

def term (scope : Scope) (s : Stream) : Counted (Reading Value s) :=
  called .term (chain (n := s.length + 1) (fun t _ => unary scope t) multiplicative? s
    (Nat.lt_succ_self _))
termination_by (s.length, 4)
decreasing_by
  rw [Prod.lex_def]
  omega

/-- The only place where the counter is looked at. -/
def unary (scope : Scope) (s : Stream) : Counted (Reading Value s) := do
  if maxNesting ≤ (← get).depth then throw (s.unexpected .shallower)
  else deeper (called .unary (signed scope s))
termination_by (s.length, 3)

def signed (scope : Scope) (s : Stream) : Counted (Reading Value s) :=
  called .signed <|
    if s.mark? = some .minus then
      behind (n := s.length) (mark .minus .expression)
        (fun pos => check (fun t _ => unary scope t) (negate pos)) s (Nat.lt_succ_self _)
    else primary scope s
termination_by (s.length, 2)

def primary (scope : Scope) (s : Stream) : Counted (Reading Value s) :=
  called .primary <|
    match s.head? with
    | some (.name n) =>
      match Function.ofName? n with
      | some f =>
        if s.second? = some (.mark .openParen) then
          behind (n := s.length) (name .expression) (fun t => check (fun u h =>
            enclosed (n := s.length) (fun w _ => expression scope w) u (Nat.lt_succ_of_lt h))
              (call t.2 f)) s (Nat.lt_succ_self _)
        else MonadExcept.ofExcept ((name .expression).check (fun t => scope.value n t.2) s)
      | none => MonadExcept.ofExcept ((name .expression).check (fun t => scope.value n t.2) s)
    | some (.mark .openParen) =>
      enclosed (n := s.length) (fun t _ => expression scope t) s (Nat.lt_succ_self _)
    | some (.mark .openBracket) => vector scope s
    | _ => MonadExcept.ofExcept (literal s)
termination_by (s.length, 1)

def vector (scope : Scope) (s : Stream) : Counted (Reading Value s) :=
  called .vector (behind (n := s.length) (mark .openBracket .expression)
    (fun _ => entries fun t _ => expression scope t) s (Nat.lt_succ_self _))
termination_by (s.length, 0)

end

def routine (scope : Scope) : Routine → (s : Stream) → Counted (Reading Value s)
  | .expression => expression scope
  | .term => term scope
  | .unary => unary scope
  | .signed => signed scope
  | .primary => primary scope
  | .vector => vector scope

end Counting

/-- Every call of the row is made by the next one, and not too many are unary expressions. -/
structure Orderly (row : List Routine) : Prop where
  bounded : row.count .unary ≤ maxNesting
  chained : row.IsChain fun callee caller => callee ∈ caller.callees

/-- Between two calls of one routine there is one of `unary`. -/
theorem Orderly.unary_between {front mid back : List Routine} {r : Routine}
    (h : Orderly (front ++ r :: (mid ++ r :: back))) (hr : r ≠ .unary) : .unary ∈ mid := by
  by_contra hmid
  have hne (a : Routine) (ha : a ∈ r :: (mid ++ [r])) : a ≠ .unary := by
    rintro rfl
    simp [hmid, hr.symm] at ha
  have hchain : (r :: (mid ++ [r])).IsChain fun callee caller => callee ∈ caller.callees :=
    h.chained.infix ⟨front, back, by simp⟩
  have hranks : ((r :: (mid ++ [r])).map Routine.rank).IsChain (· < ·) := by
    rw [List.isChain_map]
    exact hchain.imp_of_mem_imp fun a b ha hb hcall =>
      Routine.rank_lt_of_mem_callees hcall (hne a ha)
  rw [List.map_cons] at hranks
  exact Nat.lt_irrefl _ (hranks.rel_cons (List.mem_map_of_mem (by simp)))

/-- At most five calls lie between unary expressions. -/
theorem length_le_of_chained {r : Routine} {row : List Routine}
    (h : (r :: row).IsChain fun callee caller => callee ∈ caller.callees) :
    (r :: row).length + r.rank ≤ 6 * (r :: row).count .unary + 5 := by
  induction row generalizing r with
  | nil =>
    by_cases hr : r = .unary
    · subst hr
      decide
    · have hrank : r.rank < 5 := Routine.rank_lt_of_ne hr
      simp [hr]
      omega
  | cons caller row ih =>
    obtain ⟨hcall, hrow⟩ := List.isChain_cons.1 h
    have hlength := ih hrow
    rw [List.length_cons, List.count_cons]
    by_cases hr : r = .unary
    · subst hr
      simp only [Routine.rank, beq_self_eq_true, if_pos]
      omega
    · have hrank := Routine.rank_lt_of_mem_callees (hcall caller rfl) hr
      simp only [beq_iff_eq, hr, if_neg, not_false_eq_true]
      omega

theorem Orderly.length_le {row : List Routine} (h : Orderly row) :
    row.length ≤ 6 * maxNesting + 5 := by
  cases row with
  | nil => exact Nat.zero_le _
  | cons r row =>
    have hlength := length_le_of_chained h.chained
    have hbounded := h.bounded
    omega

def Admits (active : List Routine) (r : Routine) : Prop :=
  ∀ caller ∈ active.head?, r ∈ caller.callees

/-- A row is active, its unary expressions are counted, no row has been disorderly, and every pass
has taken a token. -/
structure Calls.At (active : List Routine) (calls : Calls) : Prop where
  active_eq : calls.active = active
  depth_eq : calls.depth = active.count .unary
  orderly : ∀ row ∈ calls.seen, Orderly row
  consuming : ∀ p ∈ calls.passes, p.2.length < p.1.length

@[simp] theorem admits_cons {caller r : Routine} {active : List Routine} :
    Admits (caller :: active) r ↔ r ∈ caller.callees := by
  simp [Admits]

section Rows

variable {active : List Routine} {r : Routine}

theorem count_cons_of_ne_unary (hr : r ≠ .unary) (active : List Routine) :
    (r :: active).count .unary = active.count .unary := List.count_cons_of_ne hr

theorem Orderly.cons (h : Orderly active) (hadmits : Admits active r) (hr : r ≠ .unary) :
    Orderly (r :: active) :=
  ⟨(count_cons_of_ne_unary hr active).trans_le h.bounded,
    List.isChain_cons.2 ⟨hadmits, h.chained⟩⟩

theorem Orderly.cons_unary (h : Orderly active) (hadmits : Admits active .unary)
    (hroom : active.count .unary < maxNesting) : Orderly (.unary :: active) := by
  refine ⟨?_, List.isChain_cons.2 ⟨hadmits, h.chained⟩⟩
  rw [List.count_cons_self]
  exact hroom

end Rows

/-- A value or a fault, with the calls that are left. -/
def returned {α : Type} (calls : Calls) : Except Fault α → EStateM.Result Fault Calls α
  | .ok a => .ok a calls
  | .error f => .error f calls

/-- The computation comes to the result, a value or a fault, and keeps what holds of the calls. -/
def Follows {α : Type} (P : Calls → Prop) (x : Counted α) (y : Except Fault α) : Prop :=
  ∀ calls, P calls → ∃ after, P after ∧ x.run calls = returned after y

section Follows

variable {P : Calls → Prop} {α β : Type}

theorem follows_pure (a : α) : Follows P (pure a) (.ok a) := fun calls h => ⟨calls, h, rfl⟩

theorem follows_throw (f : Fault) : Follows P (throw f : Counted α) (.error f) :=
  fun calls h => ⟨calls, h, rfl⟩

theorem follows_ofExcept (y : Except Fault α) : Follows P (MonadExcept.ofExcept y) y := by
  cases y with
  | ok a => exact follows_pure a
  | error f => exact follows_throw f

theorem Follows.bind {x : Counted α} {y : Except Fault α} {f : α → Counted β}
    {g : α → Except Fault β} (hx : Follows P x y) (hf : ∀ a, Follows P (f a) (g a)) :
    Follows P (x >>= f) (y >>= g) := by
  intro calls h
  obtain ⟨after, hafter, hrun⟩ := hx calls h
  cases y with
  | ok a =>
    obtain ⟨last, hlast, hrun'⟩ := hf a after hafter
    refine ⟨last, hlast, ?_⟩
    rw [bind_of_eq_ok rfl, ← hrun']
    change EStateM.bind x f calls = _
    rw [EStateM.bind, show x calls = .ok a after from hrun]
    rfl
  | error e =>
    refine ⟨after, hafter, ?_⟩
    change EStateM.bind x f calls = _
    rw [EStateM.bind, show x calls = .error e after from hrun]
    rfl

end Follows

section Calls

variable {active : List Routine} {r : Routine} {α : Type} {x : Counted α} {y : Except Fault α}

theorem Follows.passed (h : Follows (Calls.At active) x y) {front behind : Stream}
    (hlt : behind.length < front.length) :
    Follows (Calls.At active) (Glps.passed front behind >>= fun _ => x) y := by
  intro calls hcalls
  have hnoted : Calls.At active { calls with passes := (front, behind) :: calls.passes } :=
    ⟨hcalls.active_eq, hcalls.depth_eq, hcalls.orderly,
      List.forall_mem_cons.2 ⟨hlt, hcalls.consuming⟩⟩
  exact h _ hnoted

/-- A routine that does not touch the counter. -/
theorem Follows.called (h : Follows (Calls.At (r :: active)) x y) (hr : r ≠ .unary)
    (horderly : Orderly (r :: active)) : Follows (Calls.At active) (Counting.called r x) y := by
  intro calls hcalls
  have hcount := count_cons_of_ne_unary hr active
  have hinner : Calls.At (r :: active) { calls with
      active := r :: calls.active
      seen := (r :: calls.active) :: calls.seen } := by
    refine ⟨congrArg _ hcalls.active_eq, hcalls.depth_eq.trans hcount.symm, ?_, hcalls.consuming⟩
    exact List.forall_mem_cons.2 ⟨hcalls.active_eq ▸ horderly, hcalls.orderly⟩
  obtain ⟨after, hafter, hrun⟩ := h _ hinner
  refine ⟨{ after with active := after.active.tail },
    ⟨?_, hafter.depth_eq.trans hcount, hafter.orderly, hafter.consuming⟩, ?_⟩
  · rw [hafter.active_eq, List.tail_cons]
  · change Counting.called r x calls = _
    rw [Counting.called, show x _ = _ from hrun]
    cases y <;> rfl

/-- A unary expression, by which the counter is raised and lowered again. -/
theorem Follows.deeper (h : Follows (Calls.At (.unary :: active)) x y)
    (horderly : Orderly (.unary :: active)) :
    Follows (Calls.At active) (Counting.deeper (Counting.called .unary x)) y := by
  intro calls hcalls
  have hcount : (Routine.unary :: active).count .unary = active.count .unary + 1 :=
    List.count_cons_self
  have hinner : Calls.At (.unary :: active) {
      depth := calls.depth + 1
      active := .unary :: calls.active
      seen := (.unary :: calls.active) :: calls.seen
      passes := calls.passes } := by
    refine ⟨congrArg _ hcalls.active_eq, ?_, ?_, hcalls.consuming⟩
    · rw [hcalls.depth_eq, hcount]
    · exact List.forall_mem_cons.2 ⟨hcalls.active_eq ▸ horderly, hcalls.orderly⟩
  obtain ⟨after, hafter, hrun⟩ := h _ hinner
  refine ⟨{ after with active := after.active.tail, depth := after.depth - 1 },
    ⟨?_, ?_, hafter.orderly, hafter.consuming⟩, ?_⟩
  · rw [hafter.active_eq, List.tail_cons]
  · rw [hafter.depth_eq, hcount, Nat.add_sub_cancel]
  · change Counting.deeper (Counting.called .unary x) calls = _
    rw [Counting.deeper, Counting.called, show x _ = _ from hrun]
    cases y <;> rfl

end Calls

/-- The counting reader comes to what the reader comes to on every stream that it is for. -/
def CountedReader.Follows {n : Nat} {α : Type} (active : List Routine) (p : CountedReader n α)
    (q : SourceReader α) : Prop := ∀ s h, Glps.Follows (Calls.At active) (p s h) (q s)

namespace CountedReader

variable {active : List Routine} {n : Nat} {α β : Type}

theorem follows_lift (q : SourceReader α) : Follows active (lift q : CountedReader n α) q :=
  fun _ _ => follows_ofExcept _

theorem Follows.bind {p : CountedReader n α} {q : SourceReader α} {f : α → CountedReader n β}
    {g : α → SourceReader β} (hp : p.Follows active q) (hf : ∀ a, (f a).Follows active (g a)) :
    (p.bind f).Follows active (q.bind g) :=
  fun s h => (hp s h).bind fun a => (hf a.value a.rest _).bind fun _ => follows_pure _

theorem Follows.check {p : CountedReader n α} {q : SourceReader α} (hp : p.Follows active q)
    (f : α → Except Fault β) : (p.check f).Follows active (q.check f) :=
  fun s h => (hp s h).bind fun _ => (follows_ofExcept _).bind fun _ => follows_pure _

theorem follows_behind (q : SourceReader α) {f : α → CountedReader n β} {g : α → SourceReader β}
    (hf : ∀ a, (f a).Follows active (g a)) : (behind q f).Follows active (q.bind g) :=
  fun _ _ => (follows_ofExcept _).bind fun a => (hf a.value a.rest _).bind fun _ => follows_pure _

theorem follows_commaSeparated {item : α → CountedReader n α} {other : α → SourceReader α}
    (h : ∀ a, (item a).Follows active (other a)) (expected : Expected) (state : α) :
    (commaSeparated item expected state).Follows active
      (SourceReader.commaSeparated other expected state) := by
  intro s hs
  induction hn : s.length using Nat.strongRecOn generalizing state s with
  | ind size ih =>
    rw [commaSeparated, SourceReader.commaSeparated, Reader.separated]
    refine (h state s hs).bind fun one => ?_
    split
    · refine (follows_ofExcept _).bind fun gap => ?_
      have hlt : gap.rest.length < s.length := Nat.lt_trans gap.shorter one.shorter
      exact ((ih _ (hn ▸ hlt) one.value gap.rest _ rfl).bind fun _ => follows_pure _).passed hlt
    · exact (follows_pure one).passed one.shorter

theorem follows_chainFrom {operand : CountedReader n Value} {other : SourceReader Value}
    (h : operand.Follows active other) (operator? : Mark → Option Operator) {s : Stream}
    (hs : s.length < n) (left : Reading Value s) :
    Glps.Follows (Calls.At active) (chainFrom operand operator? hs left)
      (SourceReader.chainFrom other operator? left) := by
  induction hn : left.rest.length using Nat.strongRecOn generalizing left with
  | ind size ih =>
    rw [chainFrom, SourceReader.chainFrom]
    split
    · exact follows_pure _
    · refine (follows_ofExcept _).bind fun op => (h op.rest _).bind fun right =>
        (follows_ofExcept _).bind fun v => ?_
      have hlt : right.rest.length < left.rest.length := Nat.lt_trans right.shorter op.shorter
      exact (ih _ (hn ▸ hlt) _ rfl).passed hlt

theorem Follows.chain {operand : CountedReader n Value} {other : SourceReader Value}
    (h : operand.Follows active other) (operator? : Mark → Option Operator) :
    (chain operand operator?).Follows active (SourceReader.chain other operator?) :=
  fun s hs => (h s hs).bind fun left => follows_chainFrom h operator? hs left

theorem Follows.enclosed {e : CountedReader n Value} {u : SourceReader Value}
    (h : e.Follows active (expressionOf u)) :
    (Counting.enclosed e).Follows active (Glps.enclosed u) :=
  follows_behind _ fun _ => h.bind fun _ => (follows_lift _).check _

theorem Follows.vectorEntry {e : CountedReader n Value} {u : SourceReader Value}
    (h : e.Follows active (expressionOf u)) (xs : List Float) :
    (Counting.vectorEntry e xs).Follows active (Glps.vectorEntry u xs) :=
  fun s hs => h.check _ s hs

theorem Follows.vector {e : CountedReader n Value} {u : SourceReader Value}
    (h : e.Follows active (expressionOf u)) :
    (behind (mark .openBracket .expression) fun _ => Counting.entries e).Follows active
      (Glps.vector u) := by
  refine follows_behind _ fun _ s hs => ?_
  rw [Counting.entries]
  split
  · exact (follows_lift _).check _ s hs
  · exact (follows_commaSeparated h.vectorEntry _ _).bind
      (fun xs => (follows_lift _).check _) s hs

end CountedReader

/-- The reader that a routine is, with the depth that is left. -/
def Routine.reader (scope : Scope) : Routine → Nat → SourceReader Value
  | expression, depth => expressionOf (Glps.unary scope depth)
  | term, depth => chain (Glps.unary scope depth) multiplicative?
  | unary, depth => Glps.unary scope depth
  | signed, depth => Glps.unary scope (depth + 1)
  | primary, depth => Glps.primary scope (Glps.unary scope depth)
  | vector, depth => Glps.vector (Glps.unary scope depth)

/-- Called by any row of calls, the routine does what its reader does at the depth that the row
leaves, and the row is active again afterwards. -/
def Routine.Performs (scope : Scope) (r : Routine) (s : Stream) : Prop :=
  ∀ active, Orderly active → Admits active r →
    Follows (Calls.At active) (Counting.routine scope r s)
      (r.reader scope (maxNesting - active.count .unary) s)

namespace Routine

variable {scope : Scope} {s : Stream}

/-- A call from a routine that leaves the counter alone. -/
theorem Performs.follows {r caller : Routine} {active : List Routine} (h : r.Performs scope s)
    (hrow : Orderly (caller :: active)) (hcaller : caller ≠ unary) (hcall : r ∈ caller.callees) :
    Follows (Calls.At (caller :: active)) (Counting.routine scope r s)
      (r.reader scope (maxNesting - active.count .unary) s) := by
  have hcalled := h _ hrow (admits_cons.2 hcall)
  rwa [count_cons_of_ne_unary hcaller] at hcalled

/-- Such calls on streams of less than `n` tokens. -/
theorem follows_of_performs {r caller : Routine} {active : List Routine} {n : Nat}
    (h : ∀ t, t.length < n → r.Performs scope t) (hrow : Orderly (caller :: active))
    (hcaller : caller ≠ unary) (hcall : r ∈ caller.callees) :
    CountedReader.Follows (caller :: active)
      (fun t (_ : t.length < n) => Counting.routine scope r t)
      (r.reader scope (maxNesting - active.count .unary)) :=
  fun t ht => (h t ht).follows hrow hcaller hcall

theorem performs_vector (h : ∀ t, t.length < s.length → expression.Performs scope t) :
    vector.Performs scope s := by
  intro active hactive hadmits
  have hrow := hactive.cons hadmits (by decide)
  have hexpression := follows_of_performs h hrow (by decide) (by decide)
  rw [Counting.routine, Counting.vector]
  exact (CountedReader.Follows.vector hexpression s (Nat.lt_succ_self _)).called (by decide) hrow

theorem performs_primary (h : ∀ t, t.length < s.length → expression.Performs scope t)
    (hvector : vector.Performs scope s) : primary.Performs scope s := by
  intro active hactive hadmits
  have hrow := hactive.cons hadmits (by decide)
  have hexpression := follows_of_performs h hrow (by decide) (by decide)
  have hvector' := hvector.follows hrow (by decide) (by decide)
  rw [Counting.routine, Counting.primary]
  refine Follows.called ?_ (by decide) hrow
  rw [reader, Glps.primary]
  cases s.head? with
  | none => exact follows_ofExcept _
  | some t =>
    cases t with
    | number x | text x => exact follows_ofExcept _
    | name n =>
      dsimp only
      unfold nameOrCall
      cases Function.ofName? n with
      | none => exact follows_ofExcept _
      | some f =>
        dsimp only
        split
        · refine CountedReader.follows_behind _ (fun t => ?_) s (Nat.lt_succ_self _)
          have henclosed := hexpression.enclosed
          exact CountedReader.Follows.check (fun u hu => henclosed u (Nat.lt_succ_of_lt hu)) _
        · exact follows_ofExcept _
    | mark m =>
      cases m with
      | openParen => exact hexpression.enclosed s (Nat.lt_succ_self _)
      | openBracket => exact hvector'
      | _ => exact follows_ofExcept _

theorem performs_signed (h : ∀ t, t.length < s.length → unary.Performs scope t)
    (hprimary : primary.Performs scope s) : signed.Performs scope s := by
  intro active hactive hadmits
  have hrow := hactive.cons hadmits (by decide)
  have hunary := follows_of_performs h hrow (by decide) (by decide)
  have hprimary' := hprimary.follows hrow (by decide) (by decide)
  rw [Counting.routine, Counting.signed]
  refine Follows.called ?_ (by decide) hrow
  rw [reader, Glps.unary]
  dsimp only
  by_cases hminus : s.mark? = some .minus
  · rw [if_pos hminus, if_pos hminus]
    exact CountedReader.follows_behind _ (fun pos => hunary.check (negate pos)) s
      (Nat.lt_succ_self _)
  · rw [if_neg hminus, if_neg hminus]
    exact hprimary'

/-- No unary expression is entered when the counter stands at `maxNesting`. -/
theorem run_unary (calls : Calls) : (Counting.unary scope s).run calls =
    if maxNesting ≤ calls.depth then .error (s.unexpected .shallower) calls
    else (Counting.deeper (Counting.called .unary (Counting.signed scope s))).run calls := by
  rw [Counting.unary]
  change (if maxNesting ≤ calls.depth then throw (s.unexpected .shallower)
    else Counting.deeper (Counting.called .unary (Counting.signed scope s))).run calls = _
  split <;> rfl

theorem performs_unary (h : signed.Performs scope s) : unary.Performs scope s := by
  intro active hactive hadmits calls hcalls
  rw [Counting.routine, run_unary, hcalls.depth_eq]
  by_cases hroom : active.count .unary < maxNesting
  · have hrow := hactive.cons_unary hadmits hroom
    have hsigned := h _ hrow (admits_cons.2 (by decide))
    have hdepth : maxNesting - (unary :: active).count .unary + 1 =
        maxNesting - active.count .unary := by
      rw [List.count_cons_self]
      omega
    rw [reader, hdepth] at hsigned
    rw [if_neg (Nat.not_le.2 hroom)]
    exact hsigned.deeper hrow calls hcalls
  · have hfull := Nat.not_lt.1 hroom
    rw [if_pos hfull, reader, Nat.sub_eq_zero_of_le hfull, Glps.unary]
    exact ⟨calls, hcalls, rfl⟩

theorem performs_term (h : ∀ t, t.length ≤ s.length → unary.Performs scope t) :
    term.Performs scope s := by
  intro active hactive hadmits
  have hrow := hactive.cons hadmits (by decide)
  have hunary := follows_of_performs (fun t ht => h t (Nat.le_of_lt_succ ht)) hrow (by decide)
    (by decide)
  rw [Counting.routine, Counting.term]
  exact (hunary.chain _ s (Nat.lt_succ_self _)).called (by decide) hrow

theorem performs_expression (h : ∀ t, t.length ≤ s.length → term.Performs scope t) :
    expression.Performs scope s := by
  intro active hactive hadmits
  have hrow := hactive.cons hadmits (by decide)
  have hterm := follows_of_performs (fun t ht => h t (Nat.le_of_lt_succ ht)) hrow (by decide)
    (by decide)
  rw [Counting.routine, Counting.expression]
  exact (hterm.chain _ s (Nat.lt_succ_self _)).called (by decide) hrow

/-- Every routine performs what its reader does, on every stream. -/
theorem performs (scope : Scope) (r : Routine) (s : Stream) : r.Performs scope s := by
  induction hn : s.length using Nat.strongRecOn generalizing r s with
  | ind n ih =>
    have hshorter (r : Routine) (t : Stream) (ht : t.length < n) : r.Performs scope t :=
      ih _ ht r t rfl
    -- the routines call one another in this order before a token is taken
    have hvector (t : Stream) (ht : t.length ≤ n) : vector.Performs scope t :=
      performs_vector fun u hu => hshorter _ u (Nat.lt_of_lt_of_le hu ht)
    have hprimary (t : Stream) (ht : t.length ≤ n) : primary.Performs scope t :=
      performs_primary (fun u hu => hshorter _ u (Nat.lt_of_lt_of_le hu ht)) (hvector t ht)
    have hsigned (t : Stream) (ht : t.length ≤ n) : signed.Performs scope t :=
      performs_signed (fun u hu => hshorter _ u (Nat.lt_of_lt_of_le hu ht)) (hprimary t ht)
    have hunary (t : Stream) (ht : t.length ≤ n) : unary.Performs scope t :=
      performs_unary (hsigned t ht)
    have hterm (t : Stream) (ht : t.length ≤ n) : term.Performs scope t :=
      performs_term fun u hu => hunary u (Nat.le_trans hu ht)
    cases r with
    | expression => exact performs_expression fun u hu => hterm u (hu.trans hn.le)
    | term => exact hterm s hn.le
    | unary => exact hunary s hn.le
    | signed => exact hsigned s hn.le
    | primary => exact hprimary s hn.le
    | vector => exact hvector s hn.le

end Routine

end BeamEnvelope.Glps
