import BeamEnvelope.Proofs.Double.Value
import BeamEnvelope.Proofs.Glps.ExpressionReading

/-!
# Lines are read as they are derived and expanded

A line under construction grows by what each of its items expands to. The reader bounds the line
after every item, the evaluation of trees only the whole of it: a line that fits in the end has
fitted all the way.
-/

namespace BeamEnvelope.Glps

open Grammar SourceReader Reader

variable {scope : Scope} {built out : List Component} {s rest : Stream} {n : String}
  {pos : Position}

theorem value_neg_one : Double.value (Double.parts (-1.0)) = -1 := by
  have h : Double.parts (-1.0) = .finite .negative (2 ^ 52) (-52) (by decide) := rfl
  rw [h, Double.value]
  norm_num

theorem value_zero : Double.value (Double.parts 0.0) = 0 := rfl

theorem value_maxElements_succ :
    Double.value (Double.parts (Float.ofNat (maxElements + 1))) = (maxElements + 1 : Nat) := by
  have h : Double.parts (Float.ofNat (maxElements + 1)) =
      .finite .positive ((2 ^ 24 + 1) * 2 ^ 28) (-28) (by decide) := rfl
  rw [h, Double.value, maxElements]
  norm_num

/-- Cutting a number off towards zero gives a count up to a bound exactly when the number lies
between -1 and the bound's successor. -/
theorem between_iff_floor_abs (v : ℚ) (bound : Nat) :
    -1 < v ∧ v < (bound + 1 : Nat) ↔ ⌊|v|⌋₊ ≤ bound ∧ (⌊|v|⌋₊ = 0 ∨ 0 < v) := by
  rw [← Nat.lt_succ_iff, Nat.succ_eq_add_one, Nat.floor_lt (abs_nonneg v), Nat.floor_eq_zero,
    abs_lt, abs_lt]
  have hbound : (1 : ℚ) ≤ (bound + 1 : Nat) := by exact_mod_cast Nat.le_add_left 1 bound
  rcases lt_or_ge 0 v with hpos | hneg
  · constructor
    · rintro ⟨-, h⟩
      exact ⟨⟨by linarith, h⟩, .inr hpos⟩
    · rintro ⟨⟨-, h⟩, -⟩
      exact ⟨by linarith, h⟩
  · constructor
    · rintro ⟨h, -⟩
      exact ⟨⟨by linarith, by linarith⟩, .inl ⟨h, by linarith⟩⟩
    · rintro ⟨-, h | h⟩
      · exact ⟨h.1, by linarith⟩
      · exact absurd h hneg.not_gt

theorem floor_abs_eq_floor {v : ℚ} (h : -1 < v) : ⌊|v|⌋₊ = ⌊v⌋₊ := by
  rcases le_total 0 v with hpos | hneg
  · rw [abs_of_nonneg hpos]
  · rw [abs_of_nonpos hneg, Nat.floor_of_nonpos hneg, Nat.floor_eq_zero]
    linarith

theorem repeatCount_eq_ok {v : Value} {count : Nat} :
    repeatCount pos v = .ok count ↔ count? v = some count := by
  cases v with
  | vector xs => simp [repeatCount, count?]
  | text t => simp [repeatCount, count?]
  | scalar x =>
    have hone : (-1.0 : Float).isFinite := rfl
    have hzero : (0.0 : Float).isFinite := rfl
    have hbound : (Float.ofNat (maxElements + 1)).isFinite := rfl
    by_cases hx : x.isFinite
    · have hrange : (-1.0 < x ∧ x < Float.ofNat (maxElements + 1)) ↔
          (Ratio.ofFloat x).floor ≤ maxElements ∧ ((Ratio.ofFloat x).floor = 0 ∨ 0.0 < x) := by
        rw [Double.lt_iff_value_lt hone hx, Double.lt_iff_value_lt hx hbound,
          Double.lt_iff_value_lt hzero hx, value_neg_one, value_zero, value_maxElements_succ,
          Ratio.floor_eq, Double.value_ofFloat hx, ← Double.abs_value, between_iff_floor_abs]
      have hcount (h : -1.0 < x) (h' : (Ratio.ofFloat x).floor ≤ maxElements) :
          x.toUInt64.toNat = (Ratio.ofFloat x).floor := by
        rw [Double.lt_iff_value_lt hone hx, value_neg_one] at h
        rw [Ratio.floor_eq, Double.value_ofFloat hx, ← Double.abs_value, floor_abs_eq_floor h] at *
        exact Double.toNat_toUInt64 hx (lt_of_le_of_lt h' (by decide))
      simp only [repeatCount, count?, hx, Bool.true_and, Bool.and_eq_true, decide_eq_true_iff,
        Bool.or_eq_true, beq_iff_eq, hrange]
      constructor
      · intro h
        split at h
        · rename_i hfits
          cases h
          rw [if_pos hfits, hcount (hrange.2 hfits).1 hfits.1]
        · cases h
      · intro h
        split at h
        · rename_i hfits
          cases h
          rw [if_pos hfits, hcount (hrange.2 hfits).1 hfits.1]
        · cases h
    · have hrange : ¬ (-1.0 < x ∧ x < Float.ofNat (maxElements + 1)) := fun h =>
        hx (Double.isFinite_of_lt_of_lt hone hbound h.1 h.2)
      simp only [repeatCount, count?, Bool.and_eq_true, decide_eq_true_iff, hrange, hx]
      simp

theorem append_eq_ok {count : Nat} : append scope built n count pos = .ok out ↔
    ∃ symbol items, scope.environment.lookup n = some symbol ∧ components? symbol = some items ∧
      out = built ++ (List.replicate count items).flatten ∧ out.length ≤ maxElements := by
  simp only [append, bind_eq_ok, Scope.components_eq_ok]
  have hlen (items : List Component) :
      (built ++ (List.replicate count items).flatten).length =
        built.length + count * items.length := by simp
  constructor
  · rintro ⟨items, ⟨symbol, hlookup, hitems⟩, h⟩
    split at h
    · rename_i hfits
      cases h
      rw [copies_eq_flatten]
      exact ⟨symbol, items, hlookup, hitems, rfl, (hlen items).trans_le hfits⟩
    · cases h
  · rintro ⟨symbol, items, hlookup, hitems, rfl, hfits⟩
    rw [hlen] at hfits
    refine ⟨items, ⟨symbol, hlookup, hitems⟩, ?_⟩
    rw [if_pos hfits, copies_eq_flatten]
    rfl

theorem reads_repeatedItem : (repeatedItem scope built).Reads s out rest ↔
    ∃ factor pos next target pos' mid count, (unary scope maxNesting).Reads s factor mid ∧
      mid = .token (.mark .star) pos next ∧ next = .token (.name target) pos' rest ∧
      rest.IsSound ∧ count? factor = some count ∧
      append scope built target count pos' = .ok out := by
  change ((unary scope maxNesting).bind _).Reads s out rest ↔ _
  simp only [reads_bind, reads_check, reads_mark, reads_name, bind_eq_ok, repeatCount_eq_ok]
  constructor
  · rintro ⟨factor, mid, hf, pos, next, ⟨rfl, -⟩, ⟨target, pos'⟩, ⟨rfl, hrest⟩, count, hcount, h⟩
    exact ⟨factor, pos, _, target, pos', _, count, hf, rfl, rfl, hrest, hcount, h⟩
  · rintro ⟨factor, pos, next, target, pos', mid, count, hf, rfl, rfl, hrest, hcount, h⟩
    exact ⟨factor, _, hf, pos, _, ⟨rfl, trivial⟩, (target, pos'), ⟨rfl, hrest⟩, count, hcount, h⟩

/-- The item whose tokens lead from `s` to `rest`, and what it adds to the line. -/
def DerivesItem (scope : Scope) (built : List Component) (s : Stream) (out : List Component)
    (rest : Stream) : Prop :=
  ∃ i : Item, s.Begins i.tokens rest ∧ i.NestsWithin maxNesting ∧
    ∃ cs, i.components? scope.environment = some cs ∧ out = built ++ cs ∧
      out.length ≤ maxElements

theorem derivesItem_of_reads_repeatedItem (h : (repeatedItem scope built).Reads s out rest) :
    DerivesItem scope built s out rest := by
  obtain ⟨factor, pos, next, target, pos', mid, count, hf, rfl, rfl, -, hcount, h⟩ :=
    reads_repeatedItem.1 h
  obtain ⟨u, htokens, hnest, hval⟩ := derivesUnary_of_reads hf
  obtain ⟨symbol, items, hlookup, hitems, hout, hfits⟩ := append_eq_ok.1 h
  refine ⟨.repeated u target, htokens.append (.cons _ pos (.cons _ pos' (.nil _))), hnest, _, ?_,
    hout, hfits⟩
  simp [Item.components?, hval, hcount, hlookup, hitems]

theorem derivesItem_of_reads (h : (lineItem scope built).Reads s out rest) :
    DerivesItem scope built s out rest := by
  obtain ⟨r, hr, rfl, rfl⟩ := h
  unfold lineItem at hr
  split at hr
  · exact derivesItem_of_reads_repeatedItem (reads_of_eq hr)
  · exact derivesItem_of_reads_repeatedItem (reads_of_eq hr)
  · obtain ⟨⟨target, pos⟩, hname, h⟩ := reads_check.1 (reads_of_eq hr)
    obtain ⟨hs, -⟩ := reads_name.1 hname
    obtain ⟨symbol, items, hlookup, hitems, hout, hfits⟩ := append_eq_ok.1 h
    refine ⟨.once target, ?_, trivial, items, ?_, ?_, hfits⟩
    · exact Stream.begins_cons.2 ⟨pos, r.rest, hs, .nil _⟩
    · simp [Item.components?, hlookup, hitems]
    · simpa using hout
  · exact derivesItem_of_reads_repeatedItem (reads_of_eq hr)

/-- An item in front of a comma or the parenthesis that ends the line. -/
theorem reads_lineItem {i : Item} {cs : List Component} (hs : s.Begins i.tokens rest)
    (hnest : i.NestsWithin maxNesting) (hcs : i.components? scope.environment = some cs)
    (hfits : (built ++ cs).length ≤ maxElements)
    (hrest : rest.mark? = some .comma ∨ rest.mark? = some .closeParen) :
    (lineItem scope built).Reads s (built ++ cs) rest := by
  have hsound : rest.IsSound := hrest.elim Stream.isSound_of_mark? Stream.isSound_of_mark?
  cases i with
  | once target =>
    obtain ⟨pos, next, rfl, hnext⟩ := Stream.begins_cons.1 hs
    obtain rfl := Stream.begins_nil.1 hnext
    obtain ⟨symbol, hlookup, hitems⟩ := Option.bind_eq_some_iff.1 hcs
    have happend : append scope built target 1 pos = .ok (built ++ cs) :=
      append_eq_ok.2 ⟨symbol, cs, hlookup, hitems, by simp, hfits⟩
    have hread : ((name .target).check fun n => append scope built n.1 1 n.2).Reads
        (.token (.name target) pos next) (built ++ cs) next :=
      reads_check.2 ⟨(target, pos), reads_name.2 ⟨rfl, hsound⟩, happend⟩
    -- with either mark behind it a name is no factor
    rcases hrest with h | h <;>
      · obtain ⟨_, _, rfl⟩ := Stream.mark?_eq_some.1 h
        exact hread
  | repeated u target =>
    obtain ⟨mid, hu, hmid⟩ := Stream.begins_append.1 hs
    obtain ⟨pos, next, rfl, hnext⟩ := Stream.begins_cons.1 hmid
    obtain ⟨pos', after, rfl, hafter⟩ := Stream.begins_cons.1 hnext
    obtain rfl := Stream.begins_nil.1 hafter
    simp only [Item.components?, Option.bind_eq_bind, Option.bind_eq_some_iff] at hcs
    obtain ⟨factor, hval, count, hcount, symbol, hlookup, items, hitems, hcs⟩ := hcs
    obtain rfl := Option.some.inj hcs
    have hfactor := readsUnary_unary scope maxNesting hu hnest hval trivial (by nofun)
    have hread : (repeatedItem scope built).Reads s _ after :=
      reads_repeatedItem.2 ⟨factor, pos, _, target, pos', _, count, hfactor, rfl, rfl, hsound,
        hcount, append_eq_ok.2 ⟨symbol, items, hlookup, hitems, rfl, hfits⟩⟩
    -- A factor that starts with a name is that name before the star, or a call.
    cases u with
    | negative u =>
      obtain ⟨_, _, rfl, -⟩ := Stream.begins_cons.1 hu
      exact hread
    | primary p =>
      cases p with
      | literal l =>
        obtain ⟨_, _, rfl, -⟩ := Stream.begins_cons.1 hu
        cases l <;> exact hread
      | name m =>
        obtain ⟨_, _, rfl, hm⟩ := Stream.begins_cons.1 hu
        obtain rfl := Stream.begins_nil.1 hm
        exact hread
      | call f e =>
        obtain ⟨_, _, rfl, hm⟩ := Stream.begins_cons.1 hu
        obtain ⟨_, _, rfl, -⟩ := Stream.begins_cons.1 hm
        exact hread
      | parens e =>
        obtain ⟨_, _, rfl, -⟩ := Stream.begins_cons.1 hu
        exact hread
      | emptyVector =>
        obtain ⟨_, _, rfl, -⟩ := Stream.begins_cons.1 hu
        exact hread
      | vector es =>
        obtain ⟨_, _, rfl, -⟩ := Stream.begins_cons.1 hu
        exact hread

abbrev ItemRow (scope : Scope) :
    List Component → Stream → List Component → Stream → Prop :=
  Row (lineItem scope) ((mark .comma .itemEnd).check fun _ => .ok ()) (·.mark? == some .comma)

theorem begins_of_itemRow (h : ItemRow scope built s out rest) :
    ∃ first others, s.Begins (first.tokens ++ others.flatMap otherItemTokens) rest ∧
      (∀ i ∈ first :: others, i.NestsWithin maxNesting) ∧
      ∃ parts, (first :: others).mapM (Item.components? scope.environment) = some parts ∧
        out = built ++ parts.flatten ∧ out.length ≤ maxElements := by
  simp only [mapM_eq_some]
  induction h with
  | last one stop =>
    obtain ⟨i, hi, hnest, cs, hcs, rfl, hfits⟩ := derivesItem_of_reads one
    exact ⟨i, [], by simpa using hi, by simpa using hnest, [cs], .cons hcs .nil, by simp, hfits⟩
  | more one go gap _ ih =>
    obtain ⟨i, hi, hnest, cs, hcs, rfl, -⟩ := derivesItem_of_reads one
    obtain ⟨first, others, hothers, hnests, parts, hparts, rfl, hfits⟩ := ih
    obtain ⟨pos, rfl, -⟩ := reads_comma.1 gap
    refine ⟨i, first :: others, hi.append ?_, ?_, cs :: parts, .cons hcs hparts, by simp, hfits⟩
    · exact .cons _ pos hothers
    · exact fun j hj => (List.mem_cons.1 hj).elim (fun h => h ▸ hnest) (hnests j)

theorem itemRow_of_begins {first : Item} {others : List Item} {parts : List (List Component)}
    (hs : s.Begins (first.tokens ++ others.flatMap otherItemTokens) rest)
    (hnest : ∀ i ∈ first :: others, i.NestsWithin maxNesting)
    (hparts : (first :: others).mapM (Item.components? scope.environment) = some parts)
    (hfits : (built ++ parts.flatten).length ≤ maxElements)
    (hrest : rest.mark? = some .closeParen) :
    ItemRow scope built s (built ++ parts.flatten) rest := by
  rw [mapM_eq_some] at hparts
  induction others generalizing first parts built s with
  | nil =>
    obtain ⟨cs, _, hcs, hnil, rfl⟩ := List.forall₂_cons_left_iff.1 hparts
    cases hnil
    simp only [List.flatMap_nil, List.append_nil] at hs
    simp only [List.flatten_cons, List.flatten_nil, List.append_nil] at hfits ⊢
    exact .last (reads_lineItem hs (hnest first (by simp)) hcs hfits (.inr hrest))
      (by simp [hrest])
  | cons second others ih =>
    obtain ⟨cs, parts', hcs, hparts', rfl⟩ := List.forall₂_cons_left_iff.1 hparts
    obtain ⟨mid, hfirst, hmid⟩ := Stream.begins_append.1 hs
    obtain ⟨pos, next, rfl, hnext⟩ := Stream.begins_cons.1 hmid
    rw [List.flatten_cons, ← List.append_assoc] at hfits ⊢
    have hone : (built ++ cs).length ≤ maxElements := by
      rw [List.length_append] at hfits
      exact (Nat.le_add_right _ _).trans hfits
    have others : ItemRow scope (built ++ cs) next (built ++ cs ++ parts'.flatten) rest := ih hnext
      (fun i hi => hnest i (List.mem_cons_of_mem _ hi)) hparts' hfits
    have hsound : next.IsSound := hnext.isSound (Stream.isSound_of_mark? hrest)
    exact .more (reads_lineItem hfirst (hnest first (by simp)) hcs hone (.inl rfl)) rfl
      (reads_comma.2 ⟨pos, rfl, hsound⟩) others

end BeamEnvelope.Glps
