import BeamEnvelope.Proofs.Glps.Evaluation
import BeamEnvelope.Proofs.Glps.LexicalTokens
import BeamEnvelope.Proofs.Glps.Printing

/-!
# What the statements of a source can bind

From lexical tokens only printable values arise, whatever operators and functions stand between
them, since no result is kept that is not finite. An environment is regular if its names are distinct
identifiers that are bound to printable values, to printable components of that name, or to lines of
components that are bound to their own names. Every statement keeps an environment regular.
-/

namespace BeamEnvelope.Glps

open Grammar

variable {env env' : Environment} {a v w : Value} {n : String}

theorem isFinite_of_finite? {x y : Float} (h : finite? x = some y) : y.isFinite = true := by
  unfold finite? at h
  split at h
  · rename_i hx
    obtain rfl := Option.some.inj h
    exact hx
  · cases h

theorem isFinite_of_mapM_finite? {α : Type} {f : α → Float} {xs : List α} {ys : List Float}
    (h : xs.mapM (fun x => finite? (f x)) = some ys) : ∀ y ∈ ys, y.isFinite = true := by
  rw [mapM_eq_some] at h
  induction h with
  | nil => exact fun y hy => absurd hy List.not_mem_nil
  | cons hx _ ih => exact List.forall_mem_cons.2 ⟨isFinite_of_finite? hx, ih⟩

theorem isPrintable_of_combine? {op : Operator} (h : combine? op v w = some a) :
    a.IsPrintable := by
  cases v with
  | scalar x =>
    cases w with
    | scalar y =>
      obtain ⟨z, hz, rfl⟩ := Option.map_eq_some_iff.1 h
      exact isFinite_of_finite? hz
    | vector ys =>
      obtain ⟨zs, hzs, rfl⟩ := Option.map_eq_some_iff.1 h
      exact isFinite_of_mapM_finite? hzs
    | text s => cases h
  | vector xs =>
    cases w with
    | scalar y =>
      obtain ⟨zs, hzs, rfl⟩ := Option.map_eq_some_iff.1 h
      exact isFinite_of_mapM_finite? hzs
    | vector ys =>
      unfold combine? at h
      dsimp only at h
      split at h
      · obtain ⟨zs, hzs, rfl⟩ := Option.map_eq_some_iff.1 h
        exact @isFinite_of_mapM_finite? Float id _ _ hzs
      · cases h
    | text s => cases h
  | text s => cases w <;> cases h

theorem isPrintable_of_opposite? (hv : v.IsPrintable) (h : opposite? v = some a) :
    a.IsPrintable := by
  cases v with
  | scalar x =>
    obtain rfl := Option.some.inj h
    exact (Double.isFinite_neg x).trans hv
  | vector xs =>
    obtain rfl := Option.some.inj h
    intro y hy
    obtain ⟨x, hx, rfl⟩ := List.mem_map.1 hy
    exact (Double.isFinite_neg x).trans (hv x hx)
  | text s => cases h

theorem isPrintable_of_result? {f : Function} (h : result? f v = some a) : a.IsPrintable := by
  cases v with
  | scalar x =>
    obtain ⟨y, hy, rfl⟩ := Option.map_eq_some_iff.1 h
    exact isFinite_of_finite? hy
  | vector xs => cases h
  | text s => cases h

theorem isFinite_of_scalar? {x : Float} (hv : v.IsPrintable) (h : v.scalar? = some x) :
    x.isFinite = true := by
  cases v with
  | scalar y =>
    obtain rfl := Option.some.inj h
    exact hv
  | vector xs => cases h
  | text s => cases h

def HasPrintableValues (env : Environment) : Prop :=
  ∀ n v, env.lookup n = some (.value v) → v.IsPrintable

mutual

theorem isPrintable_of_expression {v : Value} (henv : HasPrintableValues env) (e : Expression)
    (htokens : ∀ t ∈ e.tokens, t.IsLexical) (h : e.value? env = some v) : v.IsPrintable := by
  cases e with
  | term t => exact isPrintable_of_term henv t htokens h
  | sum l op r =>
    simp only [Expression.value?, Option.bind_eq_bind, Option.bind_eq_some_iff] at h
    obtain ⟨_, _, _, _, h⟩ := h
    exact isPrintable_of_combine? h

theorem isPrintable_of_term {v : Value} (henv : HasPrintableValues env) (t : Term)
    (htokens : ∀ u ∈ t.tokens, u.IsLexical) (h : t.value? env = some v) : v.IsPrintable := by
  cases t with
  | unary u => exact isPrintable_of_unary henv u htokens h
  | product l op r =>
    simp only [Term.value?, Option.bind_eq_bind, Option.bind_eq_some_iff] at h
    obtain ⟨_, _, _, _, h⟩ := h
    exact isPrintable_of_combine? h

theorem isPrintable_of_unary {v : Value} (henv : HasPrintableValues env) (u : Unary)
    (htokens : ∀ t ∈ u.tokens, t.IsLexical) (h : u.value? env = some v) : v.IsPrintable := by
  cases u with
  | negative u =>
    simp only [Unary.value?, Option.bind_eq_bind, Option.bind_eq_some_iff] at h
    obtain ⟨_, hu, h⟩ := h
    rw [Unary.tokens, List.forall_mem_cons] at htokens
    exact isPrintable_of_opposite? (isPrintable_of_unary henv u htokens.2 hu) h
  | primary p => exact isPrintable_of_primary henv p htokens h

theorem isPrintable_of_primary {v : Value} (henv : HasPrintableValues env) (p : Primary)
    (htokens : ∀ t ∈ p.tokens, t.IsLexical) (h : p.value? env = some v) : v.IsPrintable := by
  cases p with
  | literal l =>
    obtain rfl := Option.some.inj h
    have hl := htokens l.token (List.mem_singleton_self _)
    cases l with
    | number x => exact hl
    | text s => exact hl
  | name n =>
    simp only [Primary.value?, Option.bind_eq_bind, Option.bind_eq_some_iff] at h
    obtain ⟨symbol, hlookup, h⟩ := h
    cases symbol with
    | value w =>
      obtain rfl := Option.some.inj h
      exact henv n w hlookup
    | element c => cases h
    | line cs => cases h
  | call f e =>
    simp only [Primary.value?, Option.bind_eq_bind, Option.bind_eq_some_iff] at h
    obtain ⟨_, _, h⟩ := h
    exact isPrintable_of_result? h
  | parens e =>
    refine isPrintable_of_expression henv e (fun t ht => htokens t ?_) h
    rw [Primary.tokens]
    exact List.mem_cons_of_mem _ (List.mem_append_left _ ht)
  | emptyVector =>
    obtain rfl := Option.some.inj h
    exact fun x hx => absurd hx List.not_mem_nil
  | vector es =>
    simp only [Primary.value?, Option.bind_eq_bind, Option.bind_eq_some_iff] at h
    obtain ⟨xs, hxs, h⟩ := h
    obtain rfl := Option.some.inj h
    refine isFinite_of_entries henv es (fun t ht => htokens t ?_) hxs
    rw [Primary.tokens]
    exact List.mem_cons_of_mem _ (List.mem_append_left _ ht)

theorem isFinite_of_entries {xs : List Float} (henv : HasPrintableValues env) (es : Entries)
    (htokens : ∀ t ∈ es.tokens, t.IsLexical) (h : es.values? env = some xs) :
    ∀ x ∈ xs, x.isFinite = true := by
  cases es with
  | last e =>
    simp only [Entries.values?, Option.bind_eq_bind, Option.bind_eq_some_iff] at h
    obtain ⟨w, hw, y, hy, h⟩ := h
    obtain rfl := Option.some.inj h
    intro x hx
    obtain rfl := List.mem_singleton.1 hx
    exact isFinite_of_scalar? (isPrintable_of_expression henv e htokens hw) hy
  | cons e es =>
    simp only [Entries.values?, Option.bind_eq_bind, Option.bind_eq_some_iff] at h
    obtain ⟨w, hw, y, hy, ys, hys, h⟩ := h
    obtain rfl := Option.some.inj h
    rw [Entries.tokens, List.forall_mem_append, List.forall_mem_cons] at htokens
    exact List.forall_mem_cons.2
      ⟨isFinite_of_scalar? (isPrintable_of_expression henv e htokens.1 hw) hy,
        isFinite_of_entries henv es htokens.2.2 hys⟩

end

def IsBound (env : Environment) (n : String) : Symbol → Prop
  | .value v => v.IsPrintable
  | .element c => c.name = n ∧ c.IsPrintable
  | .line cs => cs.length ≤ maxElements ∧ ∀ c ∈ cs, (c.name, Symbol.element c) ∈ env

structure Regular (env : Environment) : Prop where
  distinct : (env.map (·.1)).Nodup
  isIdentifier : ∀ b ∈ env, isIdentifier b.1 = true
  isBound : ∀ b ∈ env, IsBound env b.1 b.2

variable {symbol : Symbol} {cs : List Component} {st : Statement}

theorem Regular.isBound_of_lookup (henv : Regular env) (h : env.lookup n = some symbol) :
    IsBound env n symbol :=
  henv.isBound (n, symbol) ((lookup_eq_some_iff_mem henv.distinct).1 h)

theorem Regular.hasPrintableValues (henv : Regular env) : HasPrintableValues env :=
  fun _ _ h => henv.isBound_of_lookup h

/-- Later definitions do not matter to a name that is bound. -/
theorem IsBound.append (h : IsBound env n symbol) (more : Environment) :
    IsBound (env ++ more) n symbol := by
  cases symbol with
  | value v => exact h
  | element c => exact h
  | line cs => exact ⟨h.1, fun c hc => List.mem_append_left _ (h.2 c hc)⟩

theorem Regular.mem_of_components? (henv : Regular env) (hlookup : env.lookup n = some symbol)
    (h : components? symbol = some cs) : ∀ c ∈ cs, (c.name, Symbol.element c) ∈ env := by
  cases symbol with
  | value v => cases h
  | element c =>
    obtain rfl := Option.some.inj h
    intro d hd
    obtain rfl := List.mem_singleton.1 hd
    rw [(henv.isBound_of_lookup hlookup).1]
    exact (lookup_eq_some_iff_mem henv.distinct).1 hlookup
  | line ds =>
    obtain rfl := Option.some.inj h
    exact (henv.isBound_of_lookup hlookup).2

theorem Regular.mem_of_item (henv : Regular env) {i : Item} (h : i.components? env = some cs) :
    ∀ c ∈ cs, (c.name, Symbol.element c) ∈ env := by
  cases i with
  | once n =>
    obtain ⟨symbol, hlookup, h⟩ := Option.bind_eq_some_iff.1 h
    exact henv.mem_of_components? hlookup h
  | repeated u n =>
    simp only [Item.components?, Option.bind_eq_bind, Option.bind_eq_some_iff] at h
    obtain ⟨_, _, count, _, symbol, hlookup, items, hitems, h⟩ := h
    obtain rfl := Option.some.inj h
    intro c hc
    obtain ⟨copy, hcopy, hc⟩ := List.mem_flatten.1 hc
    rw [List.eq_of_mem_replicate hcopy] at hc
    exact henv.mem_of_components? hlookup hitems c hc

theorem Regular.mem_of_items (henv : Regular env) {items : List Item}
    {parts : List (List Component)} (h : items.mapM (Item.components? env) = some parts) :
    ∀ c ∈ parts.flatten, (c.name, Symbol.element c) ∈ env := by
  rw [mapM_eq_some] at h
  induction h with
  | nil => exact fun c hc => absurd hc List.not_mem_nil
  | cons hi _ ih =>
    rw [List.flatten_cons, List.forall_mem_append]
    exact ⟨henv.mem_of_item hi, ih⟩

theorem Regular.isPrintableEntry_of_parameters (henv : Regular env)
    {params : List (String × Expression)} {values : List (String × Value)}
    (htokens : ∀ t ∈ params.flatMap parameterTokens, t.IsLexical)
    (h : params.mapM (parameterValue? env) = some values) :
    ∀ entry ∈ values, IsPrintableEntry entry := by
  rw [mapM_eq_some] at h
  induction h with
  | nil => exact fun entry hentry => absurd hentry List.not_mem_nil
  | cons hp _ ih =>
    rw [List.flatMap_cons, List.forall_mem_append] at htokens
    refine List.forall_mem_cons.2 ⟨?_, ih htokens.2⟩
    obtain ⟨v, hv, hentry⟩ := Option.bind_eq_some_iff.1 hp
    obtain rfl := Option.some.inj hentry
    simp only [parameterTokens, List.forall_mem_cons] at htokens
    obtain ⟨⟨-, hname, -, hvalue⟩, -⟩ := htokens
    exact ⟨hname, isPrintable_of_expression henv.hasPrintableValues _ hvalue hv⟩

/-- What a statement binds its name to. -/
theorem Regular.isBound_of_symbol? (henv : Regular env) (htokens : ∀ t ∈ st.tokens, t.IsLexical)
    (h : st.symbol? env = some symbol) : IsBound env st.name symbol := by
  cases st with
  | value n e =>
    obtain ⟨v, hv, hsymbol⟩ := Option.bind_eq_some_iff.1 h
    obtain rfl := Option.some.inj hsymbol
    simp only [Statement.tokens, List.forall_mem_cons, List.forall_mem_append] at htokens
    obtain ⟨-, -, he, -⟩ := htokens
    exact isPrintable_of_expression henv.hasPrintableValues e he hv
  | element n kind params =>
    obtain ⟨values, hvalues, hsymbol⟩ := Option.bind_eq_some_iff.1 h
    simp only [Option.ite_none_right_eq_some] at hsymbol
    obtain ⟨-, hsymbol⟩ := hsymbol
    obtain rfl := Option.some.inj hsymbol
    simp only [Statement.tokens, List.forall_mem_cons, List.forall_mem_append] at htokens
    obtain ⟨hname, -, hkind, hparams, -⟩ := htokens
    have hentries := henv.isPrintableEntry_of_parameters hparams hvalues
    exact ⟨rfl, hname, hkind, fun entry hentry => hentries entry (Dictionary.mem_of_mem_ofList hentry)⟩
  | line n keyword isLine first others =>
    obtain ⟨parts, hparts, hsymbol⟩ := Option.bind_eq_some_iff.1 h
    simp only [Option.ite_none_right_eq_some] at hsymbol
    obtain ⟨hfits, hsymbol⟩ := hsymbol
    obtain rfl := Option.some.inj hsymbol
    exact ⟨hfits, henv.mem_of_items hparts⟩

theorem Statement.isLexical_name (htokens : ∀ t ∈ st.tokens, t.IsLexical) :
    isIdentifier st.name = true := by
  cases st with
  | value n e => exact htokens (.name n) List.mem_cons_self
  | element n kind params => exact htokens (.name n) List.mem_cons_self
  | line n keyword isLine first others => exact htokens (.name n) List.mem_cons_self

/-- One statement keeps an environment regular. -/
theorem Regular.extend? (henv : Regular env) (htokens : ∀ t ∈ st.tokens, t.IsLexical)
    (h : st.extend? env = some env') : Regular env' := by
  obtain ⟨symbol, hsymbol, hextend⟩ := Option.bind_eq_some_iff.1 h
  simp only [Option.ite_none_left_eq_some] at hextend
  obtain ⟨hnew, hextend⟩ := hextend
  obtain rfl := Option.some.inj hextend
  have hbound := henv.isBound_of_symbol? htokens hsymbol
  have hfresh : st.name ∉ env.map (·.1) := by
    rw [← lookup_eq_none_iff_not_mem, ← Option.not_isSome_iff_eq_none]
    exact hnew
  refine ⟨?_, ?_, ?_⟩
  · rw [List.map_append]
    refine List.nodup_append.2 ⟨henv.distinct, List.nodup_singleton _, ?_⟩
    rintro n hn m hm rfl
    obtain rfl := List.mem_singleton.1 hm
    exact hfresh hn
  · rw [List.forall_mem_append]
    exact ⟨henv.isIdentifier, List.forall_mem_singleton.2 (Statement.isLexical_name htokens)⟩
  · rw [List.forall_mem_append]
    exact ⟨fun b hb => (henv.isBound b hb).append _, List.forall_mem_singleton.2 (hbound.append _)⟩

/-- So does every program, and it starts from no definition. -/
theorem Regular.foldlM {p : Program} (henv : Regular env) (htokens : ∀ t ∈ p.tokens, t.IsLexical)
    (h : p.foldlM Statement.extend? env = some env') : Regular env' := by
  induction p generalizing env with
  | nil =>
    obtain rfl := Option.some.inj h
    exact henv
  | cons st p ih =>
    rw [Program.tokens, List.flatMap_cons, List.forall_mem_append] at htokens
    obtain ⟨next, hnext, h⟩ := Option.bind_eq_some_iff.1 h
    exact ih (henv.extend? htokens.1 hnext) htokens.2 h

theorem regular_nil : Regular [] := ⟨List.nodup_nil, by simp, by simp⟩

end BeamEnvelope.Glps
