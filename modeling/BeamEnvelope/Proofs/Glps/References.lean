import BeamEnvelope.Proofs.Glps.Grammar
import BeamEnvelope.Proofs.Result

/-!
# The names that a tree refers to

A tree looks up the names of values, elements and lines that stand in it. The names of functions,
kinds and parameters are not looked up. So a tree has the same value in any two environments that
bind the names it refers to alike.
-/

namespace BeamEnvelope.Glps.Grammar

variable {env env' : Environment}

mutual

def Expression.references : Expression → List String
  | .term t => t.references
  | .sum l _ r => l.references ++ r.references

def Term.references : Term → List String
  | .unary u => u.references
  | .product l _ r => l.references ++ r.references

def Unary.references : Unary → List String
  | .negative u => u.references
  | .primary p => p.references

def Primary.references : Primary → List String
  | .name n => [n]
  | .call _ e | .parens e => e.references
  | .vector es => es.references
  | _ => []

def Entries.references : Entries → List String
  | .last e => e.references
  | .cons e es => e.references ++ es.references

end

def Item.references : Item → List String
  | once n => [n]
  | repeated u n => u.references ++ [n]

def Statement.references : Statement → List String
  | value _ e => e.references
  | element _ _ params => params.flatMap (·.2.references)
  | line _ _ _ first others => (first :: others).flatMap Item.references

/-- The environments bind the names alike. -/
def AlikeOn (names : List String) (env env' : Environment) : Prop :=
  ∀ n ∈ names, env.lookup n = env'.lookup n

theorem AlikeOn.subset {names names' : List String} (h : AlikeOn names env env')
    (hsub : names' ⊆ names) : AlikeOn names' env env' := fun n hn => h n (hsub hn)

theorem AlikeOn.left {names names' : List String} (h : AlikeOn (names ++ names') env env') :
    AlikeOn names env env' := h.subset (List.subset_append_left _ _)

theorem AlikeOn.right {names names' : List String} (h : AlikeOn (names ++ names') env env') :
    AlikeOn names' env env' := h.subset (List.subset_append_right _ _)

mutual

theorem Expression.value?_congr : (e : Expression) → AlikeOn e.references env env' →
    e.value? env = e.value? env'
  | .term t, h => Term.value?_congr t h
  | .sum l op r, h => by
    rw [Expression.value?, Expression.value?, Expression.value?_congr l h.left,
      Term.value?_congr r h.right]

theorem Term.value?_congr : (t : Term) → AlikeOn t.references env env' →
    t.value? env = t.value? env'
  | .unary u, h => Unary.value?_congr u h
  | .product l op r, h => by
    rw [Term.value?, Term.value?, Term.value?_congr l h.left, Unary.value?_congr r h.right]

theorem Unary.value?_congr : (u : Unary) → AlikeOn u.references env env' →
    u.value? env = u.value? env'
  | .negative u, h => by rw [Unary.value?, Unary.value?, Unary.value?_congr u h]
  | .primary p, h => Primary.value?_congr p h

theorem Primary.value?_congr : (p : Primary) → AlikeOn p.references env env' →
    p.value? env = p.value? env'
  | .literal l, _ => rfl
  | .name n, h => by
    rw [Primary.value?, Primary.value?, h n (by simp [Primary.references])]
  | .call f e, h => by rw [Primary.value?, Primary.value?, Expression.value?_congr e h]
  | .parens e, h => Expression.value?_congr e h
  | .emptyVector, _ => rfl
  | .vector es, h => by rw [Primary.value?, Primary.value?, Entries.values?_congr es h]

theorem Entries.values?_congr : (es : Entries) → AlikeOn es.references env env' →
    es.values? env = es.values? env'
  | .last e, h => by rw [Entries.values?, Entries.values?, Expression.value?_congr e h]
  | .cons e es, h => by
    rw [Entries.values?, Entries.values?, Expression.value?_congr e h.left,
      Entries.values?_congr es h.right]

end

theorem Item.components?_congr (i : Item) (h : AlikeOn i.references env env') :
    i.components? env = i.components? env' := by
  cases i with
  | once n => rw [Item.components?, Item.components?, h n (by simp [Item.references])]
  | repeated u n =>
    rw [Item.components?, Item.components?, Unary.value?_congr u h.left,
      h n (by simp [Item.references])]

theorem parameterValue?_congr (p : String × Expression) (h : AlikeOn p.2.references env env') :
    parameterValue? env p = parameterValue? env' p := by
  rw [parameterValue?, parameterValue?, Expression.value?_congr p.2 h]

/-- A statement binds its name to the same thing wherever the names it refers to are bound alike. -/
theorem Statement.symbol?_congr (st : Statement) (h : AlikeOn st.references env env') :
    st.symbol? env = st.symbol? env' := by
  cases st with
  | value n e => rw [Statement.symbol?, Statement.symbol?, Expression.value?_congr e h]
  | element n kind params =>
    have hparams : params.mapM (parameterValue? env) = params.mapM (parameterValue? env') :=
      mapM_congr fun p hp => parameterValue?_congr p
        (h.subset fun m hm => List.mem_flatMap.2 ⟨p, hp, hm⟩)
    rw [Statement.symbol?, Statement.symbol?, hparams]
  | line n keyword hline first others =>
    have hitems : (first :: others).mapM (Item.components? env) =
        (first :: others).mapM (Item.components? env') :=
      mapM_congr fun i hi => Item.components?_congr i
        (h.subset fun m hm => List.mem_flatMap.2 ⟨i, hi, hm⟩)
    rw [Statement.symbol?, Statement.symbol?, hitems]

end BeamEnvelope.Glps.Grammar
