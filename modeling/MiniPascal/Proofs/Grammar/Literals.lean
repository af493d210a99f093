import MiniPascal.Proofs.Grammar.DerivedTree

/-!
The literals of a tree. Those of a derived tree are values of literals among its tokens.
-/

namespace MiniPascal

def Expr.literals : Expr → List Value
  | .var _ => []
  | .binary _ left right _ => left.literals ++ right.literals
  | .unary _ operand _ => operand.literals
  | .literal v => [v]

namespace Statement

mutual

def literals : Statement → List Value
  | .compound body => literalsAll body
  | .assign _ value => value.literals
  | .call c => c.args.flatMap Expr.literals
  | .write _ args _ => args.flatMap Expr.literals
  | .empty => []

def literalsAll : List Statement → List Value
  | [] => []
  | s :: statements => s.literals ++ literalsAll statements

end

theorem literalsAll_eq_flatMap (body : List Statement) :
    literalsAll body = body.flatMap literals := by
  induction body with
  | nil => rfl
  | cons s body ih => rw [literalsAll, List.flatMap_cons, ih]

theorem literals_subset_of_mem {s : Statement} {body : List Statement} (h : s ∈ body) :
    s.literals ⊆ literalsAll body := by
  intro v hv
  rw [literalsAll_eq_flatMap]
  exact List.mem_flatMap.mpr ⟨s, h, hv⟩

end Statement

mutual

def Block.literals : Block → List Value
  | .mk _ procedures body => Procedure.literalsAll procedures ++ Statement.literalsAll body

def Procedure.literals : Procedure → List Value
  | .mk _ _ _ block => block.literals

def Procedure.literalsAll : List Procedure → List Value
  | [] => []
  | p :: procedures => p.literals ++ Procedure.literalsAll procedures

end

theorem Procedure.literalsAll_eq_flatMap (procedures : List Procedure) :
    literalsAll procedures = procedures.flatMap literals := by
  induction procedures with
  | nil => rfl
  | cons p procedures ih => rw [literalsAll, List.flatMap_cons, ih]

namespace Grammar

/-- Every value is that of a literal among the tokens. -/
def Holds (ts : List Token) (_ : NodeId) (vs : List Value) (_ : NodeId) : Prop :=
  ∀ v ∈ vs, ∃ t ∈ ts, IsLiteral t.kind ∧ t.value = some v

theorem additive_holds : Additive Holds where
  nil _ := by simp [Holds]
  token _ _ := by simp [Holds]
  append := by
    intro ts us i j k vs ws hvs hws v hv
    rcases List.mem_append.mp hv with hv | hv
    · obtain ⟨t, ht, hvalue⟩ := hvs v hv
      exact ⟨t, List.mem_append_left us ht, hvalue⟩
    · obtain ⟨t, ht, hvalue⟩ := hws v hv
      exact ⟨t, List.mem_append_right ts ht, hvalue⟩

theorem Chain.gathers_literals {Op : Token.Kind → BinaryOp → Prop}
    {Operand : Judgment Expr} {n : Nat} (hoperand : Gathers Holds Operand Expr.literals n) :
    Gathers Holds (Chain Op Operand) Expr.literals n := by
  intro d ts i e j h hd
  induction h with
  | one he => exact hoperand he hd
  | more _ _ hright ih =>
      obtain ⟨hd, hd'⟩ := Nat.max_le.mp hd
      exact additive_holds.append (ih hd) (additive_holds.cons _ (hoperand hright hd'))

theorem IsFactor.gathers_literals (n : Nat) : Gathers Holds IsFactor Expr.literals n := by
  have hliteral : ∀ {t : Token} {v : Value} {i : NodeId}, IsLiteral t.kind → t.value = some v →
      Holds [t] i [v] i := by
    intro t v i hkind hvalue w hw
    rw [List.mem_singleton.mp hw]
    exact ⟨t, List.mem_singleton_self t, hkind, hvalue⟩
  induction n with
  | zero =>
      intro d ts i e j h hd
      cases h with
      | signed _ _ => cases hd
      | parenthesized _ _ _ => cases hd
      | literal hkind hvalue => exact hliteral hkind hvalue
      | var _ => exact additive_holds.token _ i
  | succ n ih =>
      intro d ts i e j h hd
      cases h with
      | literal hkind hvalue => exact hliteral hkind hvalue
      | var _ => exact additive_holds.token _ i
      | signed _ he =>
          have hoperand := ih he (Nat.le_of_succ_le_succ hd)
          exact additive_holds.cons _ hoperand
      | parenthesized _ he _ =>
          have hinner := Chain.gathers_literals (Chain.gathers_literals ih) he
            (Nat.le_of_succ_le_succ hd)
          exact additive_holds.cons _ (additive_holds.append_tokens hinner _)

theorem IsExpr.gathers_literals (n : Nat) : Gathers Holds IsExpr Expr.literals n :=
  Chain.gathers_literals (Chain.gathers_literals (IsFactor.gathers_literals n))

theorem IsArguments.gathers_literals (n : Nat) :
    Gathers Holds IsArguments (List.flatMap Expr.literals) n :=
  Bracketed.gathers additive_holds
    (Separated.gathers additive_holds (IsExpr.gathers_literals n))

theorem IsStatement.gathers_literals {n : Nat}
    (hcompound : Gathers Holds IsCompound Statement.literalsAll n) :
    Gathers Holds IsStatement Statement.literals n := by
  intro d ts i s j h hd
  cases h with
  | compound hbody => exact hcompound hbody hd
  | assign _ _ he =>
      have hvalue := IsExpr.gathers_literals n he hd
      exact additive_holds.cons _ (additive_holds.cons _ hvalue)
  | call _ hargs | write _ hargs =>
      have hvalues := IsArguments.gathers_literals n hargs hd
      exact additive_holds.cons _ hvalues
  | empty => exact additive_holds.nil i

theorem IsCompound.gathers_literals (n : Nat) :
    Gathers Holds IsCompound Statement.literalsAll n := by
  induction n with
  | zero =>
      rintro d _ i body j ⟨_, _, _⟩ hd
      cases hd
  | succ n ih =>
      rintro d _ i body j ⟨_, hbody, _⟩ hd
      rw [Statement.literalsAll_eq_flatMap]
      have hinner := Separated.gathers additive_holds (IsStatement.gathers_literals ih) hbody
        (Nat.le_of_succ_le_succ hd)
      exact additive_holds.cons _ (additive_holds.append_tokens hinner _)

theorem IsProcedure.gathers_literals {n : Nat}
    (hblock : Gathers Holds IsBlock Block.literals n) :
    Gathers Holds IsProcedure Procedure.literals n := by
  rintro d _ i proc j ⟨_, _, hparams, _, hb, _⟩ hd
  obtain ⟨hd, hd'⟩ := Nat.max_le.mp hd
  have hgroups := IsParams.gathers (f := fun _ => []) additive_holds
    (IsName.gathers_nil additive_holds n) hparams hd
  simp only [flatMap_nil_eq] at hgroups
  have hinner := additive_holds.append_tokens (hblock hb hd')
  exact additive_holds.cons _
    (additive_holds.cons _ (additive_holds.append hgroups (additive_holds.cons _ (hinner _))))

theorem IsBlock.gathers_literals (n : Nat) : Gathers Holds IsBlock Block.literals n := by
  induction n with
  | zero =>
      rintro d _ i b j ⟨_, _, _⟩ hd
      cases hd
  | succ n ih =>
      rintro d _ i b j ⟨hsections, hprocedures, hbody⟩ hd
      obtain ⟨hd, hd'⟩ := Nat.max_le.mp (Nat.le_of_succ_le_succ hd)
      obtain ⟨hd', hd''⟩ := Nat.max_le.mp hd'
      have hvars := IsSections.gathers (f := fun _ => []) additive_holds
        (IsName.gathers_nil additive_holds n) hsections hd
      simp only [flatMap_nil_eq] at hvars
      have hprocs :=
        Many.gathers additive_holds (IsProcedure.gathers_literals ih) hprocedures hd'
      rw [← Procedure.literalsAll_eq_flatMap] at hprocs
      have hall := additive_holds.append hvars
        (additive_holds.append hprocs (IsCompound.gathers_literals n hbody hd''))
      exact hall

theorem IsProgram.holds_literals {d : Nat} {ts : List Token} {program : Program}
    (h : IsProgram d ts program) :
    ∀ v ∈ program.block.literals, ∃ t ∈ ts, IsLiteral t.kind ∧ t.value = some v := by
  obtain ⟨_, _, _, hblock, _⟩ := h
  have hinner :=
    additive_holds.append_tokens (IsBlock.gathers_literals d hblock (Nat.le_refl d))
  exact additive_holds.cons _ (additive_holds.cons _ (additive_holds.cons _ (hinner _)))

end Grammar

end MiniPascal
