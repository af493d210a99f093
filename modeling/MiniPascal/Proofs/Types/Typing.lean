import MiniPascal.Machine.Eval

/-!
Types of expressions, as the declarations tell them. The machine checks types only when an
operation is applied and when a value is stored; what it accepts then is what is said here
beforehand. A program is well typed if every expression in it has a type, and every value that
is stored fits its variable or parameter.
-/

namespace MiniPascal

/-! ### Operators -/

def DataType.numeric : DataType → Bool
  | .string => false
  | _ => true

/-- The type of the result, if the operator can be applied to operands of these types. -/
def BinaryOp.type? (op : BinaryOp) (left right : DataType) : Option DataType :=
  match op, left, right with
  | .add, .string, .string => some .string
  | op, left, right =>
      if left.numeric && right.numeric then
        match op with
        | .realDiv => some .real
        | .integerDiv => some .integer
        | _ => if left = .integer ∧ right = .integer then some .integer else some .real
      else none

/-- A sign keeps the type of a number. -/
def UnaryOp.type? (_ : UnaryOp) (operand : DataType) : Option DataType :=
  if operand.numeric then some operand else none

/-- Faults that come from the types of the operands. -/
inductive ArithmeticFault.OfTypes : ArithmeticFault → Prop
  | operands (op : BinaryOp) (left right : DataType) : OfTypes (.invalidOperands op left right)
  | operand (op : UnaryOp) (operand : DataType) : OfTypes (.invalidOperand op operand)

theorem Value.type_of_ofInt {n : Int} {v : Value} (h : Value.ofInt n = .ok v) :
    v.type = .integer := by
  rw [Value.ofInt] at h
  split at h <;> cases h
  rfl

theorem Value.type_of_ofFloat {op : BinaryOp} {x : Float} {v : Value}
    (h : Value.ofFloat op x = .ok v) : v.type = .real := by
  rw [Value.ofFloat] at h
  split at h <;> cases h
  rfl

theorem Value.not_ofTypes_of_ofInt {n : Int} {fault : ArithmeticFault}
    (h : Value.ofInt n = .error fault) : ¬ fault.OfTypes := by
  rw [Value.ofInt] at h
  split at h <;> cases h
  rintro ⟨⟩

theorem Value.not_ofTypes_of_ofFloat {op : BinaryOp} {x : Float} {fault : ArithmeticFault}
    (h : Value.ofFloat op x = .error fault) : ¬ fault.OfTypes := by
  rw [Value.ofFloat] at h
  split at h <;> cases h
  rintro ⟨⟩

namespace BinaryOp

variable {op : BinaryOp}

theorem type_of_applyReals {a b : Float} {v : Value} (h : op.applyReals a b = .ok v) :
    v.type = if op = .integerDiv then .integer else .real := by
  cases op with
  | add => exact Value.type_of_ofFloat h
  | sub => exact Value.type_of_ofFloat h
  | mul => exact Value.type_of_ofFloat h
  | realDiv =>
      simp only [applyReals] at h
      split at h
      · cases h
      · exact Value.type_of_ofFloat h
  | integerDiv =>
      simp only [applyReals] at h
      split at h
      · cases h
      · split at h
        · exact Value.type_of_ofInt h
        · cases h

theorem not_ofTypes_of_applyReals {a b : Float} {fault : ArithmeticFault}
    (h : op.applyReals a b = .error fault) : ¬ fault.OfTypes := by
  cases op with
  | add => exact Value.not_ofTypes_of_ofFloat h
  | sub => exact Value.not_ofTypes_of_ofFloat h
  | mul => exact Value.not_ofTypes_of_ofFloat h
  | realDiv =>
      simp only [applyReals] at h
      split at h
      · cases h
        rintro ⟨⟩
      · exact Value.not_ofTypes_of_ofFloat h
  | integerDiv =>
      simp only [applyReals] at h
      split at h
      · cases h
        rintro ⟨⟩
      · split at h
        · exact Value.not_ofTypes_of_ofInt h
        · cases h
          rintro ⟨⟩

/-- The result of an operator has the type that the types of the operands tell. -/
theorem type?_of_apply {left right v : Value} (h : op.apply left right = .ok v) :
    op.type? left.type right.type = some v.type := by
  unfold apply at h
  split at h
  · cases h
    rfl
  · rw [Value.type_of_ofInt h]
    rfl
  · rw [Value.type_of_ofInt h]
    rfl
  · rw [Value.type_of_ofInt h]
    rfl
  · split at h
    · cases h
    · rw [Value.type_of_ofInt h]
      rfl
  next hstrings hadd hsub hmul hdiv =>
    split at h
    next a b hleft hright =>
      rw [type_of_applyReals h]
      -- At least one operand is a real here, unless the operator is the division of reals.
      cases op <;> cases left <;> cases right <;> simp_all [Value.toReal?, type?, Value.type,
        DataType.numeric]
    next => cases h

/-- An operator complains about the types of its operands only where they have no type
together. -/
theorem type?_of_apply_error {left right : Value} {fault : ArithmeticFault}
    (h : op.apply left right = .error fault) (hfault : fault.OfTypes) :
    op.type? left.type right.type = none := by
  unfold apply at h
  split at h
  · cases h
  · exact absurd hfault (Value.not_ofTypes_of_ofInt h)
  · exact absurd hfault (Value.not_ofTypes_of_ofInt h)
  · exact absurd hfault (Value.not_ofTypes_of_ofInt h)
  · split at h
    · cases h
      cases hfault
    · exact absurd hfault (Value.not_ofTypes_of_ofInt h)
  next hstrings hadd hsub hmul hdiv =>
    split at h
    next => exact absurd hfault (not_ofTypes_of_applyReals h)
    next hnone =>
      cases op <;> cases left <;> cases right <;> simp_all [Value.toReal?, type?, Value.type,
        DataType.numeric]

end BinaryOp

theorem UnaryOp.type?_of_apply {op : UnaryOp} {operand v : Value}
    (h : op.apply operand = .ok v) :
    op.type? operand.type = some v.type := by
  unfold apply at h
  split at h
  · cases h
  next hstring =>
    cases h
    cases operand with
    | integer n => rfl
    | real x => rfl
    | string s => exact absurd rfl (hstring s)
  · rw [Value.type_of_ofInt h]
    rfl
  · cases h
    rfl

theorem UnaryOp.type?_of_apply_error {op : UnaryOp} {operand : Value} {fault : ArithmeticFault}
    (h : op.apply operand = .error fault) (hfault : fault.OfTypes) :
    op.type? operand.type = none := by
  unfold apply at h
  split at h
  · rfl
  · cases h
  · exact absurd hfault (Value.not_ofTypes_of_ofInt h)
  · cases h

/-! ### Storing -/

/-- A variable takes values of its own type, and a real one takes integers too. -/
def DataType.accepts (declared actual : DataType) : Bool :=
  actual = declared || (declared = .real && actual = .integer)

theorem DataType.accepts_iff_coerce? (declared : DataType) (v : Value) :
    declared.accepts v.type = (v.coerce? declared).isSome := by
  cases v <;> cases declared <;> rfl

/-! ### Expressions and statements -/

namespace Analysis

/-- The type of an expression, which a variable has from its declaration. -/
def type? (a : Analysis) : Expr → Option DataType
  | .var v => (a.binding? v.id).map VarBinding.type
  | .binary op left right _ => do op.type? (← a.type? left) (← a.type? right)
  | .unary op operand _ => do op.type? (← a.type? operand)
  | .literal v => some v.type

/-- The expression has a type, and a variable that is declared with `declared` takes it. -/
def fits (a : Analysis) (declared : DataType) (e : Expr) : Bool :=
  (a.type? e).any declared.accepts

mutual

/-- Every expression of the statement has a type, and every value that is stored fits. -/
def types (a : Analysis) : Statement → Bool
  | .compound body => a.typesAll body
  | .assign target value => (a.binding? target.id).any fun b => a.fits b.type value
  | .call c =>
      (a.procedure? c.id).any fun p =>
        (p.params.zip c.args).all fun (param, arg) => a.fits param.type arg
  | .write _ args _ => args.all fun e => (a.type? e).isSome
  | .empty => true

def typesAll (a : Analysis) : List Statement → Bool
  | [] => true
  | s :: body => a.types s && a.typesAll body

end

mutual

/-- The body of the block and those of all procedures in it are well typed. -/
def typesBlock (a : Analysis) : Block → Bool
  | .mk _ procedures body => a.typesProcedures procedures && a.typesAll body

def typesProcedure (a : Analysis) : Procedure → Bool
  | .mk _ _ _ block => a.typesBlock block

def typesProcedures (a : Analysis) : List Procedure → Bool
  | [] => true
  | p :: procedures => a.typesProcedure p && a.typesProcedures procedures

end

variable {a : Analysis}

theorem typesAll_iff {body : List Statement} :
    a.typesAll body = true ↔ ∀ s ∈ body, a.types s = true := by
  induction body with
  | nil => simp [typesAll]
  | cons s body ih => simp [typesAll, ih]

theorem typesProcedures_iff {procedures : List Procedure} :
    a.typesProcedures procedures = true ↔ ∀ p ∈ procedures, a.typesBlock p.block = true := by
  induction procedures with
  | nil => simp [typesProcedures]
  | cons p procedures ih =>
      obtain ⟨name, position, params, block⟩ := p
      simp [typesProcedures, typesProcedure, ih, Procedure.block]

theorem typesBlock_iff {block : Block} :
    a.typesBlock block = true ↔
      (∀ p ∈ block.procedures, a.typesBlock p.block = true) ∧
        ∀ s ∈ block.body, a.types s = true := by
  obtain ⟨vars, procedures, body⟩ := block
  rw [typesBlock, Bool.and_eq_true, typesProcedures_iff, typesAll_iff]
  rfl

theorem fits_eq_false_of_none {declared : DataType} {e : Expr} (h : a.type? e = none) :
    a.fits declared e = false := by
  rw [fits, h, Option.any_none]

theorem fits_eq_of_some {declared type : DataType} {e : Expr} (h : a.type? e = some type) :
    a.fits declared e = declared.accepts type := by
  rw [fits, h, Option.any_some]

end Analysis

end MiniPascal
