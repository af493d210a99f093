import Mathlib.Algebra.Order.Ring.Int
import MiniPascal.Proofs.Machine.Steps

/-!
Expressions over integers. Their exact values are said without any bound, as a relation that
follows the tree; the machine computes in words of 64 bits. It finds the exact value if the
value of every node fits into a word; otherwise it stops at the first node that cannot be
computed, where operands come before their operation and the left one before the right one.
-/

namespace MiniPascal

/-! ### Exact values -/

/-- The quotient `q` of `x` and `y`, cut off toward zero: what remains is smaller than `y`, and
it has the sign of `x` if there is any. -/
def IsQuotient (x y q : Int) : Prop :=
  ∃ r : Int, x = y * q + r ∧ r.natAbs < y.natAbs ∧ (r = 0 ∨ r.sign = x.sign)

theorem IsQuotient.ne_zero {x y q : Int} (h : IsQuotient x y q) : y ≠ 0 := by
  rintro rfl
  obtain ⟨r, -, hr, -⟩ := h
  exact absurd hr (Nat.not_lt_zero _)

theorem isQuotient_tdiv (x : Int) {y : Int} (hy : y ≠ 0) : IsQuotient x y (x.tdiv y) := by
  refine ⟨x.tmod y, (Int.mul_tdiv_add_tmod x y).symm, ?_, ?_⟩
  · rw [Int.natAbs_tmod]
    exact Nat.mod_lt _ (Int.natAbs_pos.mpr hy)
  · rcases Int.lt_trichotomy x 0 with hx | rfl | hx
    · have hneg : 0 ≤ (-x).tmod y := Int.tmod_nonneg y (by omega)
      rw [Int.neg_tmod] at hneg
      rcases Int.lt_or_eq_of_le (show x.tmod y ≤ 0 by omega) with hr | hr
      · exact .inr ((Int.sign_eq_neg_one_of_neg hr).trans (Int.sign_eq_neg_one_of_neg hx).symm)
      · exact .inl hr
    · exact .inl (Int.zero_tmod y)
    · have hpos : 0 ≤ x.tmod y := Int.tmod_nonneg y (Int.le_of_lt hx)
      rcases Int.lt_or_eq_of_le hpos with hr | hr
      · exact .inr ((Int.sign_eq_one_of_pos hr).trans (Int.sign_eq_one_of_pos hx).symm)
      · exact .inl hr.symm

theorem IsQuotient.unique {x y q q' : Int} (h : IsQuotient x y q) (h' : IsQuotient x y q') :
    q = q' := by
  have hy := h.ne_zero
  obtain ⟨r, hx, hr, hsign⟩ := h
  obtain ⟨r', hx', hr', hsign'⟩ := h'
  have hside : ∀ {t : Int}, t = 0 ∨ t.sign = x.sign → (0 ≤ x → 0 ≤ t) ∧ (x ≤ 0 → t ≤ 0) := by
    rintro t (rfl | ht)
    · exact ⟨fun _ => Int.le_refl 0, fun _ => Int.le_refl 0⟩
    · refine ⟨fun hx => ?_, fun hx => ?_⟩
      · rwa [← Int.sign_nonneg_iff, ht, Int.sign_nonneg_iff]
      · rwa [← Int.sign_nonpos_iff, ht, Int.sign_nonpos_iff]
  -- Both remainders are on the same side of zero, so they differ by less than the divisor.
  have hclose : (r' - r).natAbs < y.natAbs := by
    obtain ⟨hpos, hneg⟩ := hside hsign
    obtain ⟨hpos', hneg'⟩ := hside hsign'
    omega
  have hmul : y * (q - q') = r' - r := by
    rw [Int.mul_sub]
    omega
  have hzero : r' - r = 0 := Int.eq_zero_of_dvd_of_natAbs_lt_natAbs ⟨_, hmul.symm⟩ hclose
  rcases Int.mul_eq_zero.mp (hmul.trans hzero) with h0 | h0
  · exact absurd h0 hy
  · omega

/-- `z` is the exact result of the operator. -/
def BinaryOp.Yields (op : BinaryOp) (x y z : Int) : Prop :=
  match op with
  | .add => z = x + y
  | .sub => z = x - y
  | .mul => z = x * y
  | .integerDiv => IsQuotient x y z
  | .realDiv => False

theorem BinaryOp.Yields.unique {op : BinaryOp} {x y z z' : Int} (h : op.Yields x y z)
    (h' : op.Yields x y z') : z = z' := by
  cases op with
  | integerDiv => exact IsQuotient.unique h h'
  | realDiv => cases h
  | _ => exact Eq.trans h (Eq.symm h')

def UnaryOp.exact (op : UnaryOp) (x : Int) : Int :=
  match op with
  | .plus => x
  | .minus => -x

/-- The integers of 64 bits. -/
def FitsWord (z : Int) : Prop := -2 ^ 63 ≤ z ∧ z ≤ 2 ^ 63 - 1

theorem fitsWord_toInt (n : Int64) : FitsWord n.toInt := by
  have hlt := n.toInt_lt
  have hle := n.le_toInt
  rw [FitsWord]
  omega

/-- All nodes of an expression, operands before their operation and the left one first. -/
def Expr.nodes : Expr → List Expr
  | .var v => [.var v]
  | .binary op left right position =>
      left.nodes ++ right.nodes ++ [.binary op left right position]
  | .unary op operand position => operand.nodes ++ [.unary op operand position]
  | .literal v => [.literal v]

namespace Analysis

variable (a : Analysis) (s : CallStack)

/-- The frame that the variable belongs to has the integer `n` under its name. -/
def Holds (v : Variable) (n : Int64) : Prop :=
  ∃ b i, a.binding? v.id = some b ∧ s.findLevel b.level = .found i ∧
    (s.get? i).bind (·.get? v.name) = some (.integer n)

/-- Built from integer literals and variables that hold integers, with `+`, `-`, `*`, `DIV` and
signs. -/
inductive Integral : Expr → Prop
  | literal (n : Int64) : Integral (.literal (.integer n))
  | var {v : Variable} {n : Int64} : a.Holds s v n → Integral (.var v)
  | binary {op : BinaryOp} {left right : Expr} {position : Position} : op ≠ .realDiv →
      Integral left → Integral right → Integral (.binary op left right position)
  | unary {op : UnaryOp} {operand : Expr} {position : Position} : Integral operand →
      Integral (.unary op operand position)

/-- The exact value of an expression, however large. There is none if something is divided by
zero. -/
inductive Exact : Expr → Int → Prop
  | literal (n : Int64) : Exact (.literal (.integer n)) n.toInt
  | var {v : Variable} {n : Int64} : a.Holds s v n → Exact (.var v) n.toInt
  | binary {op : BinaryOp} {left right : Expr} {position : Position} {x y z : Int} :
      Exact left x → Exact right y → op.Yields x y z → Exact (.binary op left right position) z
  | unary {op : UnaryOp} {operand : Expr} {position : Position} {x : Int} :
      Exact operand x → Exact (.unary op operand position) (op.exact x)

/-- The exact value of the node is there, and it fits. -/
def Fits (e : Expr) : Prop := ∃ z, a.Exact s e z ∧ FitsWord z

/-- The node cannot be computed, with what is wrong and where its operator stands. -/
inductive Breaks : Expr → ArithmeticFault → Position → Prop
  | divisionByZero {left right : Expr} {position : Position} : a.Exact s right 0 →
      Breaks (.binary .integerDiv left right position) .divisionByZero position
  | binary {op : BinaryOp} {left right : Expr} {position : Position} {z : Int} :
      a.Exact s (.binary op left right position) z → ¬ FitsWord z →
      Breaks (.binary op left right position) .integerOverflow position
  | unary {op : UnaryOp} {operand : Expr} {position : Position} {z : Int} :
      a.Exact s (.unary op operand position) z → ¬ FitsWord z →
      Breaks (.unary op operand position) .integerOverflow position

variable {a s}

theorem load_of_holds {v : Variable} {n : Int64} (h : a.Holds s v n) :
    a.load s v = .ok (.integer n) := by
  obtain ⟨b, i, hb, hi, hvalue⟩ := h
  rw [load_eq hb hi, hvalue]
  rfl

theorem Exact.unique {e : Expr} {z z' : Int} (h : a.Exact s e z) (h' : a.Exact s e z') :
    z = z' := by
  induction h generalizing z' with
  | literal n =>
      cases h'
      rfl
  | var hv =>
      cases h' with
      | var hv' =>
          have hsame := (load_of_holds hv).symm.trans (load_of_holds hv')
          cases hsame
          rfl
  | binary _ _ hz ihl ihr =>
      cases h' with
      | binary hl' hr' hz' =>
          obtain rfl := ihl hl'
          obtain rfl := ihr hr'
          exact hz.unique hz'
  | unary _ ih =>
      cases h' with
      | unary he' => rw [ih he']

/-- The right operand of a division that has a value is not zero. -/
theorem Fits.not_exact_zero {left right : Expr} {position : Position}
    (h : a.Fits s (.binary .integerDiv left right position)) : ¬ a.Exact s right 0 := by
  intro hzero
  obtain ⟨z, hz, -⟩ := h
  cases hz with
  | binary _ hright hquotient => exact IsQuotient.ne_zero hquotient (hright.unique hzero)

theorem Breaks.not_fits {e : Expr} {fault : ArithmeticFault} {position : Position}
    (h : a.Breaks s e fault position) : ¬ a.Fits s e := by
  intro hfits
  cases h with
  | divisionByZero hzero => exact hfits.not_exact_zero hzero
  | binary hz hlarge | unary hz hlarge =>
      obtain ⟨z', hz', hfits⟩ := hfits
      exact hlarge (hz.unique hz' ▸ hfits)

end Analysis

/-! ### One operation -/

theorem Value.ofInt_cases (z : Int) :
    (∃ n : Int64, Value.ofInt z = .ok (.integer n) ∧ n.toInt = z) ∨
      Value.ofInt z = .error .integerOverflow ∧ ¬ FitsWord z := by
  rw [Value.ofInt]
  split
  next hz =>
    simp only [minInteger, maxInteger] at hz
    exact .inl ⟨Int64.ofInt z, rfl, Int64.toInt_ofInt_of_le (by omega) (by omega)⟩
  next hz =>
    simp only [minInteger, maxInteger] at hz
    refine .inr ⟨rfl, fun hfits => hz ?_⟩
    rw [FitsWord] at hfits
    omega

/-- What an operator makes of two integers. -/
theorem BinaryOp.apply_cases {op : BinaryOp} (hop : op ≠ .realDiv) (m n : Int64) :
    (∃ k : Int64, op.apply (.integer m) (.integer n) = .ok (.integer k) ∧
        op.Yields m.toInt n.toInt k.toInt) ∨
      (op = .integerDiv ∧ n.toInt = 0 ∧
        op.apply (.integer m) (.integer n) = .error .divisionByZero) ∨
      ∃ z, op.Yields m.toInt n.toInt z ∧ ¬ FitsWord z ∧
        op.apply (.integer m) (.integer n) = .error .integerOverflow := by
  have hrounded : ∀ z, op.Yields m.toInt n.toInt z →
      op.apply (.integer m) (.integer n) = Value.ofInt z →
      (∃ k : Int64, op.apply (.integer m) (.integer n) = .ok (.integer k) ∧
        op.Yields m.toInt n.toInt k.toInt) ∨
      ∃ z, op.Yields m.toInt n.toInt z ∧ ¬ FitsWord z ∧
        op.apply (.integer m) (.integer n) = .error .integerOverflow := by
    intro z hz happly
    rw [happly]
    rcases Value.ofInt_cases z with ⟨k, hk, rfl⟩ | ⟨herror, hlarge⟩
    · exact .inl ⟨k, hk, hz⟩
    · exact .inr ⟨z, hz, hlarge, herror⟩
  cases op with
  | realDiv => exact absurd rfl hop
  | add => exact (hrounded _ rfl rfl).imp_right .inr
  | sub => exact (hrounded _ rfl rfl).imp_right .inr
  | mul => exact (hrounded _ rfl rfl).imp_right .inr
  | integerDiv =>
      by_cases hn : n.toInt = 0
      · exact .inr (.inl ⟨rfl, hn, if_pos hn⟩)
      · exact (hrounded _ (isQuotient_tdiv m.toInt hn) (if_neg hn)).imp_right .inr

/-- What a sign makes of an integer. -/
theorem UnaryOp.apply_cases (op : UnaryOp) (n : Int64) :
    (∃ k : Int64, op.apply (.integer n) = .ok (.integer k) ∧ k.toInt = op.exact n.toInt) ∨
      op.apply (.integer n) = .error .integerOverflow ∧ ¬ FitsWord (op.exact n.toInt) := by
  cases op with
  | plus => exact .inl ⟨n, rfl, rfl⟩
  | minus => exact Value.ofInt_cases (-n.toInt)

/-! ### Whole expressions -/

namespace Analysis

variable (a : Analysis) (s : CallStack)

/-- Computed exactly, with a value for every node. -/
def Succeeds (e : Expr) : Prop :=
  ∃ n, a.eval s e = .ok (.integer n) ∧ a.Exact s e n.toInt ∧ ∀ node ∈ e.nodes, a.Fits s node

/-- Given up at the first of these nodes that cannot be computed. -/
def StopsIn (nodes : List Expr) (e : Expr) : Prop :=
  ∃ before node after fault position, nodes = before ++ node :: after ∧
    (∀ earlier ∈ before, a.Fits s earlier) ∧ a.Breaks s node fault position ∧
    a.eval s e = .error (.arithmetic fault position)

variable {a s}

/-- Nodes before and behind do not matter, as long as those before can be computed. -/
theorem StopsIn.embed {nodes : List Expr} {e e' : Expr} (h : a.StopsIn s nodes e)
    (front back : List Expr) (hfront : ∀ node ∈ front, a.Fits s node)
    (heval : ∀ error, a.eval s e = .error error → a.eval s e' = .error error) :
    a.StopsIn s (front ++ nodes ++ back) e' := by
  obtain ⟨before, node, after, fault, position, rfl, hbefore, hbreaks, herror⟩ := h
  refine ⟨front ++ before, node, after ++ back, fault, position, by simp, ?_, hbreaks,
    heval _ herror⟩
  exact List.forall_mem_append.mpr ⟨hfront, hbefore⟩

/-- An operation stops itself after all its operands. -/
theorem Breaks.stopsIn {e : Expr} {operands : List Expr} {fault : ArithmeticFault}
    {position : Position} (h : a.Breaks s e fault position)
    (hnodes : e.nodes = operands ++ [e]) (hoperands : ∀ node ∈ operands, a.Fits s node)
    (heval : a.eval s e = .error (.arithmetic fault position)) : a.StopsIn s e.nodes e :=
  ⟨operands, e, [], fault, position, hnodes, hoperands, h, heval⟩

theorem Exact.succeeds {e : Expr} {n : Int64} (h : a.Exact s e n.toInt) (operands : List Expr)
    (hnodes : e.nodes = operands ++ [e]) (hoperands : ∀ node ∈ operands, a.Fits s node)
    (heval : a.eval s e = .ok (.integer n)) : a.Succeeds s e := by
  refine ⟨n, heval, h, ?_⟩
  rw [hnodes]
  refine List.forall_mem_append.mpr ⟨hoperands, fun node hnode => ?_⟩
  rw [List.mem_singleton.mp hnode]
  exact ⟨_, h, fitsWord_toInt n⟩

theorem eval_unary (op : UnaryOp) (position : Position) {operand : Expr} {v : Value}
    (h : a.eval s operand = .ok v) :
    a.eval s (.unary op operand position) = raise position (op.apply v) := by
  rw [eval, h, ok_bind]

theorem eval_binary (op : BinaryOp) (position : Position) {left right : Expr} {l r : Value}
    (hl : a.eval s left = .ok l) (hr : a.eval s right = .ok r) :
    a.eval s (.binary op left right position) = raise position (op.apply l r) := by
  rw [eval, hl, ok_bind, hr, ok_bind]

theorem unary_cases {op : UnaryOp} {operand : Expr} (position : Position)
    (h : a.Succeeds s operand) :
    a.Succeeds s (.unary op operand position) ∨
      a.StopsIn s (Expr.unary op operand position).nodes (.unary op operand position) := by
  obtain ⟨n, heval, hexact, hnodes⟩ := h
  have hstep := eval_unary op position heval
  have hvalue : a.Exact s (.unary op operand position) (op.exact n.toInt) := .unary hexact
  rcases op.apply_cases n with ⟨k, hk, hkn⟩ | ⟨herror, hlarge⟩
  · rw [hk] at hstep
    rw [← hkn] at hvalue
    exact .inl (hvalue.succeeds _ rfl hnodes hstep)
  · rw [herror] at hstep
    exact .inr ((Breaks.unary hvalue hlarge).stopsIn rfl hnodes hstep)

theorem binary_cases {op : BinaryOp} (hop : op ≠ .realDiv) {left right : Expr}
    (position : Position) (hl : a.Succeeds s left) (hr : a.Succeeds s right) :
    a.Succeeds s (.binary op left right position) ∨
      a.StopsIn s (Expr.binary op left right position).nodes
        (.binary op left right position) := by
  obtain ⟨m, hevalm, hm, hnodesm⟩ := hl
  obtain ⟨n, hevaln, hn, hnodesn⟩ := hr
  have hstep := eval_binary op position hevalm hevaln
  have hoperands : ∀ node ∈ left.nodes ++ right.nodes, a.Fits s node :=
    List.forall_mem_append.mpr ⟨hnodesm, hnodesn⟩
  rcases BinaryOp.apply_cases hop m n with ⟨k, hk, hyields⟩ | ⟨rfl, hzero, herror⟩ |
    ⟨z, hyields, hlarge, herror⟩
  · rw [hk] at hstep
    have hvalue : a.Exact s (.binary op left right position) k.toInt := .binary hm hn hyields
    exact .inl (hvalue.succeeds _ rfl hoperands hstep)
  · rw [herror] at hstep
    rw [hzero] at hn
    exact .inr ((Breaks.divisionByZero hn).stopsIn rfl hoperands hstep)
  · rw [herror] at hstep
    exact .inr ((Breaks.binary (.binary hm hn hyields) hlarge).stopsIn rfl hoperands hstep)

theorem Integral.eval_cases {e : Expr} (h : a.Integral s e) :
    a.Succeeds s e ∨ a.StopsIn s e.nodes e := by
  induction h with
  | literal n => exact .inl (Exact.succeeds (.literal n) [] rfl (by simp) rfl)
  | var hv =>
      exact .inl (Exact.succeeds (.var hv) [] rfl (by simp) (load_of_holds hv))
  | unary _ ih =>
      rcases ih with hsucceeds | hstops
      · exact unary_cases _ hsucceeds
      · refine .inr (hstops.embed [] _ (by simp) fun error herror => ?_)
        rw [eval, herror]
        rfl
  | @binary op left right position hop _ _ ihl ihr =>
      rcases ihl with hl | hl
      · rcases ihr with hr | hr
        · exact binary_cases hop _ hl hr
        · obtain ⟨m, hevalm, -, hnodesm⟩ := hl
          refine .inr (hr.embed _ _ hnodesm fun error herror => ?_)
          rw [eval, hevalm, ok_bind, herror]
          rfl
      · have heval : ∀ error, a.eval s left = .error error →
            a.eval s (.binary op left right position) = .error error := by
          intro error herror
          rw [eval, herror]
          rfl
        have hstops :=
          hl.embed [] (right.nodes ++ [.binary op left right position]) (by simp) heval
        rw [List.nil_append, ← List.append_assoc] at hstops
        exact .inr hstops

end Analysis

/-- **Integer expressions are computed exactly or stop at the right place.** For an expression
built from integer literals and variables that hold integers, with `+`, `-`, `*`, `DIV` and
signs, an integer comes out exactly if nothing is divided by zero and the exact value of every
node fits into 64 bits; it is the exact value then. Otherwise the first node in the order of
evaluation that cannot be computed says what is wrong, and where. -/
theorem integer_expressions_are_exact (a : Analysis) (s : CallStack) (e : Expr)
    (h : a.Integral s e) :
    ((∃ n, a.eval s e = .ok (.integer n)) ↔
      (∀ left right position, .binary .integerDiv left right position ∈ e.nodes →
        ¬ a.Exact s right 0) ∧
      ∀ node ∈ e.nodes, ∃ z, a.Exact s node z ∧ -2 ^ 63 ≤ z ∧ z ≤ 2 ^ 63 - 1) ∧
    (∀ n, a.eval s e = .ok (.integer n) → a.Exact s e n.toInt) ∧
    ((∀ n, a.eval s e ≠ .ok (.integer n)) →
      ∃ before node after fault position, e.nodes = before ++ node :: after ∧
        (∀ earlier ∈ before, ∃ z, a.Exact s earlier z ∧ -2 ^ 63 ≤ z ∧ z ≤ 2 ^ 63 - 1) ∧
        a.Breaks s node fault position ∧
        a.eval s e = .error (.arithmetic fault position)) := by
  rcases h.eval_cases with ⟨n, heval, hexact, hnodes⟩ | hstops
  · refine ⟨⟨fun _ => ⟨?_, hnodes⟩, fun _ => ⟨n, heval⟩⟩, ?_,
      fun hnever => absurd heval (hnever n)⟩
    · exact fun left right position hmem => (hnodes _ hmem).not_exact_zero
    · intro n' heval'
      cases heval.symm.trans heval'
      exact hexact
  · have hnever : ∀ n, a.eval s e ≠ .ok (.integer n) := by
      intro n heval
      obtain ⟨_, _, _, _, _, -, -, -, herror⟩ := hstops
      cases heval.symm.trans herror
    refine ⟨⟨?_, ?_⟩, fun n heval => absurd heval (hnever n), fun _ => hstops⟩
    · rintro ⟨n, heval⟩
      exact absurd heval (hnever n)
    · rintro ⟨-, hfits⟩
      obtain ⟨before, node, after, fault, position, hnodes, -, hbreaks, -⟩ := hstops
      have hmem : node ∈ e.nodes := by simp [hnodes]
      exact absurd (hfits node hmem) hbreaks.not_fits

/-- The least integer divided by minus one, and the quotient doubled: `X DIV -1 * 2`. -/
def leastQuotient : Expr :=
  .binary .mul
    (.binary .integerDiv (.var ⟨"X", 0, ⟨1, 1⟩⟩)
      (.unary .minus (.literal (.integer 1)) ⟨1, 7⟩) ⟨1, 3⟩)
    (.literal (.integer 2)) ⟨1, 10⟩

def leastAnalysis : Analysis :=
  { scopes := {}, calls := {}, vars := .insert {} 0 ⟨1, .integer⟩ }

/-- One frame, in which `X` is the least integer. -/
def leastStack : CallStack :=
  CallStack.push {} (Frame.set { name := "P", kind := .program, level := 1, link := none } "X"
    (.integer (Int64.ofInt minInteger)))

/-- The quotient is one too large, which is found at `DIV` and not at `*`. -/
theorem leastQuotient_stops_at_div :
    leastAnalysis.Integral leastStack leastQuotient ∧
    leastAnalysis.eval leastStack leastQuotient =
      .error (.arithmetic .integerOverflow ⟨1, 3⟩) ∧
    ∃ before node after fault position, leastQuotient.nodes = before ++ node :: after ∧
      (∀ earlier ∈ before, ∃ z, leastAnalysis.Exact leastStack earlier z ∧
        -2 ^ 63 ≤ z ∧ z ≤ 2 ^ 63 - 1) ∧
      leastAnalysis.Breaks leastStack node fault position ∧
      leastAnalysis.eval leastStack leastQuotient = .error (.arithmetic fault position) := by
  have hholds : leastAnalysis.Holds leastStack ⟨"X", 0, ⟨1, 1⟩⟩ (Int64.ofInt minInteger) :=
    ⟨⟨1, .integer⟩, 0, by decide, by decide, by decide⟩
  have hintegral : leastAnalysis.Integral leastStack leastQuotient :=
    .binary (by decide) (.binary (by decide) (.var hholds) (.unary (.literal 1))) (.literal 2)
  have heval : leastAnalysis.eval leastStack leastQuotient =
      .error (.arithmetic .integerOverflow ⟨1, 3⟩) := by decide +kernel
  refine ⟨hintegral, heval, ?_⟩
  exact (integer_expressions_are_exact leastAnalysis leastStack leastQuotient hintegral).2.2
    (by simp [heval])

end MiniPascal
