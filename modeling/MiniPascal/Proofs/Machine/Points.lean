import MiniPascal.Proofs.Analysis.Resolution
import MiniPascal.Proofs.Machine.Discipline
import MiniPascal.Proofs.Machine.StaticChain

/-!
What holds of names at all points of a run. At every point the frames form a static chain, and
what is left to do in the top frame are statements of the scope that this frame runs; so every
name leads to a frame of the scope that declares it, and the run fails for no reason that has
to do with names.
-/

namespace MiniPascal

/-- Errors that say that a name leads nowhere, or to something else than it should. -/
inductive RuntimeError.Stray : RuntimeError → Prop
  | unresolved (name : String) (position : Position) : Stray (.unresolved name position)
  | missingFrame (name : String) (level : Nat) (position : Position) :
      Stray (.missingFrame name level position)
  | argumentCount (name : String) (expected found : Nat) (position : Position) :
      Stray (.argumentCount name expected found position)

/-! ### Expressions -/

/-- A result that is no stray error. -/
def Clean {α : Type} (r : Except RuntimeError α) : Prop := ∀ e, r = .error e → ¬ e.Stray

theorem clean_ok {α : Type} (r : α) : Clean (.ok r) := by
  intro e h
  cases h

theorem Clean.bind {α β : Type} {r : Except RuntimeError α} {f : α → Except RuntimeError β}
    (hr : Clean r) (hf : ∀ x, Clean (f x)) : Clean (r >>= f) := by
  cases r with
  | error e =>
      intro e' he'
      cases he'
      exact hr e rfl
  | ok x => exact hf x

theorem clean_raise (position : Position) (r : Except ArithmeticFault Value) :
    Clean (Analysis.raise position r) := by
  intro e h
  cases r with
  | ok v => cases h
  | error fault =>
      cases h
      rintro ⟨⟩

theorem clean_store (name : String) (type : DataType) (position : Position) (v : Value) :
    Clean (Analysis.store name type position v) := by
  intro e h
  rw [Analysis.store] at h
  split at h
  · cases h
  · cases h
    rintro ⟨⟩

/-- The frames of a stack form a static chain, and the top frame runs the scope `s` of
`path`. -/
structure Stands (a : Analysis) (program : Program) (paths : List (List Nat)) (path : List Nat)
    (s : Site) (stack : CallStack) : Prop where
  resolves : a.Resolves program
  site : program.site? path = some s
  top : paths.getLast? = some path
  chain : StaticChain program paths stack

section Names

variable {a : Analysis} {program : Program} {paths : List (List Nat)}
    {path : List Nat} {s : Site}
  {stack : CallStack}

/-- A variable of the body lives in a frame of the scope that declares it. -/
theorem Stands.var {v : Variable} (h : Stands a program paths path s stack)
    (hv : .var v ∈ Statement.usesAll s.block.body) :
    ∃ declaring d i, declaring <:+ path ∧ program.Declares declaring (.var d) ∧
      View.resolve? v.name s.view = some (.var d, declaring.length + 1) ∧
      a.binding? v.id = some ⟨declaring.length + 1, d.type⟩ ∧
      stack.findLevel (declaring.length + 1) = .found i ∧ paths[i]? = some declaring := by
  obtain ⟨declaring, d, hsuffix, hd, hname, hentry⟩ := h.resolves.var h.site hv
  obtain ⟨i, hi, hpath⟩ := h.chain.findLevel h.top hsuffix
  exact ⟨declaring, d, i, hsuffix, hd, hname, hentry, hi, hpath⟩

/-- A call in the body leads to a frame of the scope that declares the procedure. -/
theorem Stands.call {c : Call} (h : Stands a program paths path s stack)
    (hc : .call c ∈ Statement.usesAll s.block.body) :
    ∃ declaring p i, declaring <:+ path ∧ program.Declares declaring (.procedure p) ∧
      View.resolve? c.name s.view = some (.procedure p, declaring.length + 1) ∧
      a.callee c = .ok (p.symbol (declaring.length + 1)) ∧
      stack.findLevel (declaring.length + 1) = .found i ∧ paths[i]? = some declaring := by
  obtain ⟨declaring, p, hsuffix, hp, hname, hentry, hlength⟩ := h.resolves.call h.site hc
  obtain ⟨i, hi, hpath⟩ := h.chain.findLevel h.top hsuffix
  have hcallee := Analysis.callee_eq hentry ((p.length_params_symbol _).trans hlength)
  exact ⟨declaring, p, i, hsuffix, hp, hname, hcallee, hi, hpath⟩

theorem Stands.eval_clean (h : Stands a program paths path s stack) {e : Expr}
    (he : e.uses ⊆ Statement.usesAll s.block.body) : Clean (a.eval stack e) := by
  induction e with
  | var v =>
      obtain ⟨declaring, d, i, -, -, -, hb, hi, -⟩ := h.var (he (List.mem_singleton.mpr rfl))
      rw [Analysis.eval, Analysis.load_eq hb hi]
      cases (stack.get? i).bind (·.get? v.name) with
      | none =>
          intro e he
          cases he
          rintro ⟨⟩
      | some value => exact clean_ok value
  | binary op left right position ihl ihr =>
      obtain ⟨hl, hr⟩ := List.append_subset.mp he
      exact (ihl hl).bind fun l => (ihr hr).bind fun r => clean_raise position _
  | unary op operand position ih => exact (ih he).bind fun v => clean_raise position _
  | literal v => exact clean_ok v

theorem Stands.evalAll_clean (h : Stands a program paths path s stack) {args : List Expr}
    (hargs : args.flatMap Expr.uses ⊆ Statement.usesAll s.block.body) :
    Clean (a.evalAll stack args) := by
  induction args with
  | nil => exact clean_ok []
  | cons e args ih =>
      rw [List.flatMap_cons] at hargs
      obtain ⟨he, hrest⟩ := List.append_subset.mp hargs
      exact (h.eval_clean he).bind fun v => (ih hrest).bind fun vs => clean_ok _

theorem Stands.bindParams_clean (h : Stands a program paths path s stack) (position : Position)
    (params : List VarSymbol) {args : List Expr}
    (hargs : args.flatMap Expr.uses ⊆ Statement.usesAll s.block.body) (frame : Frame) :
    Clean (a.bindParams stack position params args frame) := by
  induction args generalizing params frame with
  | nil => cases params <;> exact clean_ok frame
  | cons e args ih =>
      rw [List.flatMap_cons] at hargs
      obtain ⟨he, hrest⟩ := List.append_subset.mp hargs
      cases params with
      | nil => exact clean_ok frame
      | cons param params =>
          exact (h.eval_clean he).bind fun v =>
            (clean_store _ _ _ _).bind fun w => ih params hrest _

theorem Stands.destination_clean (h : Stands a program paths path s stack) {target : Variable}
    (ht : .var target ∈ Statement.usesAll s.block.body) (v : Value) :
    Clean (a.destination target v stack) := by
  obtain ⟨declaring, d, i, -, -, -, hb, hi, -⟩ := h.var ht
  rw [Analysis.destination, Analysis.binding_eq hb]
  refine (clean_store _ _ _ _).bind fun w => ?_
  rw [CallStack.frameIndex_eq hi]
  exact clean_ok _

/-! ### Calls -/

theorem Stands.calleeFrame_clean (h : Stands a program paths path s stack) {c : Call}
    {p : ProcedureSymbol} (hc : (Statement.call c).uses ⊆ Statement.usesAll s.block.body)
    (hp : a.callee c = .ok p) : Clean (a.calleeFrame p c stack) := by
  obtain ⟨hargs, hcall⟩ := List.append_subset.mp hc
  obtain ⟨declaring, q, i, -, -, -, hcallee, hi, -⟩ :=
    h.call (hcall (List.mem_singleton.mpr rfl))
  obtain rfl := Except.ok.inj (hp.symm.trans hcallee)
  have hindex : stack.frameIndex q.name (declaring.length + 1) c.position = .ok i :=
    CallStack.frameIndex_eq hi _ _
  refine (h.bindParams_clean _ _ hargs _).bind fun frame => ?_
  change Clean (stack.frameIndex q.name (declaring.length + 1) c.position >>= _)
  rw [hindex]
  exact clean_ok _

/-- When the body of a call starts, the frame of the call runs the scope of the procedure,
which is inside the scope that declares it. -/
theorem Stands.enter_inside (h : Stands a program paths path s stack) {c : Call}
    {p : ProcedureSymbol} {frame : Frame} (hc : .call c ∈ Statement.usesAll s.block.body)
    (hp : a.callee c = .ok p)
    (hframe : a.calleeFrame p c stack = .ok frame) :
    ∃ declaring s₀ k q, program.site? declaring = some s₀ ∧ s₀.block.procedures[k]? = some q ∧
      p = q.symbol (declaring.length + 1) ∧
      Stands a program (paths ++ [k :: declaring]) (k :: declaring) (s₀.inside k q)
        (stack.push frame) := by
  obtain ⟨declaring, q, i, -, hq, -, hcallee, hi, hpath⟩ := h.call hc
  obtain rfl := Except.ok.inj (hp.symm.trans hcallee)
  obtain ⟨s₀, k, hs₀, hk⟩ := hq.exists_procedure
  obtain ⟨hname, hkind, hlevel, i', hi', hlink⟩ := Analysis.calleeFrame_eq_ok hframe
  obtain rfl := Except.ok.inj ((CallStack.frameIndex_eq hi _ _).symm.trans hi')
  have hlt := (List.getElem?_eq_some_iff.mp hpath).1
  refine ⟨declaring, s₀, k, q, hs₀, hk, rfl, h.resolves, Program.site?_cons hs₀ hk,
    by simp, ?_⟩
  exact h.chain.push (.procedure (Nat.zero_lt_of_lt hlt) hs₀ hk hkind hname hlevel
    hlink hlt hpath)

theorem Stands.enter (h : Stands a program paths path s stack) {c : Call} {p : ProcedureSymbol}
    {frame : Frame} (hc : .call c ∈ Statement.usesAll s.block.body) (hp : a.callee c = .ok p)
    (hframe : a.calleeFrame p c stack = .ok frame) :
    ∃ path' s', s'.block = p.block ∧
      Stands a program (paths ++ [path']) path' s' (stack.push frame) := by
  obtain ⟨declaring, s₀, k, q, -, -, rfl, hstands⟩ := h.enter_inside hc hp hframe
  exact ⟨k :: declaring, s₀.inside k q, rfl, hstands⟩

theorem Stands.leave {path' : List Nat} {s' : Site} {stack' : CallStack}
    (h : Stands a program paths path s stack)
    (h' : Stands a program (paths ++ [path']) path' s' stack') :
    Stands a program paths path s stack'.pop :=
  ⟨h.resolves, h.site, h.top, h'.chain.pop⟩

/-- Assigning leaves the frames where they are. -/
theorem Stands.assign (h : Stands a program paths path s stack) (i : Nat) (name : String)
    (v : Value) :
    Stands a program paths path s (stack.assign i name v) :=
  ⟨h.resolves, h.site, h.top, h.chain.assign i name v⟩

end Names

/-! ### Statements -/

/-- Where a run stands: the blocks that the frames run and the paths of their scopes, from the
bottom of the stack; and the scope of the top frame. -/
structure Place where
  blocks : List Block
  paths : List (List Nat)
  path : List Nat
  site : Site

namespace Place

/-- The statement belongs to the scope of the top frame. -/
def Owns (place : Place) (s : Statement) : Prop :=
  s.uses ⊆ Statement.usesAll place.site.block.body

theorem Owns.compound {place : Place} {body : List Statement} {s : Statement}
    (h : place.Owns (.compound body)) (hs : s ∈ body) : place.Owns s := by
  have hbody : Statement.usesAll body ⊆ Statement.usesAll place.site.block.body := h
  rw [Statement.usesAll_eq_flatMap] at hbody
  exact fun u hu => hbody (List.mem_flatMap.mpr ⟨s, hs, hu⟩)

theorem Owns.call {place : Place} {c : Call} (h : place.Owns (.call c)) :
    .call c ∈ Statement.usesAll place.site.block.body :=
  h (List.mem_append_right _ (List.mem_singleton.mpr rfl))

/-- A scope owns the statements of its body. -/
theorem owns_of_mem {place : Place} {body : List Statement}
    (hbody : place.site.block.body = body) {s : Statement} (hs : s ∈ body) : place.Owns s := by
  have hwhole : place.Owns (.compound body) := by
    rw [Owns, hbody]
    exact List.Subset.refl _
  exact hwhole.compound hs

end Place

theorem Program.map_site?_concat {program : Program} {paths : List (List Nat)}
    {blocks : List Block} {path : List Nat} {s : Site}
    (h : paths.map (fun path => (program.site? path).map Site.block) = blocks.map some)
    (hs : program.site? path = some s) :
    (paths ++ [path]).map (fun path => (program.site? path).map Site.block) =
      (blocks ++ [s.block]).map some := by
  rw [List.map_append, h, List.map_append, List.map_cons, hs]
  rfl

/-- The frames run the scopes of the place. -/
structure Place.Matches (a : Analysis) (program : Program) (place : Place)
    (stack : CallStack) :
    Prop where
  stands : Stands a program place.paths place.path place.site stack
  blocks : place.paths.map (fun path => (program.site? path).map Site.block) =
    place.blocks.map some

section Statements

variable {a : Analysis} {program : Program} {place : Place} {stack : CallStack}

theorem Place.Owns.assign_obeys {target : Variable} {value : Expr}
    (h : place.Owns (.assign target value)) :
    (a.assign target value).Obeys (place.Matches a program) (¬ ·.Stray) := by
  obtain ⟨htarget, hvalue⟩ := List.cons_subset.mp h
  apply Analysis.assign_obeys
  · intro stack v i w hmatches _ _
    exact ⟨hmatches.stands.assign i target.name w, hmatches.blocks⟩
  · intro stack e hmatches hfails
    have hclean : Clean (a.eval stack value >>= (a.destination target · stack)) :=
      (hmatches.stands.eval_clean hvalue).bind (hmatches.stands.destination_clean htarget)
    exact hclean e hfails

theorem Place.Owns.write_obeys {newline : Bool} {args : List Expr} {position : Position}
    (h : place.Owns (.write newline args position)) :
    (a.write newline args).Obeys (place.Matches a program) (¬ ·.Stray) := by
  apply Analysis.write_obeys
  · rintro ⟨⟩
  · intro stack e hmatches hfails
    exact hmatches.stands.evalAll_clean h e hfails

theorem Place.Matches.enter (h : place.Matches a program stack) {c : Call}
    {p : ProcedureSymbol} {frame : Frame} (hc : place.Owns (.call c)) (hp : a.callee c = .ok p)
    (hframe : a.calleeFrame p c stack = .ok frame) :
    ∃ path s, s.block = p.block ∧
      Place.Matches a program ⟨place.blocks ++ [p.block], place.paths ++ [path], path, s⟩
        (stack.push frame) := by
  obtain ⟨path, s, hblock, hstands⟩ := h.stands.enter hc.call hp hframe
  refine ⟨path, s, hblock, hstands, ?_⟩
  rw [← hblock]
  exact Program.map_site?_concat h.blocks hstands.site

/-- The frames run the scopes of the place, and no error is stray. -/
def chainDiscipline (hres : a.Resolves program) : Discipline a where
  Scope := Place
  blocks := Place.blocks
  Allows place s := program.site? place.path = some place.site ∧ place.Owns s
  Holds := Place.Matches a program
  Tolerates e := ¬ e.Stray
  compound h hs := ⟨h.1, h.2.compound hs⟩
  assign h := h.2.assign_obeys
  write h := h.2.write_obeys
  callee h hp := by
    obtain ⟨declaring, p, -, -, -, hentry, hlength⟩ := hres.call h.1 h.2.call
    cases hp.symm.trans (Analysis.callee_eq hentry ((p.length_params_symbol _).trans hlength))
  depth _ _ _ := by rintro ⟨⟩
  frame h hmatches hp hframe := hmatches.stands.calleeFrame_clean h.2 hp _ hframe
  enter h hmatches hp hframe := by
    obtain ⟨path, s, hblock, hentered⟩ := hmatches.enter h.2 hp hframe
    refine ⟨_, rfl, fun t ht => ⟨hentered.stands.site, ?_⟩, hentered, fun stack' h' => ?_⟩
    · exact Place.owns_of_mem (congrArg Block.body hblock) ht
    · exact ⟨hmatches.stands.leave h'.stands, hmatches.blocks⟩

end Statements

/-! ### Points -/

section Points

variable {a : Analysis} {program : Program} {limit : Nat} {m₀ : Machine}

theorem Stands.start (hres : a.Resolves program) {m : Machine} (hm : m.stack = {}) :
    Stands a program [[]] [] program.root (m.started program).stack := by
  have hempty : StaticChain program [] {} := by
    refine ⟨rfl, ?_⟩
    intro i f path hget hpath
    cases hpath
  refine ⟨hres, rfl, rfl, ?_⟩
  rw [Machine.stack_started, hm]
  exact hempty.push (.program rfl rfl rfl rfl rfl)

theorem chainDiscipline_start (hres : a.Resolves program) (hm₀ : m₀.stack = {}) (limit : Nat) :
    (chainDiscipline hres).HoldsAt (Discipline.startPoint limit program m₀)
      ⟨[program.block], [[]], [], program.root⟩ :=
  ⟨rfl, ⟨.start hres hm₀, rfl⟩, fun _ ht => ⟨rfl, Place.owns_of_mem rfl ht⟩⟩

/-- The frames of the point run the blocks of their scopes, and what is left to do belongs to
the scope of the top frame. -/
structure Point.Sound (a : Analysis) (program : Program) (paths : List (List Nat))
    (path : List Nat)
    (s : Site) (pt : Point) : Prop where
  stands : Stands a program paths path s pt.machine.stack
  blocks : paths.map (fun path => (program.site? path).map Site.block) = pt.blocks.map some
  todo : Statement.usesAll pt.todo ⊆ Statement.usesAll s.block.body

theorem Analysis.Reaches.sound {pt : Point} (hres : a.Resolves program) (hm₀ : m₀.stack = {})
    (h : a.Reaches limit program m₀ pt) : ∃ paths path s, pt.Sound a program paths path s := by
  obtain ⟨place, hblocks, hmatches, htodo⟩ :=
    Discipline.exists_holdsAt _ (chainDiscipline_start hres hm₀ limit) h
  refine ⟨place.paths, place.path, place.site, hmatches.stands, ?_, ?_⟩
  · rw [← hblocks]
    exact hmatches.blocks
  · rw [Statement.usesAll_eq_flatMap]
    intro u hu
    obtain ⟨t, ht, hu⟩ := List.mem_flatMap.mp hu
    exact (htodo t ht).2 hu

theorem Analysis.interpret_clean {m : Machine} {e : RuntimeError} (hres : a.Resolves program)
    (hm₀ : m₀.stack = {}) (h : a.interpret limit program m₀ = .error e m) : ¬ e.Stray :=
  Discipline.interpret_error _ (chainDiscipline_start hres hm₀ limit) h

end Points

/-- **Static chains are sound.** Take a program that is read from a text and analyzed without
errors, and any point of a run of it with its own analysis, under any limit. Every frame runs
the body of one scope, that of its path: the bottom frame the program, any other frame a
procedure. Its level is that of the scope, and its link leads to a frame further down that runs
the scope around it. Every variable and every call of what is left to do in the top frame is
searched for under the level of the scope that declares it, by the innermost declaration in
sight, and the search ends in a frame of that very scope. So no run ends in an error that says
that a name leads nowhere. -/
theorem static_chains_are_sound (settings : Settings) (text : String) (j j' : Journal)
    (program : Program) (a : Analysis) (hparse : (parse settings text j).1 = .ok program)
    (hanalyze : (analyze program j').1 = .ok a) (limit : Nat) (output : Output)
    (journal : Journal) :
    (∀ pt, a.Reaches limit program { output, journal } pt →
      ∃ paths path s, StaticChain program paths pt.machine.stack ∧
        paths.map (fun path => (program.site? path).map Site.block) = pt.blocks.map some ∧
        paths.getLast? = some path ∧ program.site? path = some s ∧
        (∀ v, .var v ∈ Statement.usesAll pt.todo →
          ∃ declaring d i, declaring <:+ path ∧ program.Declares declaring (.var d) ∧
            View.resolve? v.name s.view = some (.var d, declaring.length + 1) ∧
            a.binding? v.id = some ⟨declaring.length + 1, d.type⟩ ∧
            pt.machine.stack.findLevel (declaring.length + 1) = .found i ∧
            i < pt.machine.stack.size ∧ paths[i]? = some declaring) ∧
        ∀ c, .call c ∈ Statement.usesAll pt.todo →
          ∃ declaring p i, declaring <:+ path ∧ program.Declares declaring (.procedure p) ∧
            View.resolve? c.name s.view = some (.procedure p, declaring.length + 1) ∧
            a.callee c = .ok (p.symbol (declaring.length + 1)) ∧
            pt.machine.stack.findLevel (declaring.length + 1) = .found i ∧
            i < pt.machine.stack.size ∧ paths[i]? = some declaring) ∧
    ∀ e m', a.interpret limit program { output, journal } = .error e m' → ¬ e.Stray := by
  have hres := Analysis.resolves hparse hanalyze
  refine ⟨?_, fun e m' h => Analysis.interpret_clean hres rfl h⟩
  intro pt hpt
  obtain ⟨paths, path, s, hstands, hblocks, htodo⟩ := hpt.sound hres rfl
  refine ⟨paths, path, s, hstands.chain, hblocks, hstands.top, hstands.site, ?_, ?_⟩
  · intro v hv
    obtain ⟨declaring, d, i, hsuffix, hd, hname, hentry, hi, hpath⟩ := hstands.var (htodo hv)
    exact ⟨declaring, d, i, hsuffix, hd, hname, hentry, hi,
      hstands.chain.lt_of_getElem? hpath, hpath⟩
  · intro c hc
    obtain ⟨declaring, p, i, hsuffix, hp, hname, hcallee, hi, hpath⟩ := hstands.call (htodo hc)
    exact ⟨declaring, p, i, hsuffix, hp, hname, hcallee, hi,
      hstands.chain.lt_of_getElem? hpath, hpath⟩

/-- Two procedures that call each other, one inside the other. -/
def recursiveText : String :=
  "PROGRAM P; VAR X : INTEGER; PROCEDURE Q(N : INTEGER); " ++
    "PROCEDURE R; BEGIN X := N; Q(N - 1) END; BEGIN R() END; BEGIN Q(3) END."

theorem recursiveText_chains :
    ∃ program a, (parse {} recursiveText { traces := [], dumps := [] }).1 = .ok program ∧
      (analyze program { traces := [], dumps := [] }).1 = .ok a ∧
      ∀ limit e m', a.interpret limit program { journal := { traces := [], dumps := [] } } =
        .error e m' → ¬ e.Stray := by
  obtain ⟨program, a, hparse, hanalyze⟩ :=
    exists_analysis {} recursiveText { traces := [], dumps := [] }
      { traces := [], dumps := [] }
      (by decide +kernel)
  refine ⟨program, a, hparse, hanalyze, fun limit => ?_⟩
  exact (static_chains_are_sound {} recursiveText _ _ program a hparse hanalyze limit {} _).2

end MiniPascal
