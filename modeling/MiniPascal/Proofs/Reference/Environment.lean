import MiniPascal.Proofs.Analysis.Resolution
import MiniPascal.Proofs.Machine.StaticChain
import MiniPascal.Proofs.Reference.Evaluator

/-!
Environments beside call stacks. Each frame of a stack stands for an activation: a scope of the
program, the location from which its variables are stored, and the environment around it. The
link of a frame leads to the activation whose environment, cut off behind the procedure, is the
environment around this one. So a search along the links and a search through the environment
end in the same activation.
-/

namespace MiniPascal

/-! ### Looking up what was declared -/

namespace Reference.Env

@[simp]
theorem lookup?_cons_self (name : String) (b : Binding) (env : Env) :
    lookup? name ((name, b) :: env) = some b := by
  rw [lookup?, if_pos rfl]

theorem lookup?_cons_of_ne {name other : String} (h : other ≠ name) (b : Binding) (env : Env) :
    lookup? name ((other, b) :: env) = lookup? name env := by
  rw [lookup?, if_neg h]

theorem lookup?_declareVars_of_notMem {name : String} {decls : List VarDecl}
    (h : name ∉ decls.map VarDecl.name) (next : Nat) (env : Env) :
    lookup? name (declareVars decls next env) = lookup? name env := by
  induction decls generalizing next env with
  | nil => rfl
  | cons d decls ih =>
      rw [List.map_cons, List.mem_cons, not_or] at h
      rw [declareVars, ih h.2, lookup?_cons_of_ne (Ne.symm h.1)]

theorem lookup?_declareVars {decls : List VarDecl} {n : Nat} {d : VarDecl}
    (hnodup : (decls.map VarDecl.name).Nodup) (hd : decls[n]? = some d) (next : Nat)
    (env : Env) :
    lookup? d.name (declareVars decls next env) = some (.var d.type (next + n)) := by
  induction decls generalizing n next env with
  | nil => cases hd
  | cons d' decls ih =>
      rw [List.map_cons, List.nodup_cons] at hnodup
      rw [declareVars]
      cases n with
      | zero =>
          cases hd
          rw [lookup?_declareVars_of_notMem hnodup.1, lookup?_cons_self, Nat.add_zero]
      | succ n =>
          rw [ih hnodup.2 hd, Nat.add_assoc, Nat.add_comm 1 n]

theorem lookup?_declareProcedures_of_notMem {name : String} {procedures : List Procedure}
    (h : name ∉ procedures.map Procedure.name) (env : Env) :
    lookup? name (declareProcedures procedures env) = lookup? name env := by
  induction procedures generalizing env with
  | nil => rfl
  | cons p procedures ih =>
      rw [List.map_cons, List.mem_cons, not_or] at h
      rw [declareProcedures, ih h.2, declareProcedure, lookup?_cons_of_ne (Ne.symm h.1)]

/-- A procedure is found with the environment that the procedures before it leave. -/
theorem lookup?_declareProcedures {procedures : List Procedure} {n : Nat} {p : Procedure}
    (hnodup : (procedures.map Procedure.name).Nodup) (hp : procedures[n]? = some p)
    (env : Env) :
    lookup? p.name (declareProcedures procedures env) =
      some (.procedure p (declareProcedures (procedures.take n) env)) := by
  induction procedures generalizing n env with
  | nil => cases hp
  | cons p' procedures ih =>
      rw [List.map_cons, List.nodup_cons] at hnodup
      rw [declareProcedures]
      cases n with
      | zero =>
          cases hp
          rw [lookup?_declareProcedures_of_notMem hnodup.1, declareProcedure,
            lookup?_cons_self]
          rfl
      | succ n =>
          rw [ih hnodup.2 hp, List.take_succ_cons, declareProcedures]

@[simp]
theorem declareProcedures_append (procedures procedures' : List Procedure) (env : Env) :
    declareProcedures (procedures ++ procedures') env =
      declareProcedures procedures' (declareProcedures procedures env) := by
  induction procedures generalizing env with
  | nil => rfl
  | cons p procedures ih => exact ih (declareProcedure p env)

end Reference.Env

/-! ### Activations -/

open Reference (Env Store)

def Declaration.var? : Declaration → Option VarDecl
  | .var d => some d
  | _ => none

/-- The parameters of a scope, and then its variables. -/
def Site.locals (s : Site) : List VarDecl :=
  s.opening.filterMap Declaration.var? ++ s.block.vars

theorem Site.locals_inside (s : Site) (k : Nat) (p : Procedure) :
    (s.inside k p).locals = p.params ++ p.block.vars := by
  have hparams : (p.params.map Declaration.var).filterMap Declaration.var? = p.params := by
    rw [List.filterMap_map]
    exact List.filterMap_some
  rw [Site.locals, Site.inside, hparams]

structure Activation where
  path : List Nat
  site : Site
  /-- The location of the first variable. -/
  base : Nat
  /-- The environment around the scope. -/
  outer : Env

namespace Activation

/-- The environment inside the scope when `k` of its procedures have been declared. -/
def envAt (act : Activation) (k : Nat) : Env :=
  Env.declareProcedures (act.site.block.procedures.take k)
    (Env.declareVars act.site.locals act.base act.outer)

/-- The environment of the body. -/
def env (act : Activation) : Env := act.envAt act.site.block.procedures.length

/-- An activation of a procedure of the scope. -/
def inside (act : Activation) (k : Nat) (p : Procedure) (base : Nat) : Activation :=
  ⟨k :: act.path, act.site.inside k p, base, act.envAt (k + 1)⟩

theorem envAt_succ {act : Activation} {k : Nat} {p : Procedure}
    (hp : act.site.block.procedures[k]? = some p) :
    act.envAt (k + 1) = Env.declareProcedure p (act.envAt k) := by
  rw [envAt, List.take_add_one, hp, Env.declareProcedures_append]
  rfl

theorem env_inside {act : Activation} {k : Nat} {p : Procedure}
    (hp : act.site.block.procedures[k]? = some p) (base : Nat) :
    (act.inside k p base).env =
      Env.enter p.params p.block base (Env.declareProcedure p (act.envAt k)) := by
  rw [env, envAt, List.take_length, ← envAt_succ hp]
  change Env.declareProcedures p.block.procedures
    (Env.declareVars (act.site.inside k p).locals base (act.envAt (k + 1))) = _
  rw [Site.locals_inside, Env.enter]

end Activation

namespace Site

variable {s : Site} {k : Nat}

/-- The names of what a scope declares, the types left out. -/
theorem names_declared_sublist (s : Site) (k : Nat) :
    (s.locals.map VarDecl.name ++ (s.block.procedures.take k).map Procedure.name).Sublist
      ((s.declared k).map Declaration.name) := by
  have hopening : ((s.opening.filterMap Declaration.var?).map VarDecl.name).Sublist
      (s.opening.map Declaration.name) := by
    induction s.opening with
    | nil => exact List.Sublist.refl []
    | cons d ds ih =>
        cases d with
        | var d => exact ih.cons_cons d.name
        | type t => exact ih.cons t.name
        | procedure p => exact ih.cons p.name
  have hvars : s.block.vars.map VarDecl.name =
      (s.block.vars.map Declaration.var).map Declaration.name := by
    rw [List.map_map]
    rfl
  have hprocedures : (s.block.procedures.take k).map Procedure.name =
      ((s.block.procedures.take k).map Declaration.procedure).map Declaration.name := by
    rw [List.map_map]
    rfl
  rw [locals, declared, List.map_append, List.map_append, List.map_append, hvars, hprocedures]
  exact (hopening.append (List.Sublist.refl _)).append (List.Sublist.refl _)

theorem nodup_names (h : Distinct (s.declared s.block.procedures.length)) (k : Nat) :
    (s.locals.map VarDecl.name ++ (s.block.procedures.take k).map Procedure.name).Nodup := by
  have hk : Distinct (s.declared k) := h.sublist ((s.declared_sublist k).map _)
  exact hk.sublist (s.names_declared_sublist k)

theorem exists_getElem?_of_var_mem {d : VarDecl} (h : .var d ∈ s.declared k) :
    ∃ n : Nat, s.locals[n]? = some d := by
  refine List.mem_iff_getElem?.mp ?_
  rw [locals, List.mem_append, List.mem_filterMap]
  simp only [declared, List.mem_append, List.mem_map] at h
  rcases h with (h | ⟨d', hd', heq⟩) | ⟨p, hp, heq⟩
  · exact .inl ⟨.var d, h, rfl⟩
  · cases heq
    exact .inr hd'
  · cases heq

end Site

namespace Activation

variable {act : Activation} {k : Nat} {name : String}

theorem lookup?_var {d : VarDecl} {n : Nat}
    (hdistinct : Distinct (act.site.declared act.site.block.procedures.length))
    (hd : act.site.locals[n]? = some d) (k : Nat) :
    (act.envAt k).lookup? d.name = some (.var d.type (act.base + n)) := by
  obtain ⟨hlocals, -, hapart⟩ := List.nodup_append.mp (Site.nodup_names hdistinct k)
  have hmem : d.name ∈ act.site.locals.map VarDecl.name :=
    List.mem_map_of_mem (List.mem_of_getElem? hd)
  have hfree : d.name ∉ (act.site.block.procedures.take k).map Procedure.name :=
    fun h => hapart _ hmem _ h rfl
  rw [envAt, Env.lookup?_declareProcedures_of_notMem hfree, Env.lookup?_declareVars hlocals hd]

theorem lookup?_procedure {p : Procedure} {n : Nat}
    (hdistinct : Distinct (act.site.declared act.site.block.procedures.length)) (hn : n < k)
    (hp : act.site.block.procedures[n]? = some p) :
    (act.envAt k).lookup? p.name = some (.procedure p (act.envAt n)) := by
  obtain ⟨-, hprocedures, -⟩ := List.nodup_append.mp (Site.nodup_names hdistinct k)
  have htake : (act.site.block.procedures.take k)[n]? = some p := by
    rw [List.getElem?_take_of_lt hn, hp]
  rw [envAt, Env.lookup?_declareProcedures hprocedures htake, List.take_take,
    Nat.min_eq_left (Nat.le_of_lt hn), envAt]

/-- A name that the scope does not declare is looked up around it. -/
theorem lookup?_outer (h : (act.site.declared k).find? (·.name = name) = none) :
    (act.envAt k).lookup? name = act.outer.lookup? name := by
  have hfree : name ∉ act.site.locals.map VarDecl.name ++
      (act.site.block.procedures.take k).map Procedure.name := by
    intro hmem
    obtain ⟨d, hd, hname⟩ := List.mem_map.mp ((act.site.names_declared_sublist k).subset hmem)
    exact List.find?_eq_none.mp h d hd (decide_eq_true hname)
  rw [List.mem_append, not_or] at hfree
  rw [envAt, Env.lookup?_declareProcedures_of_notMem hfree.2,
    Env.lookup?_declareVars_of_notMem hfree.1]

end Activation

/-! ### Stacks and stores -/

/-- The frame holds the values that are stored for the declarations from `base` on, and no
others. -/
structure Frame.Holds (f : Frame) (decls : List VarDecl) (base : Nat) (store : Store) :
    Prop where
  value {n : Nat} {d : VarDecl} : decls[n]? = some d → store[base + n]? = some (f.get? d.name)
  other {name : String} : name ∉ decls.map VarDecl.name → f.get? name = none

/-- The frames of a stack stand for the activations `acts`, from the bottom, whose variables
are in the store. -/
structure Represents (program : Program) (acts : List Activation) (stack : CallStack)
    (store : Store) :
    Prop where
  chain : StaticChain program (acts.map Activation.path) stack
  site {i : Nat} {act : Activation} : acts[i]? = some act →
    program.site? act.path = some act.site
  /-- The environment around an activation is that of the activation that the link leads to. -/
  outer {i j k : Nat} {f : Frame} {act act' : Activation} :
    acts[i]? = some act → stack.get? i = some f → f.link = some j → acts[j]? = some act' →
    act.path = k :: act'.path → act.outer = act'.envAt (k + 1)
  holds {i : Nat} {f : Frame} {act : Activation} :
    acts[i]? = some act → stack.get? i = some f → f.Holds act.site.locals act.base store
  /-- No location belongs to two activations. -/
  apart {i j n n' : Nat} {act act' : Activation} :
    acts[i]? = some act → acts[j]? = some act' → n < act.site.locals.length →
    n' < act'.site.locals.length → act.base + n = act'.base + n' → i = j

namespace Represents

variable {program : Program} {acts : List Activation} {stack : CallStack} {store : Store}
  {act : Activation}

theorem size_eq (h : Represents program acts stack store) : stack.size = acts.length := by
  rw [h.chain.size, List.length_map]

theorem exists_frame {i : Nat} (h : Represents program acts stack store)
    (hact : acts[i]? = some act) :
    ∃ f, stack.get? i = some f ∧ f.Runs program (acts.map Activation.path) i act.path := by
  refine h.chain.exists_frame ?_
  rw [List.getElem?_map, hact, Option.map_some]

/-- A name that the site of an activation resolves is found by the search along the links and
by the search through the environment, and in the same activation. -/
theorem exists_declaring {i k n level : Nat} {name : String} {d : Declaration}
    (h : Represents program acts stack store) (hact : acts[i]? = some act) (hn : i < n)
    (hname : View.resolve? name (act.site.declared k :: act.site.outer) = some (d, level)) :
    ∃ (j k' : Nat) (act' : Activation), stack.searchUpTo level n i = .found j ∧
      acts[j]? = some act' ∧ level = act'.path.length + 1 ∧
      d ∈ act'.site.declared k' ∧ d.name = name ∧
      (act.envAt k).lookup? name = (act'.envAt k').lookup? name := by
  -- There is one round of the search along the links for each scope that does not declare
  -- the name.
  induction n generalizing i k act with
  | zero => exact absurd hn (Nat.not_lt_zero i)
  | succ n ih =>
      obtain ⟨f, hget, hruns⟩ := h.exists_frame hact
      have hsite := h.site hact
      have hlevel : f.level = act.site.outer.length + 1 := by
        rw [hruns.level_eq, Program.length_outer hsite]
      cases hfind : (act.site.declared k).find? (·.name = name) with
      | some d' =>
          rw [View.resolve?_cons_of_some hfind] at hname
          cases hname
          have hdname : d.name = name := by simpa using List.find?_some hfind
          have hmem := List.mem_of_find?_eq_some hfind
          refine ⟨i, k, act, ?_, hact, by rw [Program.length_outer hsite], hmem, hdname, rfl⟩
          rw [CallStack.searchUpTo, hget]
          exact if_pos hlevel
      | none =>
          rw [View.resolve?_cons_of_none hfind] at hname
          have hbelow : level < f.level := by
            obtain ⟨ds, outer, rfl, hsuffix, -⟩ := View.exists_of_resolve? hname
            have hlength := hsuffix.length_le
            rw [List.length_cons] at hlength
            omega
          generalize hpath : act.path = path at hruns hsite
          cases hruns with
          | program =>
              have hroot : program.root = act.site := Option.some.inj hsite
              rw [← hroot] at hname
              cases hname
          | @procedure k₀ j outer s₀ p _ _ _ _ _ _ hlink hj houter =>
              rw [List.getElem?_map] at houter
              obtain ⟨act', hact', rfl⟩ := Option.map_eq_some_iff.mp houter
              obtain ⟨s, p', hs, -, hinside⟩ := Program.site?_cons_eq_some hsite
              obtain rfl := Option.some.inj (hs.symm.trans (h.site hact'))
              rw [hinside] at hname
              obtain ⟨j', k', act'', hsearch, hact'', hlevel', hmem, hdname, hlookup⟩ :=
                ih hact' (by omega) hname
              refine ⟨j', k', act'', ?_, hact'', hlevel', hmem, hdname, ?_⟩
              · rw [CallStack.searchUpTo, hget]
                simp only [if_neg (Nat.ne_of_gt hbelow),
                  if_neg (Nat.not_lt_of_gt hbelow), hlink]
                exact hsearch
              · rw [Activation.lookup?_outer hfind,
                  h.outer hact hget hlink hact' hpath, hlookup]

theorem findLevel {level : Nat} {name : String} {d : Declaration}
    (h : Represents program acts stack store) (htop : acts.getLast? = some act)
    (hname : View.resolve? name act.site.view = some (d, level)) :
    ∃ (j k : Nat) (act' : Activation), stack.findLevel level = .found j ∧
      acts[j]? = some act' ∧ level = act'.path.length + 1 ∧
      d ∈ act'.site.declared k ∧ d.name = name ∧
      act.env.lookup? name = (act'.envAt k).lookup? name := by
  rw [List.getLast?_eq_getElem?] at htop
  have hlt : acts.length - 1 < acts.length := (List.getElem?_eq_some_iff.mp htop).1
  obtain ⟨j, k, act', hsearch, hact', hlevel, hmem, hdname, hlookup⟩ :=
    h.exists_declaring htop hlt hname
  refine ⟨j, k, act', ?_, hact', hlevel, hmem, hdname, hlookup⟩
  rw [CallStack.findLevel, h.size_eq, if_neg (Nat.ne_zero_of_lt hlt), hsearch]

section Names

variable {a : Analysis} (hres : a.Resolves program) (h : Represents program acts stack store)
  (htop : acts.getLast? = some act)

include hres h htop

/-- A variable of the body of the top activation has one location and one frame. -/
theorem exists_var {v : Variable} (hv : .var v ∈ Statement.usesAll act.site.block.body) :
    ∃ (j n : Nat) (act' : Activation) (d : VarDecl), acts[j]? = some act' ∧
      act'.site.locals[n]? = some d ∧ d.name = v.name ∧
      a.binding? v.id = some ⟨act'.path.length + 1, d.type⟩ ∧
      stack.findLevel (act'.path.length + 1) = .found j ∧
      act.env.lookup? v.name = some (.var d.type (act'.base + n)) := by
  have hsite := h.site (List.getLast?_eq_getElem?.symm.trans htop)
  obtain ⟨declaring, d, -, -, hname, hentry⟩ := hres.var hsite hv
  obtain ⟨j, k, act', hj, hact', hlevel, hmem, hdname, hlookup⟩ := h.findLevel htop hname
  obtain ⟨n, hn⟩ := Site.exists_getElem?_of_var_mem hmem
  change d.name = v.name at hdname
  refine ⟨j, n, act', d, hact', hn, hdname, hlevel ▸ hentry, hlevel ▸ hj, ?_⟩
  rw [hlookup, ← hdname, Activation.lookup?_var (hres.distinct (h.site hact')) hn]

/-- A call in the body of the top activation leads to one activation that declares the
procedure. -/
theorem exists_procedure {c : Call} (hc : .call c ∈ Statement.usesAll act.site.block.body) :
    ∃ (j n : Nat) (act' : Activation) (p : Procedure), acts[j]? = some act' ∧
      act'.site.block.procedures[n]? = some p ∧ p.params.length = c.args.length ∧
      a.procedure? c.id = some (p.symbol (act'.path.length + 1)) ∧
      stack.findLevel (act'.path.length + 1) = .found j ∧
      act.env.lookup? c.name = some (.procedure p (act'.envAt n)) := by
  have hsite := h.site (List.getLast?_eq_getElem?.symm.trans htop)
  obtain ⟨declaring, p, -, -, hname, hentry, hlength⟩ := hres.call hsite hc
  obtain ⟨j, k, act', hj, hact', hlevel, hmem, hpname, hlookup⟩ := h.findLevel htop hname
  obtain ⟨n, hn, hp⟩ := Program.exists_getElem?_of_mem_declared (h.site hact') hmem
  change p.name = c.name at hpname
  refine ⟨j, n, act', p, hact', hp, hlength, hlevel ▸ hentry, hlevel ▸ hj, ?_⟩
  rw [hlookup, ← hpname, Activation.lookup?_procedure (hres.distinct (h.site hact')) hn hp]

end Names

end Represents

/-! ### What changes a stack and a store -/

namespace Frame

namespace Holds

variable {f : Frame} {decls : List VarDecl} {base : Nat} {store : Store}

theorem lt_length {n : Nat} (h : f.Holds decls base store) (hn : n < decls.length) :
    base + n < store.length :=
  (List.getElem?_eq_some_iff.mp (h.value (List.getElem?_eq_getElem hn))).1

theorem append (h : f.Holds decls base store) (more : Store) :
    f.Holds decls base (store ++ more) := by
  refine ⟨?_, h.other⟩
  intro n d hd
  have hlt := h.lt_length (List.getElem?_eq_some_iff.mp hd).1
  rw [List.getElem?_append_left hlt, h.value hd]

theorem set {n : Nat} {d : VarDecl} (h : f.Holds decls base store)
    (hnodup : (decls.map VarDecl.name).Nodup) (hd : decls[n]? = some d) (v : Value) :
    (f.set d.name v).Holds decls base (store.set (base + n) (some v)) := by
  constructor
  case value =>
    intro n' d' hd'
    by_cases hn : n = n'
    · subst hn
      obtain rfl := Option.some.inj (hd.symm.trans hd')
      have hlt := h.lt_length (List.getElem?_eq_some_iff.mp hd).1
      rw [List.getElem?_set_self hlt, get?_set_self]
    · have hname : d.name ≠ d'.name := by
        intro hname
        have hlt : n < (decls.map VarDecl.name).length := by
          rw [List.length_map]
          exact (List.getElem?_eq_some_iff.mp hd).1
        refine hn ((List.getElem?_inj hlt hnodup).mp ?_)
        rw [List.getElem?_map, List.getElem?_map, hd, hd', Option.map_some,
          Option.map_some, hname]
      rw [List.getElem?_set_ne (by omega), h.value hd', get?_set_of_ne f hname]
  case other =>
    intro name hname
    have hne : d.name ≠ name := by
      rintro rfl
      exact hname (List.mem_map_of_mem (List.mem_of_getElem? hd))
    rw [get?_set_of_ne f hne, h.other hname]

/-- What is stored elsewhere does not matter. -/
theorem set_elsewhere {location : Nat} (h : f.Holds decls base store)
    (hlocation : ∀ n < decls.length, location ≠ base + n) (v : Option Value) :
    f.Holds decls base (store.set location v) := by
  refine ⟨?_, h.other⟩
  intro n d hd
  rw [List.getElem?_set_ne (hlocation n (List.getElem?_eq_some_iff.mp hd).1), h.value hd]

end Holds

end Frame

theorem getElem?_concat_eq_some {α : Type} {xs : List α} {x y : α} {i : Nat}
    (h : (xs ++ [x])[i]? = some y) : xs[i]? = some y ∨ i = xs.length ∧ y = x := by
  have hlt : i < xs.length + 1 := by
    simpa using (List.getElem?_eq_some_iff.mp h).1
  rcases Nat.lt_or_eq_of_le (Nat.le_of_lt_succ hlt) with hi | rfl
  · rw [List.getElem?_append_left hi] at h
    exact .inl h
  · rw [List.getElem?_concat_length] at h
    exact .inr ⟨rfl, (Option.some.inj h).symm⟩

namespace Represents

variable {program : Program} {acts : List Activation} {stack : CallStack} {store : Store}
  {act : Activation}

theorem assign {j n : Nat} {d : VarDecl} (h : Represents program acts stack store)
    (hact : acts[j]? = some act) (hnodup : (act.site.locals.map VarDecl.name).Nodup)
    (hd : act.site.locals[n]? = some d) (v : Value) :
    Represents program acts (stack.assign j d.name v) (store.set (act.base + n) (some v)) := by
  have hn := (List.getElem?_eq_some_iff.mp hd).1
  refine ⟨h.chain.assign j d.name v, h.site, ?_, ?_, h.apart⟩
  · intro i j' k f act₁ act₂ hact₁ hget hlink hact₂ hpath
    obtain ⟨f₀, hget₀, rfl⟩ := CallStack.exists_of_get?_assign hget
    refine h.outer hact₁ hget₀ ?_ hact₂ hpath
    rw [← hlink]
    split <;> rfl
  · intro i f act' hact' hget
    obtain ⟨f₀, hget₀, rfl⟩ := CallStack.exists_of_get?_assign hget
    split
    next hij =>
      subst hij
      obtain rfl := Option.some.inj (hact.symm.trans hact')
      exact (h.holds hact hget₀).set hnodup hd v
    next hij =>
      refine (h.holds hact' hget₀).set_elsewhere ?_ _
      intro n' hn' hlocation
      exact hij (h.apart hact hact' hn hn' hlocation)

/-- An activation ends, and its variables stay in the store. -/
theorem pop (h : Represents program (acts ++ [act]) stack store) :
    Represents program acts stack.pop store := by
  have hold : ∀ {i : Nat} {act' : Activation}, acts[i]? = some act' →
      (acts ++ [act])[i]? = some act' := by
    intro i act' hact'
    rw [List.getElem?_append_left (List.getElem?_eq_some_iff.mp hact').1, hact']
  have hchain := h.chain
  rw [List.map_append] at hchain
  refine ⟨hchain.pop, fun hact => h.site (hold hact), ?_, ?_, ?_⟩
  · intro i j k f act₁ act₂ hact₁ hget hlink hact₂ hpath
    exact h.outer (hold hact₁) (CallStack.get?_of_get?_pop hget) hlink (hold hact₂) hpath
  · intro i f act' hact' hget
    exact h.holds (hold hact') (CallStack.get?_of_get?_pop hget)
  · intro i j n n' act₁ act₂ hact₁ hact₂ hn hn' hlocation
    exact h.apart (hold hact₁) (hold hact₂) hn hn' hlocation

theorem lt_size {i : Nat} (h : Represents program acts stack store)
    (hact : acts[i]? = some act) :
    i < stack.size := by
  rw [h.size_eq]
  exact (List.getElem?_eq_some_iff.mp hact).1

theorem location_lt {i n : Nat} (h : Represents program acts stack store)
    (hact : acts[i]? = some act) (hn : n < act.site.locals.length) :
    act.base + n < store.length := by
  obtain ⟨f, hget, -⟩ := h.exists_frame hact
  exact (h.holds hact hget).lt_length hn

/-- An activation starts, with locations of its own at the end of the store. -/
theorem push {f : Frame} {more : Store} (h : Represents program acts stack store)
    (hruns : f.Runs program (acts.map Activation.path) acts.length act.path)
    (hsite : program.site? act.path = some act.site) (hbase : act.base = store.length)
    (houter : ∀ {j k : Nat} {act' : Activation}, f.link = some j → acts[j]? = some act' →
      act.path = k :: act'.path → act.outer = act'.envAt (k + 1))
    (hholds : f.Holds act.site.locals act.base (store ++ more)) :
    Represents program (acts ++ [act]) (stack.push f) (store ++ more) := by
  constructor
  case chain =>
    rw [List.map_append]
    refine h.chain.push ?_
    rwa [List.length_map]
  case site =>
    intro i act' hact'
    rcases getElem?_concat_eq_some hact' with hold | ⟨-, rfl⟩
    · exact h.site hold
    · exact hsite
  case outer =>
    -- Links lead downwards, so none of them leads to the new activation.
    intro i j k g act₁ act₂ hact₁ hget hlink hact₂ hpath
    rcases getElem?_concat_eq_some hact₁ with hold₁ | ⟨rfl, rfl⟩
    · have hi := h.lt_size hold₁
      rw [CallStack.get?_push_of_lt hi] at hget
      obtain ⟨g', hget', hruns'⟩ := h.exists_frame hold₁
      obtain rfl := Option.some.inj (hget.symm.trans hget')
      have hj := hruns'.link_lt hlink
      rw [h.size_eq] at hi
      rw [List.getElem?_append_left (Nat.lt_trans hj hi)] at hact₂
      exact h.outer hold₁ hget hlink hact₂ hpath
    · rw [← h.size_eq, CallStack.get?_push_size] at hget
      cases hget
      rw [List.getElem?_append_left (hruns.link_lt hlink)] at hact₂
      exact houter hlink hact₂ hpath
  case holds =>
    intro i g act' hact' hget
    rcases getElem?_concat_eq_some hact' with hold | ⟨rfl, rfl⟩
    · rw [CallStack.get?_push_of_lt (h.lt_size hold)] at hget
      exact (h.holds hold hget).append more
    · rw [← h.size_eq, CallStack.get?_push_size] at hget
      cases hget
      exact hholds
  case apart =>
    -- The locations of the others are all in the store as it was.
    intro i j n n' act₁ act₂ hact₁ hact₂ hn hn' hlocation
    rcases getElem?_concat_eq_some hact₁ with hold₁ | ⟨rfl, rfl⟩ <;>
      rcases getElem?_concat_eq_some hact₂ with hold₂ | ⟨rfl, rfl⟩
    · exact h.apart hold₁ hold₂ hn hn' hlocation
    · have hlt := h.location_lt hold₁ hn
      omega
    · have hlt := h.location_lt hold₂ hn'
      omega
    · rfl

/-- A call starts. -/
theorem enter {j k : Nat} {p : Procedure} {f : Frame} {more : Store}
    (h : Represents program acts stack store) (hact : acts[j]? = some act)
    (hp : act.site.block.procedures[k]? = some p) (hname : f.name = p.name)
    (hkind : f.kind = .procedure) (hlevel : f.level = act.path.length + 2)
    (hlink : f.link = some j)
    (hholds : f.Holds (p.params ++ p.block.vars) store.length (store ++ more)) :
    Represents program (acts ++ [act.inside k p store.length]) (stack.push f)
      (store ++ more) := by
  have hj := (List.getElem?_eq_some_iff.mp hact).1
  have hpath : (acts.map Activation.path)[j]? = some act.path := by
    rw [List.getElem?_map, hact, Option.map_some]
  have hruns : f.Runs program (acts.map Activation.path) acts.length (k :: act.path) :=
    .procedure (Nat.zero_lt_of_lt hj) (h.site hact) hp hkind hname hlevel hlink hj hpath
  refine h.push hruns (Program.site?_cons (h.site hact) hp) rfl ?_ ?_
  · intro j' k' act' hlink' hact' hcons
    obtain rfl := Option.some.inj (hlink.symm.trans hlink')
    obtain rfl := Option.some.inj (hact.symm.trans hact')
    cases hcons
    rfl
  · have hlocals := Site.locals_inside act.site k p
    rw [Activation.inside, hlocals]
    exact hholds

end Represents

end MiniPascal
