import MiniPascal.Proofs.Scope.View

/-!
Scope trees and views. In a scope the symbols and the index are in step, so what is found under
a name is the symbol of that name. A tree shows a view at one of its scopes if the scopes on
the way outwards hold what the view lists. Then a lookup in the tree finds what the view
resolves; a declaration is added at the end of the nearest scope; and a scope that is opened
there starts empty.
-/

namespace MiniPascal

namespace Scope

variable {s : Scope} {ds : List Declaration}

/-! ### Symbols and their index -/

/-- The index has, under each name, the place of the symbol of that name, and nothing else. -/
def InStep (s : Scope) : Prop :=
  ∀ name i, s.index[name]? = some i ↔ (s.symbols[i]?).map Symbol.name = some name

theorem inStep_empty {name : String} {level : Nat} {enclosing : Option ScopeId} :
    InStep { name, level, enclosing } := by
  intro name i
  simp

theorem InStep.lt_size (h : s.InStep) {name : String} {i : Nat}
    (hi : s.index[name]? = some i) :
    i < s.symbols.size := by
  obtain ⟨x, hx, -⟩ := Option.map_eq_some_iff.mp ((h name i).mp hi)
  exact (Array.getElem?_eq_some_iff.mp hx).1

/-- What is found under a name is the symbol of that name. -/
theorem InStep.find?_eq_some_iff (h : s.InStep) {name : String} {x : Symbol} :
    s.find? name = some x ↔ x ∈ s.symbols ∧ x.name = name := by
  rw [find?, Option.bind_eq_some_iff]
  constructor
  · rintro ⟨i, hi, hx⟩
    have hname := (h name i).mp hi
    rw [hx, Option.map_some] at hname
    exact ⟨Array.mem_of_getElem? hx, Option.some.inj hname⟩
  · rintro ⟨hx, rfl⟩
    obtain ⟨i, hi⟩ := Array.mem_iff_getElem?.mp hx
    exact ⟨i, (h x.name i).mpr (by rw [hi, Option.map_some]), hi⟩

/-- The index has the names under which something is found. -/
theorem InStep.mem_index_iff (h : s.InStep) {name : String} :
    name ∈ s.index ↔ (s.find? name).isSome := by
  rw [Std.TreeMap.mem_iff_isSome_getElem?, find?]
  cases hi : s.index[name]? with
  | none => simp
  | some i => simp [h.lt_size hi]

/-- No two symbols share a name. -/
theorem InStep.nodup (h : s.InStep) : (s.symbols.toList.map Symbol.name).Nodup := by
  have hplace : ∀ (i : Nat) (hi : i < (s.symbols.toList.map Symbol.name).length),
      s.index[(s.symbols.toList.map Symbol.name)[i]]? = some i := by
    intro i hi
    rw [h, ← Array.getElem?_toList, ← List.getElem?_map, List.getElem?_eq_getElem hi]
  rw [List.Nodup, List.pairwise_iff_getElem]
  intro i j hi hj hlt heq
  have hsame := (hplace i hi).symm.trans ((congrArg (s.index[·]?) heq).trans (hplace j hj))
  exact Nat.ne_of_lt hlt (Option.some.inj hsame)

theorem InStep.push (h : s.InStep) {x : Symbol} (hfree : x.name ∉ s.index) :
    (s.push x).InStep := by
  intro name i
  have hold := h name i
  rw [getElem?_index_push, symbols_push, Array.getElem?_push]
  by_cases hname : x.name = name
  · -- The name was free, so no other place has a symbol of that name.
    subst hname
    rw [Std.TreeMap.getElem?_eq_none hfree] at hold
    rw [if_pos rfl, Option.some.injEq]
    split
    next hi => simp [hi]
    next hi => exact iff_of_false (Ne.symm hi) fun hsome => by simpa using hold.mpr hsome
  · rw [if_neg hname, hold]
    split
    next hi => simp [hi, hname]
    next => rfl

theorem InStep.find?_push (h : s.InStep) (x : Symbol) (name : String) :
    (s.push x).find? name = if x.name = name then some x else s.find? name := by
  rw [find?, getElem?_index_push, symbols_push]
  split
  next => simp
  next =>
    cases hi : s.index[name]? with
    | none => rw [find?, hi]; rfl
    | some i => simp [find?, hi, Array.getElem?_push, Nat.ne_of_lt (h.lt_size hi)]

/-! ### Scopes and declarations -/

/-- The scope knows the first declaration of each name. -/
structure Lists (s : Scope) (ds : List Declaration) : Prop where
  inStep : s.InStep
  find?_eq (name : String) :
    s.find? name = (ds.find? (·.name = name)).map (Declaration.symbol s.level)

theorem Lists.nil {name : String} {level : Nat} {enclosing : Option ScopeId} :
    ({ name, level, enclosing } : Scope).Lists [] where
  inStep := inStep_empty
  find?_eq _ := by simp [find?]

theorem Lists.concat_of_isSome {d : Declaration} (h : s.Lists ds)
    (htaken : (ds.find? (·.name = d.name)).isSome) : s.Lists (ds ++ [d]) := by
  refine ⟨h.inStep, fun name => ?_⟩
  rw [h.find?_eq name, List.find?_append]
  by_cases hname : d.name = name
  · obtain ⟨d', hd'⟩ := Option.isSome_iff_exists.mp htaken
    rw [← hname, hd', Option.some_or]
  · have hnone : [d].find? (·.name = name) = none := by simp [hname]
    rw [hnone, Option.or_none]

/-- The index has the names of the declarations. -/
theorem Lists.mem_index_iff (h : s.Lists ds) {name : String} :
    name ∈ s.index ↔ (ds.find? (·.name = name)).isSome := by
  rw [h.inStep.mem_index_iff, h.find?_eq name, Option.isSome_map]

theorem Lists.push (h : s.Lists ds) {d : Declaration}
    (hfree : (ds.find? (·.name = d.name)).isSome = false) :
    (s.push (d.symbol s.level)).Lists (ds ++ [d]) := by
  have hindex : (d.symbol s.level).name ∉ s.index := by
    rw [Declaration.name_symbol, h.mem_index_iff, hfree]
    exact Bool.false_ne_true
  refine ⟨h.inStep.push hindex, fun name => ?_⟩
  rw [h.inStep.find?_push, h.find?_eq name, List.find?_append, Option.map_or, level_push,
    Declaration.name_symbol]
  by_cases hname : d.name = name
  · have hnone : ds.find? (·.name = name) = none := by
      rw [← hname]
      exact Option.isNone_iff_eq_none.mp (Option.isSome_eq_false_iff.mp hfree)
    rw [if_pos hname, hnone]
    simp [hname]
  · simp [hname]

end Scope

namespace ScopeTree

/-- The scopes from `id` outwards hold what the view lists. -/
inductive Shows (t : ScopeTree) : ScopeId → View → Prop
  | global {id : ScopeId} {s : Scope} {ds : List Declaration} :
      t.get? id = some s → s.enclosing = none → s.level = 1 → s.Lists ds → Shows t id [ds]
  | inner {id outside : ScopeId} {s : Scope} {ds : List Declaration} {outer : View} :
      t.get? id = some s → s.enclosing = some outside → outside < id →
      s.level = outer.length + 1 →
      s.Lists ds → Shows t outside outer → Shows t id (ds :: outer)

variable {t t' : ScopeTree} {id : ScopeId} {ds : List Declaration} {outer view : View}

theorem lt_size_of_get? {s : Scope} (h : t.get? id = some s) : id < t.size :=
  (Array.getElem?_eq_some_iff.mp h).1

theorem Shows.lt_size (h : t.Shows id view) : id < t.size := by
  cases h with
  | global hget _ _ _ => exact lt_size_of_get? hget
  | inner hget _ _ _ _ _ => exact lt_size_of_get? hget

theorem Shows.exists_scope (h : t.Shows id (ds :: outer)) :
    ∃ s, t.get? id = some s ∧ s.level = outer.length + 1 ∧ s.Lists ds := by
  cases h with
  | global hget _ hlevel hlists => exact ⟨_, hget, hlevel, hlists⟩
  | inner hget _ _ hlevel hlists _ => exact ⟨_, hget, hlevel, hlists⟩

/-- Only the scopes up to `id` matter. -/
theorem Shows.congr (h : t.Shows id view) (hget : ∀ i ≤ id, t'.get? i = t.get? i) :
    t'.Shows id view := by
  induction h with
  | global hid henclosing hlevel hlists =>
      exact .global ((hget _ (Nat.le_refl _)).trans hid) henclosing hlevel hlists
  | inner hid henclosing hlt hlevel hlists _ ih =>
      refine .inner ((hget _ (Nat.le_refl _)).trans hid) henclosing hlt hlevel hlists (ih ?_)
      exact fun i hi => hget i (Nat.le_trans hi (Nat.le_of_lt hlt))

/-- The nearest scope may change, as long as it stays at its place. -/
theorem Shows.replace {ds' : List Declaration} {s s' : Scope} (h : t.Shows id (ds :: outer))
    (hs : t.get? id = some s) (hs' : t'.get? id = some s')
    (henclosing : s'.enclosing = s.enclosing) (hlevel : s'.level = s.level)
    (hlists : s'.Lists ds')
    (hget : ∀ i < id, t'.get? i = t.get? i) : t'.Shows id (ds' :: outer) := by
  cases h with
  | global hid hnone hone _ =>
      obtain rfl := Option.some.inj (hid.symm.trans hs)
      exact .global hs' (henclosing.trans hnone) (hlevel.trans hone) hlists
  | inner hid hsome hlt hnum _ houter =>
      obtain rfl := Option.some.inj (hid.symm.trans hs)
      refine .inner hs' (henclosing.trans hsome) hlt (hlevel.trans hnum) hlists
        (houter.congr ?_)
      exact fun i hi => hget i (Nat.lt_of_le_of_lt hi hlt)

/-- One scope of the way outwards and one scope of the view. -/
theorem findSome?_cons_of_lists {s : Scope} {scopes : List Scope} {name : String}
    (hlists : s.Lists ds) (hlevel : s.level = outer.length + 1)
    (hrest : (scopes.findSome? fun s => (s.find? name).map (·, s)).map
      (fun r => (r.1, r.2.level)) = (View.resolve? name outer).map
      fun r => (r.1.symbol r.2, r.2)) :
    ((s :: scopes).findSome? fun s => (s.find? name).map (·, s)).map
      (fun r => (r.1, r.2.level)) = (View.resolve? name (ds :: outer)).map
      fun r => (r.1.symbol r.2, r.2) := by
  rw [List.findSome?_cons, hlists.find?_eq name]
  cases hd : ds.find? (·.name = name) with
  | none => rw [View.resolve?_cons_of_none hd, ← hrest]; rfl
  | some d => rw [View.resolve?_cons_of_some hd, ← hlevel]; rfl

/-- Looking a name up is resolving it in the view. -/
theorem Shows.lookup (h : t.Shows id view) (name : String) :
    (t.lookup id name).map (fun r => (r.1, r.2.level)) =
      (View.resolve? name view).map fun r => (r.1.symbol r.2, r.2) := by
  -- Numbers get smaller on the way outwards, so the size of the tree is enough.
  have hchain : ∀ n, id < n →
      ((t.chainUpTo n id).findSome? fun s => (s.find? name).map (·, s)).map
          (fun r => (r.1, r.2.level)) =
        (View.resolve? name view).map fun r => (r.1.symbol r.2, r.2) := by
    induction h with
    | global hget henclosing hlevel hlists =>
        intro n hn
        obtain ⟨n, rfl⟩ := Nat.exists_eq_add_one_of_ne_zero (Nat.ne_zero_of_lt hn)
        simp only [chainUpTo, hget, henclosing]
        exact findSome?_cons_of_lists hlists hlevel rfl
    | inner hget henclosing hlt hlevel hlists _ ih =>
        intro n hn
        obtain ⟨n, rfl⟩ := Nat.exists_eq_add_one_of_ne_zero (Nat.ne_zero_of_lt hn)
        simp only [chainUpTo, hget, henclosing]
        exact findSome?_cons_of_lists hlists hlevel
          (ih n (Nat.lt_of_lt_of_le hlt (Nat.le_of_lt_succ hn)))
  exact hchain t.size h.lt_size

theorem Shows.lookup_eq_none {name : String} (h : t.Shows id view)
    (hname : View.resolve? name view = none) : t.lookup id name = none := by
  have hlookup := h.lookup name
  rw [hname] at hlookup
  exact Option.map_eq_none_iff.mp hlookup

theorem Shows.lookup_eq_some {name : String} {d : Declaration} {level : Nat}
    (h : t.Shows id view) (hname : View.resolve? name view = some (d, level)) :
    ∃ s, t.lookup id name = some (d.symbol level, s) ∧ s.level = level := by
  have hlookup := h.lookup name
  rw [hname] at hlookup
  obtain ⟨⟨symbol, s⟩, hfound, heq⟩ := Option.map_eq_some_iff.mp hlookup
  obtain ⟨rfl, hlevel⟩ := Prod.mk.inj heq
  exact ⟨s, hfound, hlevel⟩

/-! ### Declaring and opening -/

theorem insert?_of_mem {s : Scope} {symbol : Symbol} (hget : t.get? id = some s)
    (htaken : symbol.name ∈ s.index) : t.insert? id symbol = some (false, t) := by
  simp [insert?, hget, Scope.insert?, htaken]

theorem insert?_of_notMem {s : Scope} {symbol : Symbol} (hget : t.get? id = some s)
    (hfree : symbol.name ∉ s.index) :
    t.insert? id symbol = some (true, ⟨t.scopes.setIfInBounds id (s.push symbol)⟩) := by
  simp [insert?, hget, Scope.insert?, hfree]

theorem Shows.mem_index_iff (h : t.Shows id (ds :: outer)) (d : Declaration) :
    ∃ s, t.get? id = some s ∧ s.level = outer.length + 1 ∧ s.Lists ds ∧
      ((d.symbol (outer.length + 1)).name ∈ s.index ↔
        (ds.find? (·.name = d.name)).isSome) := by
  obtain ⟨s, hget, hlevel, hlists⟩ := h.exists_scope
  refine ⟨s, hget, hlevel, hlists, ?_⟩
  rw [Declaration.name_symbol, hlists.mem_index_iff]

/-- A name that is taken keeps its meaning. -/
theorem Shows.insert?_taken {d : Declaration} (h : t.Shows id (ds :: outer))
    (htaken : (ds.find? (·.name = d.name)).isSome) :
    t.insert? id (d.symbol (outer.length + 1)) = some (false, t) ∧
      t.Shows id ((ds ++ [d]) :: outer) := by
  obtain ⟨s, hget, -, hlists, hindex⟩ := h.mem_index_iff d
  refine ⟨insert?_of_mem hget (hindex.mpr htaken), ?_⟩
  exact h.replace hget hget rfl rfl (hlists.concat_of_isSome htaken) fun _ _ => rfl

/-- A name that is free is declared at the end of the nearest scope. -/
theorem Shows.insert?_free {d : Declaration} (h : t.Shows id (ds :: outer))
    (hfree : (ds.find? (·.name = d.name)).isSome = false) :
    ∃ t', t.insert? id (d.symbol (outer.length + 1)) = some (true, t') ∧
      t'.Shows id ((ds ++ [d]) :: outer) ∧ (∀ i < id, t'.get? i = t.get? i) ∧
      (t'.get? id).map Scope.enclosing = (t.get? id).map Scope.enclosing := by
  obtain ⟨s, hget, hlevel, hlists, hindex⟩ := h.mem_index_iff d
  have hset :=
    Array.getElem?_setIfInBounds_self_of_lt h.lt_size (a := s.push (d.symbol s.level))
  have hother : ∀ i < id,
      (t.scopes.setIfInBounds id (s.push (d.symbol s.level)))[i]? = t.scopes[i]? :=
    fun i hi => Array.getElem?_setIfInBounds_ne (Nat.ne_of_gt hi)
  rw [hfree, ← hlevel] at hindex
  rw [← hlevel]
  refine ⟨_, insert?_of_notMem hget fun hmem => Bool.false_ne_true (hindex.mp hmem),
    ?_, hother, ?_⟩
  · exact h.replace hget hset rfl rfl (hlists.push hfree) hother
  · have henclosing := congrArg (Option.map Scope.enclosing) hset
    rwa [hget]

/-- A scope that is opened starts empty, and all others stay as they are. -/
theorem Shows.open? (h : t.Shows id view) (name : String) :
    ∃ t', t.open? name (some id) = some t' ∧ t'.Shows t.size ([] :: view) ∧
      (∀ i < t.size, t'.get? i = t.get? i) ∧
      (t'.get? t.size).map Scope.enclosing = some (some id) := by
  have hscope : ∃ s, t.get? id = some s ∧ s.level = view.length := by
    cases h with
    | global hget _ hlevel _ => exact ⟨_, hget, hlevel⟩
    | inner hget _ _ hlevel _ _ => exact ⟨_, hget, hlevel⟩
  obtain ⟨s, hget, hlevel⟩ := hscope
  let fresh : Scope := { name, level := s.level + 1, enclosing := some id }
  have hold : ∀ i < t.size, (⟨t.scopes.push fresh⟩ : ScopeTree).get? i = t.get? i := by
    intro i hi
    have hne : i ≠ t.scopes.size := Nat.ne_of_lt hi
    rw [get?, Array.getElem?_push, if_neg hne, get?]
  have hnew : (⟨t.scopes.push fresh⟩ : ScopeTree).get? t.size = some fresh :=
    Array.getElem?_push_size
  refine ⟨⟨t.scopes.push fresh⟩, by simp [ScopeTree.open?, hget, fresh], ?_, hold, ?_⟩
  · refine .inner hnew rfl h.lt_size (congrArg (· + 1) hlevel) Scope.Lists.nil (h.congr ?_)
    exact fun i hi => hold i (Nat.lt_of_le_of_lt hi h.lt_size)
  · rw [hnew]
    rfl

end ScopeTree

end MiniPascal
