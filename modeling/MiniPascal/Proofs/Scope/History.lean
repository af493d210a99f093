import MiniPascal.Proofs.Scope.Tree

/-!
Scope trees that are built step by step. A history lists which scopes were opened and which
symbols were offered to which scope, in any order. What a scope knows under a name is the first
symbol that was ever offered to it under that name, and what a lookup finds is the first one of
the nearest scope that was offered any.
-/

namespace MiniPascal

/-- A scope but for its symbols. Along one way outwards the level alone tells the scopes
apart. -/
def Scope.heading (s : Scope) : String × Nat × Option ScopeId := (s.name, s.level, s.enclosing)

@[simp]
theorem Scope.heading_push (s : Scope) (x : Symbol) : (s.push x).heading = s.heading := rfl

/-! ### Operations -/

namespace ScopeTree

variable {t t' : ScopeTree} {id : ScopeId} {x : Symbol}

/-- What opening a scope does. -/
theorem open?_cases {name : String} {enclosing : Option ScopeId}
    (h : t.open? name enclosing = some t') :
    ∃ level, t' = ⟨t.scopes.push { name, level, enclosing }⟩ ∧
      (enclosing = none ∧ level = 1 ∨
        ∃ outside outer, enclosing = some outside ∧ t.get? outside = some outer ∧
          level = outer.level + 1) := by
  cases enclosing with
  | none =>
      cases h
      exact ⟨1, rfl, .inl ⟨rfl, rfl⟩⟩
  | some outside =>
      obtain ⟨outer, houter, ht'⟩ := Option.bind_eq_some_iff.mp h
      cases ht'
      exact ⟨outer.level + 1, rfl, .inr ⟨outside, outer, rfl, houter, rfl⟩⟩

/-- What offering a symbol to a scope does. -/
theorem insert?_cases {inserted : Bool} (h : t.insert? id x = some (inserted, t')) :
    ∃ s, t.get? id = some s ∧
      (inserted = false ∧ x.name ∈ s.index ∧ t' = t ∨
        inserted = true ∧ x.name ∉ s.index ∧ t' = ⟨t.scopes.setIfInBounds id (s.push x)⟩) := by
  obtain ⟨s, hs, -⟩ := Option.bind_eq_some_iff.mp h
  refine ⟨s, hs, ?_⟩
  by_cases hname : x.name ∈ s.index
  · rw [insert?_of_mem hs hname] at h
    cases h
    exact .inl ⟨rfl, hname, rfl⟩
  · rw [insert?_of_notMem hs hname] at h
    cases h
    exact .inr ⟨rfl, hname, rfl⟩

theorem get?_push (t : ScopeTree) (s : Scope) (i : ScopeId) :
    (ScopeTree.mk (t.scopes.push s)).get? i = if i = t.size then some s else t.get? i :=
  Array.getElem?_push

theorem get?_set {s : Scope} (hs : t.get? id = some s) (s' : Scope) (i : ScopeId) :
    (ScopeTree.mk (t.scopes.setIfInBounds id s')).get? i = if i = id then some s'
      else t.get? i := by
  have hlt : id < t.scopes.size := lt_size_of_get? hs
  rw [get?, Array.getElem?_setIfInBounds]
  by_cases hi : i = id
  · simp [hi, hlt]
  · simp [hi, Ne.symm hi, get?]

/-! ### The way outwards -/

/-- The scopes from `id` outwards, up to one that is inside no other. -/
inductive Way (t : ScopeTree) : ScopeId → List ScopeId → Prop
  | last {id : ScopeId} {s : Scope} : t.get? id = some s → s.enclosing = none → Way t id [id]
  | step {id outer : ScopeId} {s : Scope} {ids : List ScopeId} :
      t.get? id = some s → s.enclosing = some outer → Way t outer ids → Way t id (id :: ids)

/-- A scope lies inside one that was opened before it, one level deeper; its symbols and its
index are in step. -/
structure Valid (t : ScopeTree) : Prop where
  inside {id outer : ScopeId} {s : Scope} : t.get? id = some s → s.enclosing = some outer →
    outer < id ∧ ∃ o, t.get? outer = some o ∧ s.level = o.level + 1
  outermost {id : ScopeId} {s : Scope} : t.get? id = some s → s.enclosing = none → s.level = 1
  inStep {id : ScopeId} {s : Scope} : t.get? id = some s → s.InStep

theorem valid_empty : Valid {} where
  inside h := by cases h
  outermost h := by cases h
  inStep h := by cases h

theorem Valid.open? (ht : t.Valid) {name : String} {enclosing : Option ScopeId}
    (h : t.open? name enclosing = some t') : t'.Valid := by
  obtain ⟨level, rfl, hlevel⟩ := open?_cases h
  -- What was there before has kept its number.
  have hold : ∀ {i s}, t.get? i = some s → i < t.size ∧
      (ScopeTree.mk (t.scopes.push { name, level, enclosing })).get? i = some s := by
    intro i s hs
    have hlt := lt_size_of_get? hs
    rw [get?_push, if_neg (Nat.ne_of_lt hlt)]
    exact ⟨hlt, hs⟩
  constructor
  · intro i outer s hs henclosing
    rw [get?_push] at hs
    split at hs
    next hi =>
      cases hs
      rcases hlevel with ⟨rfl, -⟩ | ⟨outside, o, rfl, ho, rfl⟩
      · cases henclosing
      · cases henclosing
        exact ⟨hi ▸ (hold ho).1, o, (hold ho).2, rfl⟩
    next =>
      obtain ⟨hlt, o, ho, hnum⟩ := ht.inside hs henclosing
      exact ⟨hlt, o, (hold ho).2, hnum⟩
  · intro i s hs henclosing
    rw [get?_push] at hs
    split at hs
    next =>
      cases hs
      rcases hlevel with ⟨-, hone⟩ | ⟨outside, o, rfl, -, -⟩
      · exact hone
      · cases henclosing
    next => exact ht.outermost hs henclosing
  · intro i s hs
    rw [get?_push] at hs
    split at hs
    next =>
      cases hs
      exact Scope.inStep_empty
    next => exact ht.inStep hs

theorem Valid.insert? (ht : t.Valid) {inserted : Bool}
    (h : t.insert? id x = some (inserted, t')) :
    t'.Valid := by
  obtain ⟨s₀, hs₀, ⟨-, -, rfl⟩ | ⟨-, hfree, rfl⟩⟩ := insert?_cases h
  · exact ht
  -- The scope that gets the symbol keeps its level and its place.
  have hback : ∀ {i s}, (ScopeTree.mk (t.scopes.setIfInBounds id (s₀.push x))).get?
      i = some s →
      ∃ s', t.get? i = some s' ∧ s'.enclosing = s.enclosing ∧ s'.level = s.level ∧
      s.InStep := by
    intro i s hs
    rw [get?_set hs₀] at hs
    split at hs
    next hi =>
      cases hs
      exact ⟨s₀, hi ▸ hs₀, rfl, rfl, (ht.inStep hs₀).push hfree⟩
    next => exact ⟨s, hs, rfl, rfl, ht.inStep hs⟩
  constructor
  · intro i outer s hs henclosing
    obtain ⟨s', hs', hsame, hlevel, -⟩ := hback hs
    obtain ⟨hlt, o, ho, hnum⟩ := ht.inside hs' (hsame.trans henclosing)
    refine ⟨hlt, ?_⟩
    by_cases houter : outer = id
    · obtain rfl := Option.some.inj (ho.symm.trans (houter ▸ hs₀))
      exact ⟨o.push x, by rw [get?_set hs₀, if_pos houter], hlevel.symm.trans hnum⟩
    · exact ⟨o, by rw [get?_set hs₀, if_neg houter, ho], hlevel.symm.trans hnum⟩
  · intro i s hs henclosing
    obtain ⟨s', hs', hsame, hlevel, -⟩ := hback hs
    exact hlevel.symm.trans (ht.outermost hs' (hsame.trans henclosing))
  · intro i s hs
    exact (hback hs).choose_spec.2.2.2

/-- Every scope has a way outwards, as long as its level says. -/
theorem Valid.exists_way (ht : t.Valid) {s : Scope} (hs : t.get? id = some s) :
    ∃ ids, t.Way id ids ∧ s.level = ids.length := by
  induction id using Nat.strongRecOn generalizing s with
  | ind id ih =>
      cases henclosing : s.enclosing with
      | none => exact ⟨[id], .last hs henclosing, ht.outermost hs henclosing⟩
      | some outer =>
          obtain ⟨hlt, o, ho, hlevel⟩ := ht.inside hs henclosing
          obtain ⟨ids, hway, hlength⟩ := ih outer hlt ho
          exact ⟨id :: ids, .step hs henclosing hway,
            by rw [hlevel, hlength, List.length_cons]⟩

/-- The symbol of that name in the scope `id`, and that scope. -/
def own? (t : ScopeTree) (name : String) (id : ScopeId) : Option (Symbol × Scope) :=
  (t.get? id).bind fun s => (s.find? name).map (·, s)

/-- A lookup asks the scopes on the way outwards, one after the other. -/
theorem Valid.lookup_eq (ht : t.Valid) {ids : List ScopeId} (hway : t.Way id ids)
    (name : String) :
    t.lookup id name = ids.findSome? (t.own? name) := by
  -- Numbers get smaller on the way outwards, so the size of the tree is enough.
  have hchain : ∀ n, id < n →
      ((t.chainUpTo n id).findSome? fun s => (s.find? name).map (·, s)) =
      ids.findSome? (t.own? name) := by
    induction hway with
    | last hs henclosing =>
        intro n hn
        obtain ⟨n, rfl⟩ := Nat.exists_eq_add_one_of_ne_zero (Nat.ne_zero_of_lt hn)
        simp only [chainUpTo, hs, henclosing, List.findSome?_singleton, own?, Option.bind_some]
    | step hs henclosing _ ih =>
        intro n hn
        obtain ⟨n, rfl⟩ := Nat.exists_eq_add_one_of_ne_zero (Nat.ne_zero_of_lt hn)
        have hlt := (ht.inside hs henclosing).1
        simp only [chainUpTo, hs, henclosing, List.findSome?_cons, own?, Option.bind_some]
        rw [ih n (Nat.lt_of_lt_of_le hlt (Nat.le_of_lt_succ hn))]
  refine hchain t.size ?_
  cases hway with
  | last hs _ => exact lt_size_of_get? hs
  | step hs _ _ => exact lt_size_of_get? hs

/-! ### Histories -/

/-- One operation: a scope is opened, inside another one or inside none, or a symbol is offered
to a scope. -/
inductive Operation where
  | opening (name : String) (enclosing : Option ScopeId)
  | offer (id : ScopeId) (symbol : Symbol)

/-- The operations, in this order, lead from the tree without scopes to `t`. -/
inductive Built : List Operation → ScopeTree → Prop
  | nil : Built [] {}
  | opening {history : List Operation} {t t' : ScopeTree} {name : String}
      {enclosing : Option ScopeId} :
      Built history t → t.open? name enclosing = some t' →
      Built (history ++ [.opening name enclosing]) t'
  | offer {history : List Operation} {t t' : ScopeTree} {id : ScopeId} {x : Symbol}
      {inserted : Bool} :
      Built history t → t.insert? id x = some (inserted, t') →
      Built (history ++ [.offer id x]) t'

/-- The symbol that an operation offers to the scope `id` under that name. -/
def Operation.offered? (id : ScopeId) (name : String) : Operation → Option Symbol
  | .opening _ _ => none
  | .offer id' x => if id' = id ∧ x.name = name then some x else none

/-- The first symbol that was ever offered to the scope `id` under that name. -/
def firstOffered? (history : List Operation) (id : ScopeId) (name : String) : Option Symbol :=
  history.findSome? (·.offered? id name)

variable {history : List Operation}

theorem Built.valid (h : Built history t) : t.Valid := by
  induction h with
  | nil => exact valid_empty
  | opening _ hopen ih => exact ih.open? hopen
  | offer _ hinsert ih => exact ih.insert? hinsert

theorem firstOffered?_concat (history : List Operation) (op : Operation) (id : ScopeId)
    (name : String) :
    firstOffered? (history ++ [op]) id name =
      (firstOffered? history id name).or (op.offered? id name) := by
  rw [firstOffered?, firstOffered?, List.findSome?_append, List.findSome?_singleton]

/-- What a scope finds under a name after one more symbol was taken. -/
theorem Valid.find?_get?_set (ht : t.Valid) {s : Scope} (hs : t.get? id = some s)
    (hfree : x.name ∉ s.index) (i : ScopeId) (name : String) :
    ((ScopeTree.mk (t.scopes.setIfInBounds id (s.push x))).get? i).bind (·.find? name) =
      ((t.get? i).bind (·.find? name)).or
        (if id = i ∧ x.name = name then some x else none) := by
  have hstep := ht.inStep hs
  rw [get?_set hs]
  by_cases hi : i = id
  · subst hi
    rw [if_pos rfl, hs, Option.bind_some, Option.bind_some, hstep.find?_push]
    by_cases hname : x.name = name
    · subst hname
      have hnone : s.find? x.name = none := by simpa using mt hstep.mem_index_iff.mpr hfree
      simp [hnone]
    · simp [hname]
  · rw [if_neg hi, if_neg (fun h => hi h.1.symm), Option.or_none]

/-- A scope finds the first symbol that was ever offered to it. -/
theorem Built.firstOffered? (h : Built history t) (id : ScopeId) (name : String) :
    firstOffered? history id name = (t.get? id).bind (·.find? name) := by
  induction h with
  | nil => rfl
  | @opening history t _ _ _ _ hopen ih =>
      obtain ⟨level, rfl, -⟩ := open?_cases hopen
      rw [firstOffered?_concat, Operation.offered?, Option.or_none, ih, get?_push]
      split
      next hid =>
        -- There was no scope of that number, and now there is one without symbols.
        have hnone : t.get? id = none := by rw [hid, get?]; exact Array.getElem?_size
        rw [hnone]
        rfl
      next => rfl
  | @offer history t _ id' x _ hbuilt hinsert ih =>
      obtain ⟨s, hs, ⟨-, htaken, rfl⟩ | ⟨-, hfree, rfl⟩⟩ := insert?_cases hinsert
      · rw [firstOffered?_concat, ih, Operation.offered?]
        split
        next hsame =>
          obtain ⟨rfl, rfl⟩ := hsame
          have hsome := (hbuilt.valid.inStep hs).mem_index_iff.mp htaken
          obtain ⟨y, hy⟩ := Option.isSome_iff_exists.mp hsome
          rw [hs, Option.bind_some, hy, Option.some_or]
        next => rw [Option.or_none]
      · rw [firstOffered?_concat, ih, Operation.offered?, hbuilt.valid.find?_get?_set hs hfree]

theorem Built.own?_eq_none_iff (h : Built history t) (id : ScopeId) (name : String) :
    t.own? name id = none ↔ ScopeTree.firstOffered? history id name = none := by
  rw [h.firstOffered?, own?, Option.bind_eq_none_iff, Option.bind_eq_none_iff]
  simp only [Option.map_eq_none_iff]

theorem Built.own?_eq_some_iff (h : Built history t) {id : ScopeId} {name : String}
    {x : Symbol} {s : Scope} : t.own? name id = some (x, s) ↔
      ScopeTree.firstOffered? history id name = some x ∧ t.get? id = some s := by
  rw [h.firstOffered?, own?]
  cases t.get? id with
  | none => simp
  | some s' =>
      simp only [Option.bind_some, Option.map_eq_some_iff, Prod.mk.injEq, Option.some.injEq]
      constructor
      · rintro ⟨y, hy, rfl, rfl⟩
        exact ⟨hy, rfl⟩
      · rintro ⟨hx, rfl⟩
        exact ⟨x, hx, rfl, rfl⟩

/-! ### What one more symbol changes -/

theorem Way.insert? {start : ScopeId} {ids : List ScopeId} {inserted : Bool}
    (h : t.Way start ids) (hinsert : t.insert? id x = some (inserted, t')) :
    t'.Way start ids := by
  obtain ⟨s₀, hs₀, ⟨-, -, rfl⟩ | ⟨-, -, rfl⟩⟩ := insert?_cases hinsert
  · exact h
  have hkept : ∀ {i s}, t.get? i = some s →
      ∃ s', (ScopeTree.mk (t.scopes.setIfInBounds id (s₀.push x))).get? i = some s' ∧
        s'.enclosing = s.enclosing := by
    intro i s hs
    rw [get?_set hs₀]
    split
    next hi =>
      obtain rfl := Option.some.inj (hs.symm.trans (hi ▸ hs₀))
      exact ⟨s.push x, rfl, rfl⟩
    next => exact ⟨s, hs, rfl⟩
  induction h with
  | last hs henclosing =>
      obtain ⟨s', hs', hsame⟩ := hkept hs
      exact .last hs' (hsame.trans henclosing)
  | step hs henclosing _ ih =>
      obtain ⟨s', hs', hsame⟩ := hkept hs
      exact .step hs' (hsame.trans henclosing) ih

/-- What a lookup tells: the symbol, and which scope has it. -/
def answer (found : Symbol × Scope) : Symbol × String × Nat × Option ScopeId :=
  (found.1, found.2.heading)

/-- A symbol that is taken into the scope `id` changes what that scope tells under the symbol's
name. -/
theorem Valid.own?_ne_of_insert? (ht : t.Valid) (hinsert : t.insert? id x = some (true, t'))
    {i : ScopeId} {name : String}
    (hne : (t'.own? name i).map answer ≠ (t.own? name i).map answer) :
    i = id ∧ name = x.name := by
  obtain ⟨s, hs, ⟨htrue, -, -⟩ | ⟨-, -, rfl⟩⟩ := insert?_cases hinsert
  · cases htrue
  rw [own?, own?, get?_set hs] at hne
  by_cases hi : i = id
  · subst hi
    refine ⟨rfl, Classical.not_not.mp fun hname => hne ?_⟩
    rw [if_pos rfl, hs, Option.bind_some, Option.bind_some, (ht.inStep hs).find?_push,
      if_neg (Ne.symm hname), Option.map_map, Option.map_map]
    rfl
  · rw [if_neg hi] at hne
    exact absurd rfl hne

/-- Where two ways of asking one element after the other come to different answers. -/
theorem exists_ne_of_findSome?_ne {α β : Type} {f g : α → Option β} {l : List α}
    (h : l.findSome? f ≠ l.findSome? g) :
    ∃ near a far, l = near ++ a :: far ∧ (∀ b ∈ near, g b = none) ∧ f a ≠ g a := by
  induction l with
  | nil => exact absurd rfl h
  | cons a l ih =>
      by_cases heq : f a = g a
      · rw [List.findSome?_cons, List.findSome?_cons, heq] at h
        cases hg : g a with
        | some b => simp [hg] at h
        | none =>
            simp only [hg] at h
            obtain ⟨near, b, far, rfl, hnear, hb⟩ := ih h
            exact ⟨a :: near, b, far, rfl, List.forall_mem_cons.mpr ⟨hg, hnear⟩, hb⟩
      · exact ⟨[], a, l, rfl, by simp, heq⟩

/-- After a symbol was taken, a lookup can tell something else only where it reaches that
symbol. -/
theorem Built.lookup_ne (h : Built history t) (hinsert : t.insert? id x = some (true, t'))
    {start : ScopeId} {ids : List ScopeId} (hway : t.Way start ids) {name : String}
    (hne : (t'.lookup start name).map answer ≠ (t.lookup start name).map answer) :
    name = x.name ∧ ∃ near far, ids = near ++ id :: far ∧
      ∀ i ∈ near, ScopeTree.firstOffered? history i name = none := by
  rw [(h.valid.insert? hinsert).lookup_eq (hway.insert? hinsert), h.valid.lookup_eq hway,
    List.map_findSome?, List.map_findSome?] at hne
  obtain ⟨near, i, far, rfl, hnear, hi⟩ := exists_ne_of_findSome?_ne hne
  obtain ⟨rfl, hname⟩ := h.valid.own?_ne_of_insert? hinsert hi
  refine ⟨hname, near, far, rfl, ?_⟩
  intro j hj
  exact (h.own?_eq_none_iff j name).mp (Option.map_eq_none_iff.mp (hnear j hj))

end ScopeTree

/-- Whatever scopes were opened and whatever symbols were offered to them, in any order: a
scope lies inside an earlier one, its level is the length of the way outwards, its names are
distinct, its index has under each name the place of the symbol of that name, and what is found
there is that symbol. A lookup gives the first symbol that the nearest scope was ever offered
under that name, with that scope, and nothing if no scope on the way outwards was offered one.
A symbol that is refused changes nothing, and one that is taken changes only the lookups of its
name that reach its scope before they find another. -/
theorem lookup_finds_first_of_nearest {history : List ScopeTree.Operation} {t : ScopeTree}
    (h : ScopeTree.Built history t) :
    (∀ id s, t.get? id = some s →
      (∀ outer, s.enclosing = some outer → outer < id) ∧
      (∃ ids, t.Way id ids ∧ s.level = ids.length) ∧
      (s.symbols.toList.map Symbol.name).Nodup ∧
      ∀ name, (∀ i, s.index[name]? = some i ↔ (s.symbols[i]?).map Symbol.name = some name) ∧
        ∀ x, s.find? name = some x ↔ x ∈ s.symbols ∧ x.name = name) ∧
    (∀ id ids name, t.Way id ids →
      (t.lookup id name = none ↔ ∀ i ∈ ids, ScopeTree.firstOffered? history i name = none) ∧
      ∀ x s, t.lookup id name = some (x, s) ↔
        ∃ near i far, ids = near ++ i :: far ∧
          (∀ j ∈ near, ScopeTree.firstOffered? history j name = none) ∧
          ScopeTree.firstOffered? history i name = some x ∧ t.get? i = some s) ∧
    (∀ id x t', t.insert? id x = some (false, t') → t' = t) ∧
    ∀ id x t', t.insert? id x = some (true, t') → ∀ start ids, t.Way start ids →
      t'.Way start ids ∧ ∀ name,
        (t'.lookup start name).map ScopeTree.answer ≠
          (t.lookup start name).map ScopeTree.answer →
        name = x.name ∧ ∃ near far, ids = near ++ id :: far ∧
          ∀ i ∈ near, ScopeTree.firstOffered? history i name = none := by
  refine ⟨?_, ?_, ?_, ?_⟩
  · intro id s hs
    have hstep := h.valid.inStep hs
    exact ⟨fun outer houter => (h.valid.inside hs houter).1, h.valid.exists_way hs,
      hstep.nodup, fun name => ⟨hstep name, fun x => hstep.find?_eq_some_iff⟩⟩
  · intro id ids name hway
    rw [h.valid.lookup_eq hway]
    constructor
    · rw [List.findSome?_eq_none_iff]
      exact forall₂_congr fun i _ => h.own?_eq_none_iff i name
    · intro x s
      rw [List.findSome?_eq_some_iff]
      simp only [h.own?_eq_some_iff, h.own?_eq_none_iff]
      constructor
      · rintro ⟨near, i, far, rfl, hfound, hnear⟩
        exact ⟨near, i, far, rfl, hnear, hfound⟩
      · rintro ⟨near, i, far, rfl, hnear, hfound⟩
        exact ⟨near, i, far, rfl, hfound, hnear⟩
  · intro id x t' hinsert
    obtain ⟨s, -, ⟨-, -, ht'⟩ | ⟨hfalse, -, -⟩⟩ := ScopeTree.insert?_cases hinsert
    · exact ht'
    · cases hfalse
  · intro id x t' hinsert start ids hway
    exact ⟨hway.insert? hinsert, fun name hne => h.lookup_ne hinsert hway hne⟩

/-- A variable of the outermost scope is declared again in one of two inner scopes. -/
def shadowing : List ScopeTree.Operation :=
  [.opening "global" none, .opening "A" (some 0), .opening "B" (some 0),
    .offer 1 (.var ⟨"X", .real⟩), .offer 0 (.var ⟨"X", .integer⟩),
    .offer 1 (.var ⟨"X", .string⟩)]

/-- The tree that these operations lead to. -/
def shadowed : ScopeTree :=
  ⟨#[({ name := "global", level := 1, enclosing := none } : Scope).push (.var ⟨"X", .integer⟩),
    ({ name := "A", level := 2, enclosing := some 0 } : Scope).push (.var ⟨"X", .real⟩),
    { name := "B", level := 2, enclosing := some 0 }]⟩

/-- From `A` the name means the first variable that was offered there, and from `B` the outer
one. -/
theorem shadowed_lookup :
    ScopeTree.Built shadowing shadowed ∧
      (∃ s, shadowed.lookup 1 "X" = some (.var ⟨"X", .real⟩, s) ∧ s.level = 2) ∧
      ∃ s, shadowed.lookup 2 "X" = some (.var ⟨"X", .integer⟩, s) ∧ s.level = 1 := by
  have hbuilt : ScopeTree.Built shadowing shadowed :=
    (((((ScopeTree.Built.nil.opening rfl).opening rfl).opening rfl).offer rfl).offer
      rfl).offer rfl
  have hwayA : shadowed.Way 1 [1, 0] := .step rfl rfl (.last rfl rfl)
  have hwayB : shadowed.Way 2 [2, 0] := .step rfl rfl (.last rfl rfl)
  obtain ⟨-, hlookup, -⟩ := lookup_finds_first_of_nearest hbuilt
  have hA := (hlookup 1 [1, 0] "X" hwayA).2
  have hB := (hlookup 2 [2, 0] "X" hwayB).2
  refine ⟨hbuilt, ⟨_, (hA _ _).mpr ⟨[], 1, [0], rfl, by simp, rfl, rfl⟩, rfl⟩,
    ⟨_, (hB _ _).mpr ⟨[2], 0, [], rfl, ?_, rfl, rfl⟩, rfl⟩⟩
  intro j hj
  rw [List.mem_singleton.mp hj]
  rfl

end MiniPascal
