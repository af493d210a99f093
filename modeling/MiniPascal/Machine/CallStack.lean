import MiniPascal.Text.Line
import MiniPascal.Value
import Std.Data.TreeMap

/-!
The call stack. A frame holds the variables of one activation of the program or of a procedure,
and a link to the frame of the scope around it. Links are places in the stack, counted from its
bottom.
-/

namespace MiniPascal

inductive FrameKind where
  | program
  | procedure
  deriving DecidableEq, Inhabited

def FrameKind.name : FrameKind → String
  | .program => "PROGRAM"
  | .procedure => "PROCEDURE"

structure Frame where
  name : String
  kind : FrameKind
  /-- The level of the scope that runs in this frame. -/
  level : Nat
  /-- Where the frame of the enclosing scope is. -/
  link : Option Nat
  members : Std.TreeMap String Value := {}
  deriving Inhabited

namespace Frame

def get? (f : Frame) (name : String) : Option Value := f.members[name]?

def set (f : Frame) (name : String) (v : Value) : Frame :=
  { f with members := f.members.insert name v }

/-- A heading, then the members in the order of their names. -/
def text (f : Frame) : String :=
  let rows :=
    f.members.toList.map fun (name, v) => s!"\n    {Text.alignLeft 20 name}: {v.text}"
  s!"{f.level}: {f.kind.name} {f.name}{String.join rows}"

section

variable (f : Frame) (name : String) (v : Value)

@[simp]
theorem name_set : (f.set name v).name = f.name := rfl

@[simp]
theorem kind_set : (f.set name v).kind = f.kind := rfl

@[simp]
theorem level_set : (f.set name v).level = f.level := rfl

@[simp]
theorem link_set : (f.set name v).link = f.link := rfl

@[simp]
theorem get?_set_self : (f.set name v).get? name = some v := by
  simp [get?, set]

end

@[simp]
theorem get?_set_of_ne (f : Frame) {name other : String} (h : name ≠ other) (v : Value) :
    (f.set name v).get? other = f.get? other := by
  simp [get?, set, Std.TreeMap.getElem?_insert, h]

theorem get?_set_eq_some {f : Frame} {name name' : String} {v w : Value}
    (h : (f.set name v).get? name' = some w) :
    name' = name ∧ w = v ∨ f.get? name' = some w := by
  by_cases hname : name = name'
  · subst hname
    rw [get?_set_self] at h
    exact .inl ⟨rfl, (Option.some.inj h).symm⟩
  · rw [get?_set_of_ne f hname] at h
    exact .inr h

end Frame

structure CallStack where
  frames : Array Frame := #[]
  deriving Inhabited

/-- The result of following links in search of a level. -/
inductive LevelSearch where
  | found (index : Nat)
  | absent
  /-- A link leads to no frame, or the links never come to an end. -/
  | broken
  deriving DecidableEq

namespace CallStack

def size (s : CallStack) : Nat := s.frames.size

def push (s : CallStack) (f : Frame) : CallStack := ⟨s.frames.push f⟩

def pop (s : CallStack) : CallStack := ⟨s.frames.pop⟩

def top? (s : CallStack) : Option Frame := s.frames.back?

def get? (s : CallStack) (index : Nat) : Option Frame := s.frames[index]?

/-- Gives a member of the frame at `index` a value. -/
def assign (s : CallStack) (index : Nat) (name : String) (v : Value) : CallStack :=
  ⟨s.frames.modify index (·.set name v)⟩

/-- Follows at most `n` links from the frame at `index`. -/
def searchUpTo (s : CallStack) (level : Nat) : Nat → Nat → LevelSearch
  | 0, _ => .broken
  | n + 1, index =>
      match s.get? index with
      | none => .broken
      | some f =>
          if f.level = level then .found index
          else if f.level < level then .absent
          else
            match f.link with
            | none => .absent
            | some outer => s.searchUpTo level n outer

/-- The frame of a level, on the way along the links from the top frame. -/
def findLevel (s : CallStack) (level : Nat) : LevelSearch :=
  if s.size = 0 then .absent else s.searchUpTo level s.size (s.size - 1)

/-- All frames, from the top. -/
def text (s : CallStack) : String :=
  "CALL STACK" ++ String.join (s.frames.toList.reverse.map fun f => "\n" ++ f.text)

/-! ### Frames of a changed stack -/

section

variable (s : CallStack) (f : Frame)

@[simp]
theorem size_empty : size {} = 0 := rfl

@[simp]
theorem get?_empty (i : Nat) : get? {} i = none := rfl

@[simp]
theorem size_push : (s.push f).size = s.size + 1 := Array.size_push f

@[simp]
theorem size_pop : s.pop.size = s.size - 1 := Array.size_pop

@[simp]
theorem size_assign (i : Nat) (name : String) (v : Value) :
    (s.assign i name v).size = s.size :=
  Array.size_modify

@[simp]
theorem pop_push : (s.push f).pop = s := by
  simp [pop, push]

@[simp]
theorem top?_push : (s.push f).top? = some f := Array.back?_push

@[simp]
theorem get?_push_size : (s.push f).get? s.size = some f := by
  rw [get?, push, size, Array.getElem?_push, if_pos rfl]

theorem top?_eq_get? : s.top? = s.get? (s.size - 1) := Array.back?_eq_getElem?

end

section

variable {s : CallStack} {i j : Nat} {f g : Frame}

theorem get?_push_of_lt (h : i < s.size) (f : Frame) : (s.push f).get? i = s.get? i := by
  have hne : i ≠ s.frames.size := Nat.ne_of_lt h
  rw [get?, push, Array.getElem?_push, if_neg hne, get?]

theorem get?_pop_of_lt (h : i < s.size - 1) : s.pop.get? i = s.get? i := by
  have hi : i < s.frames.size - 1 := h
  rw [get?, pop, Array.getElem?_pop, if_pos hi, get?]

theorem get?_of_get?_pop (h : s.pop.get? i = some f) : s.get? i = some f := by
  rw [get?, pop, Array.getElem?_pop] at h
  split at h
  · exact h
  · cases h

theorem exists_of_get?_assign {name : String} {v : Value}
    (h : (s.assign j name v).get? i = some f) :
    ∃ f₀, s.get? i = some f₀ ∧ f = if j = i then f₀.set name v else f₀ := by
  rw [get?, assign, Array.getElem?_modify] at h
  split at h
  next hij =>
    obtain ⟨f₀, hf₀, rfl⟩ := Option.map_eq_some_iff.mp h
    exact ⟨f₀, hf₀, (if_pos hij).symm⟩
  next hij => exact ⟨f, h, (if_neg hij).symm⟩

theorem lt_size_of_get? (h : s.get? i = some f) : i < s.size :=
  (Array.getElem?_eq_some_iff.mp h).1

theorem exists_get?_of_lt (h : i < s.size) : ∃ f, s.get? i = some f :=
  ⟨s.frames[i], Array.getElem?_eq_getElem h⟩

theorem get?_push_eq_some (h : (s.push f).get? i = some g) :
    s.get? i = some g ∨ i = s.size ∧ g = f := by
  have hlt := lt_size_of_get? h
  rw [size_push] at hlt
  rcases Nat.lt_or_ge i s.size with hi | hi
  · rw [get?_push_of_lt hi] at h
    exact .inl h
  · obtain rfl : i = s.size := by omega
    rw [get?_push_size] at h
    exact .inr ⟨rfl, (Option.some.inj h).symm⟩

theorem get?_of_top? (h : s.top? = some f) : s.get? (s.size - 1) = some f :=
  s.top?_eq_get?.symm.trans h

/-- A stack that is not empty has a top frame. -/
theorem exists_top? (h : 0 < s.size) : ∃ f, s.top? = some f := by
  rw [top?_eq_get?]
  exact exists_get?_of_lt (Nat.sub_one_lt_of_lt h)

end

end CallStack

end MiniPascal
