import MiniPascal.Settings

/-!
The journal of a run: what it reports about itself, in order. A message is made only if its
topic is switched on.
-/

namespace MiniPascal

inductive Topic where
  | trace (t : Trace)
  | dump (d : Dump)
  deriving DecidableEq

namespace Topic

def level : Topic → String
  | .trace _ => "TRACE"
  | .dump _ => "INFO"

def target : Topic → String
  | .trace t => t.target
  | .dump _ => Dump.target

end Topic

structure Entry where
  topic : Topic
  message : String
  deriving DecidableEq

structure Journal where
  traces : List Trace
  dumps : List Dump
  entries : Array Entry := #[]

namespace Journal

def ofSettings (s : Settings) : Journal := { traces := s.traces, dumps := s.dumps }

def wants (j : Journal) : Topic → Bool
  | .trace t => t ∈ j.traces
  | .dump d => d ∈ j.dumps

def note (j : Journal) (topic : Topic) (message : Unit → String) : Journal :=
  if j.wants topic then { j with entries := j.entries.push ⟨topic, message ()⟩ } else j

def trace (j : Journal) (t : Trace) (message : Unit → String) : Journal :=
  j.note (.trace t) message

def dump (j : Journal) (d : Dump) (message : Unit → String) : Journal :=
  j.note (.dump d) message

@[simp]
theorem traces_note (j : Journal) (topic : Topic) (message : Unit → String) :
    (j.note topic message).traces = j.traces := by
  unfold note
  split <;> rfl

@[simp]
theorem dumps_note (j : Journal) (topic : Topic) (message : Unit → String) :
    (j.note topic message).dumps = j.dumps := by
  unfold note
  split <;> rfl

@[simp]
theorem wants_note (j : Journal) (topic topic' : Topic) (message : Unit → String) :
    (j.note topic message).wants topic' = j.wants topic' := by
  unfold note
  split
  · cases topic' <;> rfl
  · rfl

theorem entries_note (j : Journal) (topic : Topic) (message : Unit → String) :
    (j.note topic message).entries.toList =
      j.entries.toList ++ if j.wants topic then [⟨topic, message ()⟩] else [] := by
  unfold note
  split <;> simp_all

end Journal

end MiniPascal
