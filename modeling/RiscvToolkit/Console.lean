/-!
What a program tells its host. A console is the list of events so far; the text shown, the errors and
whether the program ended are views of it.
-/
namespace RiscvToolkit

inductive Event where
  /-- Text that the program printed. -/
  | output (text : String)
  /-- An error that ended a step or a run. -/
  | error (message : String)
  /-- The program asked to exit. -/
  | halted
  deriving DecidableEq, Repr

namespace Event

def output? : Event → Option String
  | output text => some text
  | _ => none

def error? : Event → Option String
  | error message => some message
  | _ => none

end Event

/-- The events sent, oldest first. -/
structure Console where
  events : Array Event
  deriving DecidableEq, Repr

namespace Console

def empty : Console := ⟨#[]⟩

def send (c : Console) (events : List Event) : Console :=
  ⟨c.events ++ events⟩

/-- The printed text. -/
def output (c : Console) : String :=
  String.join (c.events.toList.filterMap Event.output?)

def errors (c : Console) : List String :=
  c.events.toList.filterMap Event.error?

/-- True once the program has asked to exit. -/
def isHalted (c : Console) : Bool :=
  c.events.contains .halted

/-- The events sent after the first `count`. -/
def since (c : Console) (count : Nat) : Console :=
  ⟨c.events.extract count c.events.size⟩

@[simp] theorem toList_events_send (c : Console) (events : List Event) :
    (c.send events).events.toList = c.events.toList ++ events := by
  rw [send, Array.toList_appendList]

theorem errors_send (c : Console) (events : List Event) :
    (c.send events).errors = c.errors ++ events.filterMap Event.error? := by
  rw [errors, toList_events_send, List.filterMap_append]
  rfl

theorem output_send (c : Console) (events : List Event) :
    (c.send events).output = c.output ++ String.join (events.filterMap Event.output?) := by
  rw [output, toList_events_send, List.filterMap_append, String.join_append]
  rfl

end Console

end RiscvToolkit
