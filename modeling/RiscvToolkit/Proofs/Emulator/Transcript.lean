import RiscvToolkit.Proofs.Emulator.Operation

/-! What operations send to the console: they only ever append to it. -/
namespace RiscvToolkit

theorem Console.since_send (c : Console) (events : List Event) :
    ((c.send events).since c.events.size).events.toList = events := by
  have hsize : (c.send events).events.size = c.events.size + events.length := by
    rw [← Array.length_toList, toList_events_send, List.length_append, Array.length_toList]
  rw [since, hsize]
  simp

namespace Emulator

/-- The console that an operation finds, which the host may have changed. -/
def consoleAt (e : Emulator) : Operation → Console
  | .setConsole console => console
  | _ => e.console

/-- What an operation sends to the console. -/
def sent (e : Emulator) (op : Operation) : List Event :=
  ((e.perform op).2.console.since (e.consoleAt op).events.size).events.toList

/-- What operations send to the console, one after the other. -/
def transcript (e : Emulator) : List Operation → List (List Event)
  | [] => []
  | op :: rest => e.sent op :: (e.perform op).2.transcript rest

variable {e : Emulator}

theorem sent_eq {op : Operation} {events : List Event}
    (h : (e.perform op).2.console = (e.consoleAt op).send events) : e.sent op = events := by
  rw [sent, h, Console.since_send]

theorem sent_eq_nil {op : Operation} (h : (e.perform op).2.console = e.consoleAt op) :
    e.sent op = [] :=
  sent_eq (h.trans (Console.send_nil _).symm)

/-- True of emulators of which the second has sent the rest of what is on its console. -/
def Extends (e e' : Emulator) : Prop :=
  ∃ events, e'.console = e.console.send events

theorem keptByRuns_extends (e : Emulator) : KeptByRuns fun e' => e'.Zeroed ∧ e.Extends e' where
  advance h ht := by
    refine ⟨kept_zeroed.advance h.1 ht, ?_⟩
    obtain ⟨events, he⟩ := h.2
    obtain ⟨-, -, rfl⟩ | ⟨done, -, -, -, rfl⟩ := advanced_of_tryStep h.1.machine ht
    · exact ⟨events, he⟩
    · refine ⟨events ++ done.events, ?_⟩
      rw [advanced, he, Console.send_send]
  fault h ht := by
    rw [eq_of_fault h.1.machine ht]
    exact h
  report h fault := by
    refine ⟨kept_zeroed.byRuns.report h.1 fault, ?_⟩
    obtain ⟨events, he⟩ := h.2
    unfold report
    dsimp only
    rw [he, Console.send_send]
    exact ⟨_, rfl⟩
  pause h := ⟨kept_zeroed.pause h.1, h.2⟩

theorem console_stepBack : (e.perform .stepBack).2.console = e.console := by
  unfold Emulator.perform
  dsimp only
  cases hb : e.stepBack? with
  | none => rfl
  | some e' =>
    obtain ⟨popped, -, rfl⟩ := Option.map_eq_some_iff.mp hb
    rfl

/-- Operations append to the console, whatever they do besides. -/
theorem console_perform (hz : e.Zeroed) (op : Operation) :
    (e.perform op).2.console = (e.consoleAt op).send (e.sent op) := by
  have hself : e.Zeroed ∧ e.Extends e := ⟨hz, [], (Console.send_nil _).symm⟩
  have hkept := keptByRuns_extends e
  suffices h : ∃ events, (e.perform op).2.console = (e.consoleAt op).send events by
    obtain ⟨events, he⟩ := h
    rw [sent_eq he, he]
  cases op with
  | step => exact (hkept.step hself).2
  | tryStep => exact (hkept.tryStep hself).2
  | run flag => exact (hkept.runFrom flag 0 hself).2
  | runToEnd flag bursts => exact (hkept.runToEndFrom flag 0 bursts hself).2
  | stepBack => exact ⟨[], console_stepBack.trans (Console.send_nil _).symm⟩
  | reset | setBreakpoint | clearBreakpoint | clearBreakpoints | setConsole =>
    exact ⟨[], (Console.send_nil _).symm⟩

end Emulator

end RiscvToolkit
