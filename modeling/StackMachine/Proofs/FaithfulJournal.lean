import StackMachine.Format.Journal
import StackMachine.Proofs.Stopping

/-!
# The journal is faithful to the run

The entries of a journal retrace the program: each has the instruction at its address, the next is
where that instruction leads, and the depths differ by its net effect.  The one event after them
tells how the run ended, with the counts that the entries have, or at which address it failed.
-/

namespace StackMachine

/-- What a journal has to tell of an executed instruction. -/
structure Entry where
  pointer : Address
  instr : Instr
  /-- How many values the instruction left on the stack. -/
  depth : Nat
  deriving DecidableEq

/-- The entries, from an address and a depth on, are a way through the program that comes to the
last address.  Nothing comes after a halt. -/
inductive Retraces (program : Program) : Address → Nat → List Entry → Address → Prop
  | nil {a : Address} {depth : Nat} : Retraces program a depth [] a
  | cons {a b last : Address} {i : Instr} {depth depth' : Nat} {rest : List Entry}
      (hfetch : program.fetch? a = some i)
      (hfalls : i.transfersControl = false → b = a + 1)
      (hjumps : ∀ label, i = .jump label → program.labels.resolve? label = some b)
      (hhalts : i = .halt → rest = [])
      (hdepth : (depth' : Int) = depth + i.netEffect)
      (hrest : Retraces program b depth' rest last) :
      Retraces program a depth (⟨a, i, depth'⟩ :: rest) last

theorem Retraces.getLast?_of_halt {program : Program} {a last : Address} {depth : Nat}
    {entries : List Entry} (h : Retraces program a depth entries last) {e : Entry}
    (he : e ∈ entries) (hhalt : e.instr = .halt) : entries.getLast? = some e := by
  induction h with
  | nil => cases he
  | cons _ _ _ hhalts _ _ ih =>
      rcases List.mem_cons.1 he with rfl | he
      · rw [hhalts hhalt]
        rfl
      · rw [List.getLast?_cons, ih he]
        rfl

/-! ## Entries and the event after them -/

def Entry.event (e : Entry) : Event := .dispatched e.pointer e.instr e.depth

def Event.entry? : Event → Option Entry
  | dispatched pointer instr depth => some ⟨pointer, instr, depth⟩
  | _ => none

def Event.entries (events : List Event) : List Entry := events.filterMap entry?

@[simp] theorem Event.entries_dispatched (pointer : Address) (i : Instr) (depth : Nat)
    (events : List Event) :
    entries (.dispatched pointer i depth :: events) = ⟨pointer, i, depth⟩ :: entries events := rfl

@[simp] theorem Event.entries_failed (fault : Fault) (pointer : Address) :
    entries [.failed fault pointer] = [] := rfl

@[simp] theorem Event.entries_finished (status : Status) (executed : Count) (records : Nat) :
    entries [.finished status executed records] = [] := rfl

/-- The event that closes the journal of a run that came to an address. -/
def Event.closing (last : Address) : Except Fault Completion → Event
  | .ok c => .finished c.status c.executed c.output.size
  | .error fault => .failed fault last

/-! ## What the entries of a run tell -/

theorem Step.retraces_of_cycle {s t : State} {i : Instr} {rest : List Entry} {last : Address}
    (hcycle : cycle s = .ok (i, t)) (hhalts : i = .halt → rest = [])
    (hrest : Retraces s.program t.pointer t.stack.depth rest last) :
    Retraces s.program s.pointer s.stack.depth (⟨s.pointer, i, t.stack.depth⟩ :: rest) last := by
  have hnext := successor?_of_cycle hcycle
  refine .cons (cycle_eq_ok_iff.1 hcycle).1 ?_ ?_ hhalts (depth_of_cycle hcycle) hrest
  · intro hfalls
    rw [Labels.successor?_of_falls_through _ _ hfalls] at hnext
    exact (Option.some.inj hnext).symm
  · rintro label rfl
    exact hnext

namespace Course

variable {limits : Limits} {n : Nat} {s : State} {events : List Event}
  {result : Except Fault Completion}

/-- The events of a run that comes to an end are entries that retrace the program and one event
more.  If the run fails, it does so in the cycle after the last entry. -/
theorem exists_retraces (h : Course limits n s events result)
    (hends : ∀ c, result = .ok c → c.status ≠ .running) :
    ∃ last, events = (Event.entries events).map Entry.event ++ [Event.closing last result] ∧
      Retraces s.program s.pointer s.stack.depth (Event.entries events) last ∧
      ∀ fault, result = .error fault → ∃ t, s.after (Event.entries events).length = .ok t ∧
        t.pointer = last ∧ Step.cycle t = .error fault := by
  induction h with
  | spent => exact absurd rfl (hends _ rfl)
  | @fault n s fault hcycle =>
      refine ⟨s.pointer, rfl, .nil, ?_⟩
      intro fault' hfault
      cases hfault
      exact ⟨s, rfl, rfl, hcycle⟩
  | @stop n s t i status hcycle hstatus hstop =>
      exact ⟨t.pointer, rfl, Step.retraces_of_cycle hcycle (fun _ => rfl) .nil, nofun⟩
  | @next n s t i events result hcycle hstatus hrest ih =>
      -- The run goes on, so this was no halt and entries may follow.
      have hi := Step.ne_halt_of_running hcycle hstatus
      obtain ⟨last, hevents, hretraces, hfails⟩ := ih hends
      rw [Step.program_of_cycle hcycle] at hretraces
      refine ⟨last, ?_, Step.retraces_of_cycle hcycle (absurd · hi) hretraces, ?_⟩
      · exact congrArg (Event.dispatched s.pointer i t.stack.depth :: ·) hevents
      · intro fault hfault
        rw [Event.entries_dispatched, List.length_cons, State.after_succ_eq_after hcycle]
        exact hfails fault hfault

/-- Each entry tells of the cycle of its number. -/
theorem cycle_of_entry (h : Course limits n s events result) {k : Nat} {e : Entry}
    (hk : (Event.entries events)[k]? = some e) :
    ∃ t u, s.after k = .ok t ∧ t.pointer = e.pointer ∧
      Step.cycle t = .ok (e.instr, u) ∧ u.stack.depth = e.depth := by
  induction h generalizing k with
  | spent | fault => cases hk
  | @stop n s t i status hcycle =>
      cases k with
      | zero =>
          cases hk
          exact ⟨s, t, rfl, rfl, hcycle, rfl⟩
      | succ k => cases hk
  | @next n s t i events result hcycle _ _ ih =>
      cases k with
      | zero =>
          cases hk
          exact ⟨s, t, rfl, rfl, hcycle, rfl⟩
      | succ k =>
          rw [State.after_succ_eq_after hcycle]
          exact ih hk

theorem length_entries_eq (h : Course limits n s events result) {c : Completion}
    (hresult : result = .ok c) :
    (Event.entries events).length = (Event.visits events).length := by
  induction h with
  | spent => rfl
  | fault => cases hresult
  | stop => rfl
  | next _ _ _ ih => simp [ih hresult]

theorem size_output_eq (h : Course limits n s events result) {c : Completion}
    (hresult : result = .ok c) :
    c.output.size =
      s.output.size + (Event.entries events).countP fun e => e.instr = .print := by
  induction h with
  | spent =>
      cases hresult
      rfl
  | fault => cases hresult
  | stop hcycle =>
      cases hresult
      simpa [State.completion, List.countP_cons] using Step.records_of_cycle hcycle
  | next hcycle _ _ ih =>
      rw [ih hresult, Step.records_of_cycle hcycle, Event.entries_dispatched, List.countP_cons]
      simp only [decide_eq_true_eq]
      omega

/-- A run halts if and only if its journal tells of a halt. -/
theorem halted_iff (h : Course limits n s events result) (hunhalted : s.halted = false) :
    (∃ c, result = .ok c ∧ c.status = .halted) ↔
      ∃ e ∈ Event.entries events, e.instr = .halt := by
  induction h with
  | spent => simp [State.completion, Event.entries]
  | fault => simp
  | stop hcycle hstatus =>
      subst hstatus
      simp [State.completion, State.status_eq_halted_iff,
        Step.eq_halt_iff_of_cycle hcycle hunhalted]
  | next hcycle hstatus _ ih =>
      have hunhalted' := (State.status_eq_running_iff.1 hstatus).1
      have hi := Step.ne_halt_of_running hcycle hstatus
      rw [ih hunhalted']
      simp [hi]

end Course

/-! ## The records of a run -/

/-- The record of an executed instruction. -/
def Entry.json (e : Entry) : Json :=
  .obj [("level", .str "TRACE"),
    ("fields", .obj [("message", .str "dispatched"), ("pointer", .int e.pointer.toNat),
      ("instruction", .str e.instr.text), ("jumped", .bool e.instr.transfersControl),
      ("depth", .int e.depth)])]

/-- The record of the end of a run that executed a number of instructions and came to an
address. -/
def closingJson (executed : Nat) (last : Address) : Except Fault Completion → Json
  | .ok c =>
    .obj [("level", .str "DEBUG"),
      ("fields", .obj [("message", .str "run finished"), ("status", .str c.status.name),
        ("instructions_executed", .int executed), ("records", .int c.output.size)])]
  | .error fault =>
    .obj [("level", .str "DEBUG"),
      ("fields", .obj [("message", .str "run failed"), ("error", .str fault.message),
        ("code", .int fault.code), ("pointer", .int last.toNat), ("status", .str "Errored")])]

/-- The record of limits that no run can have. -/
def rejectedJson : Json :=
  .obj [("level", .str "DEBUG"),
    ("fields", .obj [("message", .str "config rejected"),
      ("error", .str "invalid machine config"), ("code", .int 1006)])]

theorem Event.json_closing {result : Except Fault Completion} {n : Nat} (last : Address)
    (hexecuted : ∀ c, result = .ok c → c.executed.toNat = n) :
    (closing last result).json = closingJson n last result := by
  cases result with
  | error fault => rfl
  | ok c =>
      rw [← hexecuted c rfl]
      rfl

namespace Limits

variable {limits : Limits} {program : Program}

/-- The instructions that the journal of a run tells of. -/
def entries (limits : Limits) (program : Program) : List Entry :=
  Event.entries (limits.journal program)

/-- The records of a run tell what it did, up to an address that it came to. -/
structure Faithful (limits : Limits) (program : Program) (last : Address) : Prop where
  records : (limits.journal program).map Event.json =
    (limits.entries program).map Entry.json ++
      [closingJson (limits.entries program).length last (limits.execute program)]
  retraces : Retraces program 0 0 (limits.entries program) last
  cycles : ∀ (k : Nat) e, (limits.entries program)[k]? = some e →
    ∃ s t, (limits.start program).after k = .ok s ∧ s.pointer = e.pointer ∧
      Step.cycle s = .ok (e.instr, t) ∧ t.stack.depth = e.depth
  executed : ∀ c, limits.execute program = .ok c →
    c.executed.toNat = (limits.entries program).length
  printed : ∀ c, limits.execute program = .ok c →
    c.output.size = (limits.entries program).countP fun e => e.instr = .print
  ended : ∀ c, limits.execute program = .ok c → c.status = .halted ∨
    c.status = .limitExceeded ∧
      (limits.entries program).length = limits.executionLimit.toNat + 1
  halted : (∃ c, limits.execute program = .ok c ∧ c.status = .halted) ↔
    ∃ e, (limits.entries program).getLast? = some e ∧ e.instr = .halt
  failed : ∀ fault, limits.execute program = .error fault →
    ∃ s, (limits.start program).after (limits.entries program).length = .ok s ∧
      s.pointer = last ∧ Step.cycle s = .error fault

theorem exists_faithful (hvalid : limits.validate = .ok ())
    (hlimit : limits.executionLimit.toNat < 2 ^ 64 - 1) (program : Program) :
    ∃ last, limits.Faithful program last := by
  have hcourse := course_execute hvalid program
  obtain ⟨k, hk, hstops⟩ := exists_stops hvalid hlimit program
  have hlength : ∀ c, limits.execute program = .ok c → (limits.entries program).length = k :=
    fun c hexecute => (hcourse.length_entries_eq hexecute).trans hstops.visited
  have hexecuted : ∀ c, limits.execute program = .ok c →
      c.executed.toNat = (limits.entries program).length := by
    intro c hexecute
    rw [hlength c hexecute, hstops.toNat_executed_eq hexecute (by omega)]
  have hends : ∀ c, limits.execute program = .ok c → c.status ≠ .running := by
    intro c hexecute hrunning
    rcases hstops.halted_or_limitExceeded hexecute with hstatus | ⟨hstatus, -⟩ <;>
      cases hrunning.symm.trans hstatus
  obtain ⟨last, hevents, hretraces, hfailed⟩ := hcourse.exists_retraces hends
  refine ⟨last, ?_⟩
  exact {
    records := by
      rw [hevents, List.map_append, List.map_map, List.map_singleton,
        Event.json_closing last hexecuted]
      rfl
    retraces := hretraces
    cycles := fun _ _ => hcourse.cycle_of_entry
    executed := hexecuted
    printed := fun c hexecute => (hcourse.size_output_eq hexecute).trans (Nat.zero_add _)
    ended := by
      intro c hexecute
      rw [hlength c hexecute]
      exact hstops.halted_or_limitExceeded hexecute
    halted := by
      rw [hcourse.halted_iff rfl]
      constructor
      · rintro ⟨e, he, hhalt⟩
        exact ⟨e, hretraces.getLast?_of_halt he hhalt, hhalt⟩
      · rintro ⟨e, he, hhalt⟩
        exact ⟨e, List.mem_of_getLast? he, hhalt⟩
    failed := hfailed }

end Limits

/-- Limits that are rejected leave one record, of the rejection.  Under all others, and any limit
but the largest, there is a record for each executed instruction and one of the end, and they are
faithful to the run. -/
theorem journal_faithful_to_run (limits : Limits) (program : Program)
    (hlimit : limits.executionLimit.toNat < 2 ^ 64 - 1) :
    (2 ^ 20 < limits.stackCapacity.toNat →
      limits.execute program = .error .invalidConfig ∧
      (limits.journal program).map Event.json = [rejectedJson]) ∧
    (limits.stackCapacity.toNat ≤ 2 ^ 20 → ∃ last, limits.Faithful program last) := by
  constructor
  · intro hcapacity
    cases hvalid : limits.validate with
    | ok => exact absurd (limits.validate_eq_ok_iff.1 hvalid) (Nat.not_le.2 hcapacity)
    | error fault =>
        obtain rfl := Limits.eq_invalidConfig hvalid
        refine ⟨Limits.execute_of_invalid hvalid program, ?_⟩
        rw [Limits.journal, hvalid]
        rfl
  · intro hcapacity
    exact Limits.exists_faithful (limits.validate_eq_ok_iff.2 hcapacity) hlimit program

/-- Jumps forward and back to a halt, and limits with one slot too many. -/
theorem journal_of_jumps_faithful :
    let limits : Limits := { stackCapacity := 1, executionLimit := 9 }
    let program : Program := ⟨#[.jump "body", .halt, .push 7, .print, .jump "end"],
      (Labels.empty.insert "body" 2).insert "end" 1⟩
    let rejected : Limits := { stackCapacity := 1048577, executionLimit := 9 }
    (limits.entries program = [⟨0, .jump "body", 0⟩, ⟨2, .push 7, 1⟩, ⟨3, .print, 0⟩,
        ⟨4, .jump "end", 0⟩, ⟨1, .halt, 0⟩] ∧
      ∃ last, limits.Faithful program last) ∧
    (rejected.journal program).map Event.json = [rejectedJson] := by
  intro limits program rejected
  have hfaithful := (journal_faithful_to_run limits program (by decide)).2 (by decide)
  have hrejected := (journal_faithful_to_run rejected program (by decide)).1 (by decide)
  exact ⟨⟨by decide, hfaithful⟩, hrejected.2⟩

end StackMachine
