import Mathlib.Data.List.Nodup
import Mathlib.Data.List.Perm.Subperm
import StackMachine.Proofs.Stopping

/-!
# The way out of a program

Without conditional jumps the next address depends on the present one alone, so a run that comes to
an address twice goes round for ever.  A run that leaves the program, by a halt, past its code or
by a name that is not bound, therefore fetches no instruction twice, and it has made up its mind
after as many cycles as there are instructions.
-/

namespace StackMachine

/-! ## Paths of a partial function -/

/-- The addresses that come after `a` on the way to one that has no successor. -/
inductive Exits (next : Address → Option Address) : Address → List Address → Prop
  | last {a : Address} (hnext : next a = none) : Exits next a []
  | step {a b : Address} {rest : List Address} (hnext : next a = some b)
      (hrest : Exits next b rest) : Exits next a (b :: rest)

namespace Exits

variable {next : Address → Option Address} {a b : Address} {rest rest' : List Address}

theorem unique (h : Exits next a rest) (h' : Exits next a rest') : rest = rest' := by
  induction h generalizing rest' with
  | last hnext =>
      cases h' with
      | last => rfl
      | step hnext' => cases hnext.symm.trans hnext'
  | step hnext _ ih =>
      cases h' with
      | last hnext' => cases hnext.symm.trans hnext'
      | step hnext' hrest' =>
          obtain rfl := Option.some.inj (hnext.symm.trans hnext')
          rw [ih hrest']

theorem exists_of_mem (h : Exits next a rest) (hb : b ∈ a :: rest) :
    ∃ rest', Exits next b rest' ∧ rest'.length ≤ rest.length := by
  induction h with
  | last hnext =>
      obtain rfl := List.mem_singleton.1 hb
      exact ⟨[], .last hnext, Nat.le_refl _⟩
  | step hnext hrest ih =>
      rcases List.mem_cons.1 hb with rfl | hb
      · exact ⟨_, .step hnext hrest, Nat.le_refl _⟩
      · obtain ⟨rest', hrest', hlength⟩ := ih hb
        exact ⟨rest', hrest', Nat.le_succ_of_le hlength⟩

/-- A path that ends does not come back: the way out from an address has one length. -/
theorem nodup (h : Exits next a rest) : (a :: rest).Nodup := by
  induction h with
  | last => exact List.nodup_singleton _
  | step hnext hrest ih =>
      refine List.nodup_cons.2 ⟨?_, ih⟩
      intro hmem
      -- The way out from here would be no longer than its own tail.
      obtain ⟨rest', hrest', hlength⟩ := hrest.exists_of_mem hmem
      rw [← unique (.step hnext hrest) hrest', List.length_cons] at hlength
      omega

theorem isSome_of_mem_dropLast (h : Exits next a rest) (hb : b ∈ (a :: rest).dropLast) :
    (next b).isSome := by
  induction h with
  | last => cases hb
  | step hnext _ ih =>
      rw [List.dropLast_cons_cons] at hb
      rcases List.mem_cons.1 hb with rfl | hb
      · rw [hnext]
        rfl
      · exact ih hb

end Exits

/-! ## The control flow of a program -/

/-- The address at which a program goes on after an instruction that is not a halt. -/
def Program.next? (p : Program) (a : Address) : Option Address :=
  match p.fetch? a with
  | none | some .halt => none
  | some i => p.labels.successor? i a

theorem Program.next?_of_fetch? {p : Program} {a : Address} {i : Instr}
    (hfetch : p.fetch? a = some i) (hi : i ≠ .halt) : p.next? a = p.labels.successor? i a := by
  unfold next?
  rw [hfetch]
  cases i with
  | halt => exact absurd rfl hi
  | _ => rfl

theorem Program.next?_of_halt {p : Program} {a : Address} (hfetch : p.fetch? a = some .halt) :
    p.next? a = none := by
  unfold next?
  rw [hfetch]

theorem Program.fetch?_isSome_of_next? {p : Program} {a : Address} (h : (p.next? a).isSome) :
    (p.fetch? a).isSome := by
  unfold next? at h
  cases hfetch : p.fetch? a with
  | none => rw [hfetch] at h; cases h
  | some i => rfl

/-- Distinct addresses that hold instructions are no more than the instructions. -/
theorem Program.length_le_size {p : Program} {l : List Address} (hnodup : l.Nodup)
    (hfetch : ∀ a ∈ l, (p.fetch? a).isSome) : l.length ≤ p.size := by
  have hsub : l.map UInt64.toNat ⊆ List.range p.size := by
    intro n hn
    obtain ⟨a, ha, rfl⟩ := List.mem_map.1 hn
    obtain ⟨i, hi⟩ := Option.isSome_iff_exists.1 (hfetch a ha)
    exact List.mem_range.2 (Array.getElem?_eq_some_iff.1 hi).1
  have hnodup' : (l.map UInt64.toNat).Nodup := hnodup.map fun _ _ => UInt64.toNat_inj.1
  simpa using (List.subperm_of_subset hnodup' hsub).length_le

/-! ## Runs that leave the program -/

/-- The run halted, or it found no instruction or no label to go on with. -/
def Leaves : Except Fault Completion → Prop
  | .ok c => c.status = .halted
  | .error fault => fault = .illegalInstructionAccess ∨ fault = .labelNotFound

theorem Step.next?_of_cycle {s t : State} {i : Instr} (hcycle : cycle s = .ok (i, t))
    (hi : i ≠ .halt) : s.program.next? s.pointer = some t.pointer := by
  rw [Program.next?_of_fetch? (cycle_eq_ok_iff.1 hcycle).1 hi, successor?_of_cycle hcycle]

theorem Step.next?_of_fault {s : State} {fault : Fault} (hcycle : cycle s = .error fault)
    (hleaves : Leaves (.error fault)) : s.program.next? s.pointer = none := by
  rcases cycle_eq_error_iff.1 hcycle with ⟨hfetch, -⟩ | ⟨i, hfetch, hdispatch⟩
  · unfold Program.next?
    rw [hfetch]
  · have heffect := effect_of_dispatch_error hdispatch
    cases heffect with
    | jumpUnbound htarget => rw [Program.next?_of_fetch? hfetch nofun]; exact htarget
    | _ => rcases hleaves with hleaves | hleaves <;> cases hleaves

/-- The addresses of a run that leaves the program are a path to one without a successor. -/
theorem Course.exits {limits : Limits} {n : Nat} {s : State} {events : List Event}
    {result : Except Fault Completion} (h : Course limits n s events result)
    (hunhalted : s.halted = false) (hleaves : Leaves result) :
    ∃ rest, (Event.visits events).map Prod.fst = s.pointer :: rest ∧
      Exits s.program.next? s.pointer rest := by
  induction h with
  | spent => cases hleaves
  | fault hcycle => exact ⟨[], rfl, .last (Step.next?_of_fault hcycle hleaves)⟩
  | stop hcycle hstatus hstop =>
      subst hstatus
      have hhalted := State.status_eq_halted_iff.1 hleaves
      obtain rfl := (Step.eq_halt_iff_of_cycle hcycle hunhalted).2 hhalted
      exact ⟨[], rfl, .last (Program.next?_of_halt (Step.cycle_eq_ok_iff.1 hcycle).1)⟩
  | next hcycle hstatus hrest ih =>
      have hunhalted' := (State.status_eq_running_iff.1 hstatus).1
      have hi := mt (Step.eq_halt_iff_of_cycle hcycle hunhalted).1 (by simp [hunhalted'])
      obtain ⟨rest, hvisits, hexits⟩ := ih hunhalted' hleaves
      rw [Step.program_of_cycle hcycle] at hexits
      refine ⟨_ :: rest, ?_, .step (Step.next?_of_cycle hcycle hi) hexits⟩
      rw [Event.visits_dispatched, List.map_cons, hvisits]

theorem Step.fetch?_isSome_of_cycle {s t : State} {i : Instr} (hcycle : cycle s = .ok (i, t)) :
    (s.program.fetch? s.pointer).isSome := by
  rw [(cycle_eq_ok_iff.1 hcycle).1]
  rfl

/-- A run finds an instruction wherever it looks, unless it ends by not finding one. -/
theorem Course.fetch?_isSome {limits : Limits} {n : Nat} {s : State} {events : List Event}
    {result : Except Fault Completion} (h : Course limits n s events result)
    (hfound : result ≠ .error .illegalInstructionAccess) {a : Address}
    (ha : a ∈ (Event.visits events).map Prod.fst) : (s.program.fetch? a).isSome := by
  induction h with
  | spent => cases ha
  | fault hcycle =>
      obtain rfl := List.mem_singleton.1 ha
      rcases Step.cycle_eq_error_iff.1 hcycle with ⟨-, rfl⟩ | ⟨i, hfetch, -⟩
      · exact absurd rfl hfound
      · rw [hfetch]
        rfl
  | stop hcycle =>
      obtain rfl := List.mem_singleton.1 ha
      exact Step.fetch?_isSome_of_cycle hcycle
  | next hcycle _ _ ih =>
      rcases List.mem_cons.1 ha with rfl | ha
      · exact Step.fetch?_isSome_of_cycle hcycle
      · rw [← Step.program_of_cycle hcycle]
        exact ih hfound ha

/-- Only the last cycle of a run that leaves the program may find no instruction. -/
theorem Course.length_visits_le {limits : Limits} {n : Nat} {s : State} {events : List Event}
    {result : Except Fault Completion} (h : Course limits n s events result)
    (hunhalted : s.halted = false) (hleaves : Leaves result) :
    (Event.visits events).length ≤ s.program.size + 1 := by
  obtain ⟨rest, hvisits, hexits⟩ := h.exits hunhalted hleaves
  have hlength : (s.pointer :: rest).dropLast.length ≤ s.program.size := by
    apply Program.length_le_size (hexits.nodup.sublist (List.dropLast_sublist _))
    intro a ha
    exact Program.fetch?_isSome_of_next? (hexits.isSome_of_mem_dropLast ha)
  rw [← List.length_map Prod.fst, hvisits]
  simpa using hlength

/-- No run leaves the program from a state that has as many unhalted cycles before it as there are
instructions, and one more. -/
theorem Course.not_leaves {limits : Limits} {n : Nat} {s : State} {events : List Event}
    {result : Except Fault Completion} (h : Course limits n s events result)
    (hunhalted : ∀ j ≤ s.program.size + 1, ∃ t, s.after j = .ok t ∧ t.halted = false) :
    ¬Leaves result := by
  intro hleaves
  have hzero : s.halted = false := by
    obtain ⟨t, ht, hhalted⟩ := hunhalted 0 (Nat.zero_le _)
    cases ht
    exact hhalted
  have hlength := h.length_visits_le hzero hleaves
  rcases h.closes_or_spent with ⟨k, t, -, -, ht, hvisits, hcloses⟩ | ⟨-, t, -, rfl⟩
  · obtain ⟨u, hu, hafter⟩ := hunhalted (k + 1) (hvisits ▸ hlength)
    cases hcloses with
    | fault hcycle => cases (State.after_succ_of_fault ht hcycle).symm.trans hu
    | stop hcycle hstatus =>
        cases (State.after_succ_of_cycle ht hcycle).symm.trans hu
        subst hstatus
        simp [State.status_eq_halted_iff.1 hleaves] at hafter
  · cases hleaves

namespace Limits

variable {limits : Limits} {program : Program}

/-- The addresses at which a run finds an instruction, in the order of its cycles. -/
def fetched (limits : Limits) (program : Program) : List Address :=
  ((limits.visits program).map Prod.fst).filter fun a => (program.fetch? a).isSome

theorem valid_of_leaves (hleaves : Leaves (limits.execute program)) :
    limits.validate = .ok () := by
  cases hvalid : limits.validate with
  | ok => rfl
  | error fault =>
      obtain rfl := eq_invalidConfig hvalid
      rw [execute_of_invalid hvalid] at hleaves
      rcases hleaves with hleaves | hleaves <;> cases hleaves

theorem exits_of_leaves (hleaves : Leaves (limits.execute program)) :
    ∃ rest, (limits.visits program).map Prod.fst = 0 :: rest ∧ Exits program.next? 0 rest :=
  (course_execute (valid_of_leaves hleaves) program).exits rfl hleaves

theorem nodup_fetched (hleaves : Leaves (limits.execute program)) :
    (limits.fetched program).Nodup := by
  obtain ⟨rest, hvisits, hexits⟩ := exits_of_leaves hleaves
  unfold fetched
  rw [hvisits]
  exact hexits.nodup.filter _

theorem exists_stops_of_leaves (hleaves : Leaves (limits.execute program)) :
    ∃ k, limits.Stops program k := by
  rcases stops_or_spent (valid_of_leaves hleaves) program with ⟨k, -, hstops⟩ | ⟨-, t, -, hspent⟩
  · exact ⟨k, hstops⟩
  · rw [hspent] at hleaves
    cases hleaves

theorem executed_le_size {c : Completion} (hexecute : limits.execute program = .ok c)
    (hhalted : c.status = .halted) : c.executed.toNat ≤ program.size := by
  have hleaves : Leaves (limits.execute program) := by rw [hexecute]; exact hhalted
  have hcourse := course_execute (valid_of_leaves hleaves) program
  obtain ⟨rest, hvisits, hexits⟩ := exits_of_leaves hleaves
  obtain ⟨k, hstops⟩ := exists_stops_of_leaves hleaves
  have hlength : ((limits.visits program).map Prod.fst).length ≤ program.size := by
    apply Program.length_le_size
    · rw [hvisits]
      exact hexits.nodup
    · intro a ha
      exact hcourse.fetch?_isSome (by rw [hexecute]; nofun) ha
  rw [List.length_map, hstops.visited] at hlength
  rw [hstops.executed_eq hexecute, UInt64.toNat_ofNat']
  exact Nat.le_trans (Nat.mod_le _ _) hlength

/-- A run that is still in the program after as many cycles as it has instructions never leaves
it, whatever the limit and however many cycles it is given. -/
theorem not_leaves_of_limitExceeded {c : Completion} {limits' : Limits}
    (hsize : program.size ≤ limits.executionLimit.toNat)
    (hexecute : limits.execute program = .ok c) (hstatus : c.status = .limitExceeded)
    (hcapacity : limits'.stackCapacity = limits.stackCapacity) (n : Nat) :
    ¬Leaves (limits'.runFrom n (limits'.start program)) := by
  have hstart : limits'.start program = limits.start program := by
    rw [start, start, hcapacity]
  rw [hstart]
  apply (limits'.course n (limits.start program)).not_leaves
  intro j hj
  exact exists_after_of_limitExceeded hexecute hstatus
    (Nat.le_trans hj (Nat.succ_le_succ hsize))

end Limits

/-- A run that leaves the program fetches no address twice, so a halted one has executed no more
instructions than there are.  A run that is stopped only by a limit of at least that many would not
leave the program under any limit, nor after any number of cycles.  The addresses fetched are those
visited, which are those of the cycles of the run. -/
theorem leaving_run_fetches_once (limits : Limits) (program : Program) :
    (Leaves (limits.execute program) → (limits.fetched program).Nodup) ∧
    (∀ c, limits.execute program = .ok c → c.status = .halted →
      c.executed.toNat ≤ program.size) ∧
    (∀ c, program.size ≤ limits.executionLimit.toNat → limits.execute program = .ok c →
      c.status = .limitExceeded → ∀ limits' : Limits,
        limits'.stackCapacity = limits.stackCapacity →
        ¬Leaves (limits'.execute program) ∧
          ∀ n, ¬Leaves (limits'.runFrom n (limits'.start program))) ∧
    limits.VisitsEachCycle program := by
  refine ⟨Limits.nodup_fetched, fun _ => Limits.executed_le_size, ?_,
    limits.visitsEachCycle program⟩
  intro c hsize hexecute hstatus limits' hcapacity
  have hruns := Limits.not_leaves_of_limitExceeded hsize hexecute hstatus hcapacity
  refine ⟨?_, hruns⟩
  intro hleaves
  apply hruns limits'.cycles
  rw [← Limits.execute_of_valid (Limits.valid_of_leaves hleaves)]
  exact hleaves

/-- A jump over one instruction to a halt, and a jump to itself. -/
theorem jumps_leave_or_loop :
    let limits : Limits := { stackCapacity := 0, executionLimit := 1 }
    let skips : Program := ⟨#[.jump "end", .pop, .halt], Labels.empty.insert "end" 2⟩
    let loop : Program := ⟨#[.jump "top"], Labels.empty.insert "top" 0⟩
    (limits.fetched skips = [0, 2] ∧ (limits.fetched skips).Nodup) ∧
      (limits.execute loop = .ok { output := .empty, status := .limitExceeded, executed := 2 } ∧
        ∀ limit, ¬Leaves ({ limits with executionLimit := limit }.execute loop)) := by
  intro limits skips loop
  have hskips : limits.execute skips =
      .ok { output := .empty, status := .halted, executed := 2 } := by decide
  have hloop : limits.execute loop =
      .ok { output := .empty, status := .limitExceeded, executed := 2 } := by decide
  refine ⟨⟨by decide, ?_⟩, hloop, ?_⟩
  · apply (leaving_run_fetches_once limits skips).1
    rw [hskips]
    rfl
  · intro limit
    have hnever := (leaving_run_fetches_once limits loop).2.2.1 _ (by decide) hloop rfl
    exact (hnever { limits with executionLimit := limit } rfl).1

end StackMachine
