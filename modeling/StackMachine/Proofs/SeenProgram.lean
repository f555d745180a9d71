import StackMachine.Proofs.ControlFlow

/-!
# What a run sees of its program

A run looks at its program in two ways only: it fetches the instruction under its pointer, and it
resolves the label of a jump that it has fetched.  Two programs that agree where the run of the
first one fetches therefore have the same result, whatever else is in them.  To agree, their jumps
need not name the same labels, as long as the names lead to the same addresses.
-/

namespace StackMachine

/-- The instruction with another name in place of the label it has. -/
def Instr.rename (ρ : String → String) : Instr → Instr
  | jump name => jump (ρ name)
  | i => i

theorem Instr.rename_id : Instr.rename id = id := by
  funext i
  cases i <;> rfl

theorem Instr.rename_of_ne_jump {i : Instr} (h : ∀ name, i ≠ jump name) (ρ : String → String) :
    i.rename ρ = i := by
  cases i with
  | jump name => exact absurd rfl (h name)
  | _ => rfl

def View.withProgram (v : View) (program : Program) : View := { v with program }

/-- An instruction that is no jump does the same in every program. -/
theorem Effect.withProgram {v : View} {i : Instr} {r : Except Fault View} (h : Effect v i r)
    (hjump : ∀ name, i ≠ .jump name) (program : Program) :
    Effect (v.withProgram program) i (r.map (·.withProgram program)) :=
  h.adapt id (fun _ => program) id (Nat.le_refl _) (fun _ => rfl)
    (fun name hi => absurd hi (hjump name))

/-- What an instruction does in one program it does in another where its label is renamed. -/
theorem Effect.rename {v : View} {i : Instr} {r : Except Fault View} {program : Program}
    {ρ : String → String} (h : Effect v i r)
    (htargets : ∀ name, i = .jump name →
      program.labels.resolve? (ρ name) = v.program.labels.resolve? name) :
    Effect (v.withProgram program) (i.rename ρ) (r.map (·.withProgram program)) := by
  by_cases hjump : ∀ name, i ≠ .jump name
  · rw [Instr.rename_of_ne_jump hjump]
    exact h.withProgram hjump program
  · obtain ⟨name, rfl⟩ := not_forall_not.1 hjump
    have htarget := htargets name rfl
    cases h with
    | jump hbound => exact .jump (htarget.trans hbound)
    | jumpUnbound hunbound => exact .jumpUnbound (htarget.trans hunbound)
    | arithmetic hop | arithmeticShort hop => cases hop
    | division hop | divisionEmpty hop | divisionZero hop | divisionShort hop => cases hop

/-- At an address the second program has the instruction of the first with its label renamed, and
the two labels lead to the same address or are both unbound. -/
structure Program.Mirrors (ρ : String → String) (p q : Program) (a : Address) : Prop where
  fetch?_eq : q.fetch? a = (p.fetch? a).map (Instr.rename ρ)
  target : ∀ name, p.fetch? a = some (.jump name) →
    q.labels.resolve? (ρ name) = p.labels.resolve? name

/-- The second state is the first in another program, as far as there is anything to see. -/
def State.Recoded (s t : State) : Prop := t.view = s.view.withProgram t.program

namespace State.Recoded

variable {s t : State} {ρ : String → String}

theorem pointer (h : s.Recoded t) : t.pointer = s.pointer :=
  congrArg View.pointer h

theorem agrees (h : s.Recoded t) : s.Agrees t where
  halted := (congrArg View.halted h).symm
  executed := (congrArg View.executed h).symm
  output := (congrArg View.output h).symm

theorem counted (h : s.Recoded t) : s.counted.Recoded t.counted := by
  have hcount := congrArg (fun v : View => { v with executed := v.executed + 1 }) h
  exact hcount

/-- An instruction that was fetched does the same in both programs. -/
theorem effect (h : s.Recoded t) (hmirrors : s.program.Mirrors ρ t.program s.pointer) {i : Instr}
    (hfetch : s.program.fetch? s.pointer = some i) {r : Except Fault View}
    (heffect : Effect s.counted.view i r) :
    Effect t.counted.view (i.rename ρ) (r.map (·.withProgram t.program)) := by
  have hview : t.counted.view = s.counted.view.withProgram t.program := h.counted
  rw [hview]
  apply heffect.rename
  rintro name rfl
  exact hmirrors.target name hfetch

theorem fetch?_eq_some (h : s.Recoded t) (hmirrors : s.program.Mirrors ρ t.program s.pointer)
    {i : Instr} (hfetch : s.program.fetch? s.pointer = some i) :
    t.program.fetch? t.pointer = some (i.rename ρ) := by
  rw [h.pointer, hmirrors.fetch?_eq, hfetch]
  rfl

theorem cycle_eq_error (h : s.Recoded t) (hmirrors : s.program.Mirrors ρ t.program s.pointer)
    {fault : Fault} (hcycle : Step.cycle s = .error fault) : Step.cycle t = .error fault := by
  rw [Step.cycle_eq_error_iff_effect] at hcycle ⊢
  rcases hcycle with ⟨hfetch, hfault⟩ | ⟨i, hfetch, heffect⟩
  · left
    refine ⟨?_, hfault⟩
    rw [h.pointer, hmirrors.fetch?_eq, hfetch]
    rfl
  · right
    exact ⟨_, h.fetch?_eq_some hmirrors hfetch, h.effect hmirrors hfetch heffect⟩

theorem exists_cycle_eq_ok (h : s.Recoded t) (hmirrors : s.program.Mirrors ρ t.program s.pointer)
    {i : Instr} {s' : State} (hcycle : Step.cycle s = .ok (i, s')) :
    ∃ t', Step.cycle t = .ok (i.rename ρ, t') ∧ s'.Recoded t' := by
  have hfetch := (Step.cycle_eq_ok_iff.1 hcycle).1
  have heffect := h.effect hmirrors hfetch (Step.effect_of_cycle_ok hcycle)
  obtain ⟨t', hcycle', hview⟩ :=
    Step.exists_cycle_of_effect_ok (h.fetch?_eq_some hmirrors hfetch) heffect
  refine ⟨t', hcycle', ?_⟩
  unfold State.Recoded
  rw [Step.program_of_cycle hcycle']
  exact hview

end State.Recoded

/-- A run can be replayed in every program that mirrors its own wherever it fetches. -/
theorem Course.replay {limits : Limits} {n : Nat} {s t : State} {events : List Event}
    {result : Except Fault Completion} {ρ : String → String}
    (h : Course limits n s events result) (hrecoded : s.Recoded t)
    (hmirrors : ∀ visit ∈ Event.visits events, s.program.Mirrors ρ t.program visit.1) :
    ∃ events', Course limits n t events' result := by
  induction h generalizing t with
  | spent =>
      rw [hrecoded.agrees.completion_eq]
      exact ⟨_, .spent⟩
  | fault hcycle =>
      exact ⟨_, .fault (hrecoded.cycle_eq_error (hmirrors _ (List.mem_cons_self ..)) hcycle)⟩
  | stop hcycle hstatus hstop =>
      obtain ⟨t', hcycle', hrecoded'⟩ :=
        hrecoded.exists_cycle_eq_ok (hmirrors _ (List.mem_cons_self ..)) hcycle
      rw [hrecoded'.agrees.completion_eq]
      exact ⟨_, .stop hcycle' ((hrecoded'.agrees.status_eq rfl).symm.trans hstatus) hstop⟩
  | next hcycle hstatus _ ih =>
      rw [Event.visits_dispatched, List.forall_mem_cons] at hmirrors
      obtain ⟨t', hcycle', hrecoded'⟩ := hrecoded.exists_cycle_eq_ok hmirrors.1 hcycle
      -- What is left of the visits belongs to the states after the cycle, in the same programs.
      rw [← Step.program_of_cycle hcycle, ← Step.program_of_cycle hcycle'] at hmirrors
      obtain ⟨events', hrest⟩ := ih hrecoded' hmirrors.2
      exact ⟨_, .next hcycle' ((hrecoded'.agrees.status_eq rfl).symm.trans hstatus) hrest⟩

namespace Limits

variable {limits : Limits} {p q : Program} {ρ : String → String}

theorem start_recoded (limits : Limits) (p q : Program) :
    (limits.start p).Recoded (limits.start q) := rfl

theorem execute_of_mirrors (h : ∀ visit ∈ limits.visits p, p.Mirrors ρ q visit.1) :
    limits.execute q = limits.execute p := by
  cases hvalid : limits.validate with
  | error fault => rw [execute_of_invalid hvalid, execute_of_invalid hvalid]
  | ok =>
      obtain ⟨events, hcourse⟩ :=
        (course_execute hvalid p).replay (limits.start_recoded p q) h
      rw [execute_of_valid hvalid q]
      exact runFrom_eq_of_course hcourse

end Limits

theorem Program.mirrors_of_fetch?_eq {p q : Program} {a : Address} (hlabels : q.labels = p.labels)
    (hfetch : q.fetch? a = p.fetch? a) : p.Mirrors id q a where
  fetch?_eq := by rw [hfetch, Instr.rename_id, Option.map_id, id]
  target := by
    intro name _
    rw [hlabels]
    rfl

theorem Program.mirrors_rename {code : Array Instr} {labels renamed : Labels}
    {ρ : String → String}
    (h : ∀ name, .jump name ∈ code → renamed.resolve? (ρ name) = labels.resolve? name)
    (a : Address) :
    Program.Mirrors ρ ⟨code, labels⟩ ⟨code.map (Instr.rename ρ), renamed⟩ a where
  fetch?_eq := Array.getElem?_map ..
  target := fun name hfetch => h name (Array.mem_of_getElem? hfetch)

namespace Limits

variable {limits : Limits} {labels other : Labels} {code : Array Instr}

theorem execute_of_code_eq {code' : Array Instr}
    (h : ∀ visit ∈ limits.visits ⟨code, labels⟩, code'[visit.1.toNat]? = code[visit.1.toNat]?) :
    limits.execute ⟨code', labels⟩ = limits.execute ⟨code, labels⟩ := by
  apply execute_of_mirrors
  intro visit hvisit
  exact Program.mirrors_of_fetch?_eq rfl (h visit hvisit)

theorem lt_size_of_visited {program : Program} {visit : Address × Option Nat}
    (hfound : limits.execute program ≠ .error .illegalInstructionAccess)
    (hvisit : visit ∈ limits.visits program) : visit.1.toNat < program.size := by
  cases hvalid : limits.validate with
  | error fault =>
      rw [visits_of_invalid hvalid] at hvisit
      cases hvisit
  | ok =>
      have hsome := (course_execute hvalid program).fetch?_isSome hfound
        (List.mem_map_of_mem hvisit)
      obtain ⟨i, hi⟩ := Option.isSome_iff_exists.1 hsome
      exact (Array.getElem?_eq_some_iff.1 hi).1

theorem execute_of_renamed {ρ : String → String}
    (h : ∀ name, .jump name ∈ code → other.resolve? (ρ name) = labels.resolve? name) :
    limits.execute ⟨code.map (Instr.rename ρ), other⟩ = limits.execute ⟨code, labels⟩ := by
  apply execute_of_mirrors
  intro visit _
  exact Program.mirrors_rename h visit.1

end Limits

/-- Code that a run does not fetch does not matter to its result: it may be changed, and more may
be added behind a program whose run stays inside. -/
theorem unfetched_code_does_not_matter (limits : Limits) (labels : Labels) (code : Array Instr) :
    (∀ other : Array Instr,
      (∀ visit ∈ limits.visits ⟨code, labels⟩,
        other[visit.1.toNat]? = code[visit.1.toNat]?) →
      limits.execute ⟨other, labels⟩ = limits.execute ⟨code, labels⟩) ∧
    ∀ more : Array Instr, limits.execute ⟨code, labels⟩ ≠ .error .illegalInstructionAccess →
      limits.execute ⟨code ++ more, labels⟩ = limits.execute ⟨code, labels⟩ := by
  refine ⟨fun _ => Limits.execute_of_code_eq, ?_⟩
  intro more hfound
  apply Limits.execute_of_code_eq
  intro visit hvisit
  exact Array.getElem?_append_left (Limits.lt_size_of_visited hfound hvisit)

/-- A jump over one instruction to a halt, with something else to jump over and behind. -/
theorem skipped_code_does_not_matter :
    let limits : Limits := { stackCapacity := 0, executionLimit := 9 }
    let labels := Labels.empty.insert "end" 2
    let code : Array Instr := #[.jump "end", .pop, .halt]
    let other : Array Instr := #[.jump "end", .jump "nowhere", .halt, .pop]
    (∀ visit ∈ limits.visits ⟨code, labels⟩, other[visit.1.toNat]? = code[visit.1.toNat]?) ∧
      limits.execute ⟨code, labels⟩ =
        .ok { output := .empty, status := .halted, executed := 2 } ∧
      limits.execute ⟨other, labels⟩ = limits.execute ⟨code, labels⟩ ∧
      limits.execute ⟨code ++ #[.dup], labels⟩ = limits.execute ⟨code, labels⟩ := by
  intro limits labels code other
  have hfetch : ∀ visit ∈ limits.visits ⟨code, labels⟩,
      other[visit.1.toNat]? = code[visit.1.toNat]? := by decide
  have hexecute : limits.execute ⟨code, labels⟩ =
      .ok { output := .empty, status := .halted, executed := 2 } := by decide
  obtain ⟨hchanged, hadded⟩ := unfetched_code_does_not_matter limits labels code
  exact ⟨hfetch, hexecute, hchanged other hfetch, hadded _ (by rw [hexecute]; nofun)⟩

/-- A run sees the label table only through the names that its program jumps to: these may be
renamed along with the jumps, and no others count. -/
theorem renamed_labels_keep_result (limits : Limits) (code : Array Instr) (labels : Labels) :
    (∀ (other : Labels) (ρ : String → String),
      (∀ name, .jump name ∈ code → other.resolve? (ρ name) = labels.resolve? name) →
      limits.execute ⟨code.map (Instr.rename ρ), other⟩ = limits.execute ⟨code, labels⟩) ∧
    ∀ other : Labels, (∀ name, .jump name ∈ code → other.resolve? name = labels.resolve? name) →
      limits.execute ⟨code, other⟩ = limits.execute ⟨code, labels⟩ := by
  refine ⟨fun _ _ => Limits.execute_of_renamed, ?_⟩
  intro other h
  have hsame := limits.execute_of_renamed (ρ := id) h
  rwa [Instr.rename_id, Array.map_id] at hsame

/-- Two labels that change places, beside one that is not used. -/
theorem swapped_labels_keep_result :
    let limits : Limits := { stackCapacity := 1, executionLimit := 9 }
    let code : Array Instr := #[.jump "α", .halt, .push 7, .print, .jump "β"]
    let labels := Labels.ofList [("α", 2), ("β", 1), ("γ", 0)]
    let other := Labels.ofList [("β", 2), ("α", 1)]
    let ρ (name : String) : String := if name = "α" then "β" else "α"
    (∀ name, .jump name ∈ code → other.resolve? (ρ name) = labels.resolve? name) ∧
      limits.execute ⟨code, labels⟩ =
        .ok { output := .ofValues [7], status := .halted, executed := 5 } ∧
      limits.execute ⟨code.map (Instr.rename ρ), other⟩ = limits.execute ⟨code, labels⟩ := by
  intro limits code labels other ρ
  have htargets : ∀ name, .jump name ∈ code → other.resolve? (ρ name) = labels.resolve? name := by
    intro name hname
    have hnames : name = "α" ∨ name = "β" := by simpa [code] using hname
    rcases hnames with rfl | rfl <;> decide
  exact ⟨htargets, by decide, (renamed_labels_keep_result limits code labels).1 other ρ htargets⟩

end StackMachine
