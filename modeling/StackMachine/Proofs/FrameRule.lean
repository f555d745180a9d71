import StackMachine.Proofs.Cycles

/-!
# The frame rule

An instruction reads and writes at the top of the stack only, and asks for room, not for depth.
So whatever a state does, it does also on top of other values, as long as there are slots for them:
they stay where they are, and nothing else changes.  Only where the state has no value left can the
values below make a difference.
-/

namespace StackMachine

/-- The view with other values below its live ones, and with slots for them. -/
def View.onto (v : View) (base : List Word) : View :=
  { v with live := base ++ v.live, capacity := v.capacity + base.length }

theorem View.length_live_onto (v : View) (base : List Word) :
    (v.onto base).live.length = v.live.length + base.length := by
  simp [onto, Nat.add_comm]

/-- There is room on top of other values exactly where there is room without them. -/
theorem View.lt_capacity_onto {v : View} (base : List Word) (hroom : v.live.length < v.capacity) :
    (v.onto base).live.length < (v.onto base).capacity := by
  rw [length_live_onto]
  exact Nat.add_lt_add_right hroom _

theorem View.eq_capacity_onto {v : View} (base : List Word) (hfull : v.live.length = v.capacity) :
    (v.onto base).live.length = (v.onto base).capacity := by
  rw [length_live_onto, hfull]
  rfl

theorem View.live_onto {v : View} {rest tops : List Word} (base : List Word)
    (hlive : v.live = rest ++ tops) : (v.onto base).live = (base ++ rest) ++ tops := by
  rw [onto, hlive, List.append_assoc]

theorem View.next_onto (v : View) (base live : List Word) :
    (v.next live).onto base = (v.onto base).next (base ++ live) := rfl

/-- What an instruction does to a stack it does on top of any other values, unless it finds the
stack too short. -/
theorem Effect.onto {v : View} {i : Instr} {r : Except Fault View} (h : Effect v i r)
    (base : List Word) (hlong : r ≠ .error .stackUnderflow) :
    Effect (v.onto base) i (r.map (·.onto base)) := by
  cases h with
  | push hroom =>
      rw [Except.map, View.next_onto, ← List.append_assoc]
      exact .push (View.lt_capacity_onto base hroom)
  | pushFull hfull => exact .pushFull (View.eq_capacity_onto base hfull)
  | pop hlive => exact .pop (View.live_onto base hlive)
  | print hlive => exact .print (View.live_onto base hlive)
  | dup hlive hroom =>
      rw [Except.map, View.next_onto, ← List.append_assoc]
      exact .dup (View.live_onto base hlive) (View.lt_capacity_onto base hroom)
  | dupFull hlive hfull =>
      exact .dupFull (View.live_onto base hlive) (View.eq_capacity_onto base hfull)
  | arithmetic hop hlive =>
      rw [Except.map, View.next_onto, ← List.append_assoc]
      exact .arithmetic hop (View.live_onto base hlive)
  | division hop hlive hy =>
      rw [Except.map, View.next_onto, ← List.append_assoc]
      exact .division hop (View.live_onto base hlive) hy
  | divisionZero hop hlive => exact .divisionZero hop (View.live_onto base hlive)
  | jump htarget => exact .jump htarget
  | jumpUnbound htarget => exact .jumpUnbound htarget
  | halt => exact .halt
  -- An operand that is missing here would be found among the values below.
  | popEmpty | printEmpty | dupEmpty | arithmeticShort | divisionEmpty | divisionShort =>
      exact absurd rfl hlong

/-! ## States on top of other values -/

namespace State

variable {s t : State} {base : List Word}

/-- The second state is the first on top of other values, as far as there is anything to see. -/
def Framed (base : List Word) (s t : State) : Prop := t.view = s.view.onto base

/-- The state with other values in new slots below its own. -/
def onto (s : State) (base : List Word) : State :=
  { s with
    stack :=
      { slots := base.toArray ++ s.stack.slots
        depth := base.length + s.stack.depth
        depth_le := by
          rw [Array.size_append, List.size_toArray]
          exact Nat.add_le_add_left s.stack.depth_le _ } }

theorem framed_onto (s : State) (base : List Word) : s.Framed base (s.onto base) := by
  have hlive : (s.onto base).stack.toList = base ++ s.stack.toList := by
    simp only [onto, Stack.toList, Array.toList_append]
    exact List.take_length_add_append ..
  have hcapacity : (s.onto base).stack.capacity = s.stack.capacity + base.length := by
    simp [onto, Stack.capacity, Nat.add_comm]
  unfold Framed view View.onto
  rw [hlive, hcapacity]
  rfl

namespace Framed

theorem fetch?_eq (h : s.Framed base t) :
    t.program.fetch? t.pointer = s.program.fetch? s.pointer := by
  have hprogram : t.program = s.program := congrArg View.program h
  have hpointer : t.pointer = s.pointer := congrArg View.pointer h
  rw [hprogram, hpointer]

/-- Counting an instruction does not touch the stack. -/
theorem effect_counted (h : s.Framed base t) {i : Instr} {r : Except Fault View}
    (heffect : Effect s.counted.view i r) (hlong : r ≠ .error .stackUnderflow) :
    Effect t.counted.view i (r.map (·.onto base)) := by
  have hview : t.counted.view = s.counted.view.onto base :=
    congrArg (fun v : View => { v with executed := v.executed + 1 }) h
  rw [hview]
  exact heffect.onto base hlong

theorem exists_cycle_eq_ok (h : s.Framed base t) {i : Instr} {s' : State}
    (hcycle : Step.cycle s = .ok (i, s')) :
    ∃ t', Step.cycle t = .ok (i, t') ∧ s'.Framed base t' := by
  have hfetch := h.fetch?_eq.trans (Step.cycle_eq_ok_iff.1 hcycle).1
  have heffect := h.effect_counted (Step.effect_of_cycle_ok hcycle) nofun
  exact Step.exists_cycle_of_effect_ok hfetch heffect

theorem cycle_eq_error (h : s.Framed base t) {fault : Fault}
    (hcycle : Step.cycle s = .error fault) (hlong : fault ≠ .stackUnderflow) :
    Step.cycle t = .error fault := by
  rw [Step.cycle_eq_error_iff_effect, h.fetch?_eq]
  rw [Step.cycle_eq_error_iff_effect] at hcycle
  rcases hcycle with hfetch | ⟨i, hfetch, heffect⟩
  · exact .inl hfetch
  · exact .inr ⟨i, hfetch, h.effect_counted heffect (by simpa using hlong)⟩

theorem exists_after_eq_ok (h : s.Framed base t) {n : Nat} {s' : State}
    (hafter : s.after n = .ok s') : ∃ t', t.after n = .ok t' ∧ s'.Framed base t' := by
  induction n generalizing s' with
  | zero =>
      cases hafter
      exact ⟨t, rfl, h⟩
  | succ n ih =>
      obtain ⟨u, i, hu, hcycle⟩ := exists_cycle_of_after_succ hafter
      obtain ⟨t', ht', hframed⟩ := ih hu
      obtain ⟨t'', hcycle', hframed'⟩ := hframed.exists_cycle_eq_ok hcycle
      exact ⟨t'', after_succ_of_cycle ht' hcycle', hframed'⟩

end Framed

end State

/-- Whatever cycles do from a state, they do from every state that has other values below, and
slots for them: as many succeed, with the values below untouched and everything else alike, and the
first to fail fails alike unless it finds the stack of the first state too short. -/
theorem cycles_frame (base : List Word) (s : State) :
    (s.onto base).view = s.view.onto base ∧
    ∀ s' : State, s'.view = s.view.onto base →
      (∀ n t, s.after n = .ok t →
        ∃ t', s'.after n = .ok t' ∧ t'.stack.toList = base ++ t.stack.toList ∧
          t'.stack.capacity = t.stack.capacity + base.length ∧ t'.pointer = t.pointer ∧
          t'.program = t.program ∧ t'.halted = t.halted ∧ t'.executed = t.executed ∧
          t'.output = t.output) ∧
      (∀ n t fault, s.after n = .ok t → Step.cycle t = .error fault → fault ≠ .stackUnderflow →
        ∃ t', s'.after n = .ok t' ∧ Step.cycle t' = .error fault) := by
  refine ⟨s.framed_onto base, ?_⟩
  intro s' hframe
  have hframed : s.Framed base s' := hframe
  constructor
  · intro n t hafter
    obtain ⟨t', hafter', h⟩ := hframed.exists_after_eq_ok hafter
    exact ⟨t', hafter', congrArg View.live h, congrArg View.capacity h, congrArg View.pointer h,
      congrArg View.program h, congrArg View.halted h, congrArg View.executed h,
      congrArg View.output h⟩
  · intro n t fault hafter hcycle hlong
    obtain ⟨t', hafter', h⟩ := hframed.exists_after_eq_ok hafter
    exact ⟨t', hafter', h.cycle_eq_error hcycle hlong⟩

/-- A division by a lone zero, with and without two values below it and under other stale ones. -/
theorem lone_zero_divides_in_frame :
    let program : Program := ⟨#[.dup, .sub, .div], .empty⟩
    let s : State := .start program ⟨#[7, 9], 1, by decide⟩
    let s' : State := .start program ⟨#[5, 6, 7, 8], 3, by decide⟩
    let t : State := { s with stack := ⟨#[0, 7], 1, by decide⟩, pointer := 2, executed := 2 }
    s'.view = s.view.onto [5, 6] ∧
      s.after 2 = .ok t ∧ Step.cycle t = .error .divideByZero ∧
      ∃ t', s'.after 2 = .ok t' ∧ t'.stack.toList = [5, 6, 0] ∧
        Step.cycle t' = .error .divideByZero := by
  intro program s s' t
  have hframe : s'.view = s.view.onto [5, 6] := rfl
  have hafter : s.after 2 = .ok t := by decide
  have hcycle : Step.cycle t = .error .divideByZero := by decide
  obtain ⟨hruns, hfails⟩ := (cycles_frame [5, 6] s).2 s' hframe
  obtain ⟨t', hafter', hlive, -⟩ := hruns 2 t hafter
  obtain ⟨t'', hafter'', hcycle'⟩ := hfails 2 t _ hafter hcycle nofun
  obtain rfl : t' = t'' := Except.ok.inj (hafter'.symm.trans hafter'')
  exact ⟨hframe, hafter, hcycle, t', hafter', hlive, hcycle'⟩

end StackMachine
