import StackMachine.Proofs.Stopping

/-!
# Data never steers control

The *skeleton* of a state is what is left of it without its data: depth, pointer, flag, counter and
the number of records.  An instruction acts on skeletons by itself, through the number of values it
takes and leaves; the one place where a value is looked at is the divisor of a division.  Two
programs that differ only in pushed literals therefore run through the same skeletons until one of
them divides by zero.
-/

namespace StackMachine

/-- Two instructions that are equal up to the literal of a push. -/
def Instr.Alike (i j : Instr) : Prop := i = j ∨ ∃ v w, i = push v ∧ j = push w

/-- A view without its data. -/
structure Skeleton where
  depth : Nat
  capacity : Nat
  pointer : Address
  halted : Bool
  executed : Count
  records : Nat

def View.skeleton (v : View) : Skeleton :=
  { depth := v.live.length
    capacity := v.capacity
    pointer := v.pointer
    halted := v.halted
    executed := v.executed
    records := v.output.size }

/-- What an instruction does to a skeleton if it does not divide by zero. -/
def Skeleton.step (labels : Labels) (i : Instr) (k : Skeleton) : Except Fault Skeleton :=
  if k.depth < i.inputs then .error .stackUnderflow
  else if k.capacity < k.depth - i.inputs + i.outputs then .error .stackOverflow
  else
    match labels.successor? i k.pointer with
    | none => .error .labelNotFound
    | some pointer =>
      .ok { k with
        depth := k.depth - i.inputs + i.outputs
        pointer
        halted := k.halted || decide (i = .halt)
        records := k.records + if i = .print then 1 else 0 }

theorem Skeleton.step_of_alike {i j : Instr} (h : i.Alike j) (labels : Labels) (k : Skeleton) :
    k.step labels i = k.step labels j := by
  rcases h with rfl | ⟨v, w, rfl, rfl⟩
  · rfl
  · simp [step, Instr.inputs, Instr.outputs, Labels.successor?]

namespace Skeleton

variable {labels : Labels} {i : Instr} {k : Skeleton}

theorem step_underflow (hin : k.depth < i.inputs) : k.step labels i = .error .stackUnderflow :=
  if_pos hin

theorem step_overflow (hin : i.inputs ≤ k.depth)
    (hfull : k.capacity < k.depth - i.inputs + i.outputs) :
    k.step labels i = .error .stackOverflow := by
  unfold step
  rw [if_neg (Nat.not_lt.2 hin), if_pos hfull]

theorem step_unbound (hin : i.inputs ≤ k.depth)
    (hroom : k.depth - i.inputs + i.outputs ≤ k.capacity)
    (hnext : labels.successor? i k.pointer = none) : k.step labels i = .error .labelNotFound := by
  unfold step
  rw [if_neg (Nat.not_lt.2 hin), if_neg (Nat.not_lt.2 hroom), hnext]

theorem step_ok {pointer : Address} (hin : i.inputs ≤ k.depth)
    (hroom : k.depth - i.inputs + i.outputs ≤ k.capacity)
    (hnext : labels.successor? i k.pointer = some pointer) :
    k.step labels i = .ok { k with
      depth := k.depth - i.inputs + i.outputs
      pointer
      halted := k.halted || decide (i = .halt)
      records := k.records + if i = .print then 1 else 0 } := by
  unfold step
  rw [if_neg (Nat.not_lt.2 hin), if_neg (Nat.not_lt.2 hroom), hnext]

end Skeleton

namespace Effect

variable {v w : View} {i : Instr} {fault : Fault}

theorem skeleton_of_ok (h : Effect v i (.ok w)) (hfits : w.live.length ≤ w.capacity) :
    v.skeleton.step v.program.labels i = .ok w.skeleton := by
  obtain ⟨hin, hdepth⟩ := h.depth_eq
  have hlive : v.live.length - i.inputs + i.outputs = w.live.length := by omega
  have hroom : v.live.length - i.inputs + i.outputs ≤ v.capacity := by
    rw [hlive, ← h.capacity_eq]
    exact hfits
  have hhalted : w.halted = (v.halted || decide (i = .halt)) := by
    rw [Bool.eq_iff_iff, h.halted_iff]
    simp
  rw [Skeleton.step_ok (k := v.skeleton) hin hroom h.successor?_eq]
  simp [View.skeleton, hlive, hhalted, h.capacity_eq, h.executed_eq, h.records_eq]

theorem skeleton_of_error (h : Effect v i (.error fault)) (hfits : v.live.length ≤ v.capacity)
    (hfault : fault ≠ .divideByZero) :
    v.skeleton.step v.program.labels i = .error fault := by
  cases h with
  | pushFull hfull =>
      apply Skeleton.step_overflow (Nat.zero_le _)
      change v.capacity < v.live.length - 0 + 1
      omega
  | popEmpty hlive | printEmpty hlive | dupEmpty hlive =>
      exact Skeleton.step_underflow (by simp [View.skeleton, hlive, Instr.inputs])
  | @dupFull rest top hlive hfull =>
      have hlen : v.live.length = rest.length + 1 := by simp [hlive]
      apply Skeleton.step_overflow
      · change 1 ≤ v.live.length
        omega
      · change v.capacity < v.live.length - 1 + 2
        omega
  | arithmeticShort hop hlive =>
      apply Skeleton.step_underflow
      rw [(Instr.binary_of_arithmetic hop).inputs]
      exact hlive
  | divisionEmpty hop hlive | divisionShort hop hlive =>
      apply Skeleton.step_underflow
      rw [(Instr.binary_of_division hop).inputs]
      simp [View.skeleton, hlive]
  | divisionZero => exact absurd rfl hfault
  | jumpUnbound htarget => exact Skeleton.step_unbound (Nat.zero_le _) hfits htarget

end Effect

/-! ## Two programs that differ in pushed literals -/

/-- Two programs that are equal up to the literals of their pushes. -/
structure Program.Alike (p q : Program) : Prop where
  labels : p.labels = q.labels
  size : p.size = q.size
  code : ∀ (n : Nat) (i j : Instr), p.code[n]? = some i → q.code[n]? = some j → i.Alike j

theorem Program.Alike.fetch?_eq {p q : Program} (h : p.Alike q) (a : Address) :
    (p.fetch? a = none ∧ q.fetch? a = none) ∨
    ∃ i j, p.fetch? a = some i ∧ q.fetch? a = some j ∧ i.Alike j := by
  have hsize : p.code.size = q.code.size := h.size
  unfold fetch?
  by_cases hin : a.toNat < p.code.size
  · have hp := Array.getElem?_eq_getElem hin
    have hq := Array.getElem?_eq_getElem (hsize ▸ hin)
    exact .inr ⟨_, _, hp, hq, h.code _ _ _ hp hq⟩
  · left
    constructor
    · exact Array.getElem?_eq_none (Nat.not_lt.1 hin)
    · exact Array.getElem?_eq_none (hsize ▸ Nat.not_lt.1 hin)

/-- Two states with the same skeleton, in programs that are equal up to pushed literals. -/
structure State.Alike (s t : State) : Prop where
  program : s.program.Alike t.program
  skeleton : s.view.skeleton = t.view.skeleton

namespace State.Alike

variable {s t : State}

theorem pointer (h : s.Alike t) : s.pointer = t.pointer :=
  congrArg Skeleton.pointer h.skeleton

theorem depth (h : s.Alike t) : s.stack.depth = t.stack.depth := by
  have hlength := congrArg Skeleton.depth h.skeleton
  change s.stack.toList.length = t.stack.toList.length at hlength
  rwa [Stack.length_toList, Stack.length_toList] at hlength

theorem executed (h : s.Alike t) : s.executed = t.executed :=
  congrArg Skeleton.executed h.skeleton

theorem records (h : s.Alike t) : s.output.size = t.output.size :=
  congrArg Skeleton.records h.skeleton

theorem status (h : s.Alike t) (limits : Limits) : s.status limits = t.status limits := by
  have hhalted : s.halted = t.halted := congrArg Skeleton.halted h.skeleton
  unfold State.status
  rw [hhalted, h.executed]

theorem counted (h : s.Alike t) : s.counted.Alike t.counted := by
  refine ⟨h.program, ?_⟩
  have hcount := congrArg (fun k : Skeleton => { k with executed := k.executed + 1 }) h.skeleton
  exact hcount

end State.Alike

namespace Step

variable {s t : State} {i j : Instr}

theorem skeleton_dispatch (hzero : dispatch i s ≠ .error .divideByZero) :
    (dispatch i s).map (fun r => r.2.view.skeleton) =
      s.view.skeleton.step s.program.labels i := by
  cases hdispatch : dispatch i s with
  | error fault =>
      have hfault : fault ≠ .divideByZero := by
        rintro rfl
        exact hzero hdispatch
      exact ((effect_of_dispatch_error hdispatch).skeleton_of_error s.length_live_le hfault).symm
  | ok r => exact ((effect_of_dispatch_ok hdispatch).skeleton_of_ok r.2.length_live_le).symm

/-- Alike states take alike cycles, unless one of them divides by zero. -/
theorem cycle_alike (h : s.Alike t) (hs : cycle s ≠ .error .divideByZero)
    (ht : cycle t ≠ .error .divideByZero) :
    (∃ fault, cycle s = .error fault ∧ cycle t = .error fault) ∨
    ∃ i j s' t', cycle s = .ok (i, s') ∧ cycle t = .ok (j, t') ∧ s'.Alike t' := by
  rcases h.program.fetch?_eq s.pointer with ⟨hp, hq⟩ | ⟨i, j, hp, hq, hij⟩
  · rw [h.pointer] at hq
    exact .inl ⟨_, cycle_of_fetch?_eq_none hp, cycle_of_fetch?_eq_none hq⟩
  · rw [h.pointer] at hq
    have hdi : dispatch i s.counted ≠ .error .divideByZero :=
      fun hd => hs (cycle_eq_error_iff.2 (.inr ⟨i, hp, hd⟩))
    have hdj : dispatch j t.counted ≠ .error .divideByZero :=
      fun hd => ht (cycle_eq_error_iff.2 (.inr ⟨j, hq, hd⟩))
    have hskeleton := skeleton_dispatch hdi
    rw [h.counted.skeleton, h.counted.program.labels, Skeleton.step_of_alike hij,
      ← skeleton_dispatch hdj] at hskeleton
    cases hi : dispatch i s.counted with
    | error fault =>
        cases hj : dispatch j t.counted with
        | error fault' =>
            rw [hi, hj] at hskeleton
            cases hskeleton
            exact .inl ⟨fault, cycle_eq_error_iff.2 (.inr ⟨i, hp, hi⟩),
              cycle_eq_error_iff.2 (.inr ⟨j, hq, hj⟩)⟩
        | ok r => rw [hi, hj] at hskeleton; cases hskeleton
    | ok r =>
        cases hj : dispatch j t.counted with
        | error fault => rw [hi, hj] at hskeleton; cases hskeleton
        | ok r' =>
            rw [hi, hj] at hskeleton
            have hs' := cycle_eq_ok_iff.2 ⟨hp, hi⟩
            have ht' := cycle_eq_ok_iff.2 ⟨hq, hj⟩
            refine .inr ⟨i, j, r.2, r'.2, hs', ht', ?_, Except.ok.inj hskeleton⟩
            rw [program_of_cycle hs', program_of_cycle ht']
            exact h.program

end Step

/-! ## Two runs -/

/-- The same fault, or the same status, count and number of records. -/
def SameOutcome : Except Fault Completion → Except Fault Completion → Prop
  | .error fault, .error fault' => fault = fault'
  | .ok c, .ok c' =>
    c.status = c'.status ∧ c.executed = c'.executed ∧ c.output.size = c'.output.size
  | _, _ => False

theorem SameOutcome.eq_error {r : Except Fault Completion} {fault : Fault}
    (h : SameOutcome r (.error fault)) : r = .error fault := by
  cases r with
  | error fault' => exact congrArg Except.error h
  | ok c => cases h

/-- The cycles of two runs agree up to the first in which one of the runs divides by zero, and
there both are at the same address. -/
def PartAtZero (vs ws : List (Address × Option Nat)) (r r' : Except Fault Completion) : Prop :=
  ∃ before pointer x y rest rest',
    vs = before ++ (pointer, x) :: rest ∧ ws = before ++ (pointer, y) :: rest' ∧
    (∀ visit ∈ before, visit.2 ≠ none) ∧
    ((x = none ∧ rest = [] ∧ r = .error .divideByZero) ∨
      (y = none ∧ rest' = [] ∧ r' = .error .divideByZero))

theorem PartAtZero.cons {vs ws : List (Address × Option Nat)} {r r' : Except Fault Completion}
    (h : PartAtZero vs ws r r') (pointer : Address) (depth : Nat) :
    PartAtZero ((pointer, some depth) :: vs) ((pointer, some depth) :: ws) r r' := by
  obtain ⟨before, p, x, y, rest, rest', rfl, rfl, hbefore, hzero⟩ := h
  refine ⟨(pointer, some depth) :: before, p, x, y, rest, rest', rfl, rfl, ?_, hzero⟩
  intro visit hvisit
  rcases List.mem_cons.1 hvisit with rfl | hvisit
  · nofun
  · exact hbefore visit hvisit

theorem State.Alike.sameOutcome {s t : State} (h : s.Alike t) (status : Status) :
    SameOutcome (.ok (s.completion status)) (.ok (t.completion status)) :=
  ⟨rfl, h.executed, h.records⟩

/-- Runs from alike states have the same outcome after the same cycles, or part at a zero. -/
theorem Course.parallel {limits : Limits} {n : Nat} {s t : State} {es fs : List Event}
    {r r' : Except Fault Completion} (hs : Course limits n s es r) (ht : Course limits n t fs r')
    (halike : s.Alike t) :
    (SameOutcome r r' ∧ r ≠ .error .divideByZero ∧
      Event.visits es = Event.visits fs) ∨
    PartAtZero (Event.visits es) (Event.visits fs) r r' := by
  induction n generalizing s t es fs with
  | zero =>
      cases hs
      cases ht
      exact .inl ⟨halike.sameOutcome _, nofun, rfl⟩
  | succ n ih =>
      by_cases hzero : Step.cycle s = .error .divideByZero
      · obtain ⟨y, rest', hfs⟩ := ht.exists_visits_eq_cons
        obtain ⟨rfl, rfl⟩ := hs.of_fault hzero
        rw [hfs, ← halike.pointer]
        exact .inr ⟨[], s.pointer, none, y, [], rest', rfl, rfl, nofun, .inl ⟨rfl, rfl, rfl⟩⟩
      by_cases hzero' : Step.cycle t = .error .divideByZero
      · obtain ⟨x, rest, hes⟩ := hs.exists_visits_eq_cons
        obtain ⟨rfl, rfl⟩ := ht.of_fault hzero'
        rw [hes, halike.pointer]
        exact .inr ⟨[], t.pointer, x, none, rest, [], rfl, rfl, nofun, .inr ⟨rfl, rfl, rfl⟩⟩
      rcases Step.cycle_alike halike hzero hzero' with
        ⟨fault, hfs, hft⟩ | ⟨i, j, s', t', hcs, hct, halike'⟩
      · obtain ⟨rfl, rfl⟩ := hs.of_fault hfs
        obtain ⟨rfl, rfl⟩ := ht.of_fault hft
        have hfault : fault ≠ .divideByZero := by
          rintro rfl
          exact hzero hfs
        refine .inl ⟨rfl, by simpa using hfault, ?_⟩
        rw [halike.pointer]
      · have hstatus := halike'.status limits
        rcases hs.of_ok hcs with ⟨hstop, rfl, rfl⟩ | ⟨hgo, es', rfl, hs'⟩ <;>
          rcases ht.of_ok hct with ⟨hstop', rfl, rfl⟩ | ⟨hgo', fs', rfl, ht'⟩
        · refine .inl ⟨?_, nofun, ?_⟩
          · rw [hstatus]
            exact halike'.sameOutcome _
          · simp [halike.pointer, halike'.depth]
        · exact absurd (hstatus.trans hgo') hstop
        · exact absurd (hstatus.symm.trans hgo) hstop'
        · rw [Event.visits_dispatched, Event.visits_dispatched, halike.pointer, halike'.depth]
          rcases ih hs' ht' halike' with ⟨hsame, hne, hvisits⟩ | hparts
          · exact .inl ⟨hsame, hne, by rw [hvisits]⟩
          · exact .inr (hparts.cons _ _)

theorem Limits.start_alike (limits : Limits) {p q : Program} (h : p.Alike q) :
    (limits.start p).Alike (limits.start q) :=
  ⟨h, rfl⟩

/-- Two programs that differ only in pushed literals have the same outcome after cycles at the same
addresses that leave the same depths, unless one of them divides by zero, and then they agree up to
that cycle.  The visits that are compared are the cycles of the two runs. -/
theorem data_never_steers_control (limits : Limits) {p q : Program} (halike : p.Alike q) :
    (limits.execute p ≠ .error .divideByZero → limits.execute q ≠ .error .divideByZero →
      SameOutcome (limits.execute p) (limits.execute q) ∧ limits.visits p = limits.visits q) ∧
    (limits.execute p = .error .divideByZero ∨ limits.execute q = .error .divideByZero →
      PartAtZero (limits.visits p) (limits.visits q) (limits.execute p) (limits.execute q)) ∧
    limits.VisitsEachCycle p ∧ limits.VisitsEachCycle q := by
  rw [← and_assoc]
  refine ⟨?_, limits.visitsEachCycle p, limits.visitsEachCycle q⟩
  cases hvalid : limits.validate with
  | error fault =>
      obtain rfl := Limits.eq_invalidConfig hvalid
      rw [Limits.execute_of_invalid hvalid, Limits.execute_of_invalid hvalid,
        Limits.visits_of_invalid hvalid, Limits.visits_of_invalid hvalid]
      refine ⟨fun _ _ => ⟨rfl, rfl⟩, ?_⟩
      rintro (hzero | hzero) <;> cases hzero
  | ok =>
      have hp := Limits.course_execute hvalid p
      have hq := Limits.course_execute hvalid q
      rcases hp.parallel hq (limits.start_alike halike) with ⟨hsame, hne, hvisits⟩ | hparts
      · refine ⟨fun _ _ => ⟨hsame, hvisits⟩, ?_⟩
        rintro (hzero | hzero)
        · exact absurd hzero hne
        · rw [hzero] at hsame
          exact absurd hsame.eq_error hne
      · refine ⟨?_, fun _ => hparts⟩
        intro hp hq
        obtain ⟨_, _, _, _, _, _, _, _, _, ⟨_, _, hzero⟩ | ⟨_, _, hzero⟩⟩ := hparts
        · exact absurd hzero hp
        · exact absurd hzero hq

/-- A divisor of one and a divisor of zero, both without a dividend. -/
theorem lone_divisor_parts_at_zero :
    let limits : Limits := { stackCapacity := 1, executionLimit := 1 }
    let p : Program := ⟨#[.push 1, .div], .empty⟩
    let q : Program := ⟨#[.push 0, .div], .empty⟩
    p.Alike q ∧ limits.execute p = .error .stackUnderflow ∧
      PartAtZero (limits.visits p) (limits.visits q) (limits.execute p) (limits.execute q) := by
  intro limits p q
  have halike : p.Alike q := by
    refine ⟨rfl, rfl, ?_⟩
    rintro (_ | _ | n) i j hi hj
    · cases hi
      cases hj
      exact .inr ⟨1, 0, rfl, rfl⟩
    · cases hi
      cases hj
      exact .inl rfl
    · cases hi
  exact ⟨halike, by decide, (data_never_steers_control limits halike).2.1 (.inr (by decide))⟩

end StackMachine
