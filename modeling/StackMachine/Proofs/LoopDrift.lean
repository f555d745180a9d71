import Mathlib.Combinatorics.Pigeonhole
import Mathlib.Data.Int.Interval
import Mathlib.Dynamics.BirkhoffSum.Basic
import Mathlib.Dynamics.PeriodicPts.Defs
import StackMachine.Proofs.ControlFlow

/-!
# Loops and the depth of the stack

Control follows a path that the program alone fixes, and the depth along it is the sum of the net
effects of the instructions passed.  A loop therefore drifts by the same amount in every round.  A
run of `(C + 1) * n` cycles, on a stack of `C` slots in a program of `n` instructions, comes to
some address twice at the same depth; then no loop on its path drifts at all.
-/

namespace StackMachine

open Function

/-! ## Sums along a path that comes round -/

section Rounds

variable {α : Type} {f : α → α} {g : α → Int} {x : α} {m n : Nat}

theorem birkhoffSum_mul_of_isPeriodicPt (h : IsPeriodicPt f n x) (m : Nat) :
    birkhoffSum f g (m * n) x = m * birkhoffSum f g n x := by
  induction m with
  | zero => simp
  | succ m ih =>
      have hback : f^[m * n] x = x := h.const_mul m
      rw [Nat.succ_mul, birkhoffSum_add, ih, hback]
      push_cast
      ring

/-- The sum over a round does not depend on where the round begins. -/
theorem birkhoffSum_iterate_of_isPeriodicPt (h : IsPeriodicPt f n x) (k : Nat) :
    birkhoffSum f g n (f^[k] x) = birkhoffSum f g n x := by
  have hround : f^[n] x = x := h
  have hlate := birkhoffSum_add f g k n x
  have hearly := birkhoffSum_add f g n k x
  rw [hround, Nat.add_comm n k] at hearly
  omega

/-- All rounds on one path have a sum of zero as soon as one of them has. -/
theorem birkhoffSum_eq_zero_of_round {i j : Nat} (hm : IsPeriodicPt f m (f^[i] x))
    (hn : IsPeriodicPt f n (f^[j] x)) (hpos : 0 < n)
    (hzero : birkhoffSum f g n (f^[j] x) = 0) : birkhoffSum f g m (f^[i] x) = 0 := by
  -- Both rounds pass the point where the path is after `i + j` steps.
  have hmeet : f^[i] (f^[j] x) = f^[j] (f^[i] x) := by
    rw [← iterate_add_apply, ← iterate_add_apply, Nat.add_comm]
  have hm' := hm.apply_iterate j
  have hn' := hn.apply_iterate i
  rw [hmeet] at hn'
  have hsum : birkhoffSum f g n (f^[j] (f^[i] x)) = 0 := by
    rw [← hmeet, birkhoffSum_iterate_of_isPeriodicPt hn, hzero]
  have hproduct : (n : Int) * birkhoffSum f g m (f^[j] (f^[i] x)) = 0 := by
    calc (n : Int) * birkhoffSum f g m (f^[j] (f^[i] x))
        = birkhoffSum f g (n * m) (f^[j] (f^[i] x)) :=
          (birkhoffSum_mul_of_isPeriodicPt hm' n).symm
      _ = birkhoffSum f g (m * n) (f^[j] (f^[i] x)) := by rw [Nat.mul_comm]
      _ = m * birkhoffSum f g n (f^[j] (f^[i] x)) := birkhoffSum_mul_of_isPeriodicPt hn' m
      _ = 0 := by rw [hsum, mul_zero]
  rw [← birkhoffSum_iterate_of_isPeriodicPt hm j]
  exact (mul_eq_zero.1 hproduct).resolve_left (by omega)

end Rounds

/-! ## The path of a program and the depth along it -/

namespace Program

variable {p : Program} {a b : Address}

/-- The address at which a program goes on; one that is not left is its own successor. -/
def flow (p : Program) (a : Address) : Address := (p.next? a).getD a

/-- By how much the instruction at an address raises the depth. -/
def netEffect (p : Program) (a : Address) : Int := (p.fetch? a).elim 0 Instr.netEffect

/-- The depth after a number of cycles on a stack without bounds. -/
def drift (p : Program) (n : Nat) : Int := birkhoffSum p.flow p.netEffect n 0

theorem netEffect_of_next?_eq_none (h : p.next? a = none) : p.netEffect a = 0 := by
  unfold netEffect
  cases hfetch : p.fetch? a with
  | none => rfl
  | some i =>
      cases i with
      | halt | jump => rfl
      | _ =>
          rw [next?_of_fetch? hfetch nofun] at h
          cases h

/-- Control goes from one address to another, and the instructions on the way raise the depth by
the given amount in all. -/
inductive Leads (p : Program) : Address → Int → Address → Prop
  | refl {a : Address} : Leads p a 0 a
  | step {a b c : Address} {i : Instr} {d : Int} (hfetch : p.fetch? a = some i)
      (hnext : p.next? a = some b) (hrest : Leads p b d c) : Leads p a (i.netEffect + d) c

theorem Leads.exists_iterate {d : Int} (h : p.Leads a d b) :
    ∃ n, p.flow^[n] a = b ∧ birkhoffSum p.flow p.netEffect n a = d := by
  induction h with
  | refl => exact ⟨0, rfl, birkhoffSum_zero _ _ _⟩
  | @step a b c i d hfetch hnext _ ih =>
      obtain ⟨n, hpath, hsum⟩ := ih
      have hflow : p.flow a = b := by simp [flow, hnext]
      have heffect : p.netEffect a = i.netEffect := by simp [netEffect, hfetch]
      refine ⟨n + 1, ?_, ?_⟩
      · rw [iterate_succ_apply, hflow, hpath]
      · rw [birkhoffSum_succ', hflow, hsum, heffect]

theorem isPeriodicPt_of_iterate_eq {i n : Nat} (h : p.flow^[i + n] 0 = p.flow^[i] 0) :
    IsPeriodicPt p.flow n (p.flow^[i] 0) := by
  rw [Nat.add_comm, iterate_add_apply] at h
  exact h

theorem drift_add (p : Program) (i n : Nat) :
    p.drift (i + n) = p.drift i + birkhoffSum p.flow p.netEffect n (p.flow^[i] 0) :=
  birkhoffSum_add _ _ i n 0

/-- Somewhere on its path the program comes round without having raised or lowered the depth.  To
stay at an address that has no successor is such a round. -/
def Neutral (p : Program) : Prop :=
  ∃ i n, 0 < n ∧ p.flow^[i + n] 0 = p.flow^[i] 0 ∧ p.drift (i + n) = p.drift i

theorem neutral_of_exit {i : Nat} (h : p.next? (p.flow^[i] 0) = none) : p.Neutral := by
  have hstay : p.flow (p.flow^[i] 0) = p.flow^[i] 0 := by simp [flow, h]
  refine ⟨i, 1, Nat.one_pos, ?_, ?_⟩
  · rw [iterate_succ_apply', hstay]
  · rw [drift_add, birkhoffSum_one, netEffect_of_next?_eq_none h, Int.add_zero]

/-- On a path with one neutral round every round is neutral. -/
theorem Neutral.birkhoffSum_eq_zero (h : p.Neutral) {i n : Nat}
    (hround : IsPeriodicPt p.flow n (p.flow^[i] 0)) :
    birkhoffSum p.flow p.netEffect n (p.flow^[i] 0) = 0 := by
  obtain ⟨j, m, hpos, hback, hdrift⟩ := h
  apply birkhoffSum_eq_zero_of_round hround (isPeriodicPt_of_iterate_eq hback) hpos
  rw [drift_add] at hdrift
  omega

theorem Neutral.drift_eq (h : p.Neutral) {i j : Nat} (hmeet : p.flow^[i] 0 = p.flow^[j] 0) :
    p.drift i = p.drift j := by
  rcases Nat.le_total i j with hle | hle
  · obtain ⟨n, rfl⟩ := Nat.exists_eq_add_of_le hle
    rw [drift_add, h.birkhoffSum_eq_zero (isPeriodicPt_of_iterate_eq hmeet.symm), Int.add_zero]
  · obtain ⟨n, rfl⟩ := Nat.exists_eq_add_of_le hle
    rw [drift_add, h.birkhoffSum_eq_zero (isPeriodicPt_of_iterate_eq hmeet), Int.add_zero]

/-- A path that stays in the program, at depths from zero to `capacity`, for as many steps as there
are pairs of an instruction and a depth has a neutral round. -/
theorem neutral_of_bounded {capacity n : Nat} (hsteps : (capacity + 1) * p.size ≤ n)
    (hfetch : ∀ k ≤ n, (p.fetch? (p.flow^[k] 0)).isSome)
    (hdepth : ∀ k ≤ n, 0 ≤ p.drift k ∧ p.drift k ≤ capacity) : p.Neutral := by
  let places : Finset (Nat × Int) := Finset.range p.size ×ˢ Finset.Icc (0 : Int) capacity
  have hcard : places.card < (Finset.range (n + 1)).card := by
    have hplaces : places.card = (capacity + 1) * p.size := by
      simp [places, Nat.mul_comm]
    rw [hplaces, Finset.card_range]
    omega
  have hmaps : ∀ k ∈ Finset.range (n + 1), ((p.flow^[k] 0).toNat, p.drift k) ∈ places := by
    intro k hk
    have hle : k ≤ n := Nat.le_of_lt_succ (Finset.mem_range.1 hk)
    obtain ⟨i, hi⟩ := Option.isSome_iff_exists.1 (hfetch k hle)
    have hinside : (p.flow^[k] 0).toNat < p.size := (Array.getElem?_eq_some_iff.1 hi).1
    exact Finset.mem_product.2 ⟨Finset.mem_range.2 hinside, Finset.mem_Icc.2 (hdepth k hle)⟩
  -- The path is at `n + 1` places in turn, and there are fewer.
  obtain ⟨i, -, j, -, hne, heq⟩ := Finset.exists_ne_map_eq_of_card_lt_of_maps_to hcard hmaps
  obtain ⟨haddress, hdrift⟩ := Prod.mk.inj heq
  have hmeet := UInt64.toNat_inj.1 haddress
  rcases Nat.lt_or_gt_of_ne hne with hlt | hlt
  · obtain ⟨m, rfl⟩ := Nat.exists_eq_add_of_lt hlt
    exact ⟨i, m + 1, Nat.succ_pos m, hmeet.symm, hdrift.symm⟩
  · obtain ⟨m, rfl⟩ := Nat.exists_eq_add_of_lt hlt
    exact ⟨j, m + 1, Nat.succ_pos m, hmeet, hdrift⟩

end Program

/-! ## Cycles follow the path -/

namespace Step

variable {s t : State} {i : Instr}

theorem pointer_of_cycle (hcycle : cycle s = .ok (i, t)) :
    t.pointer = s.program.flow s.pointer := by
  have hfetch := (cycle_eq_ok_iff.1 hcycle).1
  unfold Program.flow
  by_cases hi : i = .halt
  · subst hi
    have hstay : s.pointer = t.pointer := Option.some.inj (successor?_of_cycle hcycle)
    rw [Program.next?_of_halt hfetch, hstay]
    rfl
  · rw [next?_of_cycle hcycle hi]
    rfl

theorem netEffect_of_cycle (hcycle : cycle s = .ok (i, t)) :
    s.program.netEffect s.pointer = i.netEffect := by
  unfold Program.netEffect
  rw [(cycle_eq_ok_iff.1 hcycle).1]
  rfl

end Step

namespace Limits

variable {limits : Limits} {program : Program} {n : Nat} {t : State}

/-- After any number of cycles a run is where the path of the program is, at the depth that the
path has drifted to. -/
theorem path_after_start (h : (limits.start program).after n = .ok t) :
    t.pointer = program.flow^[n] 0 ∧ (t.stack.depth : Int) = program.drift n := by
  induction n generalizing t with
  | zero =>
      cases h
      exact ⟨rfl, rfl⟩
  | succ n ih =>
      obtain ⟨u, i, hu, hcycle⟩ := State.exists_cycle_of_after_succ h
      obtain ⟨hpointer, hdepth⟩ := ih hu
      have hprogram := program_after_start hu
      have heffect := Step.netEffect_of_cycle hcycle
      rw [hprogram, hpointer] at heffect
      constructor
      · rw [Step.pointer_of_cycle hcycle, hprogram, hpointer, iterate_succ_apply']
      · rw [Step.depth_of_cycle hcycle, hdepth, ← heffect, Program.drift_add, birkhoffSum_one]

theorem depth_after_start_le (h : (limits.start program).after n = .ok t) :
    t.stack.depth ≤ limits.stackCapacity.toNat := by
  rw [← capacity_after_start h]
  exact t.stack.depth_le

theorem neutral_of_after (hsteps : (limits.stackCapacity.toNat + 1) * program.size ≤ n)
    (h : (limits.start program).after n = .ok t) : program.Neutral := by
  -- A path that ends stays where it ends, and one that does not never leaves the program.
  by_cases hexit : ∃ k, program.next? (program.flow^[k] 0) = none
  · obtain ⟨k, hexit⟩ := hexit
    exact Program.neutral_of_exit hexit
  · apply Program.neutral_of_bounded hsteps
    · intro k _
      exact Program.fetch?_isSome_of_next? (Option.isSome_iff_ne_none.2 fun hk => hexit ⟨k, hk⟩)
    · intro k hk
      obtain ⟨u, hu⟩ := State.exists_after_of_le h hk
      have hle := depth_after_start_le hu
      have hdepth := (path_after_start hu).2
      omega

/-- A run that does not fault halts or makes all the cycles it may, and is neutral either way. -/
theorem neutral_of_execute {c : Completion}
    (hbudget : (limits.stackCapacity.toNat + 1) * program.size ≤ limits.executionLimit.toNat + 1)
    (hexecute : limits.execute program = .ok c) : program.Neutral := by
  rcases stops_or_spent (valid_of_execute hexecute) program with
    ⟨k, -, hstops⟩ | ⟨-, t, hafter, -⟩
  · have hending := hstops.ending
    rw [hexecute] at hending
    cases hending with
    | halt hafter hhalted =>
        obtain ⟨t, ht, hfetch⟩ := hstops.halted_iff.1 ⟨_, hexecute, rfl⟩
        rw [(path_after_start ht).1] at hfetch
        exact Program.neutral_of_exit (Program.next?_of_halt hfetch)
    | limit hafter => exact neutral_of_after hbudget hafter
  · exact neutral_of_after hbudget hafter

end Limits

/-- Under a limit of at least `(C + 1) * n` cycles, for a stack of `C` slots and a program of `n`
instructions, a run that does not fault, such as one that is stopped by the limit, begins all its
cycles at an address with the same depth.  A program that comes to a loop with a net effect
faults. -/
theorem only_neutral_loops_outlast_budget (limits : Limits) (program : Program)
    (hbudget : (limits.stackCapacity.toNat + 1) * program.size ≤
      limits.executionLimit.toNat + 1) :
    (∀ c, limits.execute program = .ok c → ∀ j k s t,
      (limits.start program).after j = .ok s → (limits.start program).after k = .ok t →
      s.pointer = t.pointer → s.stack.depth = t.stack.depth) ∧
    ∀ a e d, program.Leads 0 e a → program.Leads a d a → d ≠ 0 →
      ∃ fault, limits.execute program = .error fault := by
  constructor
  · intro c hexecute j k s t hs ht hpointer
    obtain ⟨hs, hsdepth⟩ := Limits.path_after_start hs
    obtain ⟨ht, htdepth⟩ := Limits.path_after_start ht
    have hneutral := Limits.neutral_of_execute hbudget hexecute
    have hdrift := hneutral.drift_eq (hs.symm.trans (hpointer.trans ht))
    omega
  · intro a e d hto hround hd
    obtain ⟨i, rfl, -⟩ := hto.exists_iterate
    obtain ⟨n, hback, hsum⟩ := hround.exists_iterate
    cases hexecute : limits.execute program with
    | error fault => exact ⟨fault, rfl⟩
    | ok c =>
        have hneutral := Limits.neutral_of_execute hbudget hexecute
        exact absurd (hsum.symm.trans (hneutral.birkhoffSum_eq_zero hback)) hd

/-- A loop that takes off what it pushes, and one that does not. -/
theorem neutral_loop_outlasts_budget :
    let limits : Limits := { stackCapacity := 1, executionLimit := 5 }
    let neutral : Program := ⟨#[.push 7, .pop, .jump "top"], Labels.empty.insert "top" 0⟩
    let growing : Program := ⟨#[.push 7, .jump "top"], Labels.empty.insert "top" 0⟩
    let pushed (n : Count) : State :=
      { limits.start neutral with stack := ⟨#[7], 1, by decide⟩, pointer := 1, executed := n }
    (limits.execute neutral = .ok { output := .empty, status := .limitExceeded, executed := 6 } ∧
      (limits.start neutral).after 1 = .ok (pushed 1) ∧
      (limits.start neutral).after 4 = .ok (pushed 4) ∧
      (pushed 1).stack.depth = (pushed 4).stack.depth) ∧
    (growing.Leads 0 1 0 ∧ ∃ fault, limits.execute growing = .error fault) := by
  intro limits neutral growing pushed
  have hexecute : limits.execute neutral =
      .ok { output := .empty, status := .limitExceeded, executed := 6 } := by decide
  have hfirst : (limits.start neutral).after 1 = .ok (pushed 1) := by decide
  have hsecond : (limits.start neutral).after 4 = .ok (pushed 4) := by decide
  have hround : growing.Leads 0 1 0 :=
    .step (i := .push 7) rfl rfl (.step (i := .jump "top") rfl (by decide) .refl)
  have hneutral := (only_neutral_loops_outlast_budget limits neutral (by decide)).1 _ hexecute
  have hgrowing := (only_neutral_loops_outlast_budget limits growing (by decide)).2
  exact ⟨⟨hexecute, hfirst, hsecond, hneutral 1 4 _ _ hfirst hsecond rfl⟩,
    hround, hgrowing 0 0 1 .refl hround (by decide)⟩

end StackMachine
