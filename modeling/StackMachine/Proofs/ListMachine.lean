import Mathlib.Algebra.Group.Nat.Defs
import Mathlib.Data.List.Basic
import StackMachine.Dispatch
import StackMachine.Proofs.FloorDivision

/-!
# The list machine

The instruction set as a table of rules over the list of live values, bottom first: when an
instruction succeeds and what it leaves, and which fault it ends in otherwise.  Neither slots nor
stale values occur in the table, and arithmetic is that of the integers, reduced to a word.

The main result is that executing an instruction on any state gives exactly what the table says of
the state's view.
-/

namespace StackMachine

/-- What there is to see of a state: the live values in place of the slots. -/
structure View where
  /-- The live values, bottom first. -/
  live : List Word
  capacity : Nat
  pointer : Address
  program : Program
  halted : Bool
  executed : Count
  output : Output

def State.view (s : State) : View :=
  { live := s.stack.toList
    capacity := s.stack.capacity
    pointer := s.pointer
    program := s.program
    halted := s.halted
    executed := s.executed
    output := s.output }

/-- The view with other live values and the pointer at the next instruction. -/
def View.next (v : View) (live : List Word) : View :=
  { v with live, pointer := v.pointer + 1 }

/-- The integer operation behind an instruction that is defined for all operands. -/
def Instr.arithmetic? : Instr → Option (Int → Int → Int)
  | add => some (· + ·)
  | sub => some (· - ·)
  | mul => some (· * ·)
  | _ => none

/-- The integer operation behind an instruction that needs a divisor other than zero. -/
def Instr.division? : Instr → Option (Int → Int → Int)
  | div => some Int.fdiv
  | mod => some Int.fmod
  | _ => none

/-- What each instruction does to a view. -/
inductive Effect (v : View) : Instr → Except Fault View → Prop
  | push {w : Word} (hroom : v.live.length < v.capacity) :
      Effect v (.push w) (.ok (v.next (v.live ++ [w])))
  | pushFull {w : Word} (hfull : v.live.length = v.capacity) :
      Effect v (.push w) (.error .stackOverflow)
  | pop {rest : List Word} {top : Word} (hlive : v.live = rest ++ [top]) :
      Effect v .pop (.ok (v.next rest))
  | popEmpty (hlive : v.live = []) :
      Effect v .pop (.error .stackUnderflow)
  | print {rest : List Word} {top : Word} (hlive : v.live = rest ++ [top]) :
      Effect v .print (.ok { v.next rest with output := ⟨v.output.records ++ #[.emit top]⟩ })
  | printEmpty (hlive : v.live = []) :
      Effect v .print (.error .stackUnderflow)
  | dup {rest : List Word} {top : Word} (hlive : v.live = rest ++ [top])
      (hroom : v.live.length < v.capacity) :
      Effect v .dup (.ok (v.next (v.live ++ [top])))
  | dupEmpty (hlive : v.live = []) :
      Effect v .dup (.error .stackUnderflow)
  | dupFull {rest : List Word} {top : Word} (hlive : v.live = rest ++ [top])
      (hfull : v.live.length = v.capacity) :
      Effect v .dup (.error .stackOverflow)
  | arithmetic {i : Instr} {op : Int → Int → Int} {rest : List Word} {x y : Word}
      (hop : i.arithmetic? = some op) (hlive : v.live = rest ++ [x, y]) :
      Effect v i (.ok (v.next (rest ++ [Int64.ofInt (op x.toInt y.toInt)])))
  | arithmeticShort {i : Instr} {op : Int → Int → Int}
      (hop : i.arithmetic? = some op) (hlive : v.live.length < 2) :
      Effect v i (.error .stackUnderflow)
  | division {i : Instr} {op : Int → Int → Int} {rest : List Word} {x y : Word}
      (hop : i.division? = some op) (hlive : v.live = rest ++ [x, y]) (hy : y ≠ 0) :
      Effect v i (.ok (v.next (rest ++ [Int64.ofInt (op x.toInt y.toInt)])))
  | divisionEmpty {i : Instr} {op : Int → Int → Int}
      (hop : i.division? = some op) (hlive : v.live = []) :
      Effect v i (.error .stackUnderflow)
  -- The divisor is looked at before the dividend, so one zero alone is no underflow.
  | divisionZero {i : Instr} {op : Int → Int → Int} {rest : List Word}
      (hop : i.division? = some op) (hlive : v.live = rest ++ [0]) :
      Effect v i (.error .divideByZero)
  | divisionShort {i : Instr} {op : Int → Int → Int} {y : Word}
      (hop : i.division? = some op) (hlive : v.live = [y]) (hy : y ≠ 0) :
      Effect v i (.error .stackUnderflow)
  | jump {label : String} {target : Address}
      (htarget : v.program.labels.resolve? label = some target) :
      Effect v (.jump label) (.ok { v with pointer := target })
  | jumpUnbound {label : String} (htarget : v.program.labels.resolve? label = none) :
      Effect v (.jump label) (.error .labelNotFound)
  | halt : Effect v .halt (.ok { v with halted := true })

/-! ## Pushing and popping through the live values -/

namespace Stack

theorem push_eq_error {s : Stack} (v : Word) (hfull : s.depth = s.capacity) :
    s.push v = .error .stackOverflow := by
  unfold push
  rw [dif_neg]
  unfold capacity at hfull
  omega

theorem push_eq_ok {s : Stack} (v : Word) (hroom : s.depth < s.capacity) :
    ∃ t, s.push v = .ok t ∧ t.toList = s.toList ++ [v] ∧ t.capacity = s.capacity := by
  obtain ⟨t, ht⟩ := exists_push_eq_ok.2 hroom
  exact ⟨t, ht, toList_push ht, capacity_push ht⟩

theorem pop_eq_error {s : Stack} (hempty : s.toList = []) : s.pop = .error .stackUnderflow := by
  have hdepth : s.depth = 0 := by rw [← length_toList, hempty, List.length_nil]
  unfold pop
  rw [dif_neg (by omega)]

theorem pop_eq_ok {s : Stack} {rest : List Word} {top : Word} (hlive : s.toList = rest ++ [top]) :
    ∃ t, s.pop = .ok (top, t) ∧ t.toList = rest ∧ t.capacity = s.capacity := by
  have hdepth : 0 < s.depth := by rw [← length_toList, hlive]; simp
  obtain ⟨⟨v, t⟩, ht⟩ := exists_pop_eq_ok.2 hdepth
  have hlist : rest ++ [top] = t.toList ++ [v] := by rw [← hlive, toList_pop ht]
  obtain ⟨rfl, hv⟩ := List.append_inj' hlist rfl
  obtain rfl : top = v := by simpa using hv
  exact ⟨t, ht, rfl, by rw [capacity, capacity, slots_pop ht]⟩

end Stack

/-! ## Steps that touch only the stack -/

namespace Step

variable {α β : Type} {s : State}

theorem bind_of_error {x : Step α} {f : α → Step β} {fault : Fault} (hx : x s = .error fault) :
    (x >>= f) s = .error fault := by
  change (x s >>= fun r => f r.1 r.2) = _
  rw [hx]
  rfl

theorem bind_of_ok {x : Step α} {f : α → Step β} {a : α} {t : State} (hx : x s = .ok (a, t)) :
    (x >>= f) s = f a t := by
  change (x s >>= fun r => f r.1 r.2) = _
  rw [hx]
  rfl

/-- The step yields `a`, leaves the given live values and changes nothing else that can be seen. -/
def Yields (x : Step α) (s : State) (a : α) (live : List Word) : Prop :=
  ∃ t : Stack, x s = .ok (a, { s with stack := t }) ∧
    t.toList = live ∧ t.capacity = s.stack.capacity

namespace Yields

variable {x : Step α} {f : α → Step β} {a : α} {b : β} {live live' : List Word}

theorem bind (hx : x.Yields s a live)
    (hf : ∀ t : Stack, t.toList = live → t.capacity = s.stack.capacity →
      (f a).Yields { s with stack := t } b live') :
    (x >>= f).Yields s b live' := by
  obtain ⟨t, hxs, hlive, hcap⟩ := hx
  obtain ⟨u, hfs, hlive', hcap'⟩ := hf t hlive hcap
  exact ⟨u, (bind_of_ok hxs).trans hfs, hlive', hcap'.trans hcap⟩

theorem bind_error {fault : Fault} (hx : x.Yields s a live)
    (hf : ∀ t : Stack, t.toList = live → t.capacity = s.stack.capacity →
      f a { s with stack := t } = .error fault) :
    (x >>= f) s = .error fault := by
  obtain ⟨t, hxs, hlive, hcap⟩ := hx
  exact (bind_of_ok hxs).trans (hf t hlive hcap)

end Yields

theorem push_yields {live : List Word} (v : Word) (hlive : s.stack.toList = live)
    (hroom : live.length < s.stack.capacity) :
    (push v).Yields s () (live ++ [v]) := by
  subst hlive
  obtain ⟨t, ht, hlive, hcap⟩ := s.stack.push_eq_ok v (s.stack.length_toList ▸ hroom)
  refine ⟨t, ?_, hlive, hcap⟩
  unfold push
  rw [ht]
  rfl

theorem push_eq_error (v : Word) (hfull : s.stack.toList.length = s.stack.capacity) :
    push v s = .error .stackOverflow := by
  unfold push
  rw [Stack.push_eq_error v (s.stack.length_toList ▸ hfull)]
  rfl

theorem pop_yields {rest : List Word} {top : Word} (hlive : s.stack.toList = rest ++ [top]) :
    pop.Yields s top rest := by
  obtain ⟨t, ht, hrest, hcap⟩ := Stack.pop_eq_ok hlive
  refine ⟨t, ?_, hrest, hcap⟩
  unfold pop
  rw [ht]
  rfl

theorem pop_eq_error (hempty : s.stack.toList = []) : pop s = .error .stackUnderflow := by
  unfold pop
  rw [Stack.pop_eq_error hempty]
  rfl

theorem pop_push_yields {rest : List Word} {x : Word} (op : Word → Word)
    (hlive : s.stack.toList = rest ++ [x]) :
    (pop >>= fun x => push (op x)).Yields s () (rest ++ [op x]) := by
  apply (pop_yields hlive).bind
  intro t hrest hcap
  apply push_yields (s := { s with stack := t }) (op x) hrest
  -- The slot that the pop gave up has room for the result.
  have hlen : s.stack.depth = rest.length + 1 := by simpa using congrArg List.length hlive
  have hle : s.stack.depth ≤ s.stack.capacity := s.stack.depth_le
  change rest.length < t.capacity
  omega

theorem binary_yields {rest : List Word} {x y : Word} (op : Word → Word → Word)
    (hlive : s.stack.toList = rest ++ [x, y]) :
    (binary op).Yields s () (rest ++ [op x y]) := by
  have hlive' : s.stack.toList = (rest ++ [x]) ++ [y] := by simpa using hlive
  apply (pop_yields hlive').bind
  intro t hrest _
  exact pop_push_yields (s := { s with stack := t }) (op · y) hrest

theorem binary_eq_error (op : Word → Word → Word) (hshort : s.stack.toList.length < 2) :
    binary op s = .error .stackUnderflow := by
  rcases List.eq_nil_or_concat' s.stack.toList with hempty | ⟨rest, y, hlive⟩
  · exact bind_of_error (pop_eq_error hempty)
  · have hrest : rest = [] := by
      rw [hlive, List.length_append, List.length_singleton] at hshort
      exact List.eq_nil_of_length_eq_zero (by omega)
    apply (pop_yields hlive).bind_error
    intro t ht _
    exact bind_of_error (pop_eq_error (s := { s with stack := t }) (ht.trans hrest))

theorem division_yields {rest : List Word} {x y : Word} (op : Word → Word → Word)
    (hlive : s.stack.toList = rest ++ [x, y]) (hy : y ≠ 0) :
    (division op).Yields s () (rest ++ [op x y]) := by
  have hlive' : s.stack.toList = (rest ++ [x]) ++ [y] := by simpa using hlive
  apply (pop_yields hlive').bind
  intro t hrest _
  rw [if_neg hy]
  exact pop_push_yields (s := { s with stack := t }) (op · y) hrest

theorem division_of_zero {rest : List Word} (op : Word → Word → Word)
    (hlive : s.stack.toList = rest ++ [0]) : division op s = .error .divideByZero := by
  apply (pop_yields hlive).bind_error
  intro t _ _
  rw [if_pos rfl]
  rfl

theorem division_of_one {y : Word} (op : Word → Word → Word)
    (hlive : s.stack.toList = [y]) (hy : y ≠ 0) :
    division op s = .error .stackUnderflow := by
  have hlive' : s.stack.toList = [] ++ [y] := hlive
  apply (pop_yields hlive').bind_error
  intro t hempty _
  rw [if_neg hy]
  exact bind_of_error (pop_eq_error (s := { s with stack := t }) hempty)

theorem division_of_empty (op : Word → Word → Word) (hempty : s.stack.toList = []) :
    division op s = .error .stackUnderflow :=
  bind_of_error (pop_eq_error hempty)

end Step

/-! ## Executing an instruction follows the table -/

theorem Step.resolve_eq_ok {s : State} {label : String} {target : Address}
    (h : s.program.labels.resolve? label = some target) :
    Step.resolve label s = .ok (target, s) := by
  unfold Step.resolve
  rw [h]

theorem Step.resolve_eq_error {s : State} {label : String}
    (h : s.program.labels.resolve? label = none) :
    Step.resolve label s = .error .labelNotFound := by
  unfold Step.resolve
  rw [h]

/-- What there is to see of a step's result. -/
def seen {α : Type} (r : Except Fault (α × State)) : Except Fault View :=
  r.map fun p => p.2.view

namespace Step

variable {s : State}

theorem seen_advance {α : Type} {x : Step α} {a : α} {live : List Word}
    (hx : x.Yields s a live) :
    seen ((x >>= fun _ => advance) s) = .ok (s.view.next live) := by
  obtain ⟨t, hxs, rfl, hcap⟩ := hx
  rw [bind_of_ok hxs]
  change Except.ok { s.view.next t.toList with capacity := t.capacity } = _
  rw [hcap]
  rfl

theorem seen_print {rest : List Word} {top : Word} (hlive : s.stack.toList = rest ++ [top]) :
    seen (dispatch .print s) =
      .ok { s.view.next rest with output := ⟨s.output.records ++ #[.emit top]⟩ } := by
  obtain ⟨t, ht, rfl, hcap⟩ := pop_yields hlive
  rw [dispatch, bind_of_ok ht, ← Array.push_eq_append]
  change Except.ok { s.view.next t.toList with
    output := ⟨s.output.records.push (.emit top)⟩, capacity := t.capacity } = _
  rw [hcap]
  rfl

theorem seen_of_error {α β : Type} {x : Step α} {f : α → Step β} {fault : Fault}
    (hx : x s = .error fault) : seen ((x >>= f) s) = .error fault := by
  rw [bind_of_error hx]
  rfl

theorem duplicate_yields {rest : List Word} {top : Word} (hlive : s.stack.toList = rest ++ [top])
    (hroom : s.stack.toList.length < s.stack.capacity) :
    (pop >>= fun v => push v >>= fun _ => push v).Yields s () (s.stack.toList ++ [top]) := by
  have hlen : s.stack.toList.length = rest.length + 1 := by simp [hlive]
  apply (pop_yields hlive).bind
  intro t hrest hcap
  have hfirst : rest.length < t.capacity := by omega
  apply (push_yields (s := { s with stack := t }) top hrest hfirst).bind
  intro u hu hcap'
  rw [← hlive] at hu
  apply push_yields (s := { s with stack := u }) top hu
  change s.stack.toList.length < u.capacity
  rw [hcap']
  change s.stack.toList.length < t.capacity
  omega

theorem duplicate_eq_error {rest : List Word} {top : Word}
    (hlive : s.stack.toList = rest ++ [top])
    (hfull : s.stack.toList.length = s.stack.capacity) :
    (pop >>= fun v => push v >>= fun _ => push v) s = .error .stackOverflow := by
  have hlen : s.stack.toList.length = rest.length + 1 := by simp [hlive]
  apply (pop_yields hlive).bind_error
  intro t hrest hcap
  have hfirst : rest.length < t.capacity := by omega
  apply (push_yields (s := { s with stack := t }) top hrest hfirst).bind_error
  intro u hu hcap'
  apply push_eq_error (s := { s with stack := u }) top
  change u.toList.length = u.capacity
  rw [hu, hcap', ← hlive]
  change s.stack.toList.length = t.capacity
  omega

theorem dispatch_dup :
    dispatch .dup = ((pop >>= fun v => push v >>= fun _ => push v) >>= fun _ => advance) := by
  simp only [dispatch, bind_assoc]

/-- The arithmetic instructions are one step with the operation as its parameter. -/
theorem dispatch_arithmetic {i : Instr} {op : Int → Int → Int} (hop : i.arithmetic? = some op) :
    ∃ f : Word → Word → Word, (∀ x y, f x y = Int64.ofInt (op x.toInt y.toInt)) ∧
      dispatch i = (binary f >>= fun _ => advance) := by
  cases i <;> cases hop
  · exact ⟨(· + ·), fun x y => by simp, rfl⟩
  · exact ⟨(· - ·), fun x y => by simp, rfl⟩
  · exact ⟨(· * ·), fun x y => by simp, rfl⟩

theorem dispatch_division {i : Instr} {op : Int → Int → Int} (hop : i.division? = some op) :
    ∃ f : Word → Word → Word, (∀ x y, y ≠ 0 → f x y = Int64.ofInt (op x.toInt y.toInt)) ∧
      dispatch i = (division f >>= fun _ => advance) := by
  cases i <;> cases hop
  · exact ⟨Word.floorDiv, fun _ _ hy => Word.floorDiv_eq_ofInt_fdiv hy, rfl⟩
  · exact ⟨Word.floorMod, fun _ _ hy => Word.floorMod_eq_ofInt_fmod hy, rfl⟩

theorem dispatch_jump {label : String} {target : Address}
    (htarget : s.program.labels.resolve? label = some target) :
    dispatch (.jump label) s = .ok ((), { s with pointer := target }) :=
  bind_of_ok (resolve_eq_ok htarget)

/-- Whatever the table says of a state's view comes out when the instruction is executed. -/
theorem seen_dispatch_of_effect {i : Instr} {r : Except Fault View} (h : Effect s.view i r) :
    seen (dispatch i s) = r := by
  cases h with
  | push hroom => exact seen_advance (push_yields _ rfl hroom)
  | pushFull hfull => exact seen_of_error (push_eq_error _ hfull)
  | pop hlive => exact seen_advance (pop_yields hlive)
  | popEmpty hlive => exact seen_of_error (pop_eq_error hlive)
  | print hlive => exact seen_print hlive
  | printEmpty hlive => exact seen_of_error (pop_eq_error hlive)
  | dup hlive hroom =>
      rw [dispatch_dup]
      exact seen_advance (duplicate_yields hlive hroom)
  | dupEmpty hlive => exact seen_of_error (pop_eq_error hlive)
  | dupFull hlive hfull =>
      rw [dispatch_dup]
      exact seen_of_error (duplicate_eq_error hlive hfull)
  | arithmetic hop hlive =>
      obtain ⟨f, hf, hdispatch⟩ := dispatch_arithmetic hop
      rw [hdispatch, ← hf]
      exact seen_advance (binary_yields f hlive)
  | arithmeticShort hop hlive =>
      obtain ⟨f, -, hdispatch⟩ := dispatch_arithmetic hop
      rw [hdispatch]
      exact seen_of_error (binary_eq_error f hlive)
  | division hop hlive hy =>
      obtain ⟨f, hf, hdispatch⟩ := dispatch_division hop
      rw [hdispatch, ← hf _ _ hy]
      exact seen_advance (division_yields f hlive hy)
  | divisionEmpty hop hlive =>
      obtain ⟨f, -, hdispatch⟩ := dispatch_division hop
      rw [hdispatch]
      exact seen_of_error (division_of_empty f hlive)
  | divisionZero hop hlive =>
      obtain ⟨f, -, hdispatch⟩ := dispatch_division hop
      rw [hdispatch]
      exact seen_of_error (division_of_zero f hlive)
  | divisionShort hop hlive hy =>
      obtain ⟨f, -, hdispatch⟩ := dispatch_division hop
      rw [hdispatch]
      exact seen_of_error (division_of_one f hlive hy)
  | jump htarget =>
      rw [dispatch_jump htarget]
      rfl
  | jumpUnbound htarget => exact seen_of_error (resolve_eq_error htarget)
  | halt => rfl

end Step

theorem Effect.total_arithmetic (v : View) {i : Instr} {op : Int → Int → Int}
    (hop : i.arithmetic? = some op) : ∃ r, Effect v i r := by
  rcases List.eq_nil_or_concat' v.live with hlive | ⟨rest, y, hlive⟩
  · exact ⟨_, .arithmeticShort hop (by simp [hlive])⟩
  · rcases List.eq_nil_or_concat' rest with hrest | ⟨rest', x, hrest⟩
    · exact ⟨_, .arithmeticShort hop (by simp [hlive, hrest])⟩
    · exact ⟨_, .arithmetic hop (by rw [hlive, hrest, List.append_assoc]; rfl)⟩

theorem Effect.total_division (v : View) {i : Instr} {op : Int → Int → Int}
    (hop : i.division? = some op) : ∃ r, Effect v i r := by
  rcases List.eq_nil_or_concat' v.live with hlive | ⟨rest, y, hlive⟩
  · exact ⟨_, .divisionEmpty hop hlive⟩
  by_cases hy : y = 0
  · subst hy
    exact ⟨_, .divisionZero hop hlive⟩
  · rcases List.eq_nil_or_concat' rest with hrest | ⟨rest', x, hrest⟩
    · exact ⟨_, .divisionShort hop (by rw [hlive, hrest]; rfl) hy⟩
    · exact ⟨_, .division hop (by rw [hlive, hrest, List.append_assoc]; rfl) hy⟩

/-- The table has an entry for every instruction on every list that fits the capacity. -/
theorem Effect.total {v : View} (hfits : v.live.length ≤ v.capacity) (i : Instr) :
    ∃ r, Effect v i r := by
  have hroom := Nat.lt_or_eq_of_le hfits
  have hpop := List.eq_nil_or_concat' v.live
  cases i with
  | push w =>
      rcases hroom with hroom | hfull
      · exact ⟨_, .push hroom⟩
      · exact ⟨_, .pushFull hfull⟩
  | pop =>
      rcases hpop with hlive | ⟨rest, top, hlive⟩
      · exact ⟨_, .popEmpty hlive⟩
      · exact ⟨_, .pop hlive⟩
  | print =>
      rcases hpop with hlive | ⟨rest, top, hlive⟩
      · exact ⟨_, .printEmpty hlive⟩
      · exact ⟨_, .print hlive⟩
  | dup =>
      rcases hpop with hlive | ⟨rest, top, hlive⟩
      · exact ⟨_, .dupEmpty hlive⟩
      · rcases hroom with hroom | hfull
        · exact ⟨_, .dup hlive hroom⟩
        · exact ⟨_, .dupFull hlive hfull⟩
  | add | sub | mul => exact Effect.total_arithmetic v rfl
  | div | mod => exact Effect.total_division v rfl
  | jump label =>
      cases htarget : v.program.labels.resolve? label with
      | none => exact ⟨_, .jumpUnbound htarget⟩
      | some target => exact ⟨_, .jump htarget⟩
  | halt => exact ⟨_, .halt⟩

theorem State.length_live_le (s : State) : s.view.live.length ≤ s.view.capacity := by
  change s.stack.toList.length ≤ s.stack.capacity
  rw [Stack.length_toList]
  exact s.stack.depth_le

theorem Step.effect_dispatch (i : Instr) (s : State) : Effect s.view i (seen (dispatch i s)) := by
  obtain ⟨r, hr⟩ := Effect.total s.length_live_le i
  rw [seen_dispatch_of_effect hr]
  exact hr

theorem Step.effect_of_dispatch_ok {i : Instr} {s t : State} {u : Unit}
    (h : dispatch i s = .ok (u, t)) : Effect s.view i (.ok t.view) := by
  have heffect := effect_dispatch i s
  rw [h] at heffect
  exact heffect

theorem Step.effect_of_dispatch_error {i : Instr} {s : State} {fault : Fault}
    (h : dispatch i s = .error fault) : Effect s.view i (.error fault) := by
  have heffect := effect_dispatch i s
  rw [h] at heffect
  exact heffect

theorem Step.dispatch_of_effect_ok {i : Instr} {s : State} {v : View}
    (h : Effect s.view i (.ok v)) : ∃ t, dispatch i s = .ok ((), t) ∧ t.view = v := by
  have hseen := seen_dispatch_of_effect h
  cases hdispatch : dispatch i s with
  | error fault => rw [hdispatch] at hseen; cases hseen
  | ok p =>
      rw [hdispatch] at hseen
      exact ⟨p.2, rfl, Except.ok.inj hseen⟩

theorem Step.dispatch_of_effect_error {i : Instr} {s : State} {fault : Fault}
    (h : Effect s.view i (.error fault)) : dispatch i s = .error fault := by
  have hseen := seen_dispatch_of_effect h
  cases hdispatch : dispatch i s with
  | error fault' =>
      rw [hdispatch] at hseen
      exact congrArg Except.error (Except.error.inj hseen)
  | ok p => rw [hdispatch] at hseen; cases hseen

/-! ## What every effect has in common -/

/-- Where control goes after an instruction at an address; a halt stays where it is. -/
def Labels.successor? (labels : Labels) (i : Instr) (a : Address) : Option Address :=
  match i with
  | .jump label => labels.resolve? label
  | .halt => some a
  | _ => some (a + 1)

theorem Labels.successor?_of_falls_through (labels : Labels) {i : Instr} (a : Address)
    (h : i.transfersControl = false) : labels.successor? i a = some (a + 1) := by
  cases i with
  | jump | halt => cases h
  | _ => rfl

/-- How many values an instruction takes off the stack. -/
def Instr.inputs : Instr → Nat
  | push _ | jump _ | halt => 0
  | pop | print | dup => 1
  | add | sub | mul | div | mod => 2

/-- How many values an instruction leaves in place of those. -/
def Instr.outputs : Instr → Nat
  | pop | print | jump _ | halt => 0
  | push _ | add | sub | mul | div | mod => 1
  | dup => 2

/-- By how much an instruction raises the depth. -/
def Instr.netEffect : Instr → Int
  | push _ | dup => 1
  | jump _ | halt => 0
  | pop | print | add | sub | mul | div | mod => -1

theorem Instr.netEffect_eq (i : Instr) : i.netEffect = i.outputs - i.inputs := by
  cases i <;> rfl

/-- What the arithmetic instructions and the divisions have in common. -/
structure Instr.Binary (i : Instr) : Prop where
  inputs : i.inputs = 2
  outputs : i.outputs = 1
  falls_through : i.transfersControl = false
  ne_halt : i ≠ .halt
  ne_print : i ≠ .print

theorem Instr.binary_of_arithmetic {i : Instr} {op : Int → Int → Int}
    (hop : i.arithmetic? = some op) : i.Binary := by
  cases i <;> first | exact ⟨rfl, rfl, rfl, nofun, nofun⟩ | cases hop

theorem Instr.binary_of_division {i : Instr} {op : Int → Int → Int}
    (hop : i.division? = some op) : i.Binary := by
  cases i <;> first | exact ⟨rfl, rfl, rfl, nofun, nofun⟩ | cases hop

/-- The view with changes to what no instruction writes: its slots, its program and its count. -/
def View.adapt (capacity : Nat → Nat) (program : Program → Program) (executed : Count → Count)
    (v : View) : View :=
  { v with
    capacity := capacity v.capacity
    program := program v.program
    executed := executed v.executed }

namespace Effect

variable {v w : View} {i : Instr}

theorem program_eq (h : Effect v i (.ok w)) : w.program = v.program := by
  cases h <;> rfl

theorem capacity_eq (h : Effect v i (.ok w)) : w.capacity = v.capacity := by
  cases h <;> rfl

theorem executed_eq (h : Effect v i (.ok w)) : w.executed = v.executed := by
  cases h <;> rfl

theorem halted_iff (h : Effect v i (.ok w)) :
    w.halted = true ↔ v.halted = true ∨ i = .halt := by
  cases h with
  | arithmetic hop => simp [View.next, (Instr.binary_of_arithmetic hop).ne_halt]
  | division hop => simp [View.next, (Instr.binary_of_division hop).ne_halt]
  | _ => simp [View.next]

theorem depth_eq (h : Effect v i (.ok w)) :
    i.inputs ≤ v.live.length ∧ w.live.length + i.inputs = v.live.length + i.outputs := by
  cases h with
  | arithmetic hop hlive =>
      have hbinary := Instr.binary_of_arithmetic hop
      simp [View.next, hlive, hbinary.inputs, hbinary.outputs]
  | division hop hlive =>
      have hbinary := Instr.binary_of_division hop
      simp [View.next, hlive, hbinary.inputs, hbinary.outputs]
  | pop hlive | print hlive | dup hlive =>
      simp [View.next, hlive, Instr.inputs, Instr.outputs]
  | push | jump | halt => simp [View.next, Instr.inputs, Instr.outputs]

theorem length_live_eq (h : Effect v i (.ok w)) :
    (w.live.length : Int) = v.live.length + i.netEffect := by
  have hdepth := h.depth_eq.2
  rw [Instr.netEffect_eq]
  omega

theorem records_eq (h : Effect v i (.ok w)) :
    w.output.size = v.output.size + if i = .print then 1 else 0 := by
  cases h with
  | arithmetic hop => simp [View.next, (Instr.binary_of_arithmetic hop).ne_print]
  | division hop => simp [View.next, (Instr.binary_of_division hop).ne_print]
  | print => simp [Output.size]
  | _ => simp [View.next]

theorem records_extend (h : Effect v i (.ok w)) :
    v.output.records.toList <+: w.output.records.toList := by
  cases h with
  | print => simp
  | _ => exact List.prefix_rfl

theorem successor?_eq (h : Effect v i (.ok w)) :
    v.program.labels.successor? i v.pointer = some w.pointer := by
  cases h with
  | arithmetic hop =>
      exact Labels.successor?_of_falls_through _ _ (Instr.binary_of_arithmetic hop).falls_through
  | division hop =>
      exact Labels.successor?_of_falls_through _ _ (Instr.binary_of_division hop).falls_through
  | jump htarget => exact htarget
  | _ => rfl

/-- An instruction asks of the capacity whether there is room and of the program where a jump goes,
and asks nothing of the count, so it does the same where it gets the same answers. -/
theorem adapt {r : Except Fault View} (h : Effect v i r) (capacity : Nat → Nat)
    (program : Program → Program) (executed : Count → Count)
    (hroom : v.capacity ≤ capacity v.capacity)
    (hfull : r = .error .stackOverflow → capacity v.capacity = v.capacity)
    (htargets : ∀ name, i = .jump name →
      (program v.program).labels.resolve? name = v.program.labels.resolve? name) :
    Effect (v.adapt capacity program executed) i (r.map (·.adapt capacity program executed)) := by
  cases h with
  | push hfits => exact .push (Nat.lt_of_lt_of_le hfits hroom)
  | pushFull hlength => exact .pushFull (hlength.trans (hfull rfl).symm)
  | pop hlive => exact .pop hlive
  | popEmpty hlive => exact .popEmpty hlive
  | print hlive => exact .print hlive
  | printEmpty hlive => exact .printEmpty hlive
  | dup hlive hfits => exact .dup hlive (Nat.lt_of_lt_of_le hfits hroom)
  | dupEmpty hlive => exact .dupEmpty hlive
  | dupFull hlive hlength => exact .dupFull hlive (hlength.trans (hfull rfl).symm)
  | arithmetic hop hlive => exact .arithmetic hop hlive
  | arithmeticShort hop hlive => exact .arithmeticShort hop hlive
  | division hop hlive hy => exact .division hop hlive hy
  | divisionEmpty hop hlive => exact .divisionEmpty hop hlive
  | divisionZero hop hlive => exact .divisionZero hop hlive
  | divisionShort hop hlive hy => exact .divisionShort hop hlive hy
  | jump htarget => exact .jump ((htargets _ rfl).trans htarget)
  | jumpUnbound htarget => exact .jumpUnbound ((htargets _ rfl).trans htarget)
  | halt => exact .halt

end Effect

/-- Executing an instruction gives exactly what the table says of the state's view.  An instruction
that falls through moves the pointer by one, a jump changes the pointer alone and a halt the flag
alone, stale slots included. -/
theorem dispatch_refines_listMachine (i : Instr) (s : State)
    (hpointer : s.pointer.toNat < 2 ^ 64 - 1) :
    (∀ r, seen (Step.dispatch i s) = r ↔ Effect s.view i r) ∧
    (∀ t, i.transfersControl = false → Step.dispatch i s = .ok ((), t) →
      t.pointer.toNat = s.pointer.toNat + 1) ∧
    (∀ label target, i = .jump label → s.program.labels.resolve? label = some target →
      Step.dispatch i s = .ok ((), { s with pointer := target })) ∧
    (i = .halt → Step.dispatch i s = .ok ((), { s with halted := true })) := by
  refine ⟨?_, ?_, ?_, ?_⟩
  · intro r
    constructor
    · rintro rfl
      exact Step.effect_dispatch i s
    · exact Step.seen_dispatch_of_effect
  · intro t hfalls ht
    have hnext := (Step.effect_of_dispatch_ok ht).successor?_eq
    rw [Labels.successor?_of_falls_through _ _ hfalls] at hnext
    have hptr : t.pointer = s.pointer + 1 := (Option.some.inj hnext).symm
    rw [hptr, UInt64.toNat_add]
    exact Nat.mod_eq_of_lt (by simp; omega)
  · rintro label target rfl htarget
    exact Step.dispatch_jump htarget
  · rintro rfl
    rfl

/-- A division of a lone zero, under a stale value that could serve as its dividend, and the zero
printed after a three. -/
theorem dispatch_div_lone_zero :
    let s : State :=
      { State.initial .empty 2 with stack := ⟨#[0, 7], 1, by decide⟩, output := .ofValues [3] }
    s.pointer.toNat < 2 ^ 64 - 1 ∧ seen (Step.dispatch .div s) = .error .divideByZero ∧
      seen (Step.dispatch .print s) =
        .ok { s.view with live := [], pointer := 1, output := .ofValues [3, 0] } := by
  intro s
  have hpointer : s.pointer.toNat < 2 ^ 64 - 1 := by decide
  have hlive : s.view.live = [] ++ [0] := rfl
  refine ⟨hpointer, ?_, ?_⟩
  · exact ((dispatch_refines_listMachine .div s hpointer).1 _).2 (.divisionZero rfl hlive)
  · exact ((dispatch_refines_listMachine .print s hpointer).1 _).2 (.print hlive)

end StackMachine
