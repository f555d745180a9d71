import StackMachine.Proofs.ListMachine
import StackMachine.Script.Counted

/-!
# Chains of steps

A chain composes steps through functions, each of which builds a step from the value of the one
before, in any nesting.  However it is nested, a chain is a sequence of steps with a call between
each two of them.  The main result is that it runs them in turn up to the first fault, and calls
each function once, when the step before has succeeded, and not at all otherwise.
-/

namespace StackMachine

/-- What a place where a chain goes on is known by. -/
structure Mark (ι : Type) where
  name : ι
  /-- Whether a function is called there, or a step taken that is there already. -/
  called : Bool
  deriving DecidableEq

/-- Adds the call that a mark stands for, if any. -/
def Mark.count {ι : Type} (m : Mark ι) (calls : Nat) : Nat :=
  if m.called then calls + 1 else calls

/-- A composition of steps, the first of which is built from a value of type `α`, that yields a
value of type `β`.  Every place where it goes on has a name. -/
inductive Chain (ι : Type) : Type → Type → Type 1
  | step {α β : Type} (build : α → Step β) : Chain ι α β
  /-- Goes on with the chain that is built from the value. -/
  | andThen {α β γ : Type} (first : Chain ι α β) (name : ι) (next : Chain ι β γ) : Chain ι α γ
  /-- Goes on with a chain that needs no value. -/
  | followedBy {α β γ : Type} (first : Chain ι α β) (name : ι) (second : Chain ι Unit γ) :
      Chain ι α γ
  | map {α β γ : Type} (first : Chain ι α β) (name : ι) (f : β → γ) : Chain ι α γ
  /-- Hides what the chain is made of. -/
  | boxed {α β : Type} (inner : Chain ι α β) : Chain ι α β

/-- Steps that keep notes of type `ν` about the functions that are called.  Counted steps are those
that note the number of calls. -/
abbrev Noted (ν : Type) := StateT State (ExceptT Fault (StateT ν (Except Trap)))

namespace Noted

def ofStep {ν α : Type} (step : Step α) : Noted ν α := fun s notes => .ok (step s, notes)

def note {ν : Type} (f : ν → ν) : Noted ν Unit := fun s notes => .ok (.ok ((), s), f notes)

end Noted

namespace Chain

variable {ι : Type}

/-- The step that a chain comes to. -/
def composite {α β : Type} : Chain ι α β → α → Step β
  | .step build, a => build a
  | .andThen first _ next, a => first.composite a >>= next.composite
  | .followedBy first _ second, a => do
    let _ ← first.composite a
    second.composite ()
  | .map first _ f, a => f <$> first.composite a
  | .boxed inner, a => inner.composite a

/-- The counted step that a chain comes to. -/
def counted {α β : Type} : Chain ι α β → α → Counted β
  | .step build, a => Counted.ofStep (build a)
  | .andThen first _ next, a => Counted.andThen (first.counted a) next.counted
  | .followedBy first _ second, a => do
    let _ ← first.counted a
    second.counted ()
  | .map first _ f, a => Counted.mapValue f (first.counted a)
  | .boxed inner, a => inner.counted a

/-- The step that a chain comes to, with a note at each place where it goes on. -/
def noted {ν α β : Type} (note : Mark ι → ν → ν) : Chain ι α β → α → Noted ν β
  | .step build, a => Noted.ofStep (build a)
  | .andThen first name next, a => do
    let value ← first.noted note a
    Noted.note (note ⟨name, true⟩)
    next.noted note value
  | .followedBy first name second, a => do
    let _ ← first.noted note a
    Noted.note (note ⟨name, false⟩)
    second.noted note ()
  | .map first name f, a => do
    let value ← first.noted note a
    Noted.note (note ⟨name, true⟩)
    return f value
  | .boxed inner, a => inner.noted note a

/-- The step that a chain comes to, with a log of the places where it went on. -/
def logged {α β : Type} : Chain ι α β → α → Noted (List (Mark ι)) β :=
  noted fun m log => log ++ [m]

end Chain

/-! ## Sequences -/

/-- Steps in turn, each built from the value of the one before, with a mark between each two. -/
inductive Links (ι : Type) : Type → Type → Type 1
  | last {α β : Type} (build : α → Step β) : Links ι α β
  | cons {α β γ : Type} (build : α → Step β) (mark : Mark ι) (rest : Links ι β γ) : Links ι α γ

namespace Links

variable {ι : Type}

def marks {α β : Type} : Links ι α β → List (Mark ι)
  | .last _ => []
  | .cons _ mark rest => mark :: rest.marks

def append {α β γ : Type} : Links ι α β → Mark ι → Links ι β γ → Links ι α γ
  | .last build, mark, rest => .cons build mark rest
  | .cons build mark' links, mark, rest => .cons build mark' (links.append mark rest)

/-- The same steps, after a value that the first of them does not look at. -/
def ignoring {β γ : Type} : Links ι Unit γ → Links ι β γ
  | .last build => .last fun _ => build ()
  | .cons build mark rest => .cons (fun _ => build ()) mark rest

/-- Every step succeeds on the state that the one before left, and the last one leaves the given
value and state. -/
inductive Passes : {α β : Type} → Links ι α β → α → State → β → State → Prop
  | last {α β : Type} {build : α → Step β} {a : α} {s t : State} {b : β}
      (h : build a s = .ok (b, t)) : Passes (.last build) a s b t
  | cons {α β γ : Type} {build : α → Step β} {mark : Mark ι} {rest : Links ι β γ} {a : α}
      {s t u : State} {b : β} {c : γ} (h : build a s = .ok (b, t))
      (hrest : Passes rest b t c u) : Passes (.cons build mark rest) a s c u

/-- The given number of steps succeed, each on the state that the one before left, and the next
one ends in the given fault. -/
inductive FailsAt : {α β : Type} → Links ι α β → Nat → Fault → α → State → Prop
  | last {α β : Type} {build : α → Step β} {a : α} {s : State} {fault : Fault}
      (h : build a s = .error fault) : FailsAt (.last build) 0 fault a s
  | here {α β γ : Type} {build : α → Step β} {mark : Mark ι} {rest : Links ι β γ} {a : α}
      {s : State} {fault : Fault} (h : build a s = .error fault) :
      FailsAt (.cons build mark rest) 0 fault a s
  | later {α β γ : Type} {build : α → Step β} {mark : Mark ι} {rest : Links ι β γ} {a : α}
      {s t : State} {b : β} {j : Nat} {fault : Fault} (h : build a s = .ok (b, t))
      (hrest : FailsAt rest j fault b t) : FailsAt (.cons build mark rest) (j + 1) fault a s

/-- Runs the steps in turn. -/
def run {α β : Type} : Links ι α β → α → Step β
  | .last build, a => build a
  | .cons build _ rest, a => build a >>= rest.run

/-- The marks that are passed when the steps are run. -/
def reached {α β : Type} : Links ι α β → α → State → List (Mark ι)
  | .last _, _, _ => []
  | .cons build mark rest, a, s =>
    match build a s with
    | .ok (b, t) => mark :: rest.reached b t
    | .error _ => []

end Links

/-- The sequence that a chain is, however it is nested. -/
def Chain.links {ι α β : Type} : Chain ι α β → Links ι α β
  | .step build => .last build
  | .andThen first name next => first.links.append ⟨name, true⟩ next.links
  | .followedBy first name second => first.links.append ⟨name, false⟩ second.links.ignoring
  | .map first name f => first.links.append ⟨name, true⟩ (.last fun b => pure (f b))
  | .boxed inner => inner.links

/-! ## Running a sequence -/

namespace Links

section

variable {ι α β γ : Type} {build : α → Step β} {mark : Mark ι} {rest : Links ι β γ} {a : α} {b : β}
  {s t : State} {fault : Fault}

theorem run_cons_of_ok (h : build a s = .ok (b, t)) :
    (cons build mark rest).run a s = rest.run b t :=
  Step.bind_of_ok h

theorem run_cons_of_fault (h : build a s = .error fault) :
    (cons build mark rest).run a s = .error fault :=
  Step.bind_of_error h

theorem reached_cons_of_ok (h : build a s = .ok (b, t)) :
    (cons build mark rest).reached a s = mark :: rest.reached b t := by
  simp only [reached, h]

theorem reached_cons_of_fault (h : build a s = .error fault) :
    (cons build mark rest).reached a s = [] := by
  simp only [reached, h]

end

variable {ι α β γ : Type} {links : Links ι α β} {a : α} {b : β} {s t : State} {fault : Fault}

theorem run_append (links : Links ι α β) (mark : Mark ι) (rest : Links ι β γ) (a : α) :
    (links.append mark rest).run a = links.run a >>= rest.run := by
  induction links with
  | last build => rfl
  | cons build mark' links ih =>
      rw [append, run, run, bind_assoc]
      exact congrArg (build a >>= ·) (funext fun b => ih rest b)

theorem run_ignoring (links : Links ι Unit γ) (b : β) : links.ignoring.run b = links.run () := by
  cases links <;> rfl

theorem reached_ignoring (links : Links ι Unit γ) (b : β) (s : State) :
    links.ignoring.reached b s = links.reached () s := by
  cases links <;> rfl

theorem passes_or_failsAt (links : Links ι α β) (a : α) (s : State) :
    (∃ b t, links.Passes a s b t) ∨ ∃ j fault, links.FailsAt j fault a s := by
  induction links generalizing s with
  | last build =>
      cases h : build a s with
      | ok p => exact .inl ⟨p.1, p.2, .last h⟩
      | error fault => exact .inr ⟨0, fault, .last h⟩
  | cons build mark rest ih =>
      cases h : build a s with
      | ok p =>
          rcases ih p.1 p.2 with ⟨c, u, hrest⟩ | ⟨j, fault, hrest⟩
          · exact .inl ⟨c, u, .cons h hrest⟩
          · exact .inr ⟨j + 1, fault, .later h hrest⟩
      | error fault => exact .inr ⟨0, fault, .here h⟩

namespace Passes

theorem run_eq (h : links.Passes a s b t) : links.run a s = .ok (b, t) := by
  induction h with
  | last h => exact h
  | cons h _ ih => rw [run_cons_of_ok h, ih]

theorem reached_eq (h : links.Passes a s b t) : links.reached a s = links.marks := by
  induction h with
  | last => rfl
  | cons h _ ih => rw [reached_cons_of_ok h, ih, marks]

theorem reached_append (h : links.Passes a s b t) (mark : Mark ι) (rest : Links ι β γ) :
    (links.append mark rest).reached a s = links.reached a s ++ mark :: rest.reached b t := by
  induction h with
  | last h => exact reached_cons_of_ok h
  | cons h _ ih => rw [append, reached_cons_of_ok h, reached_cons_of_ok h, ih, List.cons_append]

end Passes

namespace FailsAt

variable {j : Nat}

theorem run_eq (h : links.FailsAt j fault a s) : links.run a s = .error fault := by
  induction h with
  | last h => exact h
  | here h => exact run_cons_of_fault h
  | later h _ ih => rw [run_cons_of_ok h, ih]

theorem reached_eq (h : links.FailsAt j fault a s) : links.reached a s = links.marks.take j := by
  induction h with
  | last => rfl
  | here h => rw [reached_cons_of_fault h, List.take_zero]
  | later h _ ih => rw [reached_cons_of_ok h, ih, marks, List.take_succ_cons]

theorem reached_append (h : links.FailsAt j fault a s) (mark : Mark ι) (rest : Links ι β γ) :
    (links.append mark rest).reached a s = links.reached a s := by
  induction h with
  | last h => exact reached_cons_of_fault h
  | here h => rw [append, reached_cons_of_fault h, reached_cons_of_fault h]
  | later h _ ih => rw [append, reached_cons_of_ok h, reached_cons_of_ok h, ih]

end FailsAt

theorem run_eq_ok_iff : links.run a s = .ok (b, t) ↔ links.Passes a s b t := by
  constructor
  · intro h
    rcases links.passes_or_failsAt a s with ⟨b', t', hpasses⟩ | ⟨j, fault, hfails⟩
    · cases hpasses.run_eq.symm.trans h
      exact hpasses
    · cases hfails.run_eq.symm.trans h
  · exact Passes.run_eq

theorem run_eq_error_iff : links.run a s = .error fault ↔ ∃ j, links.FailsAt j fault a s := by
  constructor
  · intro h
    rcases links.passes_or_failsAt a s with ⟨b', t', hpasses⟩ | ⟨j, fault', hfails⟩
    · cases hpasses.run_eq.symm.trans h
    · cases hfails.run_eq.symm.trans h
      exact ⟨j, hfails⟩
  · rintro ⟨j, hfails⟩
    exact hfails.run_eq

end Links

/-! ## Running a chain -/

namespace Noted

variable {ι ν α β γ : Type} {s t : State} {notes notes' : ν}

theorem bind_of_ok {x : Noted ν α} {f : α → Noted ν β} {a : α}
    (h : x s notes = .ok (.ok (a, t), notes')) : (x >>= f) s notes = f a t notes' := by
  change (x s notes >>= _) = _
  rw [h]
  rfl

theorem bind_of_fault {x : Noted ν α} {f : α → Noted ν β} {fault : Fault}
    (h : x s notes = .ok (.error fault, notes')) :
    (x >>= f) s notes = .ok (.error fault, notes') := by
  change (x s notes >>= _) = _
  rw [h]
  rfl

/-- The step runs like a sequence and takes a note at each mark that the sequence passes. -/
def Follows (note : Mark ι → ν → ν) (x : Noted ν β) (links : Links ι α β) (a : α) : Prop :=
  ∀ s notes, x s notes =
    .ok (links.run a s, (links.reached a s).foldl (fun notes m => note m notes) notes)

theorem Follows.append {note : Mark ι → ν → ν} {x : Noted ν β} {y : β → Noted ν γ}
    {links : Links ι α β} {rest : Links ι β γ} {a : α} (hx : Follows note x links a)
    (hy : ∀ b, Follows note (y b) rest b) (mark : Mark ι) :
    Follows note (do
      let b ← x
      Noted.note (note mark)
      y b) (links.append mark rest) a := by
  intro s notes
  have hfirst := hx s notes
  rw [Links.run_append]
  -- The second part is run, and the mark noted, only if all of the first part passes.
  rcases links.passes_or_failsAt a s with ⟨b, t, hpasses⟩ | ⟨j, fault, hfails⟩
  · rw [hpasses.run_eq] at hfirst
    rw [bind_of_ok hfirst, Step.bind_of_ok hpasses.run_eq, hpasses.reached_append,
      List.foldl_append]
    exact hy b t _
  · rw [hfails.run_eq] at hfirst
    rw [bind_of_fault hfirst, Step.bind_of_error hfails.run_eq, hfails.reached_append]

end Noted

namespace Chain

variable {ι ν α β : Type}

theorem follows_noted (note : Mark ι → ν → ν) (c : Chain ι α β) (a : α) :
    Noted.Follows note (c.noted note a) c.links a := by
  induction c with
  | step build => exact fun s notes => rfl
  | andThen first name next ihfirst ihnext => exact (ihfirst a).append ihnext ⟨name, true⟩
  | followedBy first name second ihfirst ihsecond =>
      -- The second chain is run on no value, whatever the first one yields.
      refine (ihfirst a).append (fun b s notes => ?_) ⟨name, false⟩
      rw [Links.run_ignoring, Links.reached_ignoring]
      exact ihsecond () s notes
  | map first name f ih =>
      have hpure (b) : Noted.Follows note (pure (f b)) (.last fun b => pure (f b)) b :=
        fun s notes => rfl
      exact (ih a).append hpure ⟨name, true⟩
  | boxed inner ih => exact ih a

theorem composite_eq_run (c : Chain ι α β) (a : α) : c.composite a = c.links.run a := by
  induction c with
  | step build => rfl
  | andThen first name next ihfirst ihnext =>
      rw [composite, links, Links.run_append, ihfirst]
      exact congrArg (_ >>= ·) (funext ihnext)
  | followedBy first name second ihfirst ihsecond =>
      rw [composite, links, Links.run_append, ihfirst]
      refine congrArg (_ >>= ·) (funext fun b => ?_)
      rw [Links.run_ignoring, ihsecond]
  | map first name f ih =>
      rw [composite, links, Links.run_append, ih, map_eq_pure_bind]
      rfl
  | boxed inner ih => exact ih a

/-- A counted step notes the number of the functions called. -/
theorem counted_eq_noted (c : Chain ι α β) (a : α) :
    c.counted a = c.noted Mark.count a := by
  induction c with
  | step build => rfl
  | andThen first name next ihfirst ihnext =>
      rw [counted, ihfirst, funext ihnext]
      rfl
  | followedBy first name second ihfirst ihsecond =>
      rw [counted, ihfirst, ihsecond]
      rfl
  | map first name f ih =>
      rw [counted, ih]
      rfl
  | boxed inner ih => exact ih a

theorem logged_eq (c : Chain ι α β) (a : α) (s : State) :
    c.logged a s [] = .ok (c.links.run a s, c.links.reached a s) := by
  rw [logged, follows_noted, List.foldl_append_eq_append, ← List.flatMap_def,
    List.flatMap_singleton', List.nil_append]

theorem foldl_count (marks : List (Mark ι)) (calls : Nat) :
    marks.foldl (fun calls m => m.count calls) calls = calls + marks.countP (·.called) := by
  induction marks generalizing calls with
  | nil => rfl
  | cons m marks ih =>
      rw [List.foldl_cons, ih, List.countP_cons, Mark.count]
      cases m.called with
      | false => rfl
      | true => exact Nat.succ_add_eq_add_succ calls _

theorem outcome_counted (c : Chain ι α β) (a : α) (s : State) :
    (c.counted a).outcome s =
      .ok (c.links.run a s, (c.links.reached a s).countP (·.called)) := by
  rw [counted_eq_noted, Counted.outcome, follows_noted, foldl_count, Nat.zero_add]

end Chain

/-- However the steps of a chain are put together, the chain succeeds if all of them do, in turn,
with the value and the state of the last one, and otherwise it ends in the fault of the first that
fails.  Of the functions of the chain, those before the step that fails are called once each, in
their order, and those after it never. -/
theorem first_fault_ends_chain {ι α β : Type} (c : Chain ι α β) (a : α) (s : State) :
    ∃ result log,
      c.composite a s = result ∧
      c.logged a s [] = .ok (result, log) ∧
      c.counted a = c.noted Mark.count a ∧
      (c.counted a).outcome s = .ok (result, log.countP (·.called)) ∧
      (∀ b t, result = .ok (b, t) ↔ c.links.Passes a s b t) ∧
      (∀ fault, result = .error fault ↔ ∃ j, c.links.FailsAt j fault a s) ∧
      (∀ b t, c.links.Passes a s b t → log = c.links.marks) ∧
      ∀ j fault, c.links.FailsAt j fault a s → log = c.links.marks.take j := by
  refine ⟨c.links.run a s, c.links.reached a s, ?_, c.logged_eq a s, c.counted_eq_noted a,
    c.outcome_counted a s, ?_, ?_, ?_, ?_⟩
  · rw [c.composite_eq_run a]
  · exact fun _ _ => Links.run_eq_ok_iff
  · exact fun _ => Links.run_eq_error_iff
  · exact fun _ _ => Links.Passes.reached_eq
  · exact fun _ _ => Links.FailsAt.reached_eq

/-- A chain whose fourth step fails within a nested chain.  The function after it is not called, and
the step that stands there without a function does not count as a call. -/
theorem fourth_step_fails :
    let c : Chain String Unit Word :=
      .map
        (.followedBy (.step fun _ => Step.push 3) "take back"
          (.andThen (.step fun _ => Step.pop) "push again"
            (.boxed
              (.andThen (.step Step.push) "give up" (.step fun _ => Step.fail .labelNotFound)))))
        "never" fun v => v + v
    let s := State.initial .empty 1
    c.links.FailsAt 3 .labelNotFound () s ∧
      c.logged () s [] = .ok (.error .labelNotFound,
        [⟨"take back", false⟩, ⟨"push again", true⟩, ⟨"give up", true⟩]) ∧
      (c.counted ()).outcome s = .ok (.error .labelNotFound, 2) := by
  intro c s
  have hfails : c.links.FailsAt 3 .labelNotFound () s :=
    .later rfl (.later rfl (.later rfl (.here rfl)))
  obtain ⟨result, log, -, hlogged, -, hcounted, -, hfault, -, hreached⟩ :=
    first_fault_ends_chain c () s
  have hresult : result = .error .labelNotFound := (hfault .labelNotFound).2 ⟨3, hfails⟩
  have hlog := hreached 3 .labelNotFound hfails
  subst hresult hlog
  exact ⟨hfails, hlogged, hcounted⟩

end StackMachine
