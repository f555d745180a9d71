import Mathlib.Algebra.Group.Int.Defs
import Mathlib.Algebra.Group.Nat.Defs
import Mathlib.Data.List.Forall2
import StackMachine.Proofs.RoundTrip

/-!
# What is read as an instruction, as limits and as a program

The JSON values that each format reads, described by their shape, with what they are read as.  Names
that a format knows may occur once only, names in a label table as often as they like, the last
occurrence counting, and names that a format does not know anywhere and with any values.
-/

namespace StackMachine

open JsonFormat

/-! ## The grammar -/

namespace Json

/-- An integer in the range of words. -/
def IsWord (j : Json) (v : Word) : Prop :=
  ∃ n : Int, -2 ^ 63 ≤ n ∧ n < 2 ^ 63 ∧ j = .int n ∧ v.toInt = n

/-- An integer in the range of addresses and counts. -/
def IsIndex (j : Json) (a : UInt64) : Prop :=
  ∃ n : Nat, n < 2 ^ 64 ∧ j = .int n ∧ a.toNat = n

/-- A name occurs once among members, with the given value. -/
def OccursOnce (members : List (String × Json)) (name : String) (x : Json) : Prop :=
  ∃ before after, members = before ++ (name, x) :: after ∧
    name ∉ before.map Prod.fst ∧ name ∉ after.map Prod.fst

/-- A value of two parts: an array of them, or an object in which each has its name. -/
inductive HasParts (first second : String) : Json → Json → Json → Prop
  | array {x y : Json} : HasParts first second (.arr [x, y]) x y
  | object {members : List (String × Json)} {x y : Json} (hx : OccursOnce members first x)
      (hy : OccursOnce members second y) : HasParts first second (.obj members) x y

end Json

namespace Instr

/-- The names of the instructions without operand. -/
def names : List (String × Instr) :=
  [("Pop", pop), ("Print", print), ("Add", add), ("Sub", sub), ("Mul", mul), ("Div", div),
    ("Mod", mod), ("Halt", halt), ("Dup", dup)]

/-- An operand stands under the name of its instruction.  A name without operand may stand alone or
with null. -/
inductive Written : Json → Instr → Prop
  | push {x : Json} {v : Word} (h : x.IsWord v) : Written (.obj [("Push", x)]) (push v)
  | jump {label : String} : Written (.obj [("Jump", .str label)]) (jump label)
  | name {name : String} {i : Instr} (h : (name, i) ∈ names) : Written (.str name) i
  | nameAndNull {name : String} {i : Instr} (h : (name, i) ∈ names) :
      Written (.obj [(name, .null)]) i

end Instr

/-- Both limits are counts. -/
def Limits.Written (j : Json) (l : Limits) : Prop :=
  ∃ x y, Json.HasParts "stack_capacity" "execution_limit" j x y ∧
    x.IsIndex l.stackCapacity ∧ y.IsIndex l.executionLimit

/-- All targets are addresses, also those that a later target of the same name replaces. -/
def Labels.Written (j : Json) (t : Labels) : Prop :=
  ∃ members, j = .obj members ∧ (∀ m ∈ members, ∃ a, m.2.IsIndex a) ∧
    ∀ name a, t.resolve? name = some a ↔ ∃ x, LastIn members name x ∧ x.IsIndex a

/-- An array of instructions and a label table. -/
def Program.Written (j : Json) (p : Program) : Prop :=
  ∃ x y, Json.HasParts "instructions" "labels" j x y ∧
    (∃ items, x = .arr items ∧ List.Forall₂ Instr.Written items p.code.toList) ∧
    Labels.Written y p.labels

/-! ## Numbers and instructions -/

theorem ofJson?_eq_some_iff_isWord {j : Json} {v : Word} : ofJson? j = some v ↔ j.IsWord v := by
  constructor
  · intro h
    cases j with
    | int n =>
        change (if Int64.minValue.toInt ≤ n ∧ n ≤ Int64.maxValue.toInt then
          some (Int64.ofInt n) else none) = some v at h
        split at h
        · next hrange =>
          have hmin : -2 ^ 63 ≤ n := hrange.1
          have hmax : n < 2 ^ 63 := Int.lt_of_le_of_lt hrange.2 (by decide)
          cases h
          exact ⟨n, hmin, hmax, rfl, Int64.toInt_ofInt_of_le hmin hmax⟩
        · cases h
    | _ => cases h
  · rintro ⟨n, -, -, rfl, rfl⟩
    exact ofJson?_toJson v

theorem ofJson?_eq_some_iff_isIndex {j : Json} {a : UInt64} :
    ofJson? j = some a ↔ j.IsIndex a := by
  constructor
  · intro h
    cases j with
    | int n =>
        change (if 0 ≤ n ∧ n < UInt64.size then some (UInt64.ofNat n.toNat) else none) = some a at h
        split at h
        · next hrange =>
          have hsize : (UInt64.size : Int) = 2 ^ 64 := rfl
          have hmax : n.toNat < 2 ^ 64 := by omega
          cases h
          refine ⟨n.toNat, hmax, ?_, UInt64.toNat_ofNat_of_lt' hmax⟩
          rw [Int.toNat_of_nonneg hrange.1]
        · cases h
    | _ => cases h
  · rintro ⟨n, -, rfl, rfl⟩
    exact ofJson?_toJson a

theorem ofJson?_eq_some_iff_str {j : Json} {s : String} : ofJson? j = some s ↔ j = .str s := by
  constructor
  · intro h
    cases j with
    | str _ => cases h; rfl
    | _ => cases h
  · rintro rfl
    rfl

namespace Instr

theorem ofName?_eq_some_iff {name : String} {i : Instr} :
    ofName? name = some i ↔ (name, i) ∈ names := by
  constructor
  · intro h
    unfold ofName? at h
    split at h <;> cases h <;> simp [names]
  · intro h
    simp only [names, List.mem_cons, Prod.mk.injEq, List.not_mem_nil, or_false] at h
    rcases h with ⟨rfl, rfl⟩ | ⟨rfl, rfl⟩ | ⟨rfl, rfl⟩ | ⟨rfl, rfl⟩ | ⟨rfl, rfl⟩ | ⟨rfl, rfl⟩ |
      ⟨rfl, rfl⟩ | ⟨rfl, rfl⟩ | ⟨rfl, rfl⟩ <;> rfl

/-- A name and an object with that name and null are read alike. -/
theorem ofJson?_nameAndNull (name : String) :
    JsonFormat.ofJson? (α := Instr) (.obj [(name, .null)]) = JsonFormat.ofJson? (.str name) := by
  change Instr.ofJson? (.obj [(name, .null)]) = ofName? name
  unfold Instr.ofJson?
  -- Null is no operand, and the names that need one stand for nothing without it.
  split
  · next h => cases h
  · next h => cases h; rfl
  · next h => cases h; rfl
  · next h => cases h; rfl
  · next h => exact absurd rfl (h name)

theorem ofJson?_eq_some_iff {j : Json} {i : Instr} :
    JsonFormat.ofJson? j = some i ↔ Written j i := by
  constructor
  · intro h
    change Instr.ofJson? j = some i at h
    unfold Instr.ofJson? at h
    split at h
    · exact .name (ofName?_eq_some_iff.1 h)
    · obtain ⟨v, hv, rfl⟩ := Option.map_eq_some_iff.1 h
      exact .push (ofJson?_eq_some_iff_isWord.1 hv)
    · obtain ⟨label, hlabel, rfl⟩ := Option.map_eq_some_iff.1 h
      rw [ofJson?_eq_some_iff_str.1 hlabel]
      exact .jump
    · exact .nameAndNull (ofName?_eq_some_iff.1 h)
    · cases h
  · intro h
    cases h with
    | push hv =>
        change Instr.push <$> JsonFormat.ofJson? _ = _
        rw [ofJson?_eq_some_iff_isWord.2 hv]
        rfl
    | jump => rfl
    | name hname => exact ofName?_eq_some_iff.2 hname
    | nameAndNull hname =>
        rw [ofJson?_nameAndNull]
        exact ofName?_eq_some_iff.2 hname

end Instr

theorem ofJson?_eq_some_iff_items {α : Type} [JsonFormat α] {j : Json} {as : List α} :
    ofJson? j = some as ↔
      ∃ items, j = .arr items ∧ List.Forall₂ (fun x a => ofJson? x = some a) items as := by
  have hitems (items : List Json) : ofJson? (.arr items) = some as ↔
      List.Forall₂ (fun x a => ofJson? x = some a) items as := by
    change items.mapM ofJson? = some as ↔ _
    rw [mapM_eq_some_iff, ← List.forall₂_eq_eq_eq, List.forall₂_map_left_iff,
      List.forall₂_map_right_iff]
  constructor
  · intro h
    cases j with
    | arr items => exact ⟨items, rfl, (hitems items).1 h⟩
    | _ => cases h
  · rintro ⟨items, rfl, h⟩
    exact (hitems items).2 h

theorem exists_mapM_eq_some_iff {α β : Type} {f : α → Option β} {as : List α} :
    (∃ bs, as.mapM f = some bs) ↔ ∀ a ∈ as, ∃ b, f a = some b := by
  constructor
  · rintro ⟨bs, h⟩ a ha
    have hmem : f a ∈ bs.map some := by
      rw [← mapM_eq_some_iff.1 h]
      exact List.mem_map_of_mem ha
    obtain ⟨b, -, hb⟩ := List.mem_map.1 hmem
    exact ⟨b, hb.symm⟩
  · intro h
    induction as with
    | nil => exact ⟨[], rfl⟩
    | cons a as ih =>
        obtain ⟨b, hb⟩ := h a List.mem_cons_self
        obtain ⟨bs, hbs⟩ := ih fun a ha => h a (List.mem_cons_of_mem _ ha)
        exact ⟨b :: bs, by simp [List.mapM_cons, hb, hbs]⟩

/-! ## Values of two parts -/

section Members

variable {name : String} {members members' : List (String × Json)} {x : Json}

theorem member?_eq_some_iff_filter :
    member? name members = some x ↔ members.filter (·.1 == name) = [(name, x)] := by
  unfold member?
  split
  · next m hm =>
    have hmem : m ∈ members.filter (·.1 == name) := by simp [hm]
    have hname : m.1 = name := by simpa using (List.mem_filter.1 hmem).2
    simp [hm, Prod.ext_iff, hname]
  · next hm =>
    simp only [reduceCtorEq, false_iff]
    exact hm _

theorem member?_eq_some_iff : member? name members = some x ↔ Json.OccursOnce members name x := by
  have hfree (rest : List (String × Json)) :
      name ∉ rest.map Prod.fst ↔ ∀ m ∈ rest, ¬(m.1 == name) = true := by
    simp only [List.mem_map, not_exists, not_and, beq_iff_eq]
  rw [member?_eq_some_iff_filter, List.filter_eq_cons_iff]
  simp only [Json.OccursOnce, hfree, List.filter_eq_nil_iff, beq_self_eq_true, true_and]

/-- A member that must be the only one of its name can be anywhere. -/
theorem member?_of_perm (h : members.Perm members') :
    member? name members = member? name members' := by
  apply Option.ext
  intro x
  rw [member?_eq_some_iff_filter, member?_eq_some_iff_filter, ← List.perm_singleton,
    ← List.perm_singleton]
  exact (h.filter _).congr_left _

end Members

namespace Json

variable {first second : String}

theorem parts?_eq_some_iff {j x y : Json} :
    j.parts? first second = some (x, y) ↔ j.HasParts first second x y := by
  constructor
  · intro h
    unfold parts? at h
    split at h
    · cases h
      exact .array
    · simp only [bind, Option.bind_eq_some_iff, pure, Option.some.injEq, Prod.mk.injEq] at h
      obtain ⟨x, hx, y, hy, rfl, rfl⟩ := h
      exact .object (member?_eq_some_iff.1 hx) (member?_eq_some_iff.1 hy)
    · cases h
  · intro h
    cases h with
    | array => rfl
    | object hx hy => simp [parts?, member?_eq_some_iff.2 hx, member?_eq_some_iff.2 hy]

theorem parts?_bind_eq_some_iff {α : Type} {f : Json → Json → Option α} {j : Json} {a : α} :
    j.parts? first second >>= Function.uncurry f = some a ↔
      ∃ x y, j.HasParts first second x y ∧ f x y = some a := by
  simp only [bind, Option.bind_eq_some_iff, Prod.exists, parts?_eq_some_iff,
    Function.uncurry_apply_pair]

theorem parts?_of_perm {members members' : List (String × Json)} (h : members.Perm members') :
    (obj members).parts? first second = (obj members').parts? first second := by
  simp only [parts?, member?_of_perm h]

end Json

/-! ## Limits, label tables and programs -/

theorem Limits.ofJson?_eq_some_iff {j : Json} {l : Limits} :
    JsonFormat.ofJson? j = some l ↔ Written j l := by
  have hparts (x y : Json) :
      ofParts? x y = some l ↔ x.IsIndex l.stackCapacity ∧ y.IsIndex l.executionLimit := by
    obtain ⟨stackCapacity, executionLimit⟩ := l
    simp [ofParts?, Option.bind_eq_some_iff, ofJson?_eq_some_iff_isIndex]
  rw [ofJson?_eq_parts?, Json.parts?_bind_eq_some_iff]
  simp only [hparts, Written]

namespace Labels

theorem mapM_ofMember?_eq_some_iff {members : List (String × Json)}
    {bindings : List (String × Address)} :
    members.mapM ofMember? = some bindings ↔
      (members.map fun m => (m.1, (JsonFormat.ofJson? m.2 : Option Address))) =
        bindings.map fun b => (b.1, some b.2) := by
  have hmember (m : String × Json) (b : String × Address) :
      ofMember? m = some b ↔
        (m.1, (JsonFormat.ofJson? m.2 : Option Address)) = (b.1, some b.2) := by
    obtain ⟨name, a⟩ := b
    simp [ofMember?, and_comm]
  simp only [mapM_eq_some_iff, ← List.forall₂_eq_eq_eq, List.forall₂_map_left_iff,
    List.forall₂_map_right_iff, hmember]

theorem resolve?_ofList_iff_lastIn {members : List (String × Json)}
    {bindings : List (String × Address)} (h : members.mapM ofMember? = some bindings)
    (name : String) (a : Address) :
    (ofList bindings).resolve? name = some a ↔ ∃ x, LastIn members name x ∧ x.IsIndex a := by
  calc (ofList bindings).resolve? name = some a
      ↔ LastIn bindings name a := resolve?_ofList_eq_some_iff bindings
    _ ↔ LastIn (bindings.map fun b => (b.1, some b.2)) name (some a) := by
        simp [LastIn.map_iff]
    _ ↔ LastIn (members.map fun m => (m.1, (JsonFormat.ofJson? m.2 : Option Address))) name
          (some a) := by
        rw [mapM_ofMember?_eq_some_iff.1 h]
    _ ↔ ∃ x, LastIn members name x ∧ x.IsIndex a := by
        simp only [LastIn.map_iff, ofJson?_eq_some_iff_isIndex]

theorem exists_mapM_ofMember?_iff {members : List (String × Json)} :
    (∃ bindings, members.mapM ofMember? = some bindings) ↔ ∀ m ∈ members, ∃ a, m.2.IsIndex a := by
  rw [exists_mapM_eq_some_iff]
  simp [← ofJson?_eq_some_iff_isIndex, ofMember?]

theorem ofJson?_eq_some_iff {j : Json} {t : Labels} :
    JsonFormat.ofJson? j = some t ↔ Written j t := by
  constructor
  · intro h
    cases j with
    | obj members =>
        rw [ofJson?_obj] at h
        obtain ⟨bindings, hbindings, rfl⟩ := Option.map_eq_some_iff.1 h
        exact ⟨members, rfl, exists_mapM_ofMember?_iff.1 ⟨bindings, hbindings⟩,
          resolve?_ofList_iff_lastIn hbindings⟩
    | _ => cases h
  · rintro ⟨members, rfl, hindex, hlast⟩
    obtain ⟨bindings, hbindings⟩ := exists_mapM_ofMember?_iff.2 hindex
    -- Some table is read, and a table is what it resolves its names to.
    have htable : t = ofList bindings := ext_resolve? fun name a =>
      (hlast name a).trans (resolve?_ofList_iff_lastIn hbindings name a).symm
    rw [ofJson?_obj, hbindings, htable]
    rfl

end Labels

theorem Program.ofJson?_eq_some_iff {j : Json} {p : Program} :
    JsonFormat.ofJson? j = some p ↔ Written j p := by
  have hcode (x : Json) : JsonFormat.ofJson? x = some p.code.toList ↔
      ∃ items, x = .arr items ∧ List.Forall₂ Instr.Written items p.code.toList := by
    simp only [ofJson?_eq_some_iff_items, Instr.ofJson?_eq_some_iff]
  have hparts (x y : Json) : ofParts? x y = some p ↔
      JsonFormat.ofJson? x = some p.code.toList ∧ JsonFormat.ofJson? y = some p.labels := by
    obtain ⟨⟨code⟩, labels⟩ := p
    simp [ofParts?, Option.bind_eq_some_iff, and_comm]
  rw [ofJson?_eq_parts?, Json.parts?_bind_eq_some_iff]
  simp only [hparts, hcode, Labels.ofJson?_eq_some_iff, Written]

/-- Instructions, limits and programs are read from the values that the grammar has for them and
from no others.  A name may stand alone or with null, members may come in any order, and the two
parts of limits or of a program may stand in an array. -/
theorem formats_accept_exactly_grammar (j : Json) :
    (∀ i : Instr, ofJson? j = some i ↔ Instr.Written j i) ∧
    (∀ name : String, (ofJson? (.obj [(name, .null)]) : Option Instr) = ofJson? (.str name)) ∧
    (∀ l : Limits, ofJson? j = some l ↔ Limits.Written j l) ∧
    (∀ members members' : List (String × Json), members.Perm members' →
      (ofJson? (.obj members) : Option Limits) = ofJson? (.obj members')) ∧
    (∀ x y : Json, (ofJson? (.arr [x, y]) : Option Limits) =
      ofJson? (.obj [("stack_capacity", x), ("execution_limit", y)])) ∧
    (∀ p : Program, ofJson? j = some p ↔ Program.Written j p) ∧
    (∀ members members' : List (String × Json), members.Perm members' →
      (ofJson? (.obj members) : Option Program) = ofJson? (.obj members')) ∧
    (∀ x y : Json, (ofJson? (.arr [x, y]) : Option Program) =
      ofJson? (.obj [("instructions", x), ("labels", y)])) := by
  refine ⟨fun _ => Instr.ofJson?_eq_some_iff, Instr.ofJson?_nameAndNull,
    fun _ => Limits.ofJson?_eq_some_iff, ?_, ?_, fun _ => Program.ofJson?_eq_some_iff, ?_, ?_⟩
  · intro members members' hperm
    simp only [Limits.ofJson?_eq_parts?, Json.parts?_of_perm hperm]
  · intro x y
    rw [Limits.ofJson?_eq_parts? (.obj _), Json.parts?_pair_bind _ (by decide)]
    rfl
  · intro members members' hperm
    simp only [Program.ofJson?_eq_parts?, Json.parts?_of_perm hperm]
  · intro x y
    rw [Program.ofJson?_eq_parts? (.obj _), Json.parts?_pair_bind _ (by decide)]
    rfl

/-- Names that are not known may be repeated, and so may labels, of which the last one counts. -/
theorem repeated_names_accepted :
    let members : List (String × Json) :=
      [("note", .null), ("labels", .obj [("a", .int 1), ("b", .int 7), ("a", .int 2)]),
        ("note", .int (-1)), ("instructions", .arr [.str "Pop", .obj [("Pop", .null)]])]
    let p : Program := ⟨#[.pop, .pop], .ofList [("a", 1), ("b", 7), ("a", 2)]⟩
    members.Perm members.reverse ∧ p.labels.resolve? "a" = some 2 ∧
      Program.Written (.obj members) p ∧ ofJson? (.obj members) = some p ∧
      ofJson? (.obj members.reverse) = some p := by
  intro members p
  have hperm : members.Perm members.reverse := (List.reverse_perm members).symm
  have hwritten : Program.Written (.obj members) p := by
    refine ⟨_, _, .object ⟨members.take 3, [], rfl, by decide, by decide⟩
      ⟨members.take 1, members.drop 2, rfl, by decide, by decide⟩, ?_, ?_⟩
    · exact ⟨_, rfl, .cons (.name (by decide)) (.cons (.nameAndNull (by decide)) .nil)⟩
    · exact Labels.ofJson?_eq_some_iff.1 rfl
  obtain ⟨-, -, -, -, -, hreads, horder, -⟩ := formats_accept_exactly_grammar (.obj members)
  have hread : ofJson? (.obj members) = some p := (hreads p).2 hwritten
  exact ⟨hperm, by decide, hwritten, hread, (horder _ _ hperm).symm.trans hread⟩

end StackMachine
