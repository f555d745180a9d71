import StackMachine.Format.Program
import StackMachine.Format.Run
import StackMachine.Proofs.JsonText
import StackMachine.Proofs.LabelBindings

/-!
# JSON formats read back what they write

A format is lawful if it writes plain values and reads each of them as what it was written for.
All formats are lawful, so every text that is written can be read, with any blanks around it.  The
members of a label table may be written in any order.
-/

namespace StackMachine

open JsonFormat
open Json (Exact)

/-- A format that reads what it writes. -/
class LawfulFormat (α : Type) [JsonFormat α] : Prop where
  exact_toJson (a : α) : (toJson a).Exact
  ofJson?_toJson (a : α) : ofJson? (toJson a) = some a

export LawfulFormat (exact_toJson ofJson?_toJson)

theorem LawfulFormat.toJson_injective {α : Type} [JsonFormat α] [LawfulFormat α] {a b : α}
    (h : toJson a = toJson b) : a = b := by
  have hread := ofJson?_toJson a
  rw [h, ofJson?_toJson] at hread
  exact (Option.some.inj hread).symm

/-- A list can be read if all its items can. -/
theorem mapM_eq_some_iff {α β : Type} {f : α → Option β} {as : List α} {bs : List β} :
    as.mapM f = some bs ↔ as.map f = bs.map some := by
  induction as generalizing bs with
  | nil => cases bs <;> simp
  | cons a as ih => cases bs <;> simp [List.mapM_cons, Option.bind_eq_some_iff, ih]

theorem mapM_map_eq_some {α β : Type} {f : β → Option α} {g : α → β}
    (h : ∀ a, f (g a) = some a) (as : List α) : (as.map g).mapM f = some as := by
  rw [mapM_eq_some_iff, List.map_map]
  exact List.map_congr_left fun a _ => h a

namespace Json

/-- The two parts of an array of two, or of an object in which each of them has its name. -/
def parts? (first second : String) : Json → Option (Json × Json)
  | .arr [x, y] => some (x, y)
  | .obj members => do return (← member? first members, ← member? second members)
  | _ => none

section Bind

variable {α : Type} {first second : String} (f : Json → Json → Option α)

theorem parts?_obj_bind (members : List (String × Json)) :
    (obj members).parts? first second >>= Function.uncurry f =
      (do f (← member? first members) (← member? second members)) := by
  simp [parts?, Option.bind_assoc]

theorem parts?_pair_bind (h : first ≠ second) (x y : Json) :
    (obj [(first, x), (second, y)]).parts? first second >>= Function.uncurry f = f x y := by
  simp [parts?, member?, h, h.symm]

end Bind

end Json

/-! ## Numbers, texts and lists -/

instance : LawfulFormat Word where
  exact_toJson v := .int _
  ofJson?_toJson v := by
    change (if Int64.minValue.toInt ≤ v.toInt ∧ v.toInt ≤ Int64.maxValue.toInt then
      some (Int64.ofInt v.toInt) else none) = some v
    rw [if_pos ⟨v.minValue_le_toInt, v.toInt_le⟩, Int64.ofInt_toInt]

instance : LawfulFormat UInt64 where
  exact_toJson n := .int _
  ofJson?_toJson n := by
    change (if 0 ≤ (n.toNat : Int) ∧ (n.toNat : Int) < UInt64.size then
      some (UInt64.ofNat (n.toNat : Int).toNat) else none) = some n
    have hsize : n.toNat < UInt64.size := n.toNat_lt
    rw [if_pos (by omega), Int.toNat_natCast, UInt64.ofNat_toNat]

instance : LawfulFormat String where
  exact_toJson s := .str s
  ofJson?_toJson _ := rfl

instance {α : Type} [JsonFormat α] [LawfulFormat α] : LawfulFormat (List α) where
  exact_toJson as := by
    apply Exact.arr
    intro x hx
    obtain ⟨a, -, rfl⟩ := List.mem_map.1 hx
    exact exact_toJson a
  ofJson?_toJson as := mapM_map_eq_some ofJson?_toJson as

/-! ## Instructions, label tables and programs -/

instance : LawfulFormat Instr where
  exact_toJson i := by
    cases i with
    | push v => exact .obj (by simpa using exact_toJson v)
    | jump label => exact .obj (by simpa using Exact.str label)
    | _ => exact .str _
  ofJson?_toJson i := by
    cases i with
    | push v =>
        change Instr.push <$> ofJson? (toJson v) = _
        rw [ofJson?_toJson]
        rfl
    | _ => rfl

namespace Labels

/-- Bindings as members of an object, in the given order. -/
def object (bindings : List (String × Address)) : Json :=
  .obj (bindings.map fun b => (b.1, JsonFormat.toJson b.2))

theorem exact_object (bindings : List (String × Address)) : (object bindings).Exact := by
  apply Exact.obj
  intro m hm
  obtain ⟨b, -, rfl⟩ := List.mem_map.1 hm
  exact exact_toJson b.2

/-- The binding that a member stands for. -/
def ofMember? (m : String × Json) : Option (String × Address) := (m.1, ·) <$> JsonFormat.ofJson? m.2

theorem ofJson?_obj (members : List (String × Json)) :
    JsonFormat.ofJson? (.obj members) = ofList <$> members.mapM ofMember? := rfl

/-- A table can be read from its bindings in any order. -/
theorem ofJson?_object {t : Labels} {bindings : List (String × Address)}
    (h : bindings.Perm t.toList) : JsonFormat.ofJson? (object bindings) = some t := by
  have hmember (b : String × Address) : ofMember? (b.1, JsonFormat.toJson b.2) = some b := by
    simp [ofMember?, ofJson?_toJson]
  rw [object, ofJson?_obj, mapM_map_eq_some hmember, ← ofList_of_perm h]
  rfl

end Labels

instance : LawfulFormat Labels where
  exact_toJson t := Labels.exact_object t.toList
  ofJson?_toJson _ := Labels.ofJson?_object (.refl _)

namespace Program

/-- A program with the bindings of its label table in the given order. -/
def object (p : Program) (bindings : List (String × Address)) : Json :=
  .obj [("instructions", JsonFormat.toJson p.code.toList), ("labels", Labels.object bindings)]

theorem ofJson?_eq_parts? (j : Json) :
    JsonFormat.ofJson? j = j.parts? "instructions" "labels" >>= Function.uncurry ofParts? := by
  cases j with
  | arr items => rcases items with _ | ⟨x, _ | ⟨y, _ | ⟨z, items⟩⟩⟩ <;> rfl
  | obj members => exact (Json.parts?_obj_bind ofParts? members).symm
  | _ => rfl

theorem exact_object (p : Program) (bindings : List (String × Address)) :
    (p.object bindings).Exact := by
  apply Exact.obj
  simpa using ⟨exact_toJson p.code.toList, Labels.exact_object bindings⟩

theorem ofJson?_object {p : Program} {bindings : List (String × Address)}
    (h : bindings.Perm p.labels.toList) : JsonFormat.ofJson? (p.object bindings) = some p := by
  have hcode := ofJson?_toJson p.code.toList
  have hlabels := Labels.ofJson?_object h
  rw [object, ofJson?_eq_parts?, Json.parts?_pair_bind _ (by decide)]
  simp [ofParts?, hcode, hlabels]

end Program

instance : LawfulFormat Program where
  exact_toJson p := p.exact_object p.labels.toList
  ofJson?_toJson _ := Program.ofJson?_object (.refl _)

/-! ## Limits, output, statuses and completions -/

theorem Limits.ofJson?_eq_parts? (j : Json) :
    JsonFormat.ofJson? j =
      j.parts? "stack_capacity" "execution_limit" >>= Function.uncurry ofParts? := by
  cases j with
  | arr items => rcases items with _ | ⟨x, _ | ⟨y, _ | ⟨z, items⟩⟩⟩ <;> rfl
  | obj members => exact (Json.parts?_obj_bind ofParts? members).symm
  | _ => rfl

instance : LawfulFormat Limits where
  exact_toJson l := by
    apply Exact.obj
    simpa using ⟨exact_toJson l.stackCapacity, exact_toJson l.executionLimit⟩
  ofJson?_toJson l := by
    change ofJson? l.toJson = some l
    rw [Limits.ofJson?_eq_parts?, Limits.toJson, Json.parts?_pair_bind _ (by decide)]
    simp [Limits.ofParts?, ofJson?_toJson]

instance : LawfulFormat Record where
  exact_toJson
    | .emit v => .obj (by simpa using exact_toJson v)
  ofJson?_toJson
    | .emit v => by
      change Record.emit <$> ofJson? (toJson v) = _
      rw [ofJson?_toJson]
      rfl

instance : LawfulFormat Output where
  exact_toJson o := exact_toJson o.records.toList
  ofJson?_toJson o := by
    change Output.ofJson? (toJson o.records.toList) = some o
    simp [Output.ofJson?, ofJson?_toJson]

instance : LawfulFormat Status where
  exact_toJson s := .str s.name
  ofJson?_toJson s := by cases s <;> rfl

theorem Completion.exact_toJson (c : Completion) : c.toJson.Exact := by
  apply Exact.obj
  simpa using ⟨StackMachine.exact_toJson c.output, StackMachine.exact_toJson c.status,
    StackMachine.exact_toJson c.executed⟩

theorem Completion.toJson_injective {c c' : Completion} (h : c.toJson = c'.toJson) : c = c' := by
  obtain ⟨output, status, executed⟩ := c
  obtain ⟨output', status', executed'⟩ := c'
  simp only [toJson, Json.obj.injEq, List.cons.injEq, Prod.mk.injEq, true_and, and_true] at h
  rw [LawfulFormat.toJson_injective h.1, LawfulFormat.toJson_injective h.2.1,
    LawfulFormat.toJson_injective h.2.2]

/-! ## Texts -/

section Blanks

variable {before after : String} (hbefore : ∀ c ∈ before.toList, Json.Lexer.isBlank c = true)
  (hafter : ∀ c ∈ after.toList, Json.Lexer.isBlank c = true)
include hbefore hafter

/-- A text is read as whatever its value is read as, with any blanks around it. -/
theorem read?_render {α : Type} [JsonFormat α] {j : Json} (hj : j.Exact) :
    read? (α := α) (before ++ j.render ++ after) = ofJson? j := by
  rw [read?, Json.parse?_render hj hbefore hafter]
  rfl

theorem read?_write {α : Type} [JsonFormat α] [LawfulFormat α] (a : α) :
    read? (before ++ write a ++ after) = some a := by
  rw [write, read?_render hbefore hafter (exact_toJson a), ofJson?_toJson]

end Blanks

/-- Different completions have different texts. -/
theorem Completion.text_injective {c c' : Completion} (h : c.text = c'.text) : c = c' := by
  have hblank : ∀ ch ∈ "".toList, Json.Lexer.isBlank ch = true := by simp
  have hparse := Json.parse?_render c.exact_toJson hblank hblank
  have hparse' := Json.parse?_render c'.exact_toJson hblank hblank
  rw [show c.toJson.render = c'.toJson.render from h, hparse'] at hparse
  exact toJson_injective (Option.some.inj hparse).symm

/-- Whatever is written as JSON is read back as it was, with any blanks around the text and with the
label entries in any order; and the text of a completion tells which completion it is. -/
theorem json_round_trip (before after : String)
    (hbefore : ∀ c ∈ before.toList, Json.Lexer.isBlank c = true)
    (hafter : ∀ c ∈ after.toList, Json.Lexer.isBlank c = true) :
    (∀ i : Instr, read? (before ++ write i ++ after) = some i) ∧
    (∀ r : Record, read? (before ++ write r ++ after) = some r) ∧
    (∀ o : Output, read? (before ++ write o ++ after) = some o) ∧
    (∀ l : Limits, read? (before ++ write l ++ after) = some l) ∧
    (∀ s : Status, read? (before ++ write s ++ after) = some s) ∧
    (∀ t : Labels, read? (before ++ write t ++ after) = some t ∧
      ∀ bindings : List (String × Address), bindings.Perm t.toList →
        read? (before ++ (Labels.object bindings).render ++ after) = some t) ∧
    (∀ p : Program, read? (before ++ write p ++ after) = some p ∧
      ∀ bindings : List (String × Address), bindings.Perm p.labels.toList →
        read? (before ++ (p.object bindings).render ++ after) = some p) ∧
    (∀ c c' : Completion, c.text = c'.text → c = c') := by
  refine ⟨read?_write hbefore hafter, read?_write hbefore hafter, read?_write hbefore hafter,
    read?_write hbefore hafter, read?_write hbefore hafter, ?_, ?_,
    fun _ _ => Completion.text_injective⟩
  · intro t
    refine ⟨read?_write hbefore hafter t, ?_⟩
    intro bindings hperm
    rw [read?_render hbefore hafter (Labels.exact_object bindings), Labels.ofJson?_object hperm]
  · intro p
    refine ⟨read?_write hbefore hafter p, ?_⟩
    intro bindings hperm
    rw [read?_render hbefore hafter (p.exact_object bindings), Program.ofJson?_object hperm]

/-- A table with names that need escapes, written against the order of its names, and the least
literal there is. -/
theorem odd_names_round_trip :
    let odd := "\"\\\x01é"
    let labels := Labels.ofList [("", 0), (odd, 18446744073709551615)]
    let text := "\n\t \x7b\"\\\"\\\\\\u0001é\":18446744073709551615,\"\":0\x7d\r"
    (∀ c ∈ "\n\t ".toList, Json.Lexer.isBlank c = true) ∧
      (∀ c ∈ "\r".toList, Json.Lexer.isBlank c = true) ∧
      [(odd, 18446744073709551615), ("", 0)].Perm labels.toList ∧
      read? text = some labels ∧
      read? "\n\t \x7b\"Push\":-9223372036854775808\x7d\r" =
        some (Instr.push (-9223372036854775808)) := by
  intro odd labels text
  have hbefore : ∀ c ∈ "\n\t ".toList, Json.Lexer.isBlank c = true :=
    List.all_eq_true.1 (by decide)
  have hafter : ∀ c ∈ "\r".toList, Json.Lexer.isBlank c = true :=
    List.all_eq_true.1 (by decide)
  have hperm : [(odd, 18446744073709551615), ("", 0)].Perm labels.toList := by decide
  have hlabels : text = "\n\t " ++
      (Labels.object [(odd, 18446744073709551615), ("", 0)]).render ++ "\r" := by decide
  have hpush : "\n\t \x7b\"Push\":-9223372036854775808\x7d\r" =
      "\n\t " ++ write (Instr.push (-9223372036854775808)) ++ "\r" := by decide
  obtain ⟨hinstr, -, -, -, -, htable, -, -⟩ := json_round_trip "\n\t " "\r" hbefore hafter
  refine ⟨hbefore, hafter, hperm, ?_, ?_⟩
  · rw [hlabels]
    exact (htable labels).2 _ hperm
  · rw [hpush]
    exact hinstr _

end StackMachine
