import Mathlib.Data.List.Basic
import StackMachine.Program
import StackMachine.Proofs.JsonText

/-!
# What a listing tells

The text of an instruction tells the instruction: up to the first blank it is the mnemonic, and
what follows is the operand.  The listing of a program tells its code, unless a label has a newline
in it, because then every newline ends a line and every line begins with its own number.
-/

namespace StackMachine

theorem Decimal.spell_inj {m n : Int} : spell m = spell n ↔ m = n := by
  constructor
  · intro h
    have hread := congrArg Json.Numeral.integer? h
    rw [Json.Numeral.integer?_spell, Json.Numeral.integer?_spell] at hread
    exact Option.some.inj hread
  · rintro rfl
    rfl

/-! ## The text of an instruction -/

namespace Instr

/-- What follows the mnemonic in the text of an instruction. -/
def operand : Instr → List Char
  | push v => ' ' :: Decimal.spell v.toInt
  | jump label => ' ' :: label.toList
  | _ => []

theorem toList_text (i : Instr) : i.text.toList = i.mnemonic.toList ++ i.operand := by
  cases i with
  | push v => simp [text, mnemonic, operand, Word.text, Decimal.text]
  | jump label => simp [text, mnemonic, operand]
  | _ => simp [text, operand]

theorem takeWhile_text (i : Instr) :
    i.text.toList.takeWhile (· ≠ ' ') = i.mnemonic.toList := by
  rw [toList_text]
  cases i <;> simp [mnemonic, operand, List.takeWhile]

theorem eq_of_mnemonic_eq {a b : Instr} (h : a.mnemonic = b.mnemonic)
    (h' : a.operand = b.operand) : a = b := by
  -- No two constructors share a mnemonic, and the operand is all that is left to compare.
  cases a <;> cases b <;>
    simp_all [mnemonic, operand, Decimal.spell_inj, Int64.toInt_inj, String.toList_inj]

theorem text_inj {a b : Instr} : a.text = b.text ↔ a = b := by
  constructor
  · intro h
    have hmnemonic : a.mnemonic.toList = b.mnemonic.toList := by
      rw [← takeWhile_text, ← takeWhile_text, h]
    have hoperand : a.mnemonic.toList ++ a.operand = b.mnemonic.toList ++ b.operand := by
      rw [← toList_text, ← toList_text, h]
    rw [hmnemonic] at hoperand
    exact eq_of_mnemonic_eq (String.toList_inj.1 hmnemonic) (List.append_cancel_left hoperand)
  · rintro rfl
    rfl

theorem newline_not_mem_mnemonic (i : Instr) : '\n' ∉ i.mnemonic.toList := by
  cases i <;> simp [mnemonic]

theorem newline_not_mem_text {i : Instr} (h : ∀ label, i = jump label → '\n' ∉ label.toList) :
    '\n' ∉ i.text.toList := by
  rw [toList_text, List.mem_append, not_or]
  refine ⟨newline_not_mem_mnemonic i, ?_⟩
  cases i with
  | push v =>
      intro hmem
      rcases List.mem_cons.1 hmem with hblank | hdigit
      · cases hblank
      · rcases Decimal.mem_spell hdigit with h | h <;> cases h
  | jump label => simpa [operand] using h label rfl
  | _ => simp [operand]

end Instr

/-! ## Lines -/

/-- Lines that are ended by a newline each can be told apart. -/
theorem splitOn_flatMap_newline {lines : List (List Char)} (h : ∀ l ∈ lines, '\n' ∉ l) :
    (lines.flatMap (· ++ ['\n'])).splitOn '\n' = lines ++ [[]] := by
  induction lines with
  | nil => rfl
  | cons l lines ih =>
      rw [List.forall_mem_cons] at h
      have hsplit := List.splitOn_append_cons_self_of_not_mem h.1 (lines.flatMap (· ++ ['\n']))
      rw [List.flatMap_cons, List.append_assoc, List.singleton_append, hsplit, ih h.2]
      rfl

namespace Program

/-- A line of a listing without its newline: the index, moved to the right of four columns if it
has fewer digits, two blanks and the instruction. -/
def row (index : Nat) (i : Instr) : List Char :=
  List.replicate (4 - (toString index).length) ' ' ++ (toString index).toList ++
    [' ', ' '] ++ i.text.toList

/-- No label that the program jumps to has a newline in it. -/
def JumpsOnOneLine (p : Program) : Prop :=
  ∀ label, .jump label ∈ p.code → '\n' ∉ label.toList

theorem row_inj {index : Nat} {a b : Instr} : row index a = row index b ↔ a = b := by
  rw [row, row, List.append_right_inj, String.toList_inj, Instr.text_inj]

theorem newline_not_mem_row {index : Nat} {i : Instr}
    (h : ∀ label, i = .jump label → '\n' ∉ label.toList) : '\n' ∉ row index i := by
  have hdigits : '\n' ∉ Nat.toDigits 10 index := by
    intro hmem
    cases Nat.isDigit_of_mem_toDigits (by decide) (by decide) hmem
  simp [row, hdigits, Instr.newline_not_mem_text h]

theorem toList_listingLine (index : Nat) (i : Instr) :
    (listingLine index i).toList = row index i ++ ['\n'] := by
  rw [row, Nat.toString_eq_ofList_toDigits]
  simp [listingLine, List.leftpad]

variable {p q : Program}

theorem toList_listing (p : Program) :
    p.listing.toList = (p.code.toList.mapIdx row).flatMap (· ++ ['\n']) := by
  rw [listing, String.toList_join, List.flatMap_map, List.mapIdx_eq_zipIdx_map, List.flatMap_map]
  simp only [toList_listingLine]

theorem splitOn_listing (h : p.JumpsOnOneLine) :
    p.listing.toList.splitOn '\n' = p.code.toList.mapIdx row ++ [[]] := by
  rw [toList_listing]
  apply splitOn_flatMap_newline
  intro l hl
  obtain ⟨index, hindex, rfl⟩ := List.mem_mapIdx.1 hl
  apply newline_not_mem_row
  intro label hjump
  exact h label (Array.mem_toList_iff.1 (hjump ▸ List.getElem_mem hindex))

theorem code_eq_of_listing_eq (hp : p.JumpsOnOneLine) (hq : q.JumpsOnOneLine)
    (h : p.listing = q.listing) : p.code = q.code := by
  have hrows : p.code.toList.mapIdx row = q.code.toList.mapIdx row := by
    apply List.append_cancel_right
    rw [← splitOn_listing hp, ← splitOn_listing hq, h]
  apply Array.ext_getElem?
  intro index
  have hrow := congrArg (·[index]?) hrows
  simp only [List.getElem?_mapIdx, Array.getElem?_toList] at hrow
  exact Option.map_injective (fun _ _ => row_inj.1) hrow

end Program

/-- Instructions that print alike are equal, and so are the codes of programs that print alike, if
no label has a newline in it.  The listing of such a program has one line for each instruction. -/
theorem listing_determines_code :
    Function.Injective Instr.text ∧
    ∀ p : Program, p.JumpsOnOneLine →
      (∃ lines, p.listing.toList.splitOn '\n' = lines ++ [[]] ∧ lines.length = p.size ∧
        ∀ index i, p.code[index]? = some i → lines[index]? = some (Program.row index i)) ∧
      ∀ q : Program, q.JumpsOnOneLine → p.listing = q.listing → p.code = q.code := by
  refine ⟨fun _ _ => Instr.text_inj.1, ?_⟩
  intro p hp
  refine ⟨⟨_, Program.splitOn_listing hp, ?_, ?_⟩, ?_⟩
  · simp [Program.size]
  · intro index i hi
    simp [hi]
  · intro q hq
    exact Program.code_eq_of_listing_eq hp hq

-- With a newline in a label, a line can be made up.
example : (Program.mk #[.jump "a\n   1  HALT"] .empty).listing =
    (Program.mk #[.jump "a", .halt] .empty).listing := by decide

/-- The label of the second jump looks like a line of a listing, but stays within its own. -/
theorem listing_with_line_as_label :
    let p : Program := ⟨#[.push (-3), .jump "", .jump "   3  HALT"], .empty⟩
    let q : Program := ⟨#[.push (-3), .jump "", .jump "", .halt], .empty⟩
    p.JumpsOnOneLine ∧ q.JumpsOnOneLine ∧
      (∃ lines, p.listing.toList.splitOn '\n' = lines ++ [[]] ∧ lines.length = 3 ∧
        lines[2]? = some "   2  JUMP    3  HALT".toList) ∧ p.listing ≠ q.listing := by
  intro p q
  have hp : p.JumpsOnOneLine := by simp [p, Program.JumpsOnOneLine]
  have hq : q.JumpsOnOneLine := by simp [q, Program.JumpsOnOneLine]
  obtain ⟨⟨lines, hlines, hlength, hrows⟩, hequal⟩ := listing_determines_code.2 p hp
  have hrow := hrows 2 (.jump "   3  HALT") rfl
  refine ⟨hp, hq, ⟨lines, hlines, hlength, hrow.trans (congrArg some (by decide))⟩, ?_⟩
  intro h
  exact absurd (hequal q hq h) (by decide)

end StackMachine
