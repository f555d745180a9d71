import Mathlib.Data.List.Basic
import StackMachine.Json.Reader

/-!
# Reading back what was written

The text of a JSON value is read as that value, with any blanks around it.  The lexer gets the
tokens back from their spelling, because a word or a numeral is always followed by a mark, and the
reader gets the value back from its tokens.
-/

namespace StackMachine

/-! ## Numerals -/

theorem Decimal.mem_spell {n : Int} {c : Char} (h : c ∈ spell n) :
    c.isDigit = true ∨ c = '-' := by
  have hdigit {m : Nat} (hc : c ∈ Nat.toDigits 10 m) : c.isDigit = true :=
    Nat.isDigit_of_mem_toDigits (by omega) (by omega) hc
  cases n with
  | ofNat m => exact .inl (hdigit h)
  | negSucc m =>
      rcases List.mem_cons.1 h with rfl | h
      · exact .inr rfl
      · exact .inl (hdigit h)

theorem Decimal.spell_ne_nil (n : Int) : spell n ≠ [] := by
  cases n with
  | ofNat m => exact Nat.toDigits_ne_nil
  | negSucc m => exact List.cons_ne_nil _ _

/-- A word with a letter in it is no numeral. -/
theorem Decimal.spell_ne {n : Int} {word : List Char} {c : Char} (hc : c ∈ word)
    (hdigit : c.isDigit = false) (hsign : c ≠ '-') : spell n ≠ word := by
  rintro rfl
  rcases mem_spell hc with h | h
  · rw [hdigit] at h
    cases h
  · exact hsign h

namespace Json

namespace Numeral

/-- Only the numeral of zero begins with a zero. -/
theorem head?_toDigits_ne {n : Nat} (hn : 0 < n) : (Nat.toDigits 10 n).head? ≠ some '0' := by
  induction n using Nat.strongRecOn with
  | _ n ih =>
    by_cases hlt : n < 10
    · rw [Nat.toDigits_of_lt_base hlt]
      have hdigit : ∀ d < 10, 0 < d → Nat.digitChar d ≠ '0' := by decide
      simpa using hdigit n hlt hn
    · rw [Nat.toDigits_of_base_le (by omega) (by omega), List.head?_append_of_ne_nil _
        Nat.toDigits_ne_nil]
      exact ih (n / 10) (by omega) (by omega)

theorem isWhole_toDigits (n : Nat) : isWhole (Nat.toDigits 10 n) = true := by
  rcases Nat.eq_zero_or_pos n with rfl | hn
  · rfl
  · have hhead := head?_toDigits_ne hn
    have hdigits : ∀ c ∈ Nat.toDigits 10 n, c.isDigit = true :=
      fun c hc => Nat.isDigit_of_mem_toDigits (by omega) (by omega) hc
    simp only [isWhole, Bool.or_eq_true, Bool.and_eq_true, List.all_eq_true]
    exact .inr ⟨⟨by simp [Nat.toDigits_ne_nil], by simpa using hhead⟩, hdigits⟩

theorem whole?_toDigits (n : Nat) : whole? (Nat.toDigits 10 n) = some n := by
  rw [whole?, if_pos (isWhole_toDigits n), Nat.ofDigitChars_ten_toDigits]

theorem integer?_spell (n : Int) : integer? (Decimal.spell n) = some n := by
  cases n with
  | ofNat m =>
      unfold Decimal.spell integer?
      split
      · next cs hcs =>
        have hdigit : '-'.isDigit = true :=
          Nat.isDigit_of_mem_toDigits (b := 10) (n := m) (by omega) (by omega) (by simp [hcs])
        cases hdigit
      · rw [whole?_toDigits]
        rfl
  | negSucc m => simp [Decimal.spell, integer?, whole?_toDigits]

end Numeral

/-! ## Strings -/

namespace Text

theorem hexDigit?_digitChar : ∀ d < 16, hexDigit? (Nat.digitChar d) = some d := by
  decide

/-- No character is half of a surrogate pair. -/
theorem not_isHalf (c : Char) : isHighHalf c.toNat = false ∧ isLowHalf c.toNat = false := by
  have hvalid : c.toNat < 0xD800 ∨ 0xDFFF < c.toNat ∧ c.toNat < 0x110000 := c.valid
  simp only [isHighHalf, isLowHalf, Bool.and_eq_false_iff, decide_eq_false_iff_not]
  omega

theorem ofUnits?_map_toNat (cs : List Char) : ofUnits? (cs.map Char.toNat) = some cs := by
  induction cs with
  | nil => rfl
  | cons c cs ih =>
      obtain ⟨hhigh, hlow⟩ := not_isHalf c
      -- The equation of a nonempty list depends on whether it has a second unit.
      cases cs with
      | nil => simp [ofUnits?, hhigh, hlow]
      | cons d cs =>
          rw [List.map_cons] at ih
          simp [ofUnits?, hhigh, hlow, ih]

end Text

/-! ## Tokens from their spelling -/

namespace Token

theorem ofUnits_toList (s : String) : ofUnits (s.toList.map Char.toNat) = str s := by
  rw [ofUnits, Text.ofUnits?_map_toNat]
  simp

/-- A token that is spelled without any mark of its own, so that only what follows closes it. -/
structure IsBare (t : Token) : Prop where
  ne_nil : t.spell ≠ []
  ofBare?_spell : ofBare? t.spell = some t
  not_isDelimiter : ∀ c ∈ t.spell, Lexer.isDelimiter c = false

/-- For the tokens that are always spelled alike, all that makes them bare can be computed. -/
theorem isBare_of_any {t : Token} (hne : t.spell ≠ []) (hread : ofBare? t.spell = some t)
    (hmarks : t.spell.any Lexer.isDelimiter = false) : IsBare t where
  ne_nil := hne
  ofBare?_spell := hread
  not_isDelimiter c hc := by simpa using List.any_eq_false.1 hmarks c hc

theorem isBare_null : IsBare null := isBare_of_any (by decide) (by decide) (by decide)

theorem isBare_bool (b : Bool) : IsBare (bool b) := by
  cases b with
  | false => exact isBare_of_any (by decide) (by decide) (by decide)
  | true => exact isBare_of_any (by decide) (by decide) (by decide)

theorem not_isDigit_of_isDelimiter {c : Char} (h : Lexer.isDelimiter c = true) :
    c.isDigit = false := by
  simp only [Lexer.isDelimiter, Lexer.isBlank, Bool.or_eq_true, beq_iff_eq] at h
  rcases h with ((((rfl | rfl) | rfl) | rfl) | rfl) | hmark
  · rfl
  · rfl
  · rfl
  · rfl
  · rfl
  · unfold ofMark? at hmark
    split at hmark <;> first | rfl | cases hmark

theorem not_isDelimiter_of_isDigit {c : Char} (h : c.isDigit = true) :
    Lexer.isDelimiter c = false := by
  by_contra hdelimiter
  have hdigit := not_isDigit_of_isDelimiter (by simpa using hdelimiter)
  rw [hdigit] at h
  cases h

/-- A mark is written as the character that it is read from. -/
theorem spell_of_ofMark? {c : Char} {t : Token} (hmark : ofMark? c = some t) : t.spell = [c] := by
  unfold ofMark? at hmark
  split at hmark <;> cases hmark <;> rfl

theorem isBare_int (n : Int) : IsBare (int n) where
  ne_nil := Decimal.spell_ne_nil n
  ofBare?_spell := by
    have hnull : Decimal.spell n ≠ "null".toList :=
      Decimal.spell_ne (c := 'n') (by decide) rfl (by decide)
    have htrue : Decimal.spell n ≠ "true".toList :=
      Decimal.spell_ne (c := 't') (by decide) rfl (by decide)
    have hfalse : Decimal.spell n ≠ "false".toList :=
      Decimal.spell_ne (c := 'f') (by decide) rfl (by decide)
    have hspell : (int n).spell = Decimal.spell n := rfl
    rw [hspell, ofBare?, if_neg hnull, if_neg htrue, if_neg hfalse, Numeral.integer?_spell]
  not_isDelimiter := by
    intro c hc
    rcases Decimal.mem_spell hc with h | rfl
    · exact not_isDelimiter_of_isDigit h
    · rfl

end Token

namespace Lexer

/-- The lexer has read the given tokens, latest first.  A word or a numeral at the end may still be
unfinished. -/
inductive HasRead : Lexer → List Token → Prop
  | between {done : List Token} : HasRead ⟨done, .between⟩ done
  | bare {done : List Token} {run : List Char} {t : Token}
      (h : Token.ofBare? run.reverse = some t) : HasRead ⟨done, .bare run⟩ (t :: done)

variable {l : Lexer} {done : List Token}

namespace HasRead

theorem finish?_eq (h : HasRead l done) : l.finish? = some done.reverse := by
  cases h with
  | between => rfl
  | bare h => simp [finish?, h]

theorem read?_eq (h : HasRead l done) {c : Char} (hc : isDelimiter c = true) :
    l.read? c = some (begin done c) := by
  cases h with
  | between => rfl
  | bare h => simp [read?, hc, h]

theorem foldlM_mark (h : HasRead l done) {c : Char} {t : Token}
    (hmark : Token.ofMark? c = some t) :
    [c].foldlM read? l = some ⟨t :: done, .between⟩ := by
  have hbegin : begin done c = ⟨t :: done, .between⟩ := by
    unfold Token.ofMark? at hmark
    split at hmark <;> cases hmark <;> rfl
  rw [List.foldlM_cons, h.read?_eq (by simp [isDelimiter, hmark]), hbegin]
  rfl

end HasRead

theorem begin_of_isBlank {c : Char} (hc : isBlank c = true) : begin done c = ⟨done, .between⟩ := by
  rw [begin, if_pos hc]

theorem foldlM_blanks {cs : List Char} (hblank : ∀ c ∈ cs, isBlank c = true) :
    cs.foldlM read? ⟨done, .between⟩ = some ⟨done, .between⟩ := by
  induction cs with
  | nil => rfl
  | cons c cs ih =>
      rw [List.forall_mem_cons] at hblank
      rw [List.foldlM_cons, read?, begin_of_isBlank hblank.1]
      exact ih hblank.2

/-- Blanks finish what has been read, and add nothing to it. -/
theorem HasRead.foldlM_blanks (h : HasRead l done) {cs : List Char}
    (hblank : ∀ c ∈ cs, isBlank c = true) :
    ∃ l', cs.foldlM read? l = some l' ∧ HasRead l' done := by
  cases cs with
  | nil => exact ⟨l, rfl, h⟩
  | cons c cs =>
      rw [List.forall_mem_cons] at hblank
      have hread : l.read? c = some ⟨done, .between⟩ := by
        rw [h.read?_eq (by simp [isDelimiter, hblank.1]), begin_of_isBlank hblank.1]
      refine ⟨⟨done, .between⟩, ?_, .between⟩
      rw [List.foldlM_cons, hread]
      exact Lexer.foldlM_blanks hblank.2

theorem foldlM_bare (run : List Char) {cs : List Char} (hcs : ∀ c ∈ cs, isDelimiter c = false) :
    cs.foldlM read? ⟨done, .bare run⟩ = some ⟨done, .bare (cs.reverse ++ run)⟩ := by
  induction cs generalizing run with
  | nil => rfl
  | cons c cs ih =>
      rw [List.forall_mem_cons] at hcs
      have hrest := ih (c :: run) hcs.2
      rw [List.foldlM_cons]
      simpa [read?, hcs.1] using hrest

theorem begin_of_not_isDelimiter {c : Char} (hc : isDelimiter c = false) :
    begin done c = ⟨done, .bare [c]⟩ := by
  simp only [isDelimiter, Bool.or_eq_false_iff] at hc
  obtain ⟨⟨hblank, hquote⟩, hmark⟩ := hc
  have hmark : Token.ofMark? c = none := by simpa using hmark
  rw [begin, if_neg (by simp [hblank]), if_neg (by simpa using hquote), hmark]

/-- A word or a numeral is read up to its end and stays unfinished. -/
theorem foldlM_of_isBare {t : Token} (h : t.IsBare) :
    ∃ l, t.spell.foldlM read? ⟨done, .between⟩ = some l ∧ HasRead l (t :: done) := by
  obtain ⟨c, cs, hspell⟩ := List.exists_cons_of_ne_nil h.ne_nil
  have hdelimiter := h.not_isDelimiter
  have hbare := h.ofBare?_spell
  rw [hspell] at hdelimiter hbare ⊢
  rw [List.forall_mem_cons] at hdelimiter
  refine ⟨⟨done, .bare (cs.reverse ++ [c])⟩, ?_, .bare (by simpa using hbare)⟩
  rw [List.foldlM_cons]
  simp only [read?, begin_of_not_isDelimiter hdelimiter.1]
  exact foldlM_bare [c] hdelimiter.2

theorem foldlM_controlEscape (units : List Nat) {n : Nat} (hn : n < 0x20) :
    ['\\', 'u', '0', '0', Nat.digitChar (n / 16), Nat.digitChar (n % 16)].foldlM read?
      ⟨done, .text units⟩ = some ⟨done, .text (n :: units)⟩ := by
  have hzero : Text.hexDigit? '0' = some 0 := by decide
  have hfirst := Text.hexDigit?_digitChar (n / 16) (by omega)
  have hlast := Text.hexDigit?_digitChar (n % 16) (by omega)
  have hvalue : 16 * (n / 16) + n % 16 = n := Nat.div_add_mod n 16
  simp [read?, hzero, hfirst, hlast, hvalue]

/-- What stands for a character in a string is read as that character. -/
theorem foldlM_escape (units : List Nat) (c : Char) :
    (Text.escape c).foldlM read? ⟨done, .text units⟩ = some ⟨done, .text (c.toNat :: units)⟩ := by
  unfold Text.escape
  split
  · rfl
  · rfl
  · rfl
  · rfl
  · rfl
  · rfl
  · rfl
  · next hquote hbackslash _ _ _ _ _ =>
    split
    · next hcontrol => exact foldlM_controlEscape units (by simpa [Text.isControl] using hcontrol)
    · next hcontrol =>
      rw [List.foldlM_cons, read?, if_neg hquote, if_neg hbackslash, if_neg hcontrol]
      rfl

theorem foldlM_escapes (units : List Nat) (cs : List Char) :
    (cs.flatMap Text.escape).foldlM read? ⟨done, .text units⟩ =
      some ⟨done, .text ((cs.map Char.toNat).reverse ++ units)⟩ := by
  induction cs generalizing units with
  | nil => rfl
  | cons c cs ih =>
      rw [List.flatMap_cons, List.foldlM_append, foldlM_escape]
      simpa using ih (c.toNat :: units)

theorem HasRead.foldlM_quote (h : HasRead l done) (s : String) :
    (Text.quote s).foldlM read? l = some ⟨.str s :: done, .between⟩ := by
  have hopen : l.read? '"' = some ⟨done, .text []⟩ := h.read?_eq rfl
  rw [Text.quote, List.cons_append, List.foldlM_cons, hopen]
  change ((s.toList.flatMap Text.escape) ++ ['"']).foldlM read? ⟨done, .text []⟩ = _
  rw [List.foldlM_append, foldlM_escapes, ← Token.ofUnits_toList s]
  simp [read?]

/-- From a lexer that has read some tokens, the spelling of more leads to one that has read
those too. -/
def Lexes (l : Lexer) (done ts : List Token) : Prop :=
  ∃ l', (ts.flatMap Token.spell).foldlM read? l = some l' ∧ HasRead l' (ts.reverse ++ done)

theorem Lexes.append {ts us : List Token} (h : Lexes l done ts)
    (h' : ∀ l', HasRead l' (ts.reverse ++ done) → Lexes l' (ts.reverse ++ done) us) :
    Lexes l done (ts ++ us) := by
  obtain ⟨l', hl', hread⟩ := h
  obtain ⟨l'', hl'', hread'⟩ := h' l' hread
  refine ⟨l'', ?_, by simpa using hread'⟩
  rw [List.flatMap_append, List.foldlM_append, hl']
  exact hl''

theorem lexes_of_isBare {t : Token} (h : t.IsBare) (done : List Token) :
    Lexes ⟨done, .between⟩ done [t] := by
  simpa [Lexes] using foldlM_of_isBare h

/-- A token that closes the one before it and is closed by its own last character. -/
def Closes (t : Token) : Prop :=
  ∀ ⦃l : Lexer⦄ ⦃done : List Token⦄, HasRead l done →
    t.spell.foldlM read? l = some ⟨t :: done, .between⟩

theorem closes_mark (c : Char) {t : Token} (hmark : Token.ofMark? c = some t) : Closes t := by
  intro l done h
  rw [Token.spell_of_ofMark? hmark]
  exact h.foldlM_mark hmark

theorem closes_str (s : String) : Closes (.str s) := fun _ _ h => h.foldlM_quote s

theorem HasRead.lexes_nil (h : HasRead l done) : Lexes l done [] := ⟨l, rfl, h⟩

theorem HasRead.lexes_cons {t : Token} {ts : List Token} (h : HasRead l done) (ht : Closes t)
    (hrest : Lexes ⟨t :: done, .between⟩ (t :: done) ts) : Lexes l done (t :: ts) := by
  obtain ⟨l', hl', hread⟩ := hrest
  refine ⟨l', ?_, by simpa using hread⟩
  rw [List.flatMap_cons, List.foldlM_append, ht h]
  exact hl'

end Lexer

/-- A value without garbled strings in which every number is an integer. -/
inductive Exact : Json → Prop
  | null : Exact null
  | bool (b : Bool) : Exact (bool b)
  | int (n : Int) : Exact (int n)
  | str (s : String) : Exact (str s)
  | arr {items : List Json} (h : ∀ x ∈ items, Exact x) : Exact (arr items)
  | obj {members : List (String × Json)} (h : ∀ m ∈ members, Exact m.2) : Exact (obj members)

namespace Lexer

theorem lexes_restOfItems {items : List Json}
    (hitems : ∀ x ∈ items, ∀ done, Lexes ⟨done, .between⟩ done x.tokens) {l : Lexer}
    {done : List Token} (h : HasRead l done) : Lexes l done (restOfItems items) := by
  induction items generalizing l done with
  | nil => exact h.lexes_cons (closes_mark ']' rfl) HasRead.between.lexes_nil
  | cons x xs ih =>
      rw [List.forall_mem_cons] at hitems
      apply h.lexes_cons (closes_mark ',' rfl)
      apply (hitems.1 _).append
      intro l' hread
      exact ih hitems.2 hread

theorem lexes_restOfMembers {members : List (String × Json)}
    (hmembers : ∀ m ∈ members, ∀ done, Lexes ⟨done, .between⟩ done m.2.tokens) {l : Lexer}
    {done : List Token} (h : HasRead l done) : Lexes l done (restOfMembers members) := by
  induction members generalizing l done with
  | nil => exact h.lexes_cons (closes_mark '}' rfl) HasRead.between.lexes_nil
  | cons m ms ih =>
      rw [List.forall_mem_cons] at hmembers
      apply h.lexes_cons (closes_mark ',' rfl)
      apply HasRead.between.lexes_cons (closes_str m.1)
      apply HasRead.between.lexes_cons (closes_mark ':' rfl)
      apply (hmembers.1 _).append
      intro l' hread
      exact ih hmembers.2 hread

theorem lexes_tokens {j : Json} (h : j.Exact) (done : List Token) :
    Lexes ⟨done, .between⟩ done j.tokens := by
  induction h generalizing done with
  | null => exact lexes_of_isBare Token.isBare_null done
  | bool b => exact lexes_of_isBare (Token.isBare_bool b) done
  | int n => exact lexes_of_isBare (Token.isBare_int n) done
  | str s => exact HasRead.between.lexes_cons (closes_str s) HasRead.between.lexes_nil
  | @arr items _ ih =>
      cases items with
      | nil =>
          apply HasRead.between.lexes_cons (closes_mark '[' rfl)
          exact HasRead.between.lexes_cons (closes_mark ']' rfl) HasRead.between.lexes_nil
      | cons x xs =>
          rw [List.forall_mem_cons] at ih
          apply HasRead.between.lexes_cons (closes_mark '[' rfl)
          -- The item may end in a numeral, which the mark after it closes.
          apply (ih.1 _).append
          intro l' hread
          exact lexes_restOfItems ih.2 hread
  | @obj members _ ih =>
      cases members with
      | nil =>
          apply HasRead.between.lexes_cons (closes_mark '{' rfl)
          exact HasRead.between.lexes_cons (closes_mark '}' rfl) HasRead.between.lexes_nil
      | cons m ms =>
          rw [List.forall_mem_cons] at ih
          apply HasRead.between.lexes_cons (closes_mark '{' rfl)
          apply HasRead.between.lexes_cons (closes_str m.1)
          apply HasRead.between.lexes_cons (closes_mark ':' rfl)
          apply (ih.1 _).append
          intro l' hread
          exact lexes_restOfMembers ih.2 hread

end Lexer

theorem lex?_tokens {j : Json} (h : j.Exact) {before after : List Char}
    (hbefore : ∀ c ∈ before, Lexer.isBlank c = true)
    (hafter : ∀ c ∈ after, Lexer.isBlank c = true) :
    lex? (before ++ j.tokens.flatMap Token.spell ++ after) = some j.tokens := by
  obtain ⟨l, hl, hread⟩ := Lexer.lexes_tokens h []
  obtain ⟨l', hl', hread'⟩ := hread.foldlM_blanks hafter
  simp [lex?, List.foldlM_append, Lexer.start, Lexer.foldlM_blanks hbefore, hl, hl',
    hread'.finish?_eq]

/-! ## Values from their tokens -/

namespace Reader

variable {around : List Frame}

/-- The first item of an array is read like any value: only the end of the array would not be. -/
theorem foldlM_firstItem (j : Json) :
    j.tokens.foldlM read? (.firstItem around) =
      j.tokens.foldlM read? (.value (.items [] :: around)) := by
  have hfirst : ∃ t ts, j.tokens = t :: ts ∧ t ≠ .closeArr := by
    unfold tokens
    split <;> exact ⟨_, _, rfl, nofun⟩
  obtain ⟨t, ts, hts, ht⟩ := hfirst
  have hread : read? (.firstItem around) t = read? (.value (.items [] :: around)) t := by
    cases t with
    | closeArr => exact absurd rfl ht
    | _ => rfl
  rw [hts, List.foldlM_cons, List.foldlM_cons, hread]

theorem foldlM_restOfItems {items : List Json}
    (hitems : ∀ x ∈ items, ∀ around, x.tokens.foldlM read? (.value around) =
      some (.complete around x)) (before : List Json) (x : Json) :
    (restOfItems items).foldlM read? (.complete (.items before :: around) x) =
      some (.complete around (.arr (before.reverse ++ x :: items))) := by
  induction items generalizing before x with
  | nil => simp [restOfItems, read?]
  | cons y ys ih =>
      rw [List.forall_mem_cons] at hitems
      have hrest := ih hitems.2 (x :: before) y
      rw [List.reverse_cons, List.append_assoc, List.singleton_append] at hrest
      rw [restOfItems, List.foldlM_cons]
      change (y.tokens ++ restOfItems ys).foldlM read? (.value (.items (x :: before) :: around)) = _
      rw [List.foldlM_append, hitems.1]
      exact hrest

theorem foldlM_restOfMembers {members : List (String × Json)}
    (hmembers : ∀ m ∈ members, ∀ around, m.2.tokens.foldlM read? (.value around) =
      some (.complete around m.2)) (before : List (String × Json)) (name : String) (x : Json) :
    (restOfMembers members).foldlM read?
      (.complete (.members (some before) (some name) :: around) x) =
      some (.complete around (.obj (before.reverse ++ (name, x) :: members))) := by
  induction members generalizing before name x with
  | nil => simp [restOfMembers, read?, addMember, closeObject]
  | cons m ms ih =>
      rw [List.forall_mem_cons] at hmembers
      have hrest := ih hmembers.2 ((name, x) :: before) m.1 m.2
      rw [List.reverse_cons, List.append_assoc, List.singleton_append] at hrest
      rw [restOfMembers, List.foldlM_cons]
      change (m.2.tokens ++ restOfMembers ms).foldlM read?
        (.value (.members (some ((name, x) :: before)) (some m.1) :: around)) = _
      rw [List.foldlM_append, hmembers.1]
      exact hrest

theorem foldlM_tokens {j : Json} (h : j.Exact) (around : List Frame) :
    j.tokens.foldlM read? (.value around) = some (.complete around j) := by
  induction h generalizing around with
  | null | bool | int | str => rfl
  | @arr items _ ih =>
      cases items with
      | nil => rfl
      | cons x xs =>
          rw [List.forall_mem_cons] at ih
          change (x.tokens ++ restOfItems xs).foldlM read? (.firstItem around) = _
          rw [List.foldlM_append, foldlM_firstItem, ih.1]
          exact foldlM_restOfItems ih.2 [] x
  | @obj members _ ih =>
      cases members with
      | nil => rfl
      | cons m ms =>
          rw [List.forall_mem_cons] at ih
          change (m.2.tokens ++ restOfMembers ms).foldlM read?
            (.value (.members (some []) (some m.1) :: around)) = _
          rw [List.foldlM_append, ih.1]
          exact foldlM_restOfMembers ih.2 [] m.1 m.2

end Reader

theorem ofTokens?_tokens {j : Json} (h : j.Exact) : ofTokens? j.tokens = some j := by
  rw [ofTokens?, Reader.start, Reader.foldlM_tokens h]
  rfl

/-- The text of a value is read as the value, whatever blanks there are around it. -/
theorem parse?_render {j : Json} (h : j.Exact) {before after : String}
    (hbefore : ∀ c ∈ before.toList, Lexer.isBlank c = true)
    (hafter : ∀ c ∈ after.toList, Lexer.isBlank c = true) :
    parse? (before ++ j.render ++ after) = some j := by
  rw [parse?, String.toList_append, String.toList_append, render, String.toList_ofList,
    lex?_tokens h hbefore hafter]
  exact ofTokens?_tokens h

end Json

end StackMachine
