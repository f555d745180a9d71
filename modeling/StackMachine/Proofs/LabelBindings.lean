import Mathlib.Data.List.Basic
import Mathlib.Data.List.Dedup
import Mathlib.Data.List.Induction
import StackMachine.Labels

/-!
# Bindings of a label table

A table is what it resolves its names to.  A table made from a list of bindings resolves a name to
the target of the last binding of that name, so bindings of different names give the same table in
every order.  The main result says this of tables that are made all at once and of tables to which
the bindings are added one by one, with what is told of each name when it is bound anew.
-/

namespace StackMachine

/-- Of the entries with the given name, the last one has the given value. -/
def LastIn {α : Type} (entries : List (String × α)) (name : String) (a : α) : Prop :=
  ∃ before after, entries = before ++ (name, a) :: after ∧ name ∉ after.map Prod.fst

namespace LastIn

variable {α : Type} {entries : List (String × α)} {name other : String} {a b : α}

theorem not_nil : ¬LastIn [] name a := by
  rintro ⟨before, after, h, -⟩
  cases before <;> cases h

theorem mem (h : LastIn entries name a) : (name, a) ∈ entries := by
  obtain ⟨before, after, rfl, -⟩ := h
  simp

/-- Where no name occurs twice, every entry is the last of its name. -/
theorem of_mem_of_nodup (hnodup : (entries.map Prod.fst).Nodup) (h : (name, a) ∈ entries) :
    LastIn entries name a := by
  obtain ⟨before, after, rfl⟩ := List.append_of_mem h
  rw [List.map_append, List.map_cons, List.nodup_append] at hnodup
  exact ⟨before, after, rfl, (List.nodup_cons.1 hnodup.2.1).1⟩

/-- An entry added at the end is the last of its name, and hides only those of its name. -/
theorem concat_iff :
    LastIn (entries ++ [(other, b)]) name a ↔
      other = name ∧ b = a ∨ other ≠ name ∧ LastIn entries name a := by
  constructor
  · rintro ⟨before, after, h, hafter⟩
    rcases List.eq_nil_or_concat' after with rfl | ⟨after, c, rfl⟩
    · left
      simpa using (List.append_inj' h rfl).2
    · right
      rw [← List.cons_append, ← List.append_assoc] at h
      obtain ⟨rfl, hc⟩ := List.append_inj' h rfl
      obtain rfl : (other, b) = c := by simpa using hc
      simp only [List.map_append, List.mem_append, not_or] at hafter
      refine ⟨?_, before, after, rfl, hafter.1⟩
      rintro rfl
      simp at hafter
  · rintro (⟨rfl, rfl⟩ | ⟨hname, before, after, rfl, hafter⟩)
    · exact ⟨entries, [], rfl, List.not_mem_nil⟩
    · refine ⟨before, after ++ [(other, b)], by simp, ?_⟩
      simpa [Ne.symm hname] using hafter

theorem forall_not_iff : (∀ a, ¬LastIn entries name a) ↔ name ∉ entries.map Prod.fst := by
  induction entries using List.reverseRecOn with
  | nil => simp [not_nil]
  | append_singleton entries e ih =>
      obtain ⟨other, b⟩ := e
      simp only [concat_iff]
      by_cases hname : other = name
      · simp [hname]
      · simpa [hname, Ne.symm hname] using ih

/-- Converting the values leaves the names, and so which entries are last. -/
theorem map_iff {β : Type} {f : α → β} {b : β} :
    LastIn (entries.map fun e => (e.1, f e.2)) name b ↔ ∃ a, LastIn entries name a ∧ f a = b := by
  constructor
  · rintro ⟨before, after, h, hafter⟩
    obtain ⟨before, rest, rfl, rfl, hrest⟩ := List.map_eq_append_iff.1 h
    obtain ⟨e, after, rfl, he, rfl⟩ := List.map_eq_cons_iff.1 hrest
    obtain ⟨rfl, rfl⟩ := Prod.mk.inj he
    refine ⟨e.2, ⟨before, after, rfl, ?_⟩, rfl⟩
    simpa [Function.comp_def] using hafter
  · rintro ⟨a, ⟨before, after, rfl, hafter⟩, rfl⟩
    refine ⟨before.map fun e => (e.1, f e.2), after.map fun e => (e.1, f e.2), by simp, ?_⟩
    simpa [Function.comp_def] using hafter

end LastIn

namespace Labels

variable {t u : Labels} {name : String} {a : Address}

theorem ext_resolve? (h : ∀ name a, t.resolve? name = some a ↔ u.resolve? name = some a) :
    t = u := by
  obtain ⟨targets⟩ := t
  obtain ⟨targets'⟩ := u
  have htargets : targets = targets' := Std.ExtTreeMap.ext_getElem? fun name => Option.ext (h name)
  rw [htargets]

theorem mem_toList_iff : (name, a) ∈ t.toList ↔ t.resolve? name = some a :=
  Std.ExtTreeMap.mem_toList_iff_getElem?_eq_some

theorem mem_names_iff : name ∈ t.toList.map Prod.fst ↔ t.resolve? name ≠ none := by
  rw [toList, Std.ExtTreeMap.map_fst_toList_eq_keys, Std.ExtTreeMap.mem_keys]
  exact Std.ExtTreeMap.mem_iff_isSome_getElem?.trans Option.isSome_iff_ne_none

theorem nodup_names (t : Labels) : (t.toList.map Prod.fst).Nodup := by
  rw [toList, Std.ExtTreeMap.map_fst_toList_eq_keys]
  exact Std.ExtTreeMap.nodup_keys

/-- The last binding of a name counts. -/
theorem resolve?_ofList_eq_some_iff (bindings : List (String × Address)) :
    (ofList bindings).resolve? name = some a ↔ LastIn bindings name a := by
  induction bindings using List.reverseRecOn with
  | nil => simp [ofList, LastIn.not_nil]
  | append_singleton bindings b ih =>
      have hinsert : ofList (bindings ++ [b]) = (ofList bindings).insert b.1 b.2 := by
        simp [ofList]
      rw [hinsert, resolve?_insert, LastIn.concat_iff, ← ih]
      by_cases hname : b.1 = name <;> simp [hname]

/-- A table is made from its bindings in any order. -/
theorem ofList_of_perm {bindings : List (String × Address)} (h : bindings.Perm t.toList) :
    ofList bindings = t := by
  have hnodup : (bindings.map Prod.fst).Nodup := (h.map Prod.fst).nodup_iff.2 t.nodup_names
  apply ext_resolve?
  intro name a
  rw [resolve?_ofList_eq_some_iff, ← mem_toList_iff, ← h.mem_iff]
  exact ⟨LastIn.mem, LastIn.of_mem_of_nodup hnodup⟩

theorem resolve?_ofList_eq_none_iff (bindings : List (String × Address)) :
    (ofList bindings).resolve? name = none ↔ name ∉ bindings.map Prod.fst := by
  rw [Option.eq_none_iff_forall_ne_some]
  simp only [ne_eq, resolve?_ofList_eq_some_iff]
  exact LastIn.forall_not_iff

theorem contains_iff : t.contains name = true ↔ t.resolve? name ≠ none := by
  rw [contains, resolve?, Std.ExtTreeMap.contains_eq_isSome_getElem?, Option.isSome_iff_ne_none]

/-- A table has as many names as there are different ones among its bindings. -/
theorem size_ofList (bindings : List (String × Address)) :
    (ofList bindings).size = (bindings.map Prod.fst).dedup.length := by
  have hnames : ((ofList bindings).toList.map Prod.fst).Perm (bindings.map Prod.fst).dedup := by
    rw [List.perm_ext_iff_of_nodup (nodup_names _) (List.nodup_dedup _)]
    intro name
    rw [List.mem_dedup, mem_names_iff, ne_eq, resolve?_ofList_eq_none_iff, not_not]
  rw [← hnames.length_eq, List.length_map]
  exact Std.ExtTreeMap.length_toList.symm

theorem ofList_eq_ofList_iff {bindings others : List (String × Address)} :
    ofList bindings = ofList others ↔ ∀ name a, LastIn bindings name a ↔ LastIn others name a := by
  simp only [← resolve?_ofList_eq_some_iff]
  constructor
  · intro h name a
    rw [h]
  · exact ext_resolve?

/-! ## Bindings added one by one -/

/-- Binds names one after the other and tells for each what it was bound to before. -/
def rebindAll : List (String × Address) → Labels → List (Option Address) × Labels
  | [], t => ([], t)
  | b :: bindings, t =>
    let (before, u) := t.rebind b.1 b.2
    let (replies, final) := rebindAll bindings u
    (before :: replies, final)

theorem rebindAll_snd (bindings : List (String × Address)) (t : Labels) :
    (rebindAll bindings t).2 = bindings.foldl (fun t b => t.insert b.1 b.2) t := by
  induction bindings generalizing t with
  | nil => rfl
  | cons b bindings ih => exact ih (t.insert b.1 b.2)

theorem getElem?_rebindAll_fst (bindings : List (String × Address)) (t : Labels) (i : Nat) :
    (rebindAll bindings t).1[i]? =
      bindings[i]?.map fun b => (rebindAll (bindings.take i) t).2.resolve? b.1 := by
  induction bindings generalizing t i with
  | nil => rfl
  | cons b bindings ih =>
      cases i with
      | zero => rfl
      | succ i => exact ih (t.insert b.1 b.2) i

theorem rebindAll_empty (bindings : List (String × Address)) :
    (rebindAll bindings empty).2 = ofList bindings :=
  rebindAll_snd bindings empty

/-- Adding a binding changes no other name. -/
theorem resolve?_rebindAll_take_succ {bindings : List (String × Address)} {i : Nat}
    {other : String} (h : bindings[i]? = some (name, a)) (hother : other ≠ name) :
    (rebindAll (bindings.take (i + 1)) empty).2.resolve? other =
      (rebindAll (bindings.take i) empty).2.resolve? other := by
  rw [rebindAll_snd, rebindAll_snd, List.take_add_one, h, Option.toList_some, List.foldl_append]
  exact (resolve?_insert _ name other a).trans (if_neg (Ne.symm hother))

/-- A map that is filled all at once makes the same table. -/
theorem ofList_eq_mk (bindings : List (String × Address)) :
    ofList bindings = ⟨.ofList bindings⟩ := by
  have hfill (m : Std.ExtTreeMap String Address) :
      bindings.foldl (fun t b => t.insert b.1 b.2) ⟨m⟩ = Labels.mk (m.insertMany bindings) := by
    induction bindings generalizing m with
    | nil => rw [Std.ExtTreeMap.insertMany_nil, List.foldl_nil]
    | cons b bindings ih =>
        rw [Std.ExtTreeMap.insertMany_cons, List.foldl_cons]
        exact ih (m.insert b.1 b.2)
  rw [Std.ExtTreeMap.ofList_eq_insertMany_empty, ← hfill]
  rfl

end Labels

/-- However a table is made from a list of bindings, it binds every name to the target of its last
binding and has no other names.  When a binding is added, the target that the name had until then is
told, and no other name changes.  Tables are equal if the last bindings of all names are. -/
theorem table_binds_last_targets (bindings : List (String × Address)) :
    let t := Labels.ofList bindings
    let added := Labels.rebindAll bindings .empty
    t = ⟨.ofList bindings⟩ ∧ added.2 = t ∧
      (∀ name, (∀ a, t.resolve? name = some a ↔ LastIn bindings name a) ∧
        (t.resolve? name = none ↔ name ∉ bindings.map Prod.fst) ∧
        (t.contains name = true ↔ t.resolve? name ≠ none)) ∧
      t.size = (bindings.map Prod.fst).dedup.length ∧
      (∀ i name target, bindings[i]? = some (name, target) →
        (∃ reply, added.1[i]? = some reply ∧
          ∀ a, reply = some a ↔ LastIn (bindings.take i) name a) ∧
        ∀ other, other ≠ name →
          (Labels.rebindAll (bindings.take (i + 1)) .empty).2.resolve? other =
            (Labels.rebindAll (bindings.take i) .empty).2.resolve? other) ∧
      ∀ others, t = Labels.ofList others ↔
        ∀ name a, LastIn bindings name a ↔ LastIn others name a := by
  intro t added
  refine ⟨Labels.ofList_eq_mk bindings, Labels.rebindAll_empty bindings, ?_,
    Labels.size_ofList bindings, ?_, ?_⟩
  · intro name
    exact ⟨fun _ => Labels.resolve?_ofList_eq_some_iff bindings,
      Labels.resolve?_ofList_eq_none_iff bindings, Labels.contains_iff⟩
  · intro i name target h
    refine ⟨⟨(Labels.ofList (bindings.take i)).resolve? name, ?_, ?_⟩, ?_⟩
    · rw [Labels.getElem?_rebindAll_fst, h, Labels.rebindAll_empty]
      rfl
    · intro a
      exact Labels.resolve?_ofList_eq_some_iff _
    · intro other hother
      exact Labels.resolve?_rebindAll_take_succ h hother
  · intro others
    exact Labels.ofList_eq_ofList_iff

/-- The name that is bound twice counts once and has its second target, and without the first
binding of it the table is the same. -/
theorem twice_bound_name_has_last_target :
    let bindings : List (String × Address) := [("end", 4), ("", 0), ("end", 7)]
    let t := Labels.ofList bindings
    bindings[2]? = some ("end", 7) ∧ t.size = 2 ∧ t.resolve? "end" = some 7 ∧
      t.contains "End" = false ∧ (Labels.rebindAll bindings .empty).1[2]? = some (some 4) ∧
      t = Labels.ofList [("", 0), ("end", 7)] := by
  intro bindings t
  obtain ⟨-, -, hname, hsize, hadded, hequal⟩ := table_binds_last_targets bindings
  obtain ⟨⟨reply, hreply, hlast⟩, -⟩ := hadded 2 "end" 7 rfl
  have hthird : LastIn bindings "end" 7 := ⟨[("end", 4), ("", 0)], [], rfl, by decide⟩
  have hfirst : LastIn (bindings.take 2) "end" 4 := ⟨[], [("", 0)], rfl, by decide⟩
  have hother : t.resolve? "End" = none := (hname "End").2.1.2 (by decide)
  have hsame : ∀ name a, LastIn ([] ++ [("end", 4)] ++ [("", 0)] ++ [("end", 7)]) name a ↔
      LastIn ([] ++ [("", 0)] ++ [("end", (7 : Address))]) name a := by
    intro name a
    simp only [LastIn.concat_iff, LastIn.not_nil]
    grind
  refine ⟨rfl, hsize.trans (by decide), ((hname "end").1 7).2 hthird, ?_, ?_, (hequal _).2 hsame⟩
  · rw [Bool.eq_false_iff]
    exact fun h => (hname "End").2.2.1 h hother
  · rw [hreply, (hlast 4).2 hfirst]

end StackMachine
