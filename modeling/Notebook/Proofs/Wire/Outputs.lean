/-
  Notebook.Proofs.Wire.Outputs — an output that was written down is read back.

  The cache keeps outputs in their written form.  An output whose bindings are plain values in
  standard form has the same bindings when it is read back, if it can be read at all; what is shown
  under the cell may stand in the way, but never changes a binding.

  Main results:
    * `Table.ofList_entries` — a table is the table of its entries,
    * `CellOutput.ofJson?_toJson` — the bindings of a plain output are read back.
-/
import Notebook.Proofs.Json.Texts
import Notebook.Wire.Kernel

namespace Notebook

open Wire

/-! ## §1. Tables and their entries. -/

section Tables

open Std

variable {κ ν : Type} [Ord κ] [TransOrd κ] [LawfulEqOrd κ] [DecidableEq κ]

theorem Table.get?_foldl_insert (t : Table κ ν) {entries : List (κ × ν)}
    (h : Entries.Ascending entries) (k : κ) :
    (entries.foldl (fun t e => t.insert e.1 e.2) t).get? k =
      (Entries.find? k entries).or (t.get? k) := by
  induction entries generalizing t with
  | nil => rfl
  | cons e rest ih =>
    obtain ⟨hlater, hrest⟩ := List.pairwise_cons.1 h
    rw [List.foldl_cons, ih _ hrest, Table.get?_insert]
    by_cases hk : k = e.1
    · -- a key occurs once, so the rest of the entries say nothing about it
      subst hk
      rw [Entries.find?_eq_none_of_lt hlater]
      simp [Entries.find?]
    · simp [Entries.find?, hk]

/-- A table is the table of its entries. -/
theorem Table.ofList_entries (t : Table κ ν) : Table.ofList t.entries = t := by
  refine Table.ext_get? fun k => ?_
  unfold Table.ofList
  rw [Table.get?_foldl_insert _ t.ascending, Table.get?_empty, Option.or_none]
  rfl

/-- What is found in the table of a list is in the list. -/
theorem Table.mem_of_get?_ofList {entries : List (κ × ν)} {k : κ} {v : ν}
    (h : (Table.ofList entries).get? k = some v) : ∃ e ∈ entries, e.2 = v := by
  have hfold : ∀ (entries : List (κ × ν)) (t : Table κ ν),
      (entries.foldl (fun t e => t.insert e.1 e.2) t).get? k = some v →
      (∃ e ∈ entries, e.2 = v) ∨ t.get? k = some v := by
    intro entries
    induction entries with
    | nil => exact fun t h => .inr h
    | cons first rest ih =>
      intro t h
      rcases ih _ h with ⟨e, he, hv⟩ | h
      · exact .inl ⟨e, List.mem_cons_of_mem _ he, hv⟩
      · rw [Table.get?_insert] at h
        split at h
        · exact .inl ⟨first, List.mem_cons_self .., Option.some.inj h⟩
        · exact .inr h
  rcases hfold entries .empty h with h | h
  · exact h
  · cases h

/-- A set is the set of its members. -/
theorem OrderedSet.ofList_toList (s : OrderedSet κ) : OrderedSet.ofList s.toList = s := by
  have hfold : ∀ (entries : List (κ × Unit)) (t : OrderedSet κ),
      (entries.map (·.1)).foldl OrderedSet.add t =
        entries.foldl (fun t e => t.insert e.1 e.2) t := by
    intro entries
    induction entries with
    | nil => exact fun t => rfl
    | cons e rest ih => exact fun t => ih _
  exact (hfold s.entries .empty).trans (Table.ofList_entries s)

end Tables

/-! ## §2. Bindings. -/

/-- Whether something bound is a plain value in standard form. -/
def Binding.isStandard : Binding → Bool
  | .value v => v.isStandard
  | _ => false

theorem Binding.isStandard_iff {b : Binding} :
    b.isStandard = true ↔ ∃ v, b = .value v ∧ v.isStandard = true := by
  cases b with
  | value v => exact ⟨fun h => ⟨v, rfl, h⟩, fun ⟨w, hw, h⟩ => Binding.value.inj hw ▸ h⟩
  | _ => exact ⟨fun h => (Bool.false_ne_true h).elim, fun ⟨w, hw, _⟩ => by cases hw⟩

/-- A plain value is read back. -/
theorem Binding.ofJson?_toJson {b : Binding} (hb : b.isStandard = true) :
    Binding.ofJson? b.toJson = some b := by
  obtain ⟨v, rfl, hv⟩ := Binding.isStandard_iff.1 hb
  have hadjacent : adjacent? "kind" "value" (Binding.value v).toJson = some ("value", some v) := by
    simp [Binding.toJson, adjacent?, occurrences, comesFirst, variantName?, Binding.kind,
      Binding.content, List.lookup_cons]
  unfold Binding.ofJson?
  rw [hadjacent]
  simp [Wire.value?, Json.isReadable_of_isStandard v hv, Json.normal_of_isStandard v hv]

/-- Whether all bindings of an output are plain values in standard form. -/
def CellOutput.isStandard (o : CellOutput) : Bool := o.bindings.values.all Binding.isStandard

theorem CellOutput.isStandard_iff {o : CellOutput} : o.isStandard = true ↔
    ∀ name b, o.bindings.get? name = some b → b.isStandard = true := by
  unfold isStandard
  rw [List.all_eq_true]
  constructor
  · intro h name b hb
    exact h b (List.mem_map_of_mem ((Table.get?_eq_some_iff _).1 hb))
  · intro h b hb
    obtain ⟨e, he, rfl⟩ := List.mem_map.1 hb
    exact h e.1 e.2 ((Table.get?_eq_some_iff _).2 he)

/-- The bindings of a plain output are read back. -/
theorem CellOutput.ofJson?_toJson {o o' : CellOutput} (ho : o.isStandard = true)
    (h : CellOutput.ofJson? o.toJson = some o') : o'.bindings = o.bindings := by
  have hread : table? Binding.ofJson? (bindingsToJson o.bindings) = some o.bindings := by
    have hentries : ∀ entries : List (String × Binding),
        (∀ e ∈ entries, e.2.isStandard = true) →
        (entries.map fun e => (e.1, e.2.toJson)).mapM
          (fun f => (Binding.ofJson? f.2).map fun b => (f.1, b)) = some entries := by
      intro entries hall
      induction entries with
      | nil => rfl
      | cons e rest ih =>
        have hrest := ih fun a ha => hall a (List.mem_cons_of_mem _ ha)
        simp [Binding.ofJson?_toJson (hall e (List.mem_cons_self ..)), hrest]
    have hall : ∀ e ∈ o.bindings.entries, e.2.isStandard = true := by
      intro e he
      exact List.all_eq_true.1 ho e.2 (List.mem_map_of_mem he)
    unfold table? bindingsToJson
    dsimp only
    rw [hentries _ hall, Option.map_some, Table.ofList_entries]
  have hrecord : record? ["bindings", "display"] o.toJson =
      some ⟨[("bindings", bindingsToJson o.bindings), ("display", .ofOption id o.display)],
        false⟩ := by
    simp [CellOutput.toJson, record?, occurrences]
  have hbindings : Record.required ⟨[("bindings", bindingsToJson o.bindings),
      ("display", .ofOption id o.display)], false⟩ "bindings" (table? Binding.ofJson?) =
        some o.bindings := by
    simp [Record.required, hread]
  unfold CellOutput.ofJson? at h
  rw [hrecord, Option.bind_eq_bind, Option.bind_some, hbindings, Option.bind_eq_bind,
    Option.bind_some] at h
  obtain ⟨display, -, heq⟩ := Option.bind_eq_some_iff.1 h
  obtain rfl := Option.some.inj heq
  rfl

end Notebook
