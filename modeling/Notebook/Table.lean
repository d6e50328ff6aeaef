/-
  Notebook.Table — finite maps and finite sets, kept in increasing order of their keys.

  A `Table κ ν` is a list of pairs whose keys strictly increase, so a table has one written form:
  two tables that answer every lookup alike are equal (`Table.ext_get?`).  Names, cells, elements,
  states and watches are all listed in this order, which is why listing a table needs no sorting.
  An `OrderedSet α` is a table that maps its members to nothing of interest.

  The view of a table is `get?`; each operation has one lemma that says what it does to the view.
-/

namespace Notebook

open Std

/-! ## §1. Lists of pairs in key order. -/

namespace Entries

variable {κ : Type} {ν : Type} [Ord κ]

/-- Keys strictly increase along the list. -/
def Ascending (entries : List (κ × ν)) : Prop :=
  entries.Pairwise fun a b => compare a.1 b.1 = .lt

/-- The value written beside the first key equal to `key`. -/
def find? (key : κ) : List (κ × ν) → Option ν
  | [] => none
  | (k, v) :: rest => if compare key k = .eq then some v else find? key rest

/-- Writes `value` beside `key`, at its place in the order; an equal key is overwritten. -/
def insert (key : κ) (value : ν) : List (κ × ν) → List (κ × ν)
  | [] => [(key, value)]
  | (k, v) :: rest =>
    match compare key k with
    | .lt => (key, value) :: (k, v) :: rest
    | .eq => (key, value) :: rest
    | .gt => (k, v) :: insert key value rest

theorem mem_insert {key : κ} {value : ν} {entries : List (κ × ν)} {e : κ × ν}
    (h : e ∈ insert key value entries) : e = (key, value) ∨ e ∈ entries := by
  induction entries with
  | nil => simpa [insert] using h
  | cons head rest ih =>
    obtain ⟨k, v⟩ := head
    simp only [insert] at h
    split at h
    · simpa using h
    · rcases List.mem_cons.1 h with h | h
      · exact .inl h
      · exact .inr (List.mem_cons_of_mem _ h)
    · rcases List.mem_cons.1 h with h | h
      · exact .inr (by simp [h])
      · exact (ih h).imp id (List.mem_cons_of_mem _)

theorem ascending_insert [TransOrd κ] [LawfulEqOrd κ] {entries : List (κ × ν)}
    (h : Ascending entries) (key : κ) (value : ν) : Ascending (insert key value entries) := by
  induction entries with
  | nil => simp [insert, Ascending]
  | cons head rest ih =>
    obtain ⟨k, v⟩ := head
    have hrest := List.pairwise_cons.1 h
    simp only [insert]
    split
    · rename_i hlt
      refine List.pairwise_cons.2 ⟨fun e he => ?_, h⟩
      rcases List.mem_cons.1 he with rfl | he
      · exact hlt
      · exact TransCmp.lt_trans hlt (hrest.1 e he)
    · rename_i heq
      have hk : key = k := LawfulEqOrd.compare_eq_iff_eq.1 heq
      subst hk
      exact List.pairwise_cons.2 ⟨hrest.1, hrest.2⟩
    · rename_i hgt
      refine List.pairwise_cons.2 ⟨fun e he => ?_, ih hrest.2⟩
      rcases mem_insert he with rfl | he
      · exact OrientedCmp.gt_iff_lt.1 hgt
      · exact hrest.1 e he

theorem find?_insert [TransOrd κ] [LawfulEqOrd κ] [DecidableEq κ] (key : κ) (value : ν)
    (entries : List (κ × ν)) (k : κ) :
    find? k (insert key value entries) = if k = key then some value else find? k entries := by
  induction entries with
  | nil => simp [insert, find?]
  | cons head rest ih =>
    obtain ⟨a, b⟩ := head
    simp only [insert]
    split <;> rename_i hc
    · simp [find?]
    · have : key = a := LawfulEqOrd.compare_eq_iff_eq.1 hc
      subst this
      by_cases hk : k = key <;> simp [find?, hk]
    · have hne : key ≠ a := by
        rintro rfl
        simp at hc
      by_cases hk : k = key
      · subst hk
        simp [find?, ih, hne]
      · by_cases ha : k = a
        · subst ha
          simp [find?, Ne.symm hne]
        · simp [find?, ih, hk, ha]

theorem find?_eq_none_of_lt [TransOrd κ] {entries : List (κ × ν)} {k : κ}
    (h : ∀ e ∈ entries, compare k e.1 = .lt) : find? k entries = none := by
  induction entries with
  | nil => rfl
  | cons head rest ih =>
    have hk := h head (by simp)
    simp only [find?]
    rw [if_neg (by simp [hk]), ih fun e he => h e (List.mem_cons_of_mem _ he)]

/-- A key that comes before the first one comes before all others. -/
theorem find?_cons_of_lt [TransOrd κ] {key k : κ} {v : ν} {rest : List (κ × ν)}
    (h : Ascending ((k, v) :: rest)) (hlt : compare key k = .lt) :
    find? key ((k, v) :: rest) = none := by
  refine find?_eq_none_of_lt fun e he => ?_
  rcases List.mem_cons.1 he with rfl | he
  · exact hlt
  · exact TransCmp.lt_trans hlt ((List.pairwise_cons.1 h).1 e he)

theorem find?_eq_some_iff [TransOrd κ] [LawfulEqOrd κ] {entries : List (κ × ν)}
    (h : Ascending entries) {k : κ} {v : ν} : find? k entries = some v ↔ (k, v) ∈ entries := by
  induction entries with
  | nil => simp [find?]
  | cons head rest ih =>
    obtain ⟨a, b⟩ := head
    have hrest := List.pairwise_cons.1 h
    by_cases hk : k = a
    · subst hk
      have hnot : (k, v) ∉ rest := fun hm => by
        have := hrest.1 _ hm
        simp at this
      simp [find?, hnot, eq_comm]
    · simp [find?, hk, ih hrest.2]

/-- Overwriting the value of a key changes the sum of the measures by the difference of two. -/
theorem total_insert [TransOrd κ] [LawfulEqOrd κ] (measure : ν → Nat) {key : κ} {value new : ν}
    {entries : List (κ × ν)} (h : Ascending entries) (hfound : find? key entries = some value) :
    (insert key new entries).foldr (fun e sum => measure e.2 + sum) 0 + measure value =
      entries.foldr (fun e sum => measure e.2 + sum) 0 + measure new := by
  induction entries with
  | nil => cases hfound
  | cons head rest ih =>
    obtain ⟨k, v⟩ := head
    have hrest := List.pairwise_cons.1 h
    simp only [insert]
    split <;> rename_i hc
    · rw [find?_cons_of_lt h hc] at hfound
      cases hfound
    · simp only [find?, hc, if_true, Option.some.injEq] at hfound
      simp only [List.foldr_cons, hfound]
      omega
    · have hlater : find? key rest = some value := by simpa [find?, hc] using hfound
      have hsum := ih hrest.2 hlater
      simp only [List.foldr_cons]
      omega

/-- Overwriting the value of a key leaves the keys as they are. -/
theorem keys_insert [TransOrd κ] [LawfulEqOrd κ] {key : κ} {value : ν} {entries : List (κ × ν)}
    (h : Ascending entries) (hfound : find? key entries = some value) (new : ν) :
    (insert key new entries).map Prod.fst = entries.map Prod.fst := by
  induction entries with
  | nil => cases hfound
  | cons head rest ih =>
    obtain ⟨k, v⟩ := head
    have hrest := List.pairwise_cons.1 h
    simp only [insert]
    split <;> rename_i hc
    · rw [find?_cons_of_lt h hc] at hfound
      cases hfound
    · rw [List.map_cons, List.map_cons, LawfulEqOrd.compare_eq_iff_eq.1 hc]
    · have hlater : find? key rest = some value := by simpa [find?, hc] using hfound
      rw [List.map_cons, ih hrest.2 hlater, List.map_cons]

/-- Entries in key order are determined by what they hold. -/
theorem eq_of_find? [TransOrd κ] [LawfulEqOrd κ] {xs ys : List (κ × ν)}
    (hx : Ascending xs) (hy : Ascending ys) (h : ∀ k, find? k xs = find? k ys) : xs = ys := by
  have hmem : ∀ e, e ∈ xs ↔ e ∈ ys := fun ⟨k, v⟩ => by
    rw [← find?_eq_some_iff hx, ← find?_eq_some_iff hy, h]
  have anti : ∀ a b : κ × ν, a ∈ xs → b ∈ ys →
      compare a.1 b.1 = .lt → compare b.1 a.1 = .lt → a = b := fun a b _ _ h₁ h₂ => by
    have := TransCmp.lt_trans h₁ h₂
    simp at this
  have hxn : xs.Nodup := hx.imp fun hab heq => by subst heq; simp at hab
  have hyn : ys.Nodup := hy.imp fun hab heq => by subst heq; simp at hab
  exact ((List.perm_ext_iff_of_nodup hxn hyn).2 hmem).eq_of_pairwise anti hx hy

end Entries

/-! ## §2. Tables. -/

/-- A finite map, written as its pairs in increasing key order. -/
structure Table (κ : Type) (ν : Type) [Ord κ] where
  entries : List (κ × ν)
  ascending : Entries.Ascending entries

namespace Table

variable {κ : Type} {ν : Type} {μ : Type} [Ord κ]

/-- The table without entries. -/
def empty : Table κ ν := ⟨[], List.Pairwise.nil⟩

instance : EmptyCollection (Table κ ν) := ⟨empty⟩
instance : Inhabited (Table κ ν) := ⟨empty⟩

@[ext] theorem ext {s t : Table κ ν} (h : s.entries = t.entries) : s = t := by
  cases s; cases t; simp_all

/-- The value that `key` maps to. -/
def get? (t : Table κ ν) (key : κ) : Option ν := Entries.find? key t.entries

/-- Whether `key` maps to something. -/
def contains (t : Table κ ν) (key : κ) : Bool := (t.get? key).isSome

/-- The keys, in increasing order. -/
def keys (t : Table κ ν) : List κ := t.entries.map (·.1)

/-- The values, in the order of their keys. -/
def values (t : Table κ ν) : List ν := t.entries.map (·.2)

/-- How many keys the table maps. -/
def size (t : Table κ ν) : Nat := t.entries.length

/-- The sum of the measures of all values. -/
def total (t : Table κ ν) (measure : ν → Nat) : Nat :=
  t.entries.foldr (fun e sum => measure e.2 + sum) 0

/-- Whether the table maps nothing. -/
def isEmpty (t : Table κ ν) : Bool := t.entries.isEmpty

/-- Keeps the entries that `keep` accepts. -/
def filter (keep : κ → ν → Bool) (t : Table κ ν) : Table κ ν :=
  ⟨t.entries.filter fun e => keep e.1 e.2, t.ascending.filter _⟩

/-- Drops the entry of `key`, if there is one. -/
def erase (t : Table κ ν) (key : κ) : Table κ ν :=
  t.filter fun k _ => compare key k != .eq

/-- Replaces every value by `f` of its key and itself. -/
def map (f : κ → ν → μ) (t : Table κ ν) : Table κ μ :=
  ⟨t.entries.map fun e => (e.1, f e.1 e.2),
    List.pairwise_map.2 (t.ascending.imp fun h => h)⟩

variable [TransOrd κ] [LawfulEqOrd κ]

/-- Maps `key` to `value`, whatever it was mapped to. -/
def insert (t : Table κ ν) (key : κ) (value : ν) : Table κ ν :=
  ⟨Entries.insert key value t.entries, Entries.ascending_insert t.ascending key value⟩

/-- Changes the value of `key` by `f`; a table without `key` is left alone. -/
def modify (t : Table κ ν) (key : κ) (f : ν → ν) : Table κ ν :=
  match t.get? key with
  | some v => t.insert key (f v)
  | none => t

/-- The table of a list of pairs; of two pairs with one key the later counts. -/
def ofList (pairs : List (κ × ν)) : Table κ ν :=
  pairs.foldl (fun t e => t.insert e.1 e.2) empty

/-- The table that maps every key of a list to `f` of it. -/
def tabulate (keys : List κ) (f : κ → ν) : Table κ ν :=
  keys.foldl (fun t k => t.insert k (f k)) empty

/-! ### What each operation does to lookups. -/

omit [TransOrd κ] [LawfulEqOrd κ] in
@[simp] theorem get?_empty (k : κ) : (empty : Table κ ν).get? k = none := rfl

@[simp] theorem get?_insert [DecidableEq κ] (t : Table κ ν) (key : κ) (value : ν) (k : κ) :
    (t.insert key value).get? k = if k = key then some value else t.get? k :=
  Entries.find?_insert key value t.entries k

theorem get?_eq_some_iff (t : Table κ ν) {k : κ} {v : ν} :
    t.get? k = some v ↔ (k, v) ∈ t.entries :=
  Entries.find?_eq_some_iff t.ascending

/-- Two tables that answer every lookup alike are equal. -/
theorem ext_get? {s t : Table κ ν} (h : ∀ k, s.get? k = t.get? k) : s = t :=
  ext (Entries.eq_of_find? s.ascending t.ascending h)

@[simp] theorem get?_filter (keep : κ → ν → Bool) (t : Table κ ν) (k : κ) :
    (t.filter keep).get? k = (t.get? k).filter (keep k) := by
  apply Option.ext
  intro v
  simp [get?_eq_some_iff, filter, Option.filter_eq_some_iff]

@[simp] theorem get?_erase [DecidableEq κ] (t : Table κ ν) (key k : κ) :
    (t.erase key).get? k = if k = key then none else t.get? k := by
  by_cases h : k = key
  · subst h
    cases hg : t.get? k <;> simp [erase, hg, Option.filter]
  · have hne : (compare key k != .eq) = true := by
      simp [Ne.symm h]
    cases hg : t.get? k <;> simp [erase, hg, Option.filter, hne, h]

@[simp] theorem get?_map (f : κ → ν → μ) (t : Table κ ν) (k : κ) :
    (t.map f).get? k = (t.get? k).map (f k) := by
  apply Option.ext
  intro v
  simp only [get?_eq_some_iff, map, List.mem_map, Option.map_eq_some_iff, Prod.mk.injEq]
  constructor
  · rintro ⟨⟨a, b⟩, hm, rfl, rfl⟩
    exact ⟨b, hm, rfl⟩
  · rintro ⟨b, hm, rfl⟩
    exact ⟨(k, b), hm, rfl, rfl⟩

@[simp] theorem get?_modify [DecidableEq κ] (t : Table κ ν) (key : κ) (f : ν → ν) (k : κ) :
    (t.modify key f).get? k = if k = key then (t.get? k).map f else t.get? k := by
  unfold modify
  split <;> rename_i h
  · by_cases hk : k = key
    · subst hk; simp [h]
    · simp [hk]
  · by_cases hk : k = key
    · subst hk; simp [h]
    · simp [hk]

theorem total_insert {t : Table κ ν} (measure : ν → Nat) {key : κ} {value : ν} (new : ν)
    (h : t.get? key = some value) :
    (t.insert key new).total measure + measure value = t.total measure + measure new :=
  Entries.total_insert measure t.ascending h

theorem keys_insert_of_get? {t : Table κ ν} {key : κ} {value : ν} (h : t.get? key = some value)
    (new : ν) : (t.insert key new).keys = t.keys := Entries.keys_insert t.ascending h new

@[simp] theorem get?_tabulate [DecidableEq κ] (keys : List κ) (f : κ → ν) (k : κ) :
    (tabulate keys f).get? k = if k ∈ keys then some (f k) else none := by
  have h : ∀ t : Table κ ν, (keys.foldl (fun t k => t.insert k (f k)) t).get? k =
      if k ∈ keys then some (f k) else t.get? k := by
    induction keys with
    | nil => simp
    | cons a rest ih =>
      intro t
      rw [List.foldl_cons, ih, get?_insert]
      by_cases hrest : k ∈ rest
      · simp [hrest]
      · by_cases ha : k = a <;> simp [hrest, ha]
  simpa [tabulate] using h empty

theorem mem_keys_iff (t : Table κ ν) {k : κ} : k ∈ t.keys ↔ (t.get? k).isSome := by
  simp only [keys, List.mem_map, Option.isSome_iff_exists, get?_eq_some_iff]
  constructor
  · rintro ⟨⟨a, b⟩, hm, rfl⟩
    exact ⟨b, hm⟩
  · rintro ⟨v, hm⟩
    exact ⟨(k, v), hm, rfl⟩

omit [TransOrd κ] [LawfulEqOrd κ] in
theorem keys_ascending (t : Table κ ν) : t.keys.Pairwise fun a b => compare a b = .lt :=
  List.pairwise_map.2 t.ascending

end Table

/-! ## §3. Ordered sets. -/

/-- A finite set, listed in increasing order. -/
abbrev OrderedSet (α : Type) [Ord α] := Table α Unit

namespace OrderedSet

variable {α : Type} [Ord α]

/-- The members, in increasing order. -/
def toList (s : OrderedSet α) : List α := s.keys

/-- Whether `a` is a member. -/
def has (s : OrderedSet α) (a : α) : Bool := s.contains a

instance : Membership α (OrderedSet α) := ⟨fun s a => s.has a = true⟩

instance (a : α) (s : OrderedSet α) : Decidable (a ∈ s) :=
  inferInstanceAs (Decidable (s.has a = true))

variable [TransOrd α] [LawfulEqOrd α]

/-- Adds one member. -/
def add (s : OrderedSet α) (a : α) : OrderedSet α := s.insert a ()

/-- The set of the members of a list. -/
def ofList (members : List α) : OrderedSet α := members.foldl add .empty

/-- Adds every member of a list. -/
def addAll (s : OrderedSet α) (members : List α) : OrderedSet α := members.foldl add s

/-- Takes a member out. -/
def remove (s : OrderedSet α) (a : α) : OrderedSet α := s.erase a

/-- The members of either set. -/
def union (s t : OrderedSet α) : OrderedSet α := s.addAll t.toList

/-- The members of `s` that are not in `t`. -/
def diff (s t : OrderedSet α) : OrderedSet α := s.filter fun a _ => !t.has a

theorem mem_iff (s : OrderedSet α) (a : α) : a ∈ s ↔ a ∈ s.toList := by
  rw [toList, Table.mem_keys_iff]
  rfl

@[simp] theorem mem_add (s : OrderedSet α) (a b : α) : b ∈ s.add a ↔ b = a ∨ b ∈ s := by
  classical
  show ((s.insert a ()).get? b).isSome = true ↔ b = a ∨ (s.get? b).isSome = true
  by_cases h : b = a <;> simp [h]

@[simp] theorem mem_addAll (s : OrderedSet α) (members : List α) (b : α) :
    b ∈ s.addAll members ↔ b ∈ members ∨ b ∈ s := by
  induction members generalizing s with
  | nil => simp [addAll]
  | cons a rest ih =>
    have : s.addAll (a :: rest) = (s.add a).addAll rest := rfl
    rw [this, ih, mem_add, List.mem_cons]
    constructor
    · rintro (h | h | h) <;> simp [h]
    · rintro ((h | h) | h) <;> simp [h]

@[simp] theorem mem_ofList (members : List α) (b : α) : b ∈ ofList members ↔ b ∈ members := by
  have h := mem_addAll (.empty : OrderedSet α) members b
  have hempty : ¬ b ∈ (.empty : OrderedSet α) := by
    show ¬ ((Table.empty : Table α Unit).get? b).isSome = true
    simp
  rw [show ofList members = addAll .empty members from rfl, h]
  exact or_iff_left hempty

end OrderedSet

end Notebook
