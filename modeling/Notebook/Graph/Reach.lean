/-
  Notebook.Graph.Reach — what steps lead to inside a finite pool.

  `reach pool next todo seen` goes through what is still to do, one element at a time, and adds what
  its steps lead to in the pool and was not seen before.  `closure pool next start` is what is
  reached from `start`.  It contains the start (`subset_closure`), is closed under the steps inside
  the pool (`closure_closed`), and lies in every closed set that contains the start
  (`closure_subset`): it is the least such set.
-/

namespace Notebook

variable {α : Type} [DecidableEq α]

/-! ## §1. Searching. -/

/-- Where the steps from `a` lead in the pool, as far as it was not seen. -/
def freshSteps (pool : List α) (next : α → List α) (seen : List α) (a : α) : List α :=
  (next a).filter fun b => !seen.contains b && pool.contains b

theorem mem_freshSteps {pool : List α} {next : α → List α} {seen : List α} {a b : α} :
    b ∈ freshSteps pool next seen a ↔ b ∈ next a ∧ b ∉ seen ∧ b ∈ pool := by
  simp [freshSteps]

/-- What in the pool was not seen. -/
def unseen (pool seen : List α) : List α := pool.filter fun b => !seen.contains b

theorem unseen_append_lt {pool seen fresh : List α} {b : α} (hpool : b ∈ pool) (hseen : b ∉ seen)
    (hfresh : b ∈ fresh) : (unseen pool (seen ++ fresh)).length < (unseen pool seen).length := by
  have hsub : unseen pool (seen ++ fresh) =
      (unseen pool seen).filter fun c => !fresh.contains c := by
    simp only [unseen, List.filter_filter]
    congr 1
    funext c
    simp [List.mem_append, Bool.and_comm]
  rw [hsub]
  exact List.length_filter_lt_length_iff_exists.2
    ⟨b, by simp [unseen, hpool, hseen], by simp [hfresh]⟩

theorem unseen_append_of_notMem {pool seen : List α} {a : α}
    (h : a ∉ pool) : unseen pool (seen ++ [a]) = unseen pool seen := by
  unfold unseen
  refine List.filter_congr fun b hb => ?_
  have hne : b ≠ a := fun heq => h (heq ▸ hb)
  simp [hne]

/-- Everything that is reached from what is still to do, after what was seen already. -/
def reach (pool : List α) (next : α → List α) : (todo seen : List α) → List α
  | [], seen => seen
  | a :: todo, seen =>
    reach pool next (freshSteps pool next seen a ++ todo) (seen ++ freshSteps pool next seen a)
termination_by todo seen => ((unseen pool seen).length, todo.length)
decreasing_by
  cases hfresh : freshSteps pool next seen a with
  | nil =>
    simp only [List.append_nil, List.nil_append]
    exact Prod.Lex.right _ (Nat.lt_succ_self _)
  | cons b rest =>
    have hb := mem_freshSteps.1 (hfresh ▸ List.mem_cons_self : b ∈ freshSteps pool next seen a)
    exact Prod.Lex.left _ _ (unseen_append_lt hb.2.2 hb.2.1 List.mem_cons_self)

/-- Everything in the pool that is reached from `start`, and `start` itself. -/
def closure (pool : List α) (next : α → List α) (start : List α) : List α :=
  reach pool next start start

/-! ## §2. The result is the least closed set. -/

theorem subset_reach (pool : List α) (next : α → List α) (todo seen : List α) :
    seen ⊆ reach pool next todo seen := by
  fun_induction reach pool next todo seen with
  | case1 => exact List.Subset.refl _
  | case2 a todo seen ih => exact List.Subset.trans (List.subset_append_left _ _) ih

/-- When all that was seen is either still to do or has its steps among what was seen, the result
is closed. -/
theorem reach_closed {pool : List α} {next : α → List α} {todo seen : List α}
    (h : ∀ a ∈ seen, a ∈ todo ∨ ∀ b ∈ next a, b ∈ pool → b ∈ seen) :
    ∀ a ∈ reach pool next todo seen, ∀ b ∈ next a, b ∈ pool → b ∈ reach pool next todo seen := by
  fun_induction reach pool next todo seen with
  | case1 seen =>
    intro a ha
    exact (h a ha).resolve_left (by simp)
  | case2 a todo seen ih =>
    refine ih fun c hc => ?_
    have covered : ∀ d, (∀ b ∈ next d, b ∈ pool → b ∈ seen) →
        ∀ b ∈ next d, b ∈ pool → b ∈ seen ++ freshSteps pool next seen a :=
      fun d hd b hb hpool => List.mem_append_left _ (hd b hb hpool)
    rcases List.mem_append.1 hc with hc | hc
    · rcases h c hc with hc | hc
      · rcases List.mem_cons.1 hc with rfl | hc
        · refine .inr fun b hb hpool => ?_
          by_cases hseen : b ∈ seen
          · exact List.mem_append_left _ hseen
          · exact List.mem_append_right _ (mem_freshSteps.2 ⟨hb, hseen, hpool⟩)
        · exact .inl (List.mem_append_right _ hc)
      · exact .inr (covered c hc)
    · exact .inl (List.mem_append_left _ hc)

theorem reach_subset {pool : List α} {next : α → List α} {todo seen : List α} {s : α → Prop}
    (htodo : ∀ a ∈ todo, s a) (hseen : ∀ a ∈ seen, s a)
    (hclosed : ∀ a, s a → ∀ b ∈ next a, b ∈ pool → s b) :
    ∀ a ∈ reach pool next todo seen, s a := by
  fun_induction reach pool next todo seen with
  | case1 => exact hseen
  | case2 a todo seen ih =>
    have hfresh : ∀ b ∈ freshSteps pool next seen a, s b := fun b hb =>
      hclosed a (htodo a List.mem_cons_self) b (mem_freshSteps.1 hb).1 (mem_freshSteps.1 hb).2.2
    refine ih (fun b hb => ?_) (fun b hb => ?_)
    · exact (List.mem_append.1 hb).elim (hfresh b) fun hb => htodo b (List.mem_cons_of_mem _ hb)
    · exact (List.mem_append.1 hb).elim (hseen b) (hfresh b)

theorem subset_closure (pool : List α) (next : α → List α) (start : List α) :
    start ⊆ closure pool next start := subset_reach pool next start start

theorem closure_closed {pool : List α} {next : α → List α} {start : List α} {a b : α}
    (ha : a ∈ closure pool next start) (hab : b ∈ next a) (hb : b ∈ pool) :
    b ∈ closure pool next start :=
  reach_closed (fun _ ha => .inl ha) a ha b hab hb

theorem closure_subset {pool : List α} {next : α → List α} {start : List α} {s : α → Prop}
    (hstart : ∀ a ∈ start, s a) (hclosed : ∀ a, s a → ∀ b ∈ next a, b ∈ pool → s b) :
    ∀ a ∈ closure pool next start, s a := reach_subset hstart hstart hclosed

end Notebook
