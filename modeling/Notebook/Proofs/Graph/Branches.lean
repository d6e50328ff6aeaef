/-
  Notebook.Proofs.Graph.Branches — which cells the cycle passes through that they are blocked with.

  All cells that lie on cycles together are blocked with one cycle, a shortest one of theirs.  A
  shortest cycle has no chord, so where it passes through all of them no cell has two children among
  them.  Conversely, where no cell has two children among them, whoever walks on from a cell of the
  cycle stays on it, and meets all of them.

  So a cell can be blocked with a cycle that it is not on just when its group branches.

  Main results:
    * `Circuit.next_unique` — a shortest circuit has no chord,
    * `Unbranched` / `mem_of_unbranched` — a cycle takes in all of a group that does not branch,
    * `SharedCycle` / `plan_sharedCycle` — what holds of the cycle that a cell is blocked with,
    * `plan_through_all_iff` — when every blocked cell is on its cycle.
-/
import Notebook.Proofs.Graph.Accurate

namespace Notebook

open Relation

/-! ## §1. Circuits without chords. -/

section Circuits

variable {α : Type} {step : α → α → Prop} {a b c : α} {l pre post : List α}

/-- A circuit leads on from each of its elements. -/
theorem Circuit.exists_next (h : Circuit step l) (ha : a ∈ l) : ∃ b ∈ l, step a b := by
  obtain ⟨rest, hfrom, hperm⟩ := h.exists_from ha
  cases rest with
  | nil => exact ⟨a, ha, hfrom.closes⟩
  | cons b rest =>
    have hb : b ∈ a :: b :: rest := List.mem_cons_of_mem _ List.mem_cons_self
    exact ⟨b, hperm.mem_iff.1 hb, (List.isChain_cons_cons.1 hfrom.chain).1⟩

/-- A chord from the first element cuts a circuit short. -/
theorem Circuit.cut (h : Circuit step (a :: (pre ++ b :: post))) (hchord : step a b) :
    Circuit step (a :: b :: post) where
  ne_nil := List.cons_ne_nil _ _
  chain := by
    have hsuffix : b :: post <:+ a :: (pre ++ b :: post) := ⟨a :: pre, rfl⟩
    exact List.isChain_cons_cons.2 ⟨hchord, h.chain.suffix hsuffix⟩
  closes := by
    have hlast : (a :: (pre ++ b :: post)).getLast h.ne_nil =
        (b :: post).getLast (List.cons_ne_nil b post) := by simp
    show step ((b :: post).getLast _) a
    exact hlast ▸ h.closes

/-- A circuit without a shorter one among its elements has no chord. -/
theorem Circuit.next_unique (h : Circuit step l)
    (hshortest : ∀ other, Circuit step other → (∀ a ∈ other, a ∈ l) → l.length ≤ other.length)
    (ha : a ∈ l) (hb : b ∈ l) (hc : c ∈ l) (hab : step a b) (hac : step a c) : b = c := by
  obtain ⟨rest, hfrom, hperm⟩ := h.exists_from ha
  have hle : ∀ other, Circuit step other → (∀ d ∈ other, d ∈ a :: rest) →
      (a :: rest).length ≤ other.length := by
    intro other hother hin
    rw [hperm.length_eq]
    exact hshortest other hother fun d hd => hperm.mem_iff.1 (hin d hd)
  -- whatever the first element steps to comes next, else there is a shorter way round
  have hnext : ∀ d ∈ a :: rest, step a d → (rest ++ [a]).head? = some d := by
    intro d hd had
    rcases List.mem_cons.1 hd with rfl | hd
    · have hloop : Circuit step [d] := ⟨List.cons_ne_nil _ _, List.isChain_singleton _, had⟩
      have hlen := hle _ hloop fun e he => List.mem_cons.2 (.inl (List.mem_singleton.1 he))
      have hnil : rest = [] := by
        rw [← List.length_eq_zero_iff]
        simp only [List.length_cons, List.length_nil] at hlen
        omega
      rw [hnil]
      rfl
    · obtain ⟨pre, post, rfl⟩ := List.append_of_mem hd
      have hin : ∀ e ∈ a :: d :: post, e ∈ a :: (pre ++ d :: post) := by
        intro e he
        simp only [List.mem_cons, List.mem_append] at he ⊢
        tauto
      have hlen := hle _ (hfrom.cut had) hin
      have hnil : pre = [] := by
        rw [← List.length_eq_zero_iff]
        simp only [List.length_cons, List.length_append] at hlen
        omega
      rw [hnil]
      rfl
  have hfirst := hnext b (hperm.mem_iff.2 hb) hab
  have hsecond := hnext c (hperm.mem_iff.2 hc) hac
  exact Option.some.inj (hfirst.symm.trans hsecond)

end Circuits

/-! ## §2. Groups that do not branch. -/

namespace Graph

variable {g : Graph} {roots : OrderedSet CellId} {members group cycle : List CellId}
  {a b id : CellId}

/-- Of the cells that lie on a cycle with `id`, none has two children among them. -/
def Unbranched (g : Graph) (id : CellId) : Prop :=
  ∀ a b c, g.Together id a → g.Together id b → g.Together id c → g.Edge a b → g.Edge a c → b = c

/-- Whoever walks on from a cell of a cycle stays on it where nothing branches. -/
theorem mem_of_unbranched (h : g.Unbranched id) (hcircuit : Circuit g.Edge cycle)
    (hin : ∀ a ∈ cycle, g.Together id a) (hb : g.Together id b) : b ∈ cycle := by
  obtain ⟨first, hfirst⟩ := List.exists_mem_of_ne_nil cycle hcircuit.ne_nil
  have hpath : ReflTransGen g.Edge first b := ((hin first hfirst).2.trans hb.1).to_reflTransGen
  induction hpath using ReflTransGen.head_induction_on with
  | refl => exact hfirst
  | head hedge hrest ih =>
    rename_i a d
    obtain ⟨next, hnext, hstep⟩ := hcircuit.exists_next hfirst
    have ha := hin a hfirst
    have hd : g.Together id d := ⟨ha.1.tail hedge, TransGen.trans_right hrest hb.2⟩
    obtain rfl := h a d next ha hd (hin next hnext) hedge hstep
    exact ih hnext

/-- The cycle that is looked for among some cells is a shortest one. -/
theorem shortestCircuit_shortestCycle (hg : g.WellFormed) {other : List CellId}
    (hother : Circuit g.Edge other) (hin : ∀ id ∈ other, id ∈ members) :
    Circuit g.Edge (g.shortestCycle members) ∧ (g.shortestCycle members).Nodup ∧
      (∀ id ∈ g.shortestCycle members, id ∈ members) ∧
      ∀ other, Circuit g.Edge other → (∀ id ∈ other, id ∈ members) →
        (g.shortestCycle members).length ≤ other.length := by
  obtain ⟨cycle, hcycle⟩ := shortestCycle?_isSome ((circuit_listed_iff hg hin).2 hother) hin
  have hfound : g.shortestCycle members = cycle := by
    unfold shortestCycle
    dsimp only
    rw [hcycle, Option.getD_some]
  have hshortest := shortestCycle?_shortest hcycle
  rw [hfound]
  refine ⟨(circuit_listed_iff hg hshortest.inside).1 hshortest.circuit, hshortest.nodup,
    hshortest.inside, ?_⟩
  intro other hother hin
  exact hshortest.shortest other ((circuit_listed_iff hg hin).2 hother) hin

/-! ## §3. The cycle that a cell is blocked with. -/

/-- A cycle that all cells share which lie on a cycle with `id`: it is one of theirs, and it passes
through all of them just when none of them branches. -/
structure SharedCycle (g : Graph) (id : CellId) (cycle : List CellId) : Prop where
  circuit : Circuit g.Edge cycle
  nodup : cycle.Nodup
  together : ∀ a ∈ cycle, g.Together id a
  through_all_iff : (∀ a, g.Together id a → a ∈ cycle) ↔ g.Unbranched id

/-- The cycle of a group is shared by the cells of the group. -/
theorem sharedCycle_shortestCycle (hg : g.WellFormed) (hgroup : group ∈ g.groups roots)
    (hid : id ∈ group) : g.SharedCycle id (g.shortestCycle group) := by
  have hmem : ∀ a, a ∈ group ↔ g.Together id a := fun a => mem_group_iff hg hgroup hid
  have hon : g.OnCycle id := ((hmem id).1 hid).1
  obtain ⟨rest, hthrough⟩ := exists_circuit hon
  have hinside : ∀ a ∈ id :: rest, a ∈ group := by
    intro a ha
    rw [hmem]
    exact ⟨hthrough.reaches List.mem_cons_self ha, hthrough.reaches ha List.mem_cons_self⟩
  obtain ⟨hcircuit, hnodup, hin, hshortest⟩ := shortestCircuit_shortestCycle hg hthrough hinside
  have htogether : ∀ a ∈ g.shortestCycle group, g.Together id a := fun a ha =>
    (hmem a).1 (hin a ha)
  refine ⟨hcircuit, hnodup, htogether, ?_⟩
  constructor
  · intro hall a b c ha hb hc hab hac
    refine hcircuit.next_unique (fun other hother hsub => ?_) (hall a ha) (hall b hb) (hall c hc)
      hab hac
    exact hshortest other hother fun d hd => hin d (hsub d hd)
  · intro hunbranched a ha
    exact mem_of_unbranched hunbranched hcircuit htogether ha

/-- The cycle that a cell is blocked with is shared by the cells of its group. -/
theorem plan_sharedCycle (hg : g.WellFormed) (h : (id, .inCycle cycle) ∈ (g.plan roots).blocked) :
    g.SharedCycle id cycle := by
  obtain ⟨group, hgroup, hid, rfl⟩ := inCycle_mem_blocked_iff.1 h
  exact sharedCycle_shortestCycle hg hgroup hid

/-- Every cell that is blocked with a cycle is on it just when no cycles of the run branch. -/
theorem plan_through_all_iff (hg : g.WellFormed) :
    (∀ id cycle, (id, .inCycle cycle) ∈ (g.plan roots).blocked → id ∈ cycle) ↔
      ∀ id ∈ g.runSet roots, g.OnCycle id → g.Unbranched id := by
  constructor
  · intro hall id hid hon
    obtain ⟨group, hgroup, hin⟩ := exists_group_of_onCycle hg hid hon
    refine (sharedCycle_shortestCycle hg hgroup hin).through_all_iff.1 fun a ha => ?_
    have hina := (mem_group_iff hg hgroup hin).2 ha
    exact hall a _ (inCycle_mem_blocked_iff.2 ⟨group, hgroup, hina, rfl⟩)
  · intro hall id cycle hblocked
    obtain ⟨group, hgroup, hid, -⟩ := inCycle_mem_blocked_iff.1 hblocked
    obtain ⟨hmember, hon⟩ := onCycle_of_group hg hgroup hid
    exact (plan_sharedCycle hg hblocked).through_all_iff.2 (hall id hmember hon) id ⟨hon, hon⟩

end Graph

end Notebook
