/-
  Notebook.Proofs.Kernel.Agreement — when the kernel and the registry agree on the names of elements.

  Whatever edits or runs cells writes the names of elements in both places.  Bindings that are given
  from outside are the exception: they take the place of all bindings that the kernel has, and the
  registry is not told.  So the two agree on a name throughout a history exactly when the bindings
  given from outside always say of the name what the registry says already.

  Main results:
    * `agreedAt_command` — a command keeps the agreement, if it seeds what the registry has,
    * `agreedAt_throughout_iff` — when a history keeps it,
    * `Kernel.reseeded_empty_disagrees` — a slider that keeps a name which is no longer bound.
-/
import Notebook.Digest.Sha256
import Notebook.Proofs.Kernel.Bookkeeping
import Notebook.Proofs.Kernel.Naming

namespace Notebook

namespace Kernel

variable {κ σ : Type} {k k' k₀ : Kernel κ σ} {name : String} {initial : List (String × Binding)}
  {commands : List (Command κ σ)}

/-! ## §1. One command. -/

/-- The bindings given from outside say of a name what the registry says of it. -/
def FitsAt (k : Kernel κ σ) (initial : List (String × Binding)) (name : String) : Prop :=
  ∀ a, (Table.ofList initial).get? name = some (.element a) ↔
    k.session.elements.names.get? name = some a

/-- After bindings were given from outside, the kernel has just these. -/
theorem agreedAt_init : (k.init initial).AgreedAt name ↔ k.FitsAt initial name := Iff.rfl

theorem agreedAt_start {config : Config} {disk : Disk} {clock : Nat} {own : σ}
    (h : Kernel.start config disk clock own = .ok k) (name : String) : k.AgreedAt name := by
  obtain ⟨-, cache, heq⟩ := start_eq h
  rw [heq]
  exact .of_unbound rfl rfl

variable [HashFunction] {x : Executor κ σ}

/-- A command keeps the agreement on a name, unless it binds names from outside or the host changes
the names of elements. -/
theorem agreedAt_command {command : Command κ σ} (hk : InOrder (fun _ => True) k)
    (hrun : k.command? x command = some k')
    (hfits : ∀ initial, command = .init initial → k.FitsAt initial name)
    (hhost : ∀ s, command = .host s → s.elements.names = k.session.elements.names)
    (h : k.AgreedAt name) : k'.AgreedAt name := by
  cases command with
  | init initial =>
    obtain rfl := Option.some.inj hrun
    exact agreedAt_init.2 (hfits initial rfl)
  | reset =>
    obtain rfl := Option.some.inj hrun
    exact Tandem.reset k name
  | apply event =>
    obtain rfl := Option.some.inj hrun
    exact (Tandem.apply hk x event).agreedAt h
  | runUntilIdle rounds =>
    obtain ⟨⟨report, k₂⟩, hran, rfl⟩ := Option.map_eq_some_iff.1 hrun
    exact (Tandem.runUntilIdle? hk hran).agreedAt h
  | host s =>
    obtain rfl := Option.some.inj hrun
    have haside : Tandem k { k with session := s } := .of_eq rfl (hhost s rfl)
    exact haside.agreedAt h

/-! ## §2. Histories. -/

theorem commandAll?_concat (done : List (Command κ σ)) (command : Command κ σ) :
    k.commandAll? x (done ++ [command]) =
      (k.commandAll? x done).bind fun k => k.command? x command := by
  unfold commandAll?
  rw [List.foldlM_append]
  cases done.foldlM (command? x) k with
  | none => rfl
  | some k₁ => simp

/-- Throughout a history whoever hosts the kernel leaves the names of elements alone. -/
def HostsAside (x : Executor κ σ) (k₀ : Kernel κ σ) (commands : List (Command κ σ)) : Prop :=
  ∀ done s rest k, commands = done ++ .host s :: rest → k₀.commandAll? x done = some k →
    s.elements.names = k.session.elements.names

theorem HostsAside.of_none (h : ∀ s, .host s ∉ commands) : HostsAside x k₀ commands := by
  intro done s rest k hsplit _
  exact absurd (by rw [hsplit]; simp) (h s)

/-- **When the two agree.**  In every state between two operations the kernel and the registry say
the same of a name exactly when all bindings that are given from outside, at whatever moment, say of
the name what the registry says of it at that moment. -/
theorem agreedAt_throughout_iff (x : Executor κ σ) {config : Config} {disk : Disk} {clock : Nat}
    {own : σ} (hstart : Kernel.start config disk clock own = .ok k₀)
    (hhosts : HostsAside x k₀ commands) (name : String) :
    (∀ done k, done <+: commands → k₀.commandAll? x done = some k → k.AgreedAt name) ↔
      ∀ done initial rest k, commands = done ++ .init initial :: rest →
        k₀.commandAll? x done = some k → k.FitsAt initial name := by
  constructor
  · intro hagreed done initial rest k hsplit hrun
    have hnext : done ++ [.init initial] <+: commands := ⟨rest, by rw [hsplit]; simp⟩
    refine agreedAt_init.1 (hagreed _ _ hnext ?_)
    rw [commandAll?_concat, hrun]
    rfl
  · intro hfits done
    -- on the commands that were carried out, the latest one last
    induction done using List.reverseRecOn with
    | nil =>
      intro k _ hrun
      obtain rfl := Option.some.inj hrun
      exact agreedAt_start hstart name
    | append_singleton done command ih =>
      rintro k' ⟨rest, hsplit⟩ hrun
      rw [List.append_assoc] at hsplit
      rw [commandAll?_concat] at hrun
      obtain ⟨k, hbefore, hcommand⟩ := Option.bind_eq_some_iff.1 hrun
      have hk := ((Reachable.start hstart).commandAll? hbefore).inOrder
      refine agreedAt_command hk hcommand (fun initial heq => ?_) (fun s heq => ?_)
        (ih k ⟨_, hsplit⟩ hbefore)
      · exact hfits done initial rest k (by rw [← hsplit, heq]; rfl) hbefore
      · exact hhosts done s rest k (by rw [← hsplit, heq]; rfl) hbefore

end Kernel

/-! ## §3. A slider. -/

/-- Creates a slider and gives it the name `ui`. -/
def Executor.exhibitor : Executor Unit Unit where
  execute _ := .ask (.createElement none (.leaf "slider") (.int 1)) fun
    | .ok id => .done (.ok { bindings := .ofList [("ui", .element id)] })
    | .error _ => .done (.error "no slider")
  observe _ _ := .done (.ok ())

namespace Kernel

/-- An empty notebook without a cache. -/
def gallery : Kernel Unit Unit := { config := { cellCache := false }, session := { own := () } }

/-- One cell that creates the slider is run. -/
def exhibited : List (Command Unit Unit) :=
  [.apply (.register [⟨⟨0⟩, "slide", .ofList ["ui"], .empty⟩]), .runUntilIdle 2]

theorem gallery_start : Kernel.start { cellCache := false } {} 0 () = .ok gallery := rfl

/-- Once the cell has run, the slider has its name in both places. -/
theorem exhibited_facts [HashFunction] :
    ∃ k, gallery.commandAll? .exhibitor exhibited = some k ∧
      k.names.get? "ui" = some (.element ⟨"cell_0-0"⟩) ∧
      k.session.elements.names.get? "ui" = some ⟨"cell_0-0"⟩ := by
  have hall : (gallery.commandAll? .exhibitor exhibited).map (fun k =>
      (k.names.get? "ui", k.session.elements.names.get? "ui")) =
      some (some (.element ⟨"cell_0-0"⟩), some ⟨"cell_0-0"⟩) := by cbv
  obtain ⟨k, hrun, hfacts⟩ := Option.map_eq_some_iff.1 hall
  obtain ⟨hname, hbound⟩ := Prod.mk.inj hfacts
  exact ⟨k, hrun, hname, hbound⟩

/-- Bindings are given from outside that have the slider under its name, and the two go on to
agree. -/
theorem reseeded_same_agrees :
    let _ := Sha256.hashFunction
    let commands := exhibited ++ [.init [("ui", .element ⟨"cell_0-0"⟩)]]
    Kernel.start { cellCache := false } {} 0 () = .ok gallery ∧
      HostsAside .exhibitor gallery commands ∧
      (∃ k, gallery.commandAll? .exhibitor commands = some k ∧
        k.names.get? "ui" = some (.element ⟨"cell_0-0"⟩)) ∧
      ∀ done k, done <+: commands → gallery.commandAll? .exhibitor done = some k →
        k.AgreedAt "ui" := by
  intro _ commands
  obtain ⟨k₁, hrun, -, hbound⟩ := exhibited_facts
  have hhosts : HostsAside .exhibitor gallery commands := .of_none fun s => by
    simp [commands, exhibited]
  have hseeded : gallery.commandAll? .exhibitor commands =
      some (k₁.init [("ui", .element ⟨"cell_0-0"⟩)]) := by
    rw [commandAll?_concat, hrun]
    rfl
  refine ⟨gallery_start, hhosts, ⟨_, hseeded, rfl⟩,
    (agreedAt_throughout_iff .exhibitor gallery_start hhosts "ui").2 ?_⟩
  intro done initial rest k hsplit hdone a
  -- bindings are given from outside once, at the end
  have hlast : done = exhibited ∧ initial = [("ui", .element ⟨"cell_0-0"⟩)] := by
    rcases done with _ | ⟨c₁, _ | ⟨c₂, _ | ⟨c₃, done⟩⟩⟩ <;> simp_all [commands, exhibited]
  obtain ⟨rfl, rfl⟩ := hlast
  obtain rfl := Option.some.inj (hrun.symm.trans hdone)
  rw [hbound]
  have hgiven : (Table.ofList [("ui", Binding.element ⟨"cell_0-0"⟩)]).get? "ui" =
      some (.element ⟨"cell_0-0"⟩) := rfl
  rw [hgiven]
  simp

/-- **A name that is gone, and that the registry keeps.**  After the kernel is given no bindings at
all, the slider still has its name in the registry. -/
theorem reseeded_empty_disagrees :
    let _ := Sha256.hashFunction
    ¬ ∀ (x : Executor Unit Unit) (k₀ k : Kernel Unit Unit) (specs : List CellSpec) (rounds : Nat)
      (initial : List (String × Binding)), Kernel.start { cellCache := false } {} 0 () = .ok k₀ →
      k₀.commandAll? x [.apply (.register specs), .runUntilIdle rounds, .init initial] = some k →
      ∀ name, k.AgreedAt name := by
  intro _ hall
  obtain ⟨k₁, hrun, -, hbound⟩ := exhibited_facts
  have hseeded : gallery.commandAll? .exhibitor (exhibited ++ [.init []]) = some (k₁.init []) := by
    rw [commandAll?_concat, hrun]
    rfl
  have hagreed := hall .exhibitor gallery _ _ 2 [] gallery_start hseeded "ui"
  cases (hagreed ⟨"cell_0-0"⟩).2 hbound

end Kernel

end Notebook
