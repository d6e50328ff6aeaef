/-
  Notebook.Identity.Purity — the content of a unit, or why it has none.

  The content of a unit is hashed from its normal source, its modules and what each of its names
  stands for; a unit among them is hashed the same way.  A unit that is met again while it is being
  hashed counts by its structural identity, and one whose hashing is finished is not hashed again.
  A name that stands for something impure makes the unit impure, and every unit that reaches it.

  With pinning on, a module is hashed with its version or origin and with the modules it imports,
  those of one name once per unit; a module that has neither is an error.
-/
import Notebook.Identity.Strategy

namespace Notebook

/-! ## §1. Environments. -/

/-- What the names of units stand for, and what is known about runs. -/
structure Environment where
  /-- What names stand for; a name that is not here is unbound. -/
  bindings : Table String Resolved := .empty
  /-- What a unit did in an observed run. -/
  trace : WorkUnit → Option Trace := fun _ => none
  /-- Whether a recorded operation would observe the same thing now. -/
  stillHolds : TraceOp → Bool := fun _ => false

/-- A content digest, or why there is none. -/
inductive Purity where
  | pure (digest : Digest)
  | impure (reason : String)
deriving DecidableEq

variable [HashFunction]

/-! ## §2. Modules. -/

mutual

/-- The digest of a module.  `seen` are the names whose imports were hashed already. -/
def moduleDigest (pinned : Bool) : ModuleRef → (seen : List String) →
    Except Error (Digest × List String)
  | ⟨name, _, version, origin, imports⟩, seen =>
    let named := Field.ofText "name" name
    if pinned then
      match version <|> origin with
      | none => .error (.unknownModuleForPinning name)
      | some pin =>
        let identity := Field.ofText "identity" pin
        if seen.contains name then .ok (.ofFields "module" [named, identity], seen)
        else
          match moduleDigests pinned imports (name :: seen) with
          | .error e => .error e
          | .ok (digests, seen) =>
            .ok (.ofFields "module" (named :: identity :: digests.map (.ofDigest "import")), seen)
    else .ok (.ofFields "module" [named], seen)

/-- The digests of several modules in turn. -/
def moduleDigests (pinned : Bool) : List ModuleRef → (seen : List String) →
    Except Error (List Digest × List String)
  | [], seen => .ok ([], seen)
  | m :: rest, seen =>
    match moduleDigest pinned m seen with
    | .error e => .error e
    | .ok (d, seen) =>
      match moduleDigests pinned rest seen with
      | .error e => .error e
      | .ok (ds, seen) => .ok (d :: ds, seen)

end

/-! ## §3. Names. -/

/-- What has been found out about units, by their identities. -/
abbrev Findings := List (Digest × Purity)

/-- What the names of a unit contribute: fields, or the first impurity. -/
inductive Contribution where
  | fields (fields : List Field)
  | impure (reason : String)

/-- What a unit that is met again while it is being hashed counts as. -/
def recursionDigest (identity : Digest) : Digest := .ofText ("recursive:" ++ identity.hex)

/-- Goes through the names of the unit called `unit`; `inner` hashes the units they stand for. -/
def contributions (env : Environment) (pinned : Bool) (unit : String)
    (inner : WorkUnit → Findings → Except Error (Purity × Findings)) :
    List String → Findings → Except Error (Contribution × Findings)
  | [], found => .ok (.fields [], found)
  | name :: rest, found =>
    let continueWith (field : Field) (found : Findings) :=
      match contributions env pinned unit inner rest found with
      | .ok (.fields fields, found) => .ok (.fields (.ofText "var" name :: field :: fields), found)
      | other => other
    match env.bindings.get? name with
    | none => continueWith ⟨"unbound", []⟩ found
    | some (.value v) => continueWith (.ofDigest "value" (.ofValue v)) found
    | some (.module m) =>
      match moduleDigest pinned m [] with
      | .error e => .error e
      | .ok (d, _) => continueWith (.ofDigest "module" d) found
    | some (.unit u) =>
      match inner u found with
      | .error e => .error e
      | .ok (.pure d, found) => continueWith (.ofDigest "unit" d) found
      | .ok (.impure reason, found) =>
        .ok (.impure s!"'{unit}' wraps impure '{u.name}': {reason}", found)
    | some (.impure reason) => .ok (.impure s!"'{name}' is impure: {reason}", found)

/-! ## §4. Units. -/

/-- The content of a unit.  `opened` are the identities of the units being hashed around it; `depth`
bounds how many more may be opened. -/
def purityAt (env : Environment) (pinned : Bool) : (depth : Nat) → (opened : List Digest) →
    WorkUnit → Findings → Except Error (Purity × Findings)
  | 0, _, u, found => .ok (.pure (recursionDigest u.identity), found)
  | depth + 1, opened, u, found =>
    let key := u.identity
    if opened.contains key then .ok (.pure (recursionDigest key), found)
    else
      match found.lookup key with
      | some known => .ok (known, found)
      | none =>
        match moduleDigests pinned u.modules [] with
        | .error e => .error e
        | .ok (modules, _) =>
          let inner := purityAt env pinned depth (key :: opened)
          match contributions env pinned u.name inner u.freeVars.toList found with
          | .error e => .error e
          | .ok (.impure reason, found) => .ok (.impure reason, (key, .impure reason) :: found)
          | .ok (.fields names, found) =>
            let d := Digest.ofFields "content" (.ofText "source" u.normalSource ::
              modules.map (.ofDigest "module") ++ names)
            .ok (.pure d, (key, .pure d) :: found)

/-- How many units can be open at once: the root and each unit that a name stands for. -/
def Environment.maxOpen (env : Environment) : Nat := env.bindings.size + 2

/-- The content of a unit, or why it has none. -/
def purity (env : Environment) (pinned : Bool) (u : WorkUnit) : Except Error Purity :=
  (purityAt env pinned env.maxOpen [] u []).map (·.1)

/-- The identity under which results of a unit are cached: by content when it is pure, and by its
observed run otherwise. -/
def identify (env : Environment) (pinned : Bool) (u : WorkUnit) : Except Error Strategy :=
  match purity env pinned u with
  | .error e => .error e
  | .ok (.pure d) => .ok (.content d)
  | .ok (.impure reason) =>
    match env.trace u with
    | some t => .ok (executionPath u t)
    | none => .error (.uncacheable u.name reason)

end Notebook
