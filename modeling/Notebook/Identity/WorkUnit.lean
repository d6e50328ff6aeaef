/-
  Notebook.Identity.WorkUnit — what can be cached, and what its names stand for.

  A unit is a piece of code together with the names it closes over and the modules it uses.  Its
  structural identity covers its normal source, its names and its modules as written; the unit's
  own name is not part of it.
-/
import Notebook.Error
import Notebook.Identity.Framing
import Notebook.Text.Lines

namespace Notebook

/-! ## §1. Modules. -/

/-- A module that a unit uses, with the modules it imports in turn. -/
structure ModuleRef where
  /-- The canonical name. -/
  name : String
  /-- The name under which the unit knows it. -/
  localName : Option String := none
  version : Option String := none
  /-- Where it was loaded from. -/
  origin : Option String := none
  imports : List ModuleRef := []
deriving Inhabited

/-- What tells one state of a module from another: its version, or else its origin. -/
def ModuleRef.pin? (m : ModuleRef) : Option String := m.version <|> m.origin

mutual

/-- The written form of a module, in this order of fields. -/
def ModuleRef.toJson : ModuleRef → Json
  | ⟨name, localName, version, origin, imports⟩ =>
    .object [("name", .string name), ("alias", .ofOption .string localName),
      ("version", .ofOption .string version), ("origin", .ofOption .string origin),
      ("imports", .array (ModuleRef.listToJson imports))]

/-- The written forms of several modules. -/
def ModuleRef.listToJson : List ModuleRef → List Json
  | [] => []
  | m :: rest => m.toJson :: ModuleRef.listToJson rest

end

/-! ## §2. Units. -/

/-- A piece of code whose results may be cached. -/
structure WorkUnit where
  name : String
  source : String
  /-- The names it closes over. -/
  freeVars : OrderedSet String := .empty
  /-- The modules it uses directly. -/
  modules : List ModuleRef := []
deriving Inhabited

namespace WorkUnit

/-- The source up to layout. -/
def normalSource (u : WorkUnit) : String := Notebook.normalSource u.source

/-- The fields of the structural identity. -/
def identityFields (u : WorkUnit) : List Field :=
  .ofText "source" u.normalSource ::
    u.freeVars.toList.map (Field.ofText "var") ++
    u.modules.map fun m => Field.ofText "module" m.toJson.text

/-- The structural identity. -/
def identity [HashFunction] (u : WorkUnit) : Digest := .ofFields "unit" u.identityFields

end WorkUnit

/-- What a name that a unit closes over stands for. -/
inductive Resolved where
  /-- A plain value. -/
  | value (v : Json)
  /-- Another unit. -/
  | unit (u : WorkUnit)
  /-- An imported module. -/
  | module (m : ModuleRef)
  /-- Something whose identity is not stable, and why. -/
  | impure (reason : String)

end Notebook
