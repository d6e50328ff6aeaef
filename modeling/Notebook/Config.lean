/-
  Notebook.Config — the configuration of a kernel, and its documents.

  Every field has a default, so a document names only what it changes.  The message capacity must be
  positive.
-/
import Notebook.Disk.Basic
import Notebook.Graph.Basic
import Notebook.Json.Parser
import Notebook.Wire.Reader

namespace Notebook

open Wire

/-- How watched paths are followed. -/
structure WatchConfig where
  /-- Whether the operating system is asked to report changes. -/
  enabled : Bool := true
  /-- How long changes are gathered, in milliseconds. -/
  debounceMs : Nat := 200
deriving DecidableEq, Repr

/-- The configuration of a kernel. -/
structure Config where
  /-- Names that begin with this are private to their cell. -/
  privateMarker : String := defaultPrivateMarker
  /-- Whether unchanged pure cells are served from the cache. -/
  cellCache : Bool := true
  /-- Whether identities include the versions of modules. -/
  modulePinning : Bool := false
  /-- How many messages are kept for a subscriber. -/
  messageCapacity : Nat := 256
  watch : WatchConfig := {}
  /-- Where the cache is loaded from and saved to. -/
  persistPath : Option Path := none
deriving DecidableEq, Repr

/-- Why there is no configuration. -/
inductive ConfigError where
  /-- The text is not a configuration document. -/
  | malformed
  /-- It was refused, or could not be read. -/
  | refused (cause : Error)
deriving DecidableEq, Repr

namespace Config

/-- Accepts a configuration with a positive capacity. -/
def validate (c : Config) : Except Error Config :=
  if c.messageCapacity = 0 then .error (.config "message_capacity must be at least 1") else .ok c

/-- The written form. -/
def toJson (c : Config) : Json :=
  .object [("private_prefix", .string c.privateMarker), ("cell_cache", .bool c.cellCache),
    ("module_pinning", .bool c.modulePinning), ("message_capacity", .nat c.messageCapacity),
    ("watch", .object [("enabled", .bool c.watch.enabled),
      ("debounce_ms", .nat c.watch.debounceMs)]),
    ("cache", .object [("persist_path", .ofOption (fun p => .string p.text) c.persistPath)])]

/-- Reads how paths are watched. -/
def watchOfJson? (doc : Json) : Option WatchConfig := do
  let r ← record? ["enabled", "debounce_ms"] doc
  let d : WatchConfig := {}
  return {
    enabled := ← r.defaulted "enabled" d.enabled flag?
    debounceMs := ← r.defaulted "debounce_ms" d.debounceMs natural? }

/-- Reads where the cache is kept. -/
def cacheOfJson? (doc : Json) : Option (Option Path) := do
  let r ← record? ["persist_path"] doc
  r.defaulted "persist_path" none (nullable? fun p => (text? p).map Path.mk)

/-- Reads a configuration. -/
def ofJson? (doc : Json) : Option Config := do
  let r ← record? ["private_prefix", "cell_cache", "module_pinning", "message_capacity", "watch",
    "cache"] doc
  let d : Config := {}
  return {
    privateMarker := ← r.defaulted "private_prefix" d.privateMarker text?
    cellCache := ← r.defaulted "cell_cache" d.cellCache flag?
    modulePinning := ← r.defaulted "module_pinning" d.modulePinning flag?
    messageCapacity := ← r.defaulted "message_capacity" d.messageCapacity natural?
    watch := ← r.defaulted "watch" d.watch watchOfJson?
    persistPath := ← r.defaulted "cache" d.persistPath cacheOfJson? }

/-- Reads a configuration document. -/
def parse (source : String) : Except ConfigError Config :=
  match (Json.parse? source).bind ofJson? with
  | none => .error .malformed
  | some c => c.validate.mapError .refused

/-- Reads a configuration document from a file.  What is refused is said to be in that file. -/
def load (d : Disk) (p : Path) : Except ConfigError Config :=
  match d.readText p with
  | .error e => .error (.refused (.io e))
  | .ok source =>
    (parse source).mapError fun e =>
      match e with
      | .malformed => .malformed
      | .refused cause => .refused (.config s!"{p.text}: {cause.message}")

end Config

end Notebook
