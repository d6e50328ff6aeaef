/-
  Notebook.Identity.Strategy — under what identity a result is cached.

  A pure unit is known by its content: its source and everything it closes over.  A unit with an
  impure name is known by the path of one execution.  Entries of the two kinds never stand in for
  each other, even under one digest.
-/
import Notebook.Identity.Trace

namespace Notebook

/-- The kind of identity and its digest. -/
inductive Strategy where
  /-- Source and pure inputs. -/
  | content (digest : Digest)
  /-- The operations of one execution. -/
  | path (digest : Digest)
deriving DecidableEq

namespace Strategy

/-- The digest, whatever the kind. -/
def digest : Strategy → Digest
  | .content d => d
  | .path d => d

/-- Whether the identity is that of the content. -/
def isContent : Strategy → Bool
  | .content _ => true
  | .path _ => false

/-- The kind in words. -/
def kind : Strategy → String
  | .content _ => "content_addressed"
  | .path _ => "execution_path"

/-- Kind and digest. -/
def text (s : Strategy) : String := s.kind ++ ":" ++ s.digest.hex

end Strategy

/-- The identity of a unit by one recorded execution. -/
def executionPath [HashFunction] (u : WorkUnit) (t : Trace) : Strategy :=
  .path (.ofFields "execution_path"
    [.ofText "source" u.normalSource, .ofDigest "trace" t.digest])

end Notebook
