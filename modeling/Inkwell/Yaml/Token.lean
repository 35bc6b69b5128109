import Inkwell.Text.Basic

/-!
# Tokens of a configuration document

Marks of the structure, which may be written or follow from the indentation, and what stands between
them.
-/

namespace Inkwell

namespace Yaml

inductive Token where
  /-- The version of the notation that a document is written in. -/
  | version (major minor : Nat)
  /-- A handle that stands for the start of tags. -/
  | tagHandle (handle start : Text)
  | documentStart
  | documentEnd
  /-- The start of a sequence or mapping that is told by its indentation. -/
  | blockSequenceStart
  | blockMappingStart
  | blockEnd
  | flowSequenceStart
  | flowSequenceEnd
  | flowMappingStart
  | flowMappingEnd
  /-- The dash in front of an item. -/
  | blockEntry
  /-- The comma between items. -/
  | flowEntry
  | key
  | value
  | alias (name : Text)
  | anchor (name : Text)
  | tag (handle suffix : Text)
  | scalar (plain : Bool) (text : Text)
  | streamEnd
deriving DecidableEq, Inhabited

end Yaml

end Inkwell
