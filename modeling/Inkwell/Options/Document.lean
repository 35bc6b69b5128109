import Inkwell.Options.Basic
import Inkwell.Path
import Inkwell.Yaml.Decode
import Inkwell.Yaml.Reader

/-!
# Options in a document

A configuration document is a mapping with the sections `optimizer`, `vm` and `cache`. Every section
and every choice in it may be left out; a choice of zero or nothing is left out too. Keys that mean
nothing are passed over.
-/

namespace Inkwell

inductive OptionsError where
  /-- The text is no document, or a node in it is not of the right kind. -/
  | unreadable
  | unknownPass (place : Nat) (name : Text)
  | notPositive (choice : Text)
deriving DecidableEq

def OptionsError.message (path : Text) : OptionsError → Text
  | unreadable => "parsing " ++ path
  | unknownPass place name =>
    path ++ ": optimizer.passes[" ++ Text.ofNat place ++ "]: unknown pass " ++ name.quoted ++
      " (known: " ++ Text.join ", " Optimizer.defaultPasses ++ ")"
  | notPositive choice => path ++ ": " ++ choice ++ " must be positive"

namespace Options

/-- The choices that a document names; a number of zero or an empty text is no choice. -/
structure Draft where
  optimize : Option Bool := none
  passes : Option (List Text) := none
  maxRounds : Int := 0
  inlineThreshold : Int := 0
  maxFrames : Int := 0
  cachePath : Text := ""
  cacheEntries : Int := 0

namespace Draft

def optimizerFields (d : Yaml.Document) : List (Text × Yaml.Field Draft) :=
  [("enabled", Yaml.Document.field d.boolean? fun b o => { o with optimize := some b }),
    ("passes", Yaml.Document.field d.texts? fun names o => { o with passes := some names }),
    ("max_iterations", Yaml.Document.field d.integer? fun n o => { o with maxRounds := n }),
    ("inline_threshold", Yaml.Document.field d.integer? fun n o => { o with inlineThreshold := n })]

def machineFields (d : Yaml.Document) : List (Text × Yaml.Field Draft) :=
  [("max_frames", Yaml.Document.field d.integer? fun n o => { o with maxFrames := n })]

def cacheFields (d : Yaml.Document) : List (Text × Yaml.Field Draft) :=
  [("path", Yaml.Document.field d.text? fun t o => { o with cachePath := t }),
    ("memory_entries", Yaml.Document.field d.integer? fun n o => { o with cacheEntries := n })]

def sections (d : Yaml.Document) : List (Text × Yaml.Field Draft) :=
  [("optimizer", d.record (optimizerFields d)), ("vm", d.record (machineFields d)),
    ("cache", d.record (cacheFields d))]

end Draft

def nonzeroOr (default : Nat) (n : Int) : Int := if n = 0 then default else n

def ofDraft (c : Draft) : Options :=
  { optimize := c.optimize.getD true
    passes := some (c.passes.getD Optimizer.defaultPasses)
    maxRounds := nonzeroOr Optimizer.defaultRounds c.maxRounds
    inlineThreshold := nonzeroOr Optimizer.defaultThreshold c.inlineThreshold
    maxFrames := nonzeroOr Machine.defaultMaxFrames c.maxFrames
    cachePath := c.cachePath
    cacheEntries := nonzeroOr defaultCacheEntries c.cacheEntries }

def check (o : Options) : Except OptionsError Unit := do
  let passes := o.passes.getD []
  match passes.findIdx? fun name => !Optimizer.defaultPasses.contains name with
  | some place => throw (.unknownPass place (passes.getD place ""))
  | none => pure ()
  if o.maxRounds < 0 then throw (.notPositive "optimizer.max_iterations")
  if o.inlineThreshold < 0 then throw (.notPositive "optimizer.inline_threshold")
  if o.maxFrames < 0 then throw (.notPositive "vm.max_frames")
  if o.cacheEntries < 0 then throw (.notPositive "cache.memory_entries")

def parse (document : Text) : Except OptionsError Options := do
  match (Yaml.read? document).bind fun d => d.decode? (Draft.sections d) {} with
  | none => throw .unreadable
  | some draft =>
    let o := ofDraft draft
    o.check
    return o

def fileName : Text := "inkvm.yaml"

/-- The paths at which options are looked for, given an absolute directory: in it, and then in every
directory around it. -/
def candidates (directory : Text) : List Text :=
  (Path.ancestors directory).map (Path.join · fileName)

end Options

end Inkwell
