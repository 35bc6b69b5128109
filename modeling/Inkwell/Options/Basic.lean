import Inkwell.Machine.Basic
import Inkwell.Optimizer.Basic

/-!
# Options

What can be chosen about how programs are compiled, run and kept.
-/

namespace Inkwell

/-- The release, which is a part of every key in the cache. -/
def release : Text := "0.3.0"

structure Options where
  optimize : Bool := true
  /-- The names of the passes, in the order they are used in; without, the optimizer has its own. -/
  passes : Option (List Text) := some Optimizer.defaultPasses
  maxRounds : Int := Optimizer.defaultRounds
  inlineThreshold : Int := Optimizer.defaultThreshold
  maxFrames : Int := Machine.defaultMaxFrames
  /-- The file that keeps compiled programs; none if the name is empty. -/
  cachePath : Text := ""
  cacheEntries : Int := 64
deriving Inhabited, DecidableEq

namespace Options

def defaultCacheEntries : Nat := 64

def optimizer (o : Options) : Except Text (Option Optimizer) :=
  if o.optimize then (Optimizer.ofNames o.passes o.maxRounds o.inlineThreshold).map some
  else .ok none

/-- A text that tells apart options under which different code is generated. -/
def fingerprint (o : Options) : Text :=
  let passes : Text := if o.optimize then Text.join "," (o.passes.getD []) else "off"
  "opt=" ++ passes ++ ";iter=" ++ Text.ofInt o.maxRounds ++ ";inline=" ++
    Text.ofInt o.inlineThreshold

end Options

end Inkwell
