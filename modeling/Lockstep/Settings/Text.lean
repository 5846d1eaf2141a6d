import Lockstep.Json.Reader
import Lockstep.Json.Value
import Lockstep.Settings.Basic
/-!
Settings as JSON text. Fields may come in any order and may be left out, in which case they keep
their defaults.
-/

set_option autoImplicit false
set_option relaxedAutoImplicit false

namespace Lockstep

def IndexPolicy.word : IndexPolicy → String
  | propagate => "propagate"
  | exclude => "exclude"

def IndexPolicy.table : List (String × IndexPolicy) :=
  [("propagate", .propagate), ("exclude", .exclude)]

namespace EnabledChecks

def toJson (c : EnabledChecks) : Json :=
  .obj [
    ("backward_branch", .bool c.backwardBranch),
    ("barrier", .bool c.barrier),
    ("recursion", .bool c.recursion),
    ("single_work_item", .bool c.singleWorkItem)]

def slot (key : String) (set : EnabledChecks → Bool → EnabledChecks) :
    JsonReader.Slot EnabledChecks where
  key := key
  read c := fun cs => do
    let (b, rest) ← JsonReader.boolean cs
    return (set c b, rest)

def slots : List (JsonReader.Slot EnabledChecks) := [
  slot "backward_branch" fun c b => { c with backwardBranch := b },
  slot "barrier" fun c b => { c with barrier := b },
  slot "recursion" fun c b => { c with recursion := b },
  slot "single_work_item" fun c b => { c with singleWorkItem := b }]

def reader : JsonReader EnabledChecks := JsonReader.record "struct EnabledChecks" slots {}

end EnabledChecks

namespace Settings

def toJson (s : Settings) : Json :=
  .obj [
    ("identity_functions", .arr (s.identityFunctions.map .str)),
    ("barrier_functions", .arr (s.barrierFunctions.map .str)),
    ("max_recursion_depth", .nat s.maxRecursionDepth),
    ("index_policy", .str s.indexPolicy.word),
    ("checks", s.checks.toJson)]

/-- A field that is read by `read` and stored by `set`. -/
def slot {α : Type} (key : String) (read : JsonReader α) (set : Settings → α → Settings) :
    JsonReader.Slot Settings where
  key := key
  read s := fun cs => do
    let (a, rest) ← read cs
    return (set s a, rest)

def slots : List (JsonReader.Slot Settings) := [
  slot "identity_functions" (JsonReader.list (JsonReader.string "a string"))
    fun s names => { s with identityFunctions := names },
  slot "barrier_functions" (JsonReader.list (JsonReader.string "a string"))
    fun s names => { s with barrierFunctions := names },
  slot "max_recursion_depth" JsonReader.natural fun s n => { s with maxRecursionDepth := n },
  slot "index_policy" (JsonReader.variant IndexPolicy.table) fun s p => { s with indexPolicy := p },
  slot "checks" EnabledChecks.reader fun s c => { s with checks := c }]

def reader : JsonReader Settings := JsonReader.record "struct CheckConfig" slots {}

def ofText (text : String) : Except JsonFault Settings := JsonReader.whole reader text

def toText (s : Settings) : String := s.toJson.compact

end Settings

end Lockstep
