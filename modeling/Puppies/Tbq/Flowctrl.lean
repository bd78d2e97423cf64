/-
# The rules of the bandwidth control (`apps/tbqd/…/controller/admin/flowctrl.lua`)

The web pages keep the rules in one JSON file.  Each request reads the file, decodes it, changes
the table and saves it: `save_file` encodes the table, makes three textual substitutions over the
WHOLE text, writes it to a temporary file and moves that into place.

Tables are the values of `Lib/Json.lean`.  A table that has both entries 1, 2, … and entries under
names is not among them; the code makes one only out of a file whose parts are not what they
should be, and that is `none` here, as are the errors of Lua.  The JSON library is a parameter.
-/
import Puppies.Lib.Gsub
import Puppies.Lib.Json

namespace Puppies

open JsonText Gsub

variable {ν : Type}

/-! ## 1. Tables of Lua -/

/-- `"Rules"`, `"Name"` and `"Enabled"`. -/
def rulesKey : Str := ascii "Rules"
def nameKey : Str := ascii "Name"
def enabledKey : Str := ascii "Enabled"

/-- `v[k]`, which is `nil` or a value.  A string has methods, none of them with a name that is used
here. -/
def luaIndex (k : Str) : Value ν → Option (Option (Value ν))
  | .obj ms => some (lookup k ms)
  | .arr _ => some none
  | .str _ => some none
  | _ => none

/-- `v[k] = x` -/
def setField (k : Str) (x : Value ν) : Value ν → Option (Value ν)
  | .obj ms => some (.obj (ms.filter (fun m => m.1 ≠ k) ++ [(k, x)]))
  | .arr [] => some (.obj [(k, x)])
  | _ => none

/-- What `ipairs(v)` goes through. -/
def ipairs : Value ν → Option (List (Value ν))
  | .arr vs => some vs
  | .obj _ => some []
  | _ => none

/-- `table.insert(v, x)` -/
def tableInsert (x : Value ν) : Value ν → Option (Value ν)
  | .arr vs => some (.arr (vs ++ [x]))
  | .obj [] => some (.arr [x])
  | _ => none

/-- The fields of a request, `luci.http.formvalue()`. -/
structure Form where
  fields : List (Str × Str)

namespace Form

variable (map : Form)

/-- `map["Name"]` -/
def name : Option Str := lookup nameKey map.fields

/-- The fields as a table. -/
def table : Value ν := .obj (map.fields.map fun m => (m.1, .str m.2))

/-- `for k, v in pairs(map) do t[k] = v end` -/
def setAll (t : Value ν) : Option (Value ν) :=
  map.fields.foldlM (fun t m => setField m.1 (.str m.2) t) t

end Form

/-- `v["Name"] == map["Name"]`, of what these two are. -/
def sameName : Option (Value ν) → Option Str → Bool
  | some (.str s), some t => s = t
  | none, none => true
  | _, _ => false

/-! ## 2. The requests

What a request does to the table that was read: an error, or the answer 1, or a table to save and
the answer 0. -/

/-- The loop of `insRules`: whether there is a rule with this name. -/
def findName (map : Form) : List (Value ν) → Option Bool
  | [] => some false
  | v :: vs => do
    let name ← luaIndex nameKey v
    if sameName name map.name then return true else findName map vs

/-- `insRules` -/
def insRules (map : Form) (fmap : Value ν) : Option (Option (Value ν)) := do
  let rules ← luaIndex rulesKey fmap
  let rules ← rules
  let f ← findName map (← ipairs rules)
  if f then return none
  else
    let rules ← tableInsert map.table rules
    return some (← setField rulesKey rules fmap)

/-- `not fmap["Rules"]` -/
def noRules : Option (Value ν) → Bool
  | none => true
  | some (.bool false) => true
  | _ => false

/-- The loop of `updateRules`: `arr` and `f`. -/
def updateLoop (map : Form) : List (Value ν) → Option (List (Value ν) × Bool)
  | [] => some ([], false)
  | v :: vs => do
    let name ← luaIndex nameKey v
    if sameName name map.name then
      let v ← map.setAll v
      let (arr, _) ← updateLoop map vs
      return (v :: arr, true)
    else
      let (arr, f) ← updateLoop map vs
      return (v :: arr, f)

/-- The loop of `deletRules`. -/
def deletLoop (map : Form) : List (Value ν) → Option (List (Value ν) × Bool)
  | [] => some ([], false)
  | v :: vs => do
    let name ← luaIndex nameKey v
    let (arr, f) ← deletLoop map vs
    if sameName name map.name then return (arr, true) else return (v :: arr, f)

/-- What `updateRules` and `deletRules` do with their loops. -/
def withLoop (loop : List (Value ν) → Option (List (Value ν) × Bool)) (fmap : Value ν) :
    Option (Option (Value ν)) := do
  let rules ← luaIndex rulesKey fmap
  if noRules rules then return none
  else
    let rules ← rules
    let (arr, f) ← loop (← ipairs rules)
    let fmap ← setField rulesKey (.arr arr) fmap
    if f then return some fmap else return none

/-- `updateRules` -/
def updateRules (map : Form) (fmap : Value ν) : Option (Option (Value ν)) :=
  withLoop (updateLoop map) fmap

/-- `deletRules` -/
def deletRules (map : Form) (fmap : Value ν) : Option (Option (Value ν)) :=
  withLoop (deletLoop map) fmap

/-- `set_globalshare` -/
def setGlobalshare (map : Form) (fmap : Value ν) : Option (Option (Value ν)) :=
  (map.setAll fmap).map some

/-- The requests that change the file. -/
inductive RuleRequest
  | insRules (map : Form)
  | updateRules (map : Form)
  | deletRules (map : Form)
  | setGlobalshare (map : Form)

/-- What a request does to what it read, `s`.  Only `set_globalshare` goes on without a file. -/
def ruleEdit (cj : Codec ν) (req : RuleRequest) (s : Option Str) :
    Option (Option (Value ν)) :=
  match req with
  | .insRules map => s.bind fun s => (cj.decode s).bind (insRules map)
  | .updateRules map => s.bind fun s => (cj.decode s).bind (updateRules map)
  | .deletRules map => s.bind fun s => (cj.decode s).bind (deletRules map)
  | .setGlobalshare map =>
    match s with
    | some s => (cj.decode s).bind (setGlobalshare map)
    | none => setGlobalshare map (.obj [])

/-! ## 3. Saving -/

/-- `true` and `false`, as text. -/
def boolWord (b : Bool) : Str := ascii (if b then "true" else "false")

/-- `'"Enabled":"true"'` and `'"Enabled":"false"'` -/
def enabledText (b : Bool) : Str := quoted enabledKey ++ 0x3a :: quoted (boolWord b)

/-- `'"Enabled":true'` and `'"Enabled":false'` -/
def enabledBool (b : Bool) : Str := quoted enabledKey ++ 0x3a :: boolWord b

example : enabledText true = ascii "\"Enabled\":\"true\"" := rfl
example : enabledBool false = ascii "\"Enabled\":false" := rfl

/-- The text that `save_file` writes. -/
def saveText (cj : Codec ν) (map : Value ν) : Str :=
  let s := cj.encode map
  let s := gsub emptyObj emptyArr s
  let s := gsub (enabledText true) (enabledBool true) s
  gsub (enabledText false) (enabledBool false) s

/-- A request on its own: the `state` of its answer, with `none` for an error of the server, and
the file. -/
def ruleHandle (cj : Codec ν) (req : RuleRequest) (file : Option Str) :
    Option Nat × Option Str :=
  match ruleEdit cj req file with
  | none => (none, file)
  | some none => (some 1, file)
  | some (some map) => (some 0, some (saveText cj map))

end Puppies
