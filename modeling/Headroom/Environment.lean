import Headroom.Number.Reader

/-!
# The process environment

Variables of this program are written `CLIFFGUARD_…`, and the lower-case spelling `cliffguard_…` is
accepted in their place. A variable that is set to the empty string counts as unset.
-/

namespace Headroom

/-- The variables that are set, with their values. -/
structure Environment where
  bindings : List (Bytes × Bytes)

namespace Environment

/-- The environment with nothing set. -/
def empty : Environment := ⟨[]⟩

/-- The value of a variable under exactly this name, unless it is unset or empty. -/
def get? (env : Environment) (name : Bytes) : Option Bytes := do
  let (_, value) ← env.bindings.find? (·.1 == name)
  if value.isEmpty then none else some value

def upper : Bytes := text "CLIFFGUARD_"

def lower : Bytes := text "cliffguard_"

/-- The other spelling of a variable's name. -/
def otherSpelling? (name : Bytes) : Option Bytes :=
  if upper.isPrefixOf name then some (lower ++ name.drop upper.length)
  else if lower.isPrefixOf name then some (upper ++ name.drop lower.length)
  else none

/-- The value of a variable under its name, else under the other spelling. -/
def lookup? (env : Environment) (name : Bytes) : Option Bytes :=
  env.get? name <|> (otherSpelling? name).bind env.get?

/-- An integer variable; the default when it is unset or no integer. -/
def int (env : Environment) (name : Bytes) (default : Int) : Int :=
  ((env.lookup? name).bind Reader.plainInt?).getD default

/-- A variable that holds a fraction. -/
def float (env : Environment) (name : Bytes) (default : Float) : Float :=
  ((env.lookup? name).bind Reader.plainFloat?).getD default

/-- Words for yes and no, in any case. -/
def flagOf? (s : Bytes) : Option Bool :=
  let s := Bytes.lower s
  if [text "1", text "true", text "yes", text "on"].contains s then some true
  else if [text "0", text "false", text "no", text "off"].contains s then some false
  else none

/-- A variable that holds yes or no. -/
def flag (env : Environment) (name : Bytes) (default : Bool) : Bool :=
  ((env.lookup? name).bind flagOf?).getD default

/-- One path below another, with one separator between them. -/
def below (base path : Bytes) : Bytes :=
  if base.isEmpty || base.getLast? == some 47 then base ++ path else base ++ 47 :: path

/-- Where the configuration file is looked for: below the configuration directory of the user, else
below their home directory. -/
def configPath? (env : Environment) : Option Bytes :=
  let base := env.get? (text "XDG_CONFIG_HOME") <|>
    (env.get? (text "HOME")).map fun home => below home (text ".config")
  base.map fun base => below (below base (text "cliffguard")) (text "config.toml")

/-- Where a path of the process file system is read: below the given root, if there is one. -/
def procPath (env : Environment) (path : Bytes) : Bytes :=
  match (text "/proc").isPrefixOf path, env.get? (text "CLIFFGUARD_PROC_ROOT") with
  | true, some root => below root (path.drop 1)
  | _, _ => path

end Environment

end Headroom
