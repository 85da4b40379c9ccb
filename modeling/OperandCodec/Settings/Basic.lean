import OperandCodec.Text.Blank
import OperandCodec.Text.Numeral
/-!
# Settings

How large the two caches may grow. Settings are layered: the defaults, then
the variables of the environment, then the keys of a settings file. A
variable counts only if it holds a positive number; a file may say zero.
-/

namespace OperandCodec

/-- The variables of an environment; of two entries for a name the first counts. -/
abbrev Environment := List (String × String)

/-- The sizes of the two caches. -/
structure Settings where
  treeCacheSize : Nat
  inversionCacheSize : Nat
deriving DecidableEq, Repr

/-- The settings that a file gives; a size that it leaves out is absent. -/
structure SettingsFile where
  treeCacheSize : Option Nat
  inversionCacheSize : Option Nat
deriving DecidableEq, Repr

namespace Settings

/-- The settings where nothing else is said. -/
def defaults : Settings :=
  ⟨1024, 4096⟩

/-- The variable for the size of the cache of trees. -/
def treeCacheVariable : String := "OPMETA_PARSE_CACHE_SIZE"

/-- The variable for the size of the memo of inversions. -/
def inversionCacheVariable : String := "OPMETA_INVERSION_CACHE_SIZE"

/-- The positive number that a variable holds, if it holds one. -/
def sizeOfVariable (env : Environment) (name : String) : Option Nat := do
  let text ← env.lookup name
  let n ← Text.readUnsigned? 10 Text.maxCount (Text.trim text.toList)
  if 0 < n then some n else none

/-- The settings with the sizes that the environment gives. -/
def withEnvironment (env : Environment) (s : Settings) : Settings :=
  ⟨(sizeOfVariable env treeCacheVariable).getD s.treeCacheSize,
    (sizeOfVariable env inversionCacheVariable).getD s.inversionCacheSize⟩

/-- The defaults with the sizes that the environment gives. -/
def ofEnvironment (env : Environment) : Settings :=
  defaults.withEnvironment env

/-- The settings with the sizes that a file gives. -/
def withFile (file : SettingsFile) (s : Settings) : Settings :=
  ⟨file.treeCacheSize.getD s.treeCacheSize, file.inversionCacheSize.getD s.inversionCacheSize⟩

end Settings
end OperandCodec
