/-!
# Feature sentinels

The facts that a C source can query with `#ifdef` to find out how it is being processed.
-/

namespace PlainSync

/-- Whether a build provides stand-ins for the built-ins and expands their calls where nothing else
is said. This is the build that does. -/
def builtWithAtomics : Bool := true

/-- The facts. -/
structure Sentinels where
  /-- The source is being analysed. -/
  present : Bool := true
  /-- Block literals may be assumed. They never are, even where the compiler has them. -/
  blocksAvailable : Bool := false
  /-- The built-ins have plain stand-ins. -/
  syncAtomics : Bool := builtWithAtomics
  deriving DecidableEq, Repr

namespace Sentinels

/-- The name defined where a source is being analysed. -/
def presentName : String := "__CENTRINEL__"

/-- The name defined where block literals are available. -/
def blocksName : String := "__BLOCKS__"

/-- The name defined where the built-ins have stand-ins. -/
def syncAtomicsName : String := "__CENTRINEL_HACK_SYNC_ATOMICS"

/-- Whether the facts define a name. There is no answer for other names. -/
def isDefined? (facts : Sentinels) (name : String) : Option Bool :=
  if name = presentName then some facts.present
  else if name = blocksName then some facts.blocksAvailable
  else if name = syncAtomicsName then some facts.syncAtomics
  else none

/-- The directives that establish the facts, in order. -/
def directives (facts : Sentinels) : List String :=
  (if facts.blocksAvailable then [] else [s!"#undef {blocksName}"]) ++
    (if facts.present then [s!"#define {presentName} 1"] else []) ++
    (if facts.syncAtomics then [s!"#define {syncAtomicsName} 1"] else [])

end Sentinels

end PlainSync
