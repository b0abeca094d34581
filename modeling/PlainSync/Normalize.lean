import PlainSync.Config
import PlainSync.Expansion
import PlainSync.Normalize.Report
import PlainSync.Source.Blanking

/-!
# Normalization

Every call of a built-in is replaced by its plain expansion, inner calls before the calls
around them. Sites are numbered in the order in which they are expanded, through all sources
of a session, so that no expansion declares a name that another one uses. A replacement is
padded with line ends up to the number in the text that it stands for, so that what follows
stays on its line.
-/

namespace PlainSync

open Source

namespace Source

/-- A rendered operand as it is put into an expansion: without line comments, which would
swallow what follows, and without blanks around it. -/
def operandText (rendered : Bytes) : Bytes :=
  (withoutLineComments [] rendered.trim).trim

/-- The operands of a call from its operands' texts. -/
def callOperands (texts : List Bytes) : Operands :=
  let pointer := texts.head?.getD []
  ⟨pointer, onOneLine [] pointer, texts.tail⟩

/-- A replacement with as many line ends behind it as it has fewer than the written text. -/
def padLines (written replacement : Bytes) : Bytes :=
  replacement ++
    List.replicate (Bytes.newlines written - Bytes.newlines replacement) Byte.newline

/-- The text that replaces a call, from its operands' texts and its site number. -/
def callText (builtin : Builtin) (gap : Bytes) (list : ArgumentList) (texts : List Bytes)
    (site : Nat) : Bytes :=
  padLines (builtin.spelling ++ callTail gap list)
    ((Expansion.program builtin).text (callOperands texts) (.numbered site))

mutual

/-- The text of a piece, the next free site number being `site`, and the site number that is
free behind it. -/
def Piece.render (site : Nat) : Piece → Bytes × Nat
  | .verbatim text => (text, site)
  | .kept builtin _ _ => (builtin.spelling, site)
  | .call builtin gap list operands =>
    let (texts, site) := renderOperands site operands
    (callText builtin gap list texts site, site + 1)

/-- The text of an outline, likewise. -/
def renderPieces (site : Nat) : List Piece → Bytes × Nat
  | [] => ([], site)
  | piece :: more =>
    let (text, site) := piece.render site
    let (texts, site) := renderPieces site more
    (text ++ texts, site)

/-- The texts of the operands of a call, likewise. -/
def renderOperands (site : Nat) : List (List Piece) → List Bytes × Nat
  | [] => ([], site)
  | operand :: more =>
    let (text, site) := renderPieces site operand
    let (texts, site) := renderOperands site more
    (operandText text :: texts, site)

end

mutual

/-- The calls of a piece that are expanded, in the order of their sites. -/
def Piece.expanded : Piece → List Builtin
  | .verbatim _ => []
  | .kept _ _ _ => []
  | .call builtin _ _ operands => expandedOperands operands ++ [builtin]

/-- The calls of an outline that are expanded. -/
def expandedPieces : List Piece → List Builtin
  | [] => []
  | piece :: more => piece.expanded ++ expandedPieces more

/-- The calls among the operands of a call that are expanded. -/
def expandedOperands : List (List Piece) → List Builtin
  | [] => []
  | operand :: more => expandedPieces operand ++ expandedOperands more

end

mutual

/-- The calls of a piece that are kept. -/
def Piece.keptCalls : Piece → List KeptCall
  | .verbatim _ => []
  | .kept builtin line reason => [⟨line, builtin, reason⟩]
  | .call _ _ _ operands => keptInOperands operands

/-- The calls of an outline that are kept. -/
def keptInPieces : List Piece → List KeptCall
  | [] => []
  | piece :: more => piece.keptCalls ++ keptInPieces more

/-- The calls among the operands of a call that are kept. -/
def keptInOperands : List (List Piece) → List KeptCall
  | [] => []
  | operand :: more => keptInPieces operand ++ keptInOperands more

end

end Source

/-- A normalized source. -/
structure Normalized where
  text : Bytes
  report : Report
  deriving DecidableEq, Repr

/-- The state that the sources of one session share. -/
structure Session where
  config : Config
  /-- The number of the next site. -/
  site : Nat := 0
  deriving DecidableEq, Repr

namespace Session

/-- Normalize a source. -/
def normalize (session : Session) (source : Bytes) : Normalized × Session :=
  if session.config.normalizeAtomics then
    let pieces := outline 1 [] source
    let (text, site) := renderPieces session.site pieces
    (⟨text, { expanded := expandedPieces pieces, kept := keptInPieces pieces }⟩,
      { session with site := site })
  else (⟨source, { passthrough := true }⟩, session)

/-- Normalize sources one after the other. -/
def normalizeAll (session : Session) : List Bytes → List Normalized × Session
  | [] => ([], session)
  | source :: more =>
    let (normalized, session) := session.normalize source
    let (others, session) := session.normalizeAll more
    (normalized :: others, session)

end Session

/-- Normalize a source in a session of its own. -/
def normalize (config : Config) (source : Bytes) : Normalized :=
  (Session.normalize { config := config } source).1

end PlainSync
