import PlainSync.Json.Token

/-!
# Reading JSON

A value is read token by token. The state between two tokens holds what has been read of the
arrays and objects that are still open. Objects come out in the order of their members' names.
-/

namespace PlainSync.Json

/-- An array or object that is still open, with what has been read of it, last part first. -/
inductive Frame where
  | array (items : List Json)
  /-- An object whose next value belongs to the name. -/
  | object (members : List (String × Json)) (name : String)

/-- How many arrays and objects may be open at a time. -/
def maxDepth : Nat := 127

/-- What may follow. Open arrays and objects are given innermost first. -/
inductive ReadState where
  /-- A value. -/
  | value (frames : List Frame)
  /-- The first item of an array, or its end. -/
  | firstItem (frames : List Frame)
  /-- The first name in an object, or its end. -/
  | firstName (frames : List Frame)
  /-- A name in an object. -/
  | name (frames : List Frame) (members : List (String × Json))
  /-- The colon behind a name. -/
  | colon (frames : List Frame) (members : List (String × Json)) (name : String)
  /-- What stands behind a value. -/
  | behind (frames : List Frame) (value : Json)

namespace ReadState

/-- Begin a value. -/
def beginValue (frames : List Frame) : Token → Option ReadState
  | .null => some (behind frames .null)
  | .bool truth => some (behind frames (.bool truth))
  | .integer number => some (behind frames (.integer number))
  | .real number => some (behind frames (.real number))
  | .string text => some (behind frames (.string text))
  | .openBracket => if frames.length < maxDepth then some (firstItem frames) else none
  | .openBrace => if frames.length < maxDepth then some (firstName frames) else none
  | _ => none

/-- Go on behind a value. -/
def endValue (read : Json) : List Frame → Token → Option ReadState
  | .array items :: frames, .comma => some (value (.array (read :: items) :: frames))
  | .array items :: frames, .closeBracket =>
    some (behind frames (.array (items.reverse ++ [read])))
  | .object members member :: frames, .comma =>
    some (name frames ((member, read) :: members))
  | .object members member :: frames, .closeBrace =>
    some (behind frames (sorted (members.reverse ++ [(member, read)])))
  | _, _ => none

/-- Read one token. -/
def step : ReadState → Token → Option ReadState
  | value frames, token => beginValue frames token
  | firstItem frames, .closeBracket => some (behind frames (.array []))
  | firstItem frames, token => beginValue (.array [] :: frames) token
  | firstName frames, .closeBrace => some (behind frames (.object []))
  | firstName frames, .string member => some (colon frames [] member)
  | firstName _, _ => none
  | name frames members, .string member => some (colon frames members member)
  | name _ _, _ => none
  | colon frames members member, .colon => some (value (.object members member :: frames))
  | colon _ _ _, _ => none
  | behind frames read, token => endValue read frames token

/-- Read tokens one after the other. -/
def run (state : ReadState) : List Token → Option ReadState
  | [] => some state
  | token :: more => (state.step token).bind fun state => state.run more

/-- The value that has been read, if nothing is open. -/
def result? : ReadState → Option Json
  | behind [] read => some read
  | _ => none

end ReadState

/-- The value that tokens spell. -/
def ofTokens? (tokens : List Token) : Option Json :=
  ((ReadState.value []).run tokens).bind ReadState.result?

/-- The value that a text spells. -/
def ofChars? (text : List Char) : Option Json := ofTokens? (tokens text)

/-- The value that a string spells. -/
def parse? (s : String) : Option Json := ofChars? s.toList

end PlainSync.Json
