import PlainSync.Number.Double

/-!
# JSON values

The values of the data format that settings and logs are written in. The members of an object
stand in the order in which they are written.
-/

namespace PlainSync

/-- A JSON value. -/
inductive Json where
  | null
  | bool (value : Bool)
  | integer (value : Int)
  | real (value : Double)
  | string (value : String)
  | array (items : List Json)
  | object (members : List (String × Json))

namespace Json

/-- Put a member in its place by name. It replaces one of the same name. -/
def insertMember (member : String × Json) : List (String × Json) → List (String × Json)
  | [] => [member]
  | other :: more =>
    if member.1 < other.1 then member :: other :: more
    else if other.1 < member.1 then other :: insertMember member more
    else member :: more

/-- The object with these members, in the order of their names. Of two members of one name the
last one stands. -/
def sorted (members : List (String × Json)) : Json :=
  object (members.foldl (fun done member => insertMember member done) [])

/-- The member of that name, if the value is an object that has one. -/
def get? (value : Json) (name : String) : Option Json :=
  match value with
  | object members => (members.find? fun member => member.1 == name).map Prod.snd
  | _ => none

/-- A natural number as a value. -/
def nat (n : Nat) : Json := integer n

/-- A string, or null where there is none. -/
def stringOrNull (text? : Option String) : Json := (text?.map string).getD null

end Json

end PlainSync
