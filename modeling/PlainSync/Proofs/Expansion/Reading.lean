import PlainSync.Expansion

/-!
# Reading an expansion

The text of an expansion is read the way a C compiler reads it: it is cut into tokens, and
the tokens are read by the precedence of their operators. Operands and the names of the
temporaries are left open. What stands in their place is a slot, so one reading serves all
texts that are ever put in. An operand is only accepted between parentheses of its own,
because nothing else keeps its tokens from joining those around it.
-/

namespace PlainSync.Reading

/-! ## Templates -/

/-- A place in an expansion that is filled from outside. -/
inductive Slot where
  /-- The pointer operand where it is evaluated. -/
  | pointer
  /-- The pointer operand inside `typeof`. -/
  | pointerType
  | value (index : Nat)
  /-- The name of the temporary that holds the pointer. -/
  | pointerName
  /-- The name of the temporary that holds the value from before. -/
  | savedName
  deriving DecidableEq, Repr

/-- A byte of an expansion, or a place to be filled. -/
inductive Symbol where
  | byte (b : UInt8)
  | slot (place : Slot)
  deriving DecidableEq, Repr

/-- What a slot is filled with. -/
def Slot.text (operands : Operands) (names : Temporaries) : Slot → Bytes
  | pointer => operands.pointer
  | pointerType => operands.pointerType
  | value index => operands.values[index]?.getD []
  | pointerName => names.pointer
  | savedName => names.saved

/-- The text of a symbol. -/
def Symbol.text (operands : Operands) (names : Temporaries) : Symbol → Bytes
  | byte b => [b]
  | slot place => place.text operands names

def Symbol.byte? : Symbol → Option UInt8
  | byte b => some b
  | slot _ => none

/-- The text of a template whose slots are filled. -/
def fill (operands : Operands) (names : Temporaries) (template : List Symbol) : Bytes :=
  template.flatMap fun symbol => symbol.text operands names

/-- Operands that mark their places. None of these bytes is ASCII, so no expansion has one of
its own. -/
def markedOperands : Operands := ⟨[128], [129], [[132], [133]]⟩

/-- Names that mark their places. -/
def markedNames : Temporaries := ⟨[130], [131]⟩

/-- The symbol that a byte of a marked expansion stands for. -/
def Symbol.ofMarked (b : UInt8) : Symbol :=
  if b = 128 then .slot .pointer
  else if b = 129 then .slot .pointerType
  else if b = 130 then .slot .pointerName
  else if b = 131 then .slot .savedName
  else if b = 132 then .slot (.value 0)
  else if b = 133 then .slot (.value 1)
  else .byte b

/-- The expansion of a built-in with its operands and names left open. -/
def template (builtin : Builtin) : List Symbol :=
  ((Expansion.program builtin).text markedOperands markedNames).map Symbol.ofMarked

section Template

variable (operands : Operands) (names : Temporaries)

/-- Fill the places that marks stand for. -/
def refill (marked : Bytes) : Bytes := fill operands names (marked.map Symbol.ofMarked)

/-- The empty text stands for nothing. -/
@[simp] theorem refill_nil : refill operands names [] = [] := rfl

/-- Each byte stands for a symbol. -/
@[simp] theorem refill_cons (b : UInt8) (rest : Bytes) :
    refill operands names (b :: rest) =
      (Symbol.ofMarked b).text operands names ++ refill operands names rest := by
  simp [refill, fill]

/-- Texts stand for symbols one after the other. -/
@[simp] theorem refill_append (front back : Bytes) :
    refill operands names (front ++ back) =
      refill operands names front ++ refill operands names back := by
  simp [refill, fill]

/-- An ASCII byte marks nothing. -/
theorem ofMarked_of_ascii {b : UInt8} (hb : b < 128) : Symbol.ofMarked b = .byte b := by
  unfold Symbol.ofMarked
  grind

/-- ASCII text has no places to fill. -/
theorem refill_of_ascii {text : Bytes} (htext : text.all (· < 128)) :
    refill operands names text = text := by
  induction text with
  | nil => rfl
  | cons b rest ih =>
    rw [List.all_cons, Bool.and_eq_true, decide_eq_true_eq] at htext
    rw [refill_cons, ofMarked_of_ascii htext.1, ih htext.2]
    rfl

/-- The marks of the operands and names are filled with the operands and names. -/
theorem refill_marks :
    refill operands names markedOperands.pointer = operands.pointer ∧
      refill operands names markedOperands.pointerType = operands.pointerType ∧
      refill operands names (markedOperands.values[0]?.getD []) = operands.values[0]?.getD [] ∧
      refill operands names (markedOperands.values[1]?.getD []) = operands.values[1]?.getD [] ∧
      refill operands names markedNames.pointer = names.pointer ∧
      refill operands names markedNames.saved = names.saved := by
  simp [markedOperands, markedNames, Symbol.ofMarked, Symbol.text, Slot.text]

open Expansion in
/-- Parentheses stand for themselves. -/
theorem refill_parenthesized (operand : Bytes) :
    refill operands names (parenthesized operand) =
      parenthesized (refill operands names operand) := by
  simp only [parenthesized, List.cons_append, refill_cons, refill_append, refill_nil,
    ofMarked_of_ascii (show Byte.openParen < 128 by decide),
    ofMarked_of_ascii (show Byte.closeParen < 128 by decide), Symbol.text, List.nil_append,
    List.append_nil]

open Expansion in
/-- Where an expansion stores to is filled in. -/
theorem refill_place (place : Place) :
    refill operands names (place.text markedOperands markedNames) =
      place.text operands names := by
  have hmarks := refill_marks operands names
  have hstar := ofMarked_of_ascii (show Byte.star < 128 by decide)
  cases place with
  | bound => simp only [Place.text, refill_cons, hstar, hmarks, Symbol.text, List.cons_append,
      List.nil_append]
  | direct => simp only [Place.text, refill_cons, refill_parenthesized, hstar, hmarks,
      Symbol.text, List.cons_append, List.nil_append]

open Expansion in
/-- Filling the template of a built-in gives its expansion, whatever the operands and the
names of the temporaries are. -/
theorem fill_template (builtin : Builtin) :
    fill operands names (template builtin) = (program builtin).text operands names := by
  change refill operands names _ = _
  have hmarks := refill_marks operands names
  cases builtin with
  | fetchAndOp update | opAndFetch update =>
    cases update <;>
      simp (disch := decide) only [program, Program.text, Statement.text, Assignment.text,
        Value.text, Result.text, refill_place, refill_parenthesized, refill_of_ascii,
        refill_append, hmarks, List.flatMap_cons, List.flatMap_nil]
  | _ =>
    simp (disch := decide) only [program, Program.text, Statement.text, Assignment.text,
      Value.text, Result.text, refill_place, refill_parenthesized, refill_of_ascii,
      refill_append, hmarks, List.flatMap_cons, List.flatMap_nil]

end Template

/-! ## Tokens -/

/-- The operator of a compound assignment. -/
inductive Operator where
  | plus | minus | bitOr | bitAnd | bitXor
  deriving DecidableEq, Repr

/-- A token of the C programs that expansions are. -/
inductive Token where
  | openParen | closeParen | openBrace | closeBrace
  | semicolon | comma | question | colon | star | tilde | ampersand
  | assign
  | combine (operator : Operator)
  | equal
  | typeofWord | voidWord | ifWord
  | number (value : Nat)
  | slot (place : Slot)
  deriving DecidableEq, Repr

/-- The punctuator of one byte. -/
def Token.ofByte? (b : UInt8) : Option Token :=
  if b = Byte.openParen then some openParen
  else if b = Byte.closeParen then some closeParen
  else if b = Byte.openBrace then some openBrace
  else if b = Byte.closeBrace then some closeBrace
  else if b = 59 then some semicolon
  else if b = Byte.comma then some comma
  else if b = 63 then some question
  else if b = 58 then some colon
  else if b = Byte.star then some star
  else if b = 126 then some tilde
  else if b = 38 then some ampersand
  else if b = 61 then some assign
  else none

/-- The punctuator that a byte makes with an equals sign behind it. -/
def Token.ofPair? (b : UInt8) : Option Token :=
  if b = 43 then some (combine .plus)
  else if b = 45 then some (combine .minus)
  else if b = 124 then some (combine .bitOr)
  else if b = 38 then some (combine .bitAnd)
  else if b = 94 then some (combine .bitXor)
  else if b = 61 then some equal
  else none

/-- The keyword or the decimal number that a run of identifier bytes is. -/
def Token.ofWord? (word : Bytes) : Option Token :=
  if word = Bytes.ofString "typeof" then some typeofWord
  else if word = Bytes.ofString "void" then some voidWord
  else if word = Bytes.ofString "if" then some ifWord
  else if word.all Byte.isDigit then
    some (number (word.foldl (fun value b => 10 * value + (b.toNat - 48)) 0))
  else none

/-- Put the word that has been read, if any, in front of the tokens behind it. -/
def putWord (word : Bytes) (tokens : List Token) : Option (List Token) :=
  if word.isEmpty then some tokens else do return (← Token.ofWord? word) :: tokens

/-- Whether the next symbol is a byte that would join a word in front of it. -/
def joinsWord : List Symbol → Bool
  | .byte b :: _ => Byte.continuesIdentifier b
  | _ => false

/-- Cut a template into tokens behind the part `word` of a word, the longest punctuator
first. There is no reading where a slot touches a word, because their texts would join. -/
def tokens? (word : Bytes) : List Symbol → Option (List Token)
  | [] => putWord word []
  | .slot place :: rest => do
    guard (word.isEmpty && !joinsWord rest)
    return .slot place :: (← tokens? [] rest)
  | .byte b :: rest =>
    if Byte.continuesIdentifier b then tokens? (word ++ [b]) rest
    else if Byte.isWhiteSpace b then do putWord word (← tokens? [] rest)
    else
      match rest, Token.ofPair? b with
      | .byte 61 :: behind, some token => do putWord word (token :: (← tokens? [] behind))
      | rest, _ => do putWord word ((← Token.ofByte? b) :: (← tokens? [] rest))

/-! ## Expressions and statements -/

/-- The temporaries of an expansion. -/
inductive Temporary where
  | pointer
  | saved
  deriving DecidableEq, Repr

mutual

/-- A C expression. -/
inductive Expression where
  | number (value : Nat)
  /-- The pointer operand, evaluated. -/
  | pointer
  /-- The pointer operand inside `typeof`. -/
  | pointerType
  | value (index : Nat)
  | temporary (name : Temporary)
  | dereference (operand : Expression)
  | complement (operand : Expression)
  | conjunction (left right : Expression)
  | equal (left right : Expression)
  | choose (condition yes no : Expression)
  | assign (target value : Expression)
  | combine (operator : Operator) (target value : Expression)
  /-- Two expressions with a comma between them. -/
  | sequence (first second : Expression)
  /-- A cast to `void`. -/
  | discard (operand : Expression)
  /-- A statement expression. -/
  | block (body : List Statement)

/-- A C statement. -/
inductive Statement where
  /-- Declare a temporary of the type that `typeof` finds. -/
  | declare (type : Expression) (name : Temporary) (initial : Expression)
  | perform (expression : Expression)
  /-- A conditional statement without an alternative. -/
  | when (condition : Expression) (body : List Statement)

end

/-! ## The grammar

One function for each level of precedence, the loosest first. Every call of another level
costs one unit of `fuel`, and the number of tokens bounds how deep levels can nest. -/

/-- The operand that a slot holds, if it is one. -/
def Slot.operand? : Slot → Option Expression
  | pointer => some .pointer
  | pointerType => some .pointerType
  | value index => some (.value index)
  | _ => none

/-- The temporary that a slot names, if it names one. -/
def Slot.temporary? : Slot → Option Temporary
  | pointerName => some .pointer
  | savedName => some .saved
  | _ => none

/-- The next token must be the given one. -/
def expect (token : Token) : List Token → Option (List Token)
  | next :: rest => if next = token then some rest else none
  | [] => none

mutual

/-- An expression, with or without commas. -/
def readExpression (fuel : Nat) (tokens : List Token) : Option (Expression × List Token) :=
  match fuel with
  | 0 => none
  | fuel + 1 => do
    let (first, rest) ← readAssignment fuel tokens
    match rest with
    | .comma :: rest =>
      let (second, rest) ← readExpression fuel rest
      return (.sequence first second, rest)
    | _ => return (first, rest)

/-- An assignment, or an expression that binds tighter. -/
def readAssignment (fuel : Nat) (tokens : List Token) : Option (Expression × List Token) :=
  match fuel with
  | 0 => none
  | fuel + 1 => do
    let (target, rest) ← readChoice fuel tokens
    match rest with
    | .assign :: rest =>
      let (value, rest) ← readAssignment fuel rest
      return (.assign target value, rest)
    | .combine operator :: rest =>
      let (value, rest) ← readAssignment fuel rest
      return (.combine operator target value, rest)
    | _ => return (target, rest)

/-- A conditional expression, or one that binds tighter. -/
def readChoice (fuel : Nat) (tokens : List Token) : Option (Expression × List Token) :=
  match fuel with
  | 0 => none
  | fuel + 1 => do
    let (condition, rest) ← readConjunction fuel tokens
    match rest with
    | .question :: rest =>
      let (yes, rest) ← readExpression fuel rest
      let rest ← expect .colon rest
      let (no, rest) ← readChoice fuel rest
      return (.choose condition yes no, rest)
    | _ => return (condition, rest)

/-- A bitwise conjunction, or an expression that binds tighter. -/
def readConjunction (fuel : Nat) (tokens : List Token) : Option (Expression × List Token) :=
  match fuel with
  | 0 => none
  | fuel + 1 => do
    let (left, rest) ← readEquality fuel tokens
    match rest with
    | .ampersand :: rest =>
      let (right, rest) ← readConjunction fuel rest
      return (.conjunction left right, rest)
    | _ => return (left, rest)

/-- A comparison, or an expression that binds tighter. -/
def readEquality (fuel : Nat) (tokens : List Token) : Option (Expression × List Token) :=
  match fuel with
  | 0 => none
  | fuel + 1 => do
    let (left, rest) ← readUnary fuel tokens
    match rest with
    | .equal :: rest =>
      let (right, rest) ← readUnary fuel rest
      return (.equal left right, rest)
    | _ => return (left, rest)

/-- An expression with prefix operators, or one that binds tighter. -/
def readUnary (fuel : Nat) (tokens : List Token) : Option (Expression × List Token) :=
  match fuel, tokens with
  | 0, _ => none
  | fuel + 1, .star :: rest => do
    let (operand, rest) ← readUnary fuel rest
    return (.dereference operand, rest)
  | fuel + 1, .tilde :: rest => do
    let (operand, rest) ← readUnary fuel rest
    return (.complement operand, rest)
  | fuel + 1, .openParen :: .voidWord :: .closeParen :: rest => do
    let (operand, rest) ← readUnary fuel rest
    return (.discard operand, rest)
  | fuel + 1, tokens => readPrimary fuel tokens

/-- A number, a temporary, an operand, a statement expression or anything in parentheses. -/
def readPrimary (fuel : Nat) (tokens : List Token) : Option (Expression × List Token) :=
  match fuel, tokens with
  | 0, _ => none
  | _ + 1, .number value :: rest => some (.number value, rest)
  | _ + 1, .slot place :: rest => do
    return (.temporary (← place.temporary?), rest)
  | _ + 1, .openParen :: .slot place :: .closeParen :: rest => do
    return (← place.operand? <|> place.temporary?.map .temporary, rest)
  | fuel + 1, .openParen :: .openBrace :: rest => do
    let (body, rest) ← readBody fuel rest
    let rest ← expect .closeParen rest
    return (.block body, rest)
  | fuel + 1, .openParen :: rest => do
    let (inner, rest) ← readExpression fuel rest
    let rest ← expect .closeParen rest
    return (inner, rest)
  | _, _ => none

/-- The statements up to a closing brace. -/
def readBody (fuel : Nat) (tokens : List Token) : Option (List Statement × List Token) :=
  match fuel, tokens with
  | 0, _ => none
  | _ + 1, .closeBrace :: rest => some ([], rest)
  | fuel + 1, tokens => do
    let (statement, rest) ← readStatement fuel tokens
    let (body, rest) ← readBody fuel rest
    return (statement :: body, rest)

/-- A declaration, a conditional statement or an expression with a semicolon. -/
def readStatement (fuel : Nat) (tokens : List Token) : Option (Statement × List Token) :=
  match fuel, tokens with
  | 0, _ => none
  | fuel + 1, .typeofWord :: .openParen :: rest => do
    let (type, rest) ← readExpression fuel rest
    let rest ← expect .closeParen rest
    match rest with
    | .slot place :: .assign :: rest =>
      let name ← place.temporary?
      let (initial, rest) ← readAssignment fuel rest
      return (.declare type name initial, ← expect .semicolon rest)
    | _ => none
  | fuel + 1, .ifWord :: .openParen :: rest => do
    let (condition, rest) ← readExpression fuel rest
    let rest ← expect .closeParen rest
    let rest ← expect .openBrace rest
    let (body, rest) ← readBody fuel rest
    return (.when condition body, rest)
  | fuel + 1, tokens => do
    let (expression, rest) ← readExpression fuel tokens
    return (.perform expression, ← expect .semicolon rest)

end

/-- Read a template as one expression. -/
def read? (template : List Symbol) : Option Expression := do
  let tokens ← tokens? [] template
  let (expression, rest) ← readExpression (8 * tokens.length) tokens
  if rest.isEmpty then some expression else none

end PlainSync.Reading
