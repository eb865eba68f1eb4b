import CaptureLR.Capture
import CaptureLR.Text.Quoted
import CaptureLR.Token

/-!
# Errors

Each kind of error is a cause with its particulars; its wording is in one function.
-/

namespace CaptureLR

/-- What is wrong with a stored parse table, or with storing one. -/
inductive TableError where
  /-- The table was loaded, so it is stored already. -/
  | notGenerated
  /-- A capture names a class the language does not have. -/
  | unknownClass (name : String)
  /-- There are no states. -/
  | empty
  /-- A shift leads to a state that does not exist. -/
  | missingState (state target : Nat)
  /-- A reduction by a rule that is not described. -/
  | missingReduction (state rule : Nat)
  /-- The kind of a capture is none of those there are. -/
  | malformedKind (parts : List String)
  /-- The text is not the JSON text of a table. -/
  | json
  /-- The file cannot be read or written. -/
  | io
deriving DecidableEq, Inhabited, Repr

/-- The message of a table error. The wording of `json` and `io` is left to whoever reports
them. -/
def TableError.message : TableError → String
  | notGenerated =>
      "Cannot save the parser table because it was loaded from a precomputed table"
  | unknownClass name => s!"Unknown class \"{name}\" in serialized table"
  | empty => "Serialized table has no states"
  | missingState state target => s!"State {state} shifts to missing state {target}"
  | missingReduction state rule =>
      s!"State {state} reduces by rule {rule}, which has no reduce descriptor"
  | malformedKind parts => "Malformed capture type tag " ++ shownList parts
  | json => "Malformed table text"
  | io => "Table file not accessible"

/-- Why no parser can be built for a language. -/
inductive BuildError where
  /-- Two actions of a state compete for a place. -/
  | conflict (state : Nat) (symbol existing incoming : String)
  /-- An instance of a combinator stands in several places and has no name. -/
  | unnamedReuse (combinator context : String)
  /-- A property is captured as an array and as a single value. -/
  | fieldMismatch (className prop : String)
  /-- Two classes have the same name. -/
  | duplicateClassName (name : String)
  /-- A hidden class that stands for an array is captured as a single value. -/
  | hiddenArrayCapture (className : String)
  /-- A match was never given its target. -/
  | uninitializedMatch (context : String)
  /-- A class was never given its pattern. -/
  | undefinedClass (name : String)
  /-- The stored table does not fit. -/
  | table (e : TableError)
  /-- A bound on the work was reached; the bounds are chosen such that none is. -/
  | exhausted
deriving DecidableEq, Inhabited, Repr

/-- The message of a build error. -/
def BuildError.message : BuildError → String
  | conflict state symbol existing incoming =>
      s!"Grammar conflict in state {state} under {symbol}: {existing} conflicts with {incoming}"
  | unnamedReuse combinator context =>
      s!"{combinator} is used in multiple places, but does not have a provided name (at {context})"
  | fieldMismatch className prop =>
      s!"Field \"{prop}\" of class \"{className}\" is captured both as an array and as a single value"
  | duplicateClassName name =>
      s!"Duplicate class name \"{name}\"; every class reachable from the root needs a unique name"
  | hiddenArrayCapture className =>
      "A hidden array-capturing class must be captured using an array-capturing match. "
        ++ s!"(class \"{className}\")"
  | uninitializedMatch context =>
      s!"Match at {context} has no target; patch the deferred match before building"
  | undefinedClass name => s!"Class \"{name}\" was declared but never given a pattern"
  | table e => "Invalid precomputed table: " ++ e.message
  | exhausted => "The bound on the work was reached"

/-- A token that no action is found for. -/
structure ParseError where
  token : Token
  /-- The terminals that could have come instead, in the order of the table. -/
  expected : List Terminal
deriving DecidableEq, Inhabited, Repr

/-- The message of a parse error. -/
def ParseError.message (e : ParseError) : String :=
  let expected := if e.expected.isEmpty then "nothing"
    else ", ".intercalate (e.expected.map quoted)
  "Parse error at " ++ e.token.display ++ ", expected one of: " ++ expected

/-- What a table lacks when a parse cannot go on. -/
inductive TableGap where
  /-- The stack is empty. -/
  | initialHead
  /-- The state on top of the stack does not exist. -/
  | currentState
  /-- The rule to reduce by is not described. -/
  | reduction (rule : Nat)
  /-- The rule to reduce by is longer than the stack. -/
  | deepReduction
  /-- The class to capture is not in the class table. -/
  | nodeClass (c : ClassId)
  /-- There is no state to go on to with a nonterminal. -/
  | successor (n : Nonterminal)
deriving DecidableEq, Inhabited, Repr

/-- A gap in a table as messages show it. -/
def TableGap.display : TableGap → String
  | initialHead => "the initial head"
  | currentState => "the current state"
  | reduction rule => s!"rule {rule}"
  | deepReduction => "a reduction deeper than the stack"
  | nodeClass c => c.display
  | successor n => s!"nonterminal {n.index}"

/-- Why a text has no parse. -/
inductive ParseFailure where
  | parse (e : ParseError)
  | tokenize (e : TokenizeError)
  /-- The table has no entry for what a state needs. -/
  | invalidTable (state : Nat) (gap : TableGap)
deriving DecidableEq, Inhabited, Repr

/-- The message of a parse failure. -/
def ParseFailure.message : ParseFailure → String
  | parse e => e.message
  | tokenize e => e.message
  | invalidTable state gap => s!"Parser table has no entry for {gap.display} in state {state}"

end CaptureLR
