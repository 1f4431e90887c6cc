import LineScript.Registry

/-!
# Functions that are always there

The compiler's own functions, then the operations of the operators, then the functions of scripts.
-/

namespace LineScript

namespace Registry

/-- The functions that the compiler itself introduces. -/
def internalFunctions : List Descriptor :=
  [(Tree.parenName, "Parenthesized group; evaluates to its single child"),
    ("centry", "Builds a label/value entry"),
    (Tree.listName, "Unreduced expression list, removed before runtime"),
    ("sconcat", "Concatenates values as strings"),
    ("concat", "Concatenates values"),
    (Tree.bracketName, "Bracket group"),
    (Tree.braceName, "Brace group"),
    ("dyn", "Returns its argument; never optimized away"),
    (Operator.negation, "Arithmetic negation"),
    (Operator.identity, "Returns its argument unchanged"),
    (Operator.assign, "Assigns a value to a variable")].map fun (name, docs) => ⟨name, docs, true⟩

/-- The functions that stand for operators and are not among the compiler's own. -/
def operatorFunctions : List Descriptor :=
  let names := (Operator.operations ++ Operator.stepOperations).map (·.2)
  (names.filter fun name => !(internalFunctions.map (·.name)).contains name).map fun name =>
    ⟨name, s!"Operator function '{name}'", false⟩

/-- The functions that scripts are written with. -/
def scriptFunctions : List Descriptor :=
  [("msg", "Sends a message to the current player"),
    ("die", "Sends a message and stops the script"),
    ("broadcast", "Sends a message to every player"),
    ("console", "Writes a message to the server console"),
    ("array", "Creates an array from its arguments")].map fun (name, docs) => ⟨name, docs, false⟩

/-- All functions that are always there. -/
def builtinFunctions : List Descriptor :=
  internalFunctions ++ operatorFunctions ++ scriptFunctions

theorem nodup_builtinFunctions : (builtinFunctions.map (·.name)).Nodup := by
  decide

/-- The registry of a compiler that is given no other. -/
def builtin : Registry := ⟨builtinFunctions, true, nodup_builtinFunctions⟩

end Registry

end LineScript
