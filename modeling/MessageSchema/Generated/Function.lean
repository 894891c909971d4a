import MessageSchema.Output.Script

/-!
# C functions

The generated C computes sizes with `sizeof`, sums, products and calls of the size functions. A
`SizeExpr` is such an expression; `render` is its C text, in which the only parentheses besides
those of a call are written out as `group`. With the sizes come the statements that the generated
functions are made of, functions with their parameters, and the three forms in which a function is
written: as an inline definition with specifiers in front, as a declaration, or as a plain
definition.
-/

namespace MessageSchema.Generated

open Output

/-- A C expression for a number of bytes. -/
inductive SizeExpr where
  | sizeof (type : String)
  | parameter (name : String)
  | sum (left right : SizeExpr)
  | product (left right : SizeExpr)
  | group (inner : SizeExpr)
  | call (function : String) (arguments : List String)
deriving DecidableEq, Repr

/-- The texts with `separator` between them. -/
def joined (separator : String) (texts : List String) : String :=
  separator.intercalate texts

/-- The C text of an expression. -/
def SizeExpr.render : SizeExpr → String
  | .sizeof type => "sizeof(" ++ type ++ ")"
  | .parameter name => name
  | .sum left right => left.render ++ " + " ++ right.render
  | .product left right => left.render ++ " * " ++ right.render
  | .group inner => "(" ++ inner.render ++ ")"
  | .call function arguments => function ++ "(" ++ joined ", " arguments ++ ")"

/-- A statement of a generated function. `msg` and `out_msg` are the record being accessed or
built, `allocator` its allocator, `alloc_result` what that has answered. -/
inductive Statement where
  | returnNullUnlessTag (tag : String)
  | returnAs (record : String)
  | returnSize (size : SizeExpr)
  | setTag (tag : String)
  | setSize (size : SizeExpr)
  | setField (name : String)
  | moveTail (name : String) (length : SizeExpr)
  | clearResult
  | allocate (resultType function : String) (size : SizeExpr)
  | returnUnlessAllocated (okCode : String)
  | returnIfNull (failure : String)
  | construct (constructor : String) (arguments : List String)
  | returnCode (code : String)
deriving DecidableEq, Repr

/-- The C text of a statement. -/
def Statement.render : Statement → String
  | .returnNullUnlessTag tag => "if (msg->type != " ++ tag ++ ") return NULL;"
  | .returnAs record => "return (" ++ record ++ " *)msg;"
  | .returnSize size => "return " ++ size.render ++ ";"
  | .setTag tag => "msg->type = " ++ tag ++ ";"
  | .setSize size => "msg->size = " ++ size.render ++ ";"
  | .setField name => "msg->" ++ name ++ " = " ++ name ++ ";"
  | .moveTail name length =>
    "memmove(msg->" ++ name ++ ", " ++ name ++ ", " ++ length.render ++ ");"
  | .clearResult => "*out_msg = NULL;"
  | .allocate resultType function size =>
    resultType ++ " alloc_result = " ++ function ++ "(allocator, (void**)out_msg, " ++
      size.render ++ ");"
  | .returnUnlessAllocated okCode => "if (alloc_result != " ++ okCode ++ ") return alloc_result;"
  | .returnIfNull failure => "if (*out_msg == NULL) return " ++ failure ++ ";"
  | .construct constructor arguments =>
    constructor ++ "(" ++ joined ", " ("*out_msg" :: arguments) ++ ");"
  | .returnCode code => "return " ++ code ++ ";"

/-- A parameter: its declaration, and the name that the declaration introduces. -/
structure Parameter where
  declaration : String
  name : String
deriving DecidableEq, Repr

/-- The body of a function: one statement on the line of the signature, or a block. -/
inductive Body where
  | line (statement : Statement)
  | block (statements : List Statement)
deriving DecidableEq, Repr

/-- The statements of a body in order. -/
def Body.statements : Body → List Statement
  | .line statement => [statement]
  | .block statements => statements

/-- A C function. -/
structure Function where
  result : String
  name : String
  parameters : List Parameter
  body : Body
deriving DecidableEq, Repr

/-- How a function is written out. -/
inductive Form where
  | inlineWith (specifiers : String)
  | declaration
  | definition
deriving DecidableEq, Repr

namespace Function

/-- The signature up to the closing parenthesis; no parameters are written as `void`. -/
def signature (f : Function) : String :=
  let parameters :=
    if f.parameters.isEmpty then "void" else joined ", " (f.parameters.map (·.declaration))
  f.result ++ " " ++ f.name ++ "(" ++ parameters

/-- The definition with `lead` in front of the signature. -/
def definitionScript (lead : String) (f : Function) : List Step :=
  match f.body with
  | .line statement => [.write (lead ++ f.signature ++ ") \x7b " ++ statement.render ++ " \x7d")]
  | .block statements =>
    [.write (lead ++ f.signature ++ ") \x7b"),
      .indented (statements.map fun s => .write s.render),
      .write "\x7d"]

/-- The lines of a function in the given form. -/
def script (form : Form) (f : Function) : List Step :=
  match form with
  | .inlineWith specifiers => f.definitionScript (specifiers ++ " ")
  | .declaration => [.write (f.signature ++ ");")]
  | .definition => f.definitionScript ""

end Function

end MessageSchema.Generated
