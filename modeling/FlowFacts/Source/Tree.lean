/-!
# Program texts as trees

What a program text says, before any name is looked up. Names are kept without their sigils and
integers as they are written. `Definition.node` shows a tree as nodes labelled with the grammar's
rules.
-/

namespace FlowFacts.Source

/-- An operand as written: `%name` for a parameter or a result, `@name` for a global symbol, a
    literal, or one of the words `null` and `undef`. -/
inductive Term where
  | value (name : String)
  | global (name : String)
  | integer (literal : String)
  | null
  | undefined
deriving DecidableEq

/-- An instruction as written, without its result. -/
inductive Body where
  | phi (incoming : List (Term × String))
  | condBr (condition : Term) (thenLabel elseLabel : String)
  | br (label : String)
  | switch (value : Term) (default : String) (cases : List (String × String))
  | call (callee : String) (args : List Term)
  | generic (opcode : String) (operands : List Term)
deriving DecidableEq

/-- An instruction with the name of its result, if it has one. -/
structure Statement where
  result : Option String
  body : Body
deriving DecidableEq

/-- A label with the statements after it. -/
structure Section where
  label : String
  statements : List Statement
deriving DecidableEq

/-- A function as written. -/
structure Definition where
  name : String
  params : List String
  sections : List Section
deriving DecidableEq

/-! ## Trees with named nodes -/

/-- A tree whose nodes carry the names of grammar rules, and whose leaves the texts that they
    matched. -/
inductive Node where
  | leaf (rule text : String)
  | branch (rule : String) (children : List Node)

def identNode (name : String) : Node := .leaf "ident" name

def valueNode (name : String) : Node := .branch "local" [identNode name]

def globalNode (name : String) : Node := .branch "global" [identNode name]

def labelNode (label : String) : Node := .branch "label_ref" [valueNode label]

def Term.node (t : Term) : Node :=
  .branch "operand" [match t with
    | .value name => valueNode name
    | .global name => globalNode name
    | .integer literal => .leaf "integer" literal
    | .null => .leaf "null" "null"
    | .undefined => .leaf "undef" "undef"]

/-- A list of operands; an empty one has no node. -/
def operandsNode : List Term → List Node
  | [] => []
  | terms => [.branch "operands" (terms.map Term.node)]

def Body.node : Body → Node
  | .phi incoming =>
    .branch "phi" (incoming.map fun p => .branch "incoming" [p.1.node, valueNode p.2])
  | .condBr condition thenLabel elseLabel =>
    .branch "cond_br" [condition.node, labelNode thenLabel, labelNode elseLabel]
  | .br label => .branch "br" [labelNode label]
  | .switch value default cases =>
    .branch "switch" (value.node :: labelNode default ::
      cases.map fun c => .branch "case" [.leaf "integer" c.1, labelNode c.2])
  | .call callee args => .branch "call" (globalNode callee :: operandsNode args)
  | .generic opcode operands => .branch "generic" (.leaf "opcode" opcode :: operandsNode operands)

def Statement.node (s : Statement) : Node :=
  .branch "instruction" ((s.result.map valueNode).toList ++ [s.body.node])

def Section.node (s : Section) : Node :=
  .branch "block" (.branch "label_def" [identNode s.label] :: s.statements.map Statement.node)

/-- A list of parameters; an empty one has no node. -/
def paramsNode : List String → List Node
  | [] => []
  | params => [.branch "params" (params.map valueNode)]

def Definition.node (d : Definition) : Node :=
  .branch "function" (globalNode d.name :: (paramsNode d.params ++ d.sections.map Section.node))

def rootNode (definitions : List Definition) : Node :=
  .branch "module" (definitions.map Definition.node ++ [.branch "EOI" []])

end FlowFacts.Source
