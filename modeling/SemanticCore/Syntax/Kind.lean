/-!
# Kinds of syntax nodes

The closed set of node kinds, their names, and the families that they form. A literal is an
expression too; the other families have no kind in common.
-/

namespace SemanticCore

/-- What a syntax node is. -/
inductive NodeKind where
  | program
  | noop
  | boolLiteral
  | intLiteral
  | floatLiteral
  | stringLiteral
  | charLiteral
  | nullLiteral
  | identifier
  | qualifiedPath
  | pathSegment
  | primitiveType
  | arrayType
  | tupleType
  | unionType
  | functionType
  | pointerType
  | referenceType
  | optionalType
  | resultType
  | unaryExpr
  | binaryExpr
  | ternaryExpr
  | assignmentExpr
  | groupExpr
  | stmtExpr
  | stringExpr
  | castExpr
  | callExpr
  | indexExpr
  | arrayExpr
  | tupleExpr
  | fieldExpr
  | structExpr
  | memberExpr
  | macroCallExpr
  | closureExpr
  | rangeExpr
  | spreadExpr
  | exprStmt
  | breakStmt
  | continueStmt
  | deferStmt
  | returnStmt
  | yieldStmt
  | blockStmt
  | ifStmt
  | forStmt
  | whileStmt
  | switchStmt
  | matchStmt
  | caseStmt
  | matchCase
  | variableDeclaration
  | funcDeclaration
  | funcParamDeclaration
  | structDeclaration
  | classDeclaration
  | fieldDeclaration
  | methodDeclaration
  | enumDeclaration
  | enumOptionDeclaration
  | typeDeclaration
  | importDeclaration
  | importItem
  | moduleDeclaration
  | genericDeclaration
  | typeParameterDeclaration
  | externDeclaration
  | macroDeclaration
  | testDeclaration
  | attributeTag
  | annotationTag
  deriving DecidableEq, Repr, Inhabited

namespace NodeKind

/-- The name of a kind. -/
def name : NodeKind → String
  | .program => "Program"
  | .noop => "Noop"
  | .boolLiteral => "BoolLiteral"
  | .intLiteral => "IntLiteral"
  | .floatLiteral => "FloatLiteral"
  | .stringLiteral => "StringLiteral"
  | .charLiteral => "CharLiteral"
  | .nullLiteral => "NullLiteral"
  | .identifier => "Identifier"
  | .qualifiedPath => "QualifiedPath"
  | .pathSegment => "PathSegment"
  | .primitiveType => "PrimitiveType"
  | .arrayType => "ArrayType"
  | .tupleType => "TupleType"
  | .unionType => "UnionType"
  | .functionType => "FunctionType"
  | .pointerType => "PointerType"
  | .referenceType => "ReferenceType"
  | .optionalType => "OptionalType"
  | .resultType => "ResultType"
  | .unaryExpr => "UnaryExpr"
  | .binaryExpr => "BinaryExpr"
  | .ternaryExpr => "TernaryExpr"
  | .assignmentExpr => "AssignmentExpr"
  | .groupExpr => "GroupExpr"
  | .stmtExpr => "StmtExpr"
  | .stringExpr => "StringExpr"
  | .castExpr => "CastExpr"
  | .callExpr => "CallExpr"
  | .indexExpr => "IndexExpr"
  | .arrayExpr => "ArrayExpr"
  | .tupleExpr => "TupleExpr"
  | .fieldExpr => "FieldExpr"
  | .structExpr => "StructExpr"
  | .memberExpr => "MemberExpr"
  | .macroCallExpr => "MacroCallExpr"
  | .closureExpr => "ClosureExpr"
  | .rangeExpr => "RangeExpr"
  | .spreadExpr => "SpreadExpr"
  | .exprStmt => "ExprStmt"
  | .breakStmt => "BreakStmt"
  | .continueStmt => "ContinueStmt"
  | .deferStmt => "DeferStmt"
  | .returnStmt => "ReturnStmt"
  | .yieldStmt => "YieldStmt"
  | .blockStmt => "BlockStmt"
  | .ifStmt => "IfStmt"
  | .forStmt => "ForStmt"
  | .whileStmt => "WhileStmt"
  | .switchStmt => "SwitchStmt"
  | .matchStmt => "MatchStmt"
  | .caseStmt => "CaseStmt"
  | .matchCase => "MatchCase"
  | .variableDeclaration => "VariableDeclaration"
  | .funcDeclaration => "FuncDeclaration"
  | .funcParamDeclaration => "FuncParamDeclaration"
  | .structDeclaration => "StructDeclaration"
  | .classDeclaration => "ClassDeclaration"
  | .fieldDeclaration => "FieldDeclaration"
  | .methodDeclaration => "MethodDeclaration"
  | .enumDeclaration => "EnumDeclaration"
  | .enumOptionDeclaration => "EnumOptionDeclaration"
  | .typeDeclaration => "TypeDeclaration"
  | .importDeclaration => "ImportDeclaration"
  | .importItem => "ImportItem"
  | .moduleDeclaration => "ModuleDeclaration"
  | .genericDeclaration => "GenericDeclaration"
  | .typeParameterDeclaration => "TypeParameterDeclaration"
  | .externDeclaration => "ExternDeclaration"
  | .macroDeclaration => "MacroDeclaration"
  | .testDeclaration => "TestDeclaration"
  | .attributeTag => "Attribute"
  | .annotationTag => "Annotation"

/-- All kinds, in order of their declaration. -/
def all : List NodeKind :=
  [.program, .noop, .boolLiteral, .intLiteral, .floatLiteral, .stringLiteral, .charLiteral,
  .nullLiteral, .identifier, .qualifiedPath, .pathSegment, .primitiveType, .arrayType, .tupleType,
  .unionType, .functionType, .pointerType, .referenceType, .optionalType, .resultType, .unaryExpr,
  .binaryExpr, .ternaryExpr, .assignmentExpr, .groupExpr, .stmtExpr, .stringExpr, .castExpr,
  .callExpr, .indexExpr, .arrayExpr, .tupleExpr, .fieldExpr, .structExpr, .memberExpr,
  .macroCallExpr, .closureExpr, .rangeExpr, .spreadExpr, .exprStmt, .breakStmt, .continueStmt,
  .deferStmt, .returnStmt, .yieldStmt, .blockStmt, .ifStmt, .forStmt, .whileStmt, .switchStmt,
  .matchStmt, .caseStmt, .matchCase, .variableDeclaration, .funcDeclaration,
  .funcParamDeclaration, .structDeclaration, .classDeclaration, .fieldDeclaration,
  .methodDeclaration, .enumDeclaration, .enumOptionDeclaration, .typeDeclaration,
  .importDeclaration, .importItem, .moduleDeclaration, .genericDeclaration,
  .typeParameterDeclaration, .externDeclaration, .macroDeclaration, .testDeclaration, .attributeTag,
  .annotationTag]

/-- The kind of a name. -/
def ofName? (s : String) : Option NodeKind := all.find? (·.name == s)

theorem ofName?_name (kind : NodeKind) : ofName? kind.name = some kind := by
  cases kind <;> decide

/-! ## Families -/

/-- The kinds of literals. -/
def literals : List NodeKind :=
  [.boolLiteral, .intLiteral, .floatLiteral, .stringLiteral, .charLiteral, .nullLiteral]

/-- The kinds of type expressions. -/
def typeExpressions : List NodeKind :=
  [.primitiveType, .arrayType, .tupleType, .unionType, .functionType, .pointerType,
  .referenceType, .optionalType, .resultType]

/-- The kinds of expressions that are no literals. -/
def operations : List NodeKind :=
  [.identifier, .qualifiedPath, .unaryExpr, .binaryExpr, .ternaryExpr, .assignmentExpr,
  .groupExpr, .stmtExpr, .stringExpr, .castExpr, .callExpr, .indexExpr, .arrayExpr, .tupleExpr,
  .fieldExpr, .structExpr, .memberExpr, .macroCallExpr, .closureExpr, .rangeExpr, .spreadExpr]

/-- The kinds of statements. -/
def statements : List NodeKind :=
  [.exprStmt, .breakStmt, .continueStmt, .deferStmt, .returnStmt, .yieldStmt, .blockStmt, .ifStmt,
  .forStmt, .whileStmt, .switchStmt, .matchStmt, .caseStmt, .matchCase]

/-- The kinds of declarations. -/
def declarations : List NodeKind :=
  [.variableDeclaration, .funcDeclaration, .funcParamDeclaration, .structDeclaration,
  .classDeclaration, .fieldDeclaration, .methodDeclaration, .enumDeclaration,
  .enumOptionDeclaration, .typeDeclaration, .importDeclaration, .importItem, .moduleDeclaration,
  .genericDeclaration, .typeParameterDeclaration, .externDeclaration, .macroDeclaration,
  .testDeclaration]

/-- Whether a kind is one of literals. -/
def isLiteral (k : NodeKind) : Bool := literals.contains k

/-- Whether a kind is one of type expressions. -/
def isTypeExpression (k : NodeKind) : Bool := typeExpressions.contains k

/-- Whether a kind is one of expressions, literals among them. -/
def isExpression (k : NodeKind) : Bool := operations.contains k || k.isLiteral

/-- Whether a kind is one of statements. -/
def isStatement (k : NodeKind) : Bool := statements.contains k

/-- Whether a kind is one of declarations. -/
def isDeclaration (k : NodeKind) : Bool := declarations.contains k

end NodeKind

end SemanticCore
