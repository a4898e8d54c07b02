/-!
# Kinds of tree nodes and of their roles

A syntax tree names the kind of every node and the role (`Field`) in which a node stands in its
parent. Both come as text from the grammar. The kinds and roles that mean something here have a
constructor of their own; every other one is kept as text.
-/

namespace CudaToHip.Tree

/-- The kind of a node. -/
inductive Kind where
  | includeDirective
  | defineDirective
  | functionDefineDirective
  | definedOperator
  | comment
  | ifDirective
  | ifdefDirective
  | elifDirective
  | elifdefDirective
  | functionDefinition
  | declaration
  | fieldDeclaration
  | parameterDeclaration
  | optionalParameterDeclaration
  | enumerator
  | rangeFor
  | callExpression
  | fieldExpression
  | identifier
  | typeDescriptor
  | stringLiteral
  | rawStringLiteral
  | systemHeader
  | typeIdentifier
  | fieldList
  | enumeratorList
  | enumSpecifier
  | initializerList
  | functionDeclarator
  | initDeclarator
  | arrayDeclarator
  | pointerDeclarator
  | referenceDeclarator
  | parenthesizedDeclarator
  | attributedDeclarator
  | templateFunction
  | qualifiedIdentifier
  | other (name : String)
  deriving Repr, DecidableEq, Inhabited

namespace Kind

/-- The kinds with a constructor of their own, by the grammar's names. -/
def table : List (String × Kind) :=
  [("preproc_include", .includeDirective),
   ("preproc_def", .defineDirective),
   ("preproc_function_def", .functionDefineDirective),
   ("preproc_defined", .definedOperator),
   ("comment", .comment),
   ("preproc_if", .ifDirective),
   ("preproc_ifdef", .ifdefDirective),
   ("preproc_elif", .elifDirective),
   ("preproc_elifdef", .elifdefDirective),
   ("function_definition", .functionDefinition),
   ("declaration", .declaration),
   ("field_declaration", .fieldDeclaration),
   ("parameter_declaration", .parameterDeclaration),
   ("optional_parameter_declaration", .optionalParameterDeclaration),
   ("enumerator", .enumerator),
   ("for_range_loop", .rangeFor),
   ("call_expression", .callExpression),
   ("field_expression", .fieldExpression),
   ("identifier", .identifier),
   ("type_descriptor", .typeDescriptor),
   ("string_literal", .stringLiteral),
   ("raw_string_literal", .rawStringLiteral),
   ("system_lib_string", .systemHeader),
   ("type_identifier", .typeIdentifier),
   ("field_declaration_list", .fieldList),
   ("enumerator_list", .enumeratorList),
   ("enum_specifier", .enumSpecifier),
   ("field_initializer_list", .initializerList),
   ("function_declarator", .functionDeclarator),
   ("init_declarator", .initDeclarator),
   ("array_declarator", .arrayDeclarator),
   ("pointer_declarator", .pointerDeclarator),
   ("reference_declarator", .referenceDeclarator),
   ("parenthesized_declarator", .parenthesizedDeclarator),
   ("attributed_declarator", .attributedDeclarator),
   ("template_function", .templateFunction),
   ("qualified_identifier", .qualifiedIdentifier)]

/-- The kind with the grammar's name for it. -/
def ofName (name : String) : Kind :=
  (table.lookup name).getD (.other name)

/-- The grammar's name for a kind. -/
def name : Kind → String
  | .other name => name
  | k => ((table.find? fun e => e.2 = k).map Prod.fst).getD ""

end Kind

/-- The role of a node in its parent. -/
inductive Field where
  | name
  | condition
  | path
  | value
  | declarator
  | type
  | parameters
  | body
  | arguments
  | function
  | defaultValue
  | size
  | right
  | other (name : String)
  deriving Repr, DecidableEq, Inhabited

namespace Field

def table : List (String × Field) :=
  [("name", .name),
   ("condition", .condition),
   ("path", .path),
   ("value", .value),
   ("declarator", .declarator),
   ("type", .type),
   ("parameters", .parameters),
   ("body", .body),
   ("arguments", .arguments),
   ("function", .function),
   ("default_value", .defaultValue),
   ("size", .size),
   ("right", .right)]

/-- The role with the grammar's name for it. -/
def ofName (name : String) : Field :=
  (table.lookup name).getD (.other name)

end Field

end CudaToHip.Tree
