namespace Chunkwise

/-- What a nesting limit counts. -/
inductive Nesting where
  | expression
  | statement
  deriving DecidableEq, Repr

def Nesting.text : Nesting → String
  | .expression => "expression"
  | .statement => "statement"

inductive Problem where
  -- reading
  | unexpectedToken (found expected : String)
  | cannotStart (found : String)
  | unexpectedEnd (expected : String)
  | openComment
  | openString
  | unknownCharacter (c : Char)
  | badHexLiteral
  | badNumber (text : String)
  | integerTooLarge (digits : String)
  | newlineInString
  | unknownEscape (c : Char)
  | unsupportedKeyword (word : String)
  | nestingLimit (what : Nesting) (limit : Nat)
  -- names
  | unknownName (name : String)
  | unknownType (name : String)
  | namespaceAsType (name : String)
  | unknownMember (owner name : String)
  | memberOfMethod (method name : String)
  | unknownUsing (name : String)
  | usingOfType (name : String)
  | usingAliasClash (aliasName : String)
  | unknownInNamespace (name space : String)
  | namespaceInType (name : String)
  | cannotDeclareNamespace (name : String)
  | cannotDeclareType (name : String)
  | duplicateInContainer (container name : String)
  | duplicateMember (type name : String)
  | duplicateSignature (type name : String)
  | duplicateConstructor (type : String)
  | duplicateParameter (name : String)
  | duplicateVariable (name : String)
  | duplicateLocal (name : String)
  -- types
  | noConversion (source target : String)
  | voidType
  | voidValue
  | varOutsideLocal
  | varWithoutValue
  | varFromNull
  | implicitFromNull (name : String)
  | typeAsValue (name : String)
  | namespaceAsValue (name : String)
  | methodAsValue (name : String)
  | notAnInterface (name : String)
  | enumWithInterface (name : String)
  | fieldInInterface
  | constFieldWithoutValue
  | constantWithoutValue (name : String)
  | enumValueNotConstant (name : String)
  | noCommonType (left right : String)
  | valueFromVoid
  | valueRequired (type : String)
  | noOverloadAccepts (name types : String)
  | noOverloadTakes (name : String) (count : Nat)
  | noConstructorTakes (type : String) (count : Nat)
  | badOperand (op type : String)
  | badOperands (op left right : String)
  | readonlyTarget
  | notATarget
  | notCallable
  -- structure
  | jumpOutsideLoop
  | returnAtTop
  | throwNothing
  | thisInStatic
  | fieldNeedsObject (type name : String)
  | methodNeedsObject (type name : String)
  | staticThroughObject (type name : String)
  | instanceInStatic (type : String)
  | staticWithConstructor (type : String)
  | cannotInstantiate (type : String)
  | instantiateStatic (type : String)
  | instantiateAbstract (type : String)
  | abstractInConcrete (type name : String)
  | abstractWithBody (type name : String)
  | missingBody (type name : String)
  | interfaceMemberWithBody (name : String)
  | interfaceWithConstructor
  | staticConstructor
  | missingReturn (type name : String)
  | notImplemented (type interface name params : String)
  deriving DecidableEq, Repr

namespace Problem

def code : Problem → Nat
  | unexpectedToken .. | cannotStart .. => 100
  | unexpectedEnd .. | openComment | openString => 101
  | unknownCharacter .. => 102
  | badHexLiteral | badNumber .. | integerTooLarge .. | newlineInString | unknownEscape .. => 103
  | unsupportedKeyword .. | interfaceMemberWithBody .. | abstractWithBody ..
  | interfaceWithConstructor | staticConstructor | throwNothing => 104
  | nestingLimit .. => 105
  | unknownName .. => 200
  | unknownType .. | namespaceAsType .. => 201
  | unknownMember .. | memberOfMethod .. => 202
  | duplicateInContainer .. | duplicateMember .. | duplicateSignature .. | duplicateConstructor ..
  | duplicateParameter .. | duplicateVariable .. | duplicateLocal .. | namespaceInType ..
  | usingAliasClash .. => 203
  | unknownUsing .. | usingOfType .. | unknownInNamespace .. | cannotDeclareNamespace ..
  | cannotDeclareType .. => 204
  | noConversion .. | voidType | voidValue | typeAsValue .. | namespaceAsValue .. | methodAsValue ..
  | notAnInterface .. | enumWithInterface .. | fieldInInterface | constFieldWithoutValue
  | constantWithoutValue .. | enumValueNotConstant .. | noCommonType .. | valueFromVoid
  | valueRequired .. | noOverloadAccepts .. => 300
  | noOverloadTakes .. | noConstructorTakes .. => 301
  | badOperand .. | badOperands .. => 302
  | readonlyTarget | notATarget => 303
  | notCallable => 304
  | varOutsideLocal | varWithoutValue | varFromNull | implicitFromNull .. => 305
  | jumpOutsideLoop => 400
  | returnAtTop => 401
  | thisInStatic | fieldNeedsObject .. | methodNeedsObject .. | staticThroughObject ..
  | instanceInStatic .. | staticWithConstructor .. => 402
  | cannotInstantiate .. | instantiateStatic .. | instantiateAbstract ..
  | abstractInConcrete .. => 403
  | missingBody .. | missingReturn .. => 404
  | notImplemented .. => 405

def message : Problem → String
  | unexpectedToken found expected => s!"Unexpected symbol '{found}', expected {expected}"
  | cannotStart found => s!"Unexpected symbol '{found}'"
  | unexpectedEnd expected => s!"Unexpected end of input, expected {expected}"
  | openComment => "End of input inside block comment"
  | openString => "Unterminated string literal"
  | unknownCharacter c => s!"Unexpected character '{c}'"
  | badHexLiteral => "Invalid hexadecimal literal"
  | badNumber text => s!"Invalid numeric literal '{text}'"
  | integerTooLarge digits => s!"Integral constant '{digits}' is too large"
  | newlineInString => "Newline in string literal"
  | unknownEscape c => s!"Unrecognized escape sequence '\\{c}'"
  | unsupportedKeyword word => s!"'{word}' is not supported in interactive input"
  | nestingLimit what limit => s!"maximum {what.text} nesting depth is {limit}"
  | unknownName name => s!"The name '{name}' does not exist in the current context"
  | unknownType name => s!"The type or namespace name '{name}' could not be found"
  | namespaceAsType name => s!"'{name}' is a namespace but is used like a type"
  | unknownMember owner name => s!"'{owner}' does not contain a definition for '{name}'"
  | memberOfMethod method name => s!"Method '{method}' has no member '{name}'"
  | unknownUsing name => s!"The type or namespace name '{name}' could not be found"
  | usingOfType name =>
    "A using namespace directive can only be applied to namespaces; " ++
      s!"'{name}' is a type not a namespace"
  | usingAliasClash aliasName =>
    s!"The using alias '{aliasName}' appeared previously with a different target"
  | unknownInNamespace name space =>
    s!"The type or namespace name '{name}' does not exist in the namespace '{space}'"
  | namespaceInType name => s!"'{name}' is a type and cannot contain a namespace"
  | cannotDeclareNamespace name => s!"Cannot declare namespace '{name}'"
  | cannotDeclareType name => s!"Cannot declare type '{name}'"
  | duplicateInContainer container name =>
    s!"'{container}' already contains a definition for '{name}'"
  | duplicateMember type name => s!"The type '{type}' already contains a definition for '{name}'"
  | duplicateSignature type name =>
    s!"Type '{type}' already defines a member called '{name}' with the same parameter types"
  | duplicateConstructor type =>
    s!"Type '{type}' already defines a constructor with the same parameter types"
  | duplicateParameter name => s!"The parameter name '{name}' is a duplicate"
  | duplicateVariable name => s!"A variable named '{name}' is already defined in this unit"
  | duplicateLocal name => s!"A local variable named '{name}' is already defined in this scope"
  | noConversion source target => s!"Cannot implicitly convert type '{source}' to '{target}'"
  | voidType => "'void' cannot be used in this context"
  | voidValue => "Cannot use an expression of type 'void' as a value"
  | varOutsideLocal =>
    "The contextual keyword 'var' may only appear within a local variable declaration"
  | varWithoutValue => "Implicitly-typed variables must be initialized"
  | varFromNull => "Cannot assign <null> to an implicitly-typed variable"
  | implicitFromNull name => s!"Cannot infer the type of '{name}' from a null value"
  | typeAsValue name => s!"'{name}' is a type, which is not valid in the given context"
  | namespaceAsValue name => s!"'{name}' is a namespace but is used like a variable"
  | methodAsValue name => s!"Method '{name}' cannot be used as a value"
  | notAnInterface name => s!"'{name}' is not an interface; class inheritance is not supported"
  | enumWithInterface name => s!"Enum '{name}' cannot implement interfaces"
  | fieldInInterface => "Interfaces cannot contain fields"
  | constFieldWithoutValue => "A const field requires a value to be provided"
  | constantWithoutValue name => s!"The constant '{name}' must be given a value"
  | enumValueNotConstant name => s!"The value assigned to '{name}' must be a constant integer"
  | noCommonType left right =>
    "Type of conditional expression cannot be determined because there is no implicit " ++
      s!"conversion between '{left}' and '{right}'"
  | valueFromVoid =>
    "The method returns void, so 'return' must not be followed by an expression"
  | valueRequired type => s!"An object of a type convertible to '{type}' is required"
  | noOverloadAccepts name types => s!"No overload of '{name}' accepts arguments of type ({types})"
  | noOverloadTakes name count => s!"No overload for method '{name}' takes {count} arguments"
  | noConstructorTakes type count =>
    s!"'{type}' does not contain a constructor that takes {count} arguments"
  | badOperand op type => s!"Operator '{op}' cannot be applied to operand of type '{type}'"
  | badOperands op left right =>
    s!"Operator '{op}' cannot be applied to operands of type '{left}' and '{right}'"
  | readonlyTarget => "Cannot assign to a read-only variable or field"
  | notATarget => "The left-hand side of an assignment must be a variable or field"
  | notCallable => "Only methods can be invoked"
  | jumpOutsideLoop => "No enclosing loop out of which to break or continue"
  | returnAtTop => "'return' is not allowed in top-level statements"
  | throwNothing => "A throw statement with no argument is only valid inside a catch clause"
  | thisInStatic => "Keyword 'this' is not valid in a static context"
  | fieldNeedsObject type name =>
    s!"An object reference is required for the non-static field '{type}.{name}'"
  | methodNeedsObject type name =>
    s!"An object reference is required for the non-static method '{type}.{name}'"
  | staticThroughObject type name =>
    s!"Member '{type}.{name}' cannot be accessed with an instance reference; " ++
      "qualify it with a type name instead"
  | instanceInStatic type => s!"'{type}': cannot declare instance members in a static class"
  | staticWithConstructor type => s!"Static class '{type}' cannot have instance constructors"
  | cannotInstantiate type => s!"Cannot create an instance of '{type}'"
  | instantiateStatic type => s!"Cannot create an instance of the static type '{type}'"
  | instantiateAbstract type => s!"Cannot create an instance of the abstract type '{type}'"
  | abstractInConcrete type name =>
    s!"'{type}.{name}' is abstract but it is contained in non-abstract type '{type}'"
  | abstractWithBody type name =>
    s!"'{type}.{name}' cannot declare a body or be static because it is marked abstract"
  | missingBody type name =>
    s!"'{type}.{name}' must declare a body because it is not marked abstract"
  | interfaceMemberWithBody name => s!"Interface member '{name}' cannot have a body or be static"
  | interfaceWithConstructor => "Interfaces cannot contain constructors"
  | staticConstructor => "Static constructors are not supported"
  | missingReturn type name => s!"'{type}.{name}': not all code paths return a value"
  | notImplemented type interface name params =>
    s!"'{type}' does not implement interface member '{interface}.{name}({params})'"

end Problem

end Chunkwise
