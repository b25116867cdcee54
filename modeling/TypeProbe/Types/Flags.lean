import TypeProbe.Label

/-!
# Flags and categories of types

What is known of a type besides its parts: its category, whether it stands for a class or for values
of it (`TypeFlag`), and the properties of classes (`ClassFlag`) and of functions (`FunctionFlag`).
-/

namespace TypeProbe

/-- The categories of types. -/
inductive TypeCategory where
  | unbound | unknown | any | none | never | function | overloadedFunction | «class» | module
  | union | typeVar
deriving DecidableEq, Inhabited, Repr

instance : Labelled TypeCategory where
  members := [.unbound, .unknown, .any, .none, .never, .function, .overloadedFunction, .class,
    .module, .union, .typeVar]
  label
    | .unbound => "Unbound" | .unknown => "Unknown" | .any => "Any" | .none => "None"
    | .never => "Never" | .function => "Function" | .overloadedFunction => "OverloadedFunction"
    | .class => "Class" | .module => "Module" | .union => "Union" | .typeVar => "TypeVar"

/-- The label of a category; values of a class are objects, the class itself is a class. -/
def TypeCategory.textOfCode (code : Nat) (instantiable : Bool) : String :=
  if Labelled.members[code]? = some TypeCategory.class && !instantiable then "Object"
  else labelOfCode TypeCategory code

/-- How the type arguments of a generic type may vary. -/
inductive Variance where
  | invariant | covariant | contravariant
deriving DecidableEq, Inhabited, Repr

instance : Labelled Variance where
  members := [.invariant, .covariant, .contravariant]
  label
    | .invariant => "Invariant" | .covariant => "Covariant" | .contravariant => "Contravariant"

/-- Whether a type stands for a class itself, for the values of it, or for both. -/
inductive TypeFlag where
  | instantiable | «instance»
deriving DecidableEq, Inhabited, Repr

instance : FlagLabelled TypeFlag where
  members := [.instantiable, .instance]
  label
    | .instantiable => "Instantiable" | .instance => "Instance"
  place
    | .instantiable => 0 | .instance => 1

/-- Properties of a class. -/
inductive ClassFlag where
  | builtInClass | specialBuiltIn | dataClass | frozenDataClass | skipSynthesizedDataClassInit
  | skipSynthesizedDataClassEq | synthesizedDataClassOrder | typedDictClass | canOmitDictValues
  | supportsAbstractMethods | propertyClass | final | protocolClass | pseudoGenericClass
  | runtimeCheckable | typingExtensionClass | partiallyEvaluated | hasCustomClassGetItem
  | tupleClass | enumClass | dataClassKeywordOnlyParams | classProperty | definedInStub
  | readOnlyInstanceVariables | generateDataClassSlots | synthesizeDataClassUnsafeHash
deriving DecidableEq, Inhabited, Repr

instance : FlagLabelled ClassFlag where
  members := [
    .builtInClass, .specialBuiltIn, .dataClass, .frozenDataClass, .skipSynthesizedDataClassInit,
    .skipSynthesizedDataClassEq, .synthesizedDataClassOrder, .typedDictClass, .canOmitDictValues,
    .supportsAbstractMethods, .propertyClass, .final, .protocolClass, .pseudoGenericClass,
    .runtimeCheckable, .typingExtensionClass, .partiallyEvaluated, .hasCustomClassGetItem,
    .tupleClass, .enumClass, .dataClassKeywordOnlyParams, .classProperty, .definedInStub,
    .readOnlyInstanceVariables, .generateDataClassSlots, .synthesizeDataClassUnsafeHash]
  label
    | .builtInClass => "BuiltInClass" | .specialBuiltIn => "SpecialBuiltIn"
    | .dataClass => "DataClass" | .frozenDataClass => "FrozenDataClass"
    | .skipSynthesizedDataClassInit => "SkipSynthesizedDataClassInit"
    | .skipSynthesizedDataClassEq => "SkipSynthesizedDataClassEq"
    | .synthesizedDataClassOrder => "SynthesizedDataClassOrder"
    | .typedDictClass => "TypedDictClass" | .canOmitDictValues => "CanOmitDictValues"
    | .supportsAbstractMethods => "SupportsAbstractMethods" | .propertyClass => "PropertyClass"
    | .final => "Final" | .protocolClass => "ProtocolClass"
    | .pseudoGenericClass => "PseudoGenericClass" | .runtimeCheckable => "RuntimeCheckable"
    | .typingExtensionClass => "TypingExtensionClass"
    | .partiallyEvaluated => "PartiallyEvaluated"
    | .hasCustomClassGetItem => "HasCustomClassGetItem" | .tupleClass => "TupleClass"
    | .enumClass => "EnumClass" | .dataClassKeywordOnlyParams => "DataClassKeywordOnlyParams"
    | .classProperty => "ClassProperty" | .definedInStub => "DefinedInStub"
    | .readOnlyInstanceVariables => "ReadOnlyInstanceVariables"
    | .generateDataClassSlots => "GenerateDataClassSlots"
    | .synthesizeDataClassUnsafeHash => "SynthesizeDataClassUnsafeHash"
  place
    | .builtInClass => 0 | .specialBuiltIn => 1 | .dataClass => 2 | .frozenDataClass => 3
    | .skipSynthesizedDataClassInit => 4 | .skipSynthesizedDataClassEq => 5
    | .synthesizedDataClassOrder => 6 | .typedDictClass => 7 | .canOmitDictValues => 8
    | .supportsAbstractMethods => 9 | .propertyClass => 10 | .final => 11 | .protocolClass => 12
    | .pseudoGenericClass => 13 | .runtimeCheckable => 14 | .typingExtensionClass => 15
    | .partiallyEvaluated => 16 | .hasCustomClassGetItem => 17 | .tupleClass => 18
    | .enumClass => 19 | .dataClassKeywordOnlyParams => 20 | .classProperty => 21
    | .definedInStub => 22 | .readOnlyInstanceVariables => 23 | .generateDataClassSlots => 24
    | .synthesizeDataClassUnsafeHash => 25

/-- Properties of a function. -/
inductive FunctionFlag where
  | constructorMethod | classMethod | staticMethod | abstractMethod | generator
  | disableDefaultChecks | synthesizedMethod | skipConstructorCheck | overloaded | async
  | wrapReturnTypeInAwait | stubDefinition | pyTypedDefinition | final | unannotatedParams
  | skipArgsKwargsCompatibilityCheck | paramSpecValue
deriving DecidableEq, Inhabited, Repr

instance : FlagLabelled FunctionFlag where
  members := [
    .constructorMethod, .classMethod, .staticMethod, .abstractMethod, .generator,
    .disableDefaultChecks, .synthesizedMethod, .skipConstructorCheck, .overloaded, .async,
    .wrapReturnTypeInAwait, .stubDefinition, .pyTypedDefinition, .final, .unannotatedParams,
    .skipArgsKwargsCompatibilityCheck, .paramSpecValue]
  label
    | .constructorMethod => "ConstructorMethod" | .classMethod => "ClassMethod"
    | .staticMethod => "StaticMethod" | .abstractMethod => "AbstractMethod"
    | .generator => "Generator" | .disableDefaultChecks => "DisableDefaultChecks"
    | .synthesizedMethod => "SynthesizedMethod" | .skipConstructorCheck => "SkipConstructorCheck"
    | .overloaded => "Overloaded" | .async => "Async"
    | .wrapReturnTypeInAwait => "WrapReturnTypeInAwait" | .stubDefinition => "StubDefinition"
    | .pyTypedDefinition => "PyTypedDefinition" | .final => "Final"
    | .unannotatedParams => "UnannotatedParams"
    | .skipArgsKwargsCompatibilityCheck => "SkipArgsKwargsCompatibilityCheck"
    | .paramSpecValue => "ParamSpecValue"
  place
    | .constructorMethod => 0 | .classMethod => 1 | .staticMethod => 2 | .abstractMethod => 3
    | .generator => 4 | .disableDefaultChecks => 5 | .synthesizedMethod => 6
    | .skipConstructorCheck => 7 | .overloaded => 8 | .async => 9 | .wrapReturnTypeInAwait => 10
    | .stubDefinition => 11 | .pyTypedDefinition => 12 | .final => 13 | .unannotatedParams => 14
    | .skipArgsKwargsCompatibilityCheck => 15 | .paramSpecValue => 16

end TypeProbe
