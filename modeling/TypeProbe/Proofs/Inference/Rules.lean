import TypeProbe.Inference.Checker
import TypeProbe.Proofs.Inference.Changes
import TypeProbe.Proofs.Tree.Arena

/-!
# What the rules change

The rules for plain questions change the memory by every tolerant relation
(`Evaluation.changes_plain`). The others keep what is asked for, a node or a definition, and whether
they may is up to the relation; what they do besides changes the memory by every tolerant relation
as well, as long as it makes no classes or functions and does not complete them.
-/

namespace TypeProbe.Evaluation

open TypeStore

variable {R : Memory → Memory → Prop} [Tolerant R] (p : Program)

/-! ## Operations -/

section Operations

open Operations

/-- An operation on one operand changes the memory as answers do. -/
theorem changes_unary (op : Operator) (operand : TypeId) : ChangesBy R (unary p op operand) := by
  unfold unary
  extract_lets b viaMember
  have hviaMember : ChangesBy R viaMember := by
    dsimp only [viaMember]
    split
    · exact changes_callMemberD operand _ []
    · exact .ret _
  split
  · exact .onStore (keeping_instanceOf _)
  · refine .store fun s => ?_
    split
    · exact hviaMember
    · split
      · split
        · exact .onStore (keeping_add _)
        · exact .ret operand
        · exact .onStore (keeping_instanceOf _)
      · split
        · exact .onStore (keeping_instanceOf _)
        · exact hviaMember

/-- An operation between known classes changes the memory as answers do. -/
theorem changes_known? (op : Operator) (left right : TypeId) :
    ChangesBy R (known? p op left right) := by
  refine .store fun s => ?_
  split
  · split
    · exact (ChangesBy.onStore (keeping_arithmetic _ op _ _ _)).bind fun type => .ret (some type)
    · extract_lets isText
      split
      · exact (ChangesBy.onStore (keeping_instanceOf _)).bind fun type => .ret (some type)
      · split
        · exact (ChangesBy.onStore (keeping_widenAt _ left)).bind fun type => .ret (some type)
        · exact .ret none
  · exact .ret none

/-- An operation between two values changes the memory as answers do. -/
theorem changes_binary (op : Operator) (left right : TypeId) :
    ChangesBy R (binary p op left right) := by
  unfold binary
  split
  · exact .onStore (keeping_unionOf _)
  · split
    · exact .onStore (keeping_instanceOf _)
    · refine (changes_known? p op left right).bind fun found => ?_
      split
      · exact .ret _
      · split
        · exact changes_callMemberD left _ [right]
        · exact .ret _

end Operations

/-! ## Names -/

section Names

open Names

/-- A name that no scope declares changes the memory as answers do. -/
theorem changes_undeclared (name : String) : ChangesBy R (undeclared p name) := by
  refine .store fun s => ?_
  split
  · exact .ret _
  · split
    · exact .onStore (keeping_instanceOf _)
    · exact .ret _

/-- The declarations of a name together change the memory as answers do. -/
theorem changes_together (ds : List Declaration) : ChangesBy R (together ds) := by
  unfold together
  split
  · exact .ask _
  · split
    · exact .ask _
    · refine (ChangesBy.mapM (fun d => ?_) ds).bind fun types =>
        .onStore (keeping_unionOrUnknown types)
      exact (ChangesBy.ask (.declaration d)).bind fun type => .onStore (keeping_widenAt _ type)

/-- The declarations of a name change the memory as answers do. -/
theorem changes_ofDeclarations (ds : List Declaration) (usage : NodeId) (sameScope : Bool) :
    ChangesBy R (ofDeclarations p ds usage sameScope) := by
  unfold ofDeclarations
  dsimp only
  split
  · exact .ask _
  · exact changes_together ds

/-- A name changes the memory as answers do. -/
theorem changes_lookup (usage : NodeId) (name : String) : ChangesBy R (lookup p usage name) := by
  unfold lookup
  dsimp only
  split
  · exact changes_ofDeclarations p _ usage _
  · exact changes_undeclared p name

/-- A parameter of a function type leaves the memory. -/
theorem changes_parameterOf (n : NodeId) (parameters : List NodeId) (type : TypeId) :
    ChangesBy R (parameterOf n parameters type) := by
  refine .store fun s => ?_
  split
  · exact .ret _
  · exact .ret _

/-- A parameter changes the memory as answers do. -/
theorem changes_parameter (n : NodeId) : ChangesBy R (Names.parameter p n) := by
  unfold Names.parameter
  split
  · exact .ret _
  · split
    · refine (ChangesBy.ask _).bind fun types => ?_
      split
      · exact changes_parameterOf n _ _
      · exact .ret _
    · exact (changes_typeOf _).bind fun type => changes_parameterOf n _ type
    · exact .ret _

/-- What an import names leaves the memory. -/
theorem changes_imported (n : NodeId) : ChangesBy R (imported p n) := by
  unfold imported
  split
  · exact .ret _
  · split
    · exact .store fun s => .ret _
    · exact .ret _
  · exact .ret _

/-- An assignment through an operator changes the memory as answers do. -/
theorem changes_augmented (op : Operator) (left right : NodeId) :
    ChangesBy R (augmented p op left right) := by
  unfold augmented
  extract_lets next
  have hnext : ∀ leftType, ChangesBy R (next leftType) := by
    refine fun leftType => (changes_typeOf right).bind fun rightType => ?_
    split
    · exact changes_binary p _ leftType rightType
    · exact .ret _
  split
  · exact (changes_lookup p left _).bind hnext
  · exact (changes_typeOf left).bind hnext

/-- What a declaration takes its value from changes the memory as answers do. -/
theorem changes_sourceType (source : NodeId) : ChangesBy R (sourceType p source) := by
  unfold sourceType
  split
  · exact .ret _
  · exact (changes_typeOf _).bind fun type => .onStore (keeping_iteratedAt _ _ type)
  · exact (changes_typeOf _).bind fun type => .onStore (keeping_iteratedAt _ _ type)
  · exact (changes_typeOf _).bind fun type => changes_callMemberD type _ []
  · exact (changes_typeOf _).bind fun type => .onStore (keeping_caughtAt _ _ type)
  · exact .onStore (keeping_instanceOf _)
  · exact changes_augmented p _ _ _
  · exact changes_typeOf source

/-- A variable without a type hint changes the memory as answers do. -/
theorem changes_variableType (d : Declaration) : ChangesBy R (variableType p d) := by
  unfold variableType
  split
  · exact .ret _
  · split
    · exact .ret _
    · exact (changes_sourceType p _).bind fun type =>
        .foldlM (fun type place => .onStore (keeping_unpacked _ type place)) type d.path

/-- A declaration changes the memory as answers do, if its type may be kept. -/
theorem changes_declaration (d : Declaration) (hkeep : ∀ (m : Memory) type,
      R m { m with declarationTypes := (d.node, type) :: m.declarationTypes }) :
    ChangesBy R (Names.declaration p d) := by
  unfold Names.declaration
  split
  · exact (ChangesBy.ask (.classDef d.node)).bind fun types => .ret _
  · exact (ChangesBy.ask (.function d.node)).bind fun types => .ret _
  · refine .get fun m => ?_
    split
    · exact .ret _
    · refine changes_guarded (fun g m => ⟨⟨.refl _, rfl, rfl, rfl⟩, rfl, rfl⟩) ?_
        fun type m => hkeep m type
      split
      · exact changes_parameter p _
      · exact changes_imported p _
      · exact .ask _
      · exact changes_variableType p d

end Names

/-! ## Calls -/

section Calls

open Calls

/-- What a function returns changes the memory as answers do. -/
theorem changes_functionResult (detail : FunctionId) (arguments : List TypeId) (skip : Nat) :
    ChangesBy R (functionResult p detail arguments skip) := by
  refine .store fun s => ?_
  split
  · exact .ret _
  · rename_i f hf
    extract_lets finish next
    have hfinish : ∀ type, ChangesBy R (finish type) := by
      intro type
      show ChangesBy R (if f.flags.has .async then _ else _)
      split
      · exact .onStore (keeping_add _)
      · exact .ret type
    have hnext : ∀ declared, ChangesBy R (next declared) := by
      refine fun declared => (ChangesBy.onStore (keeping_solve _ arguments [])).bind
        fun solutions => ?_
      split
      · exact (ChangesBy.ret declared).bind hfinish
      · exact (ChangesBy.onStore (keeping_substituteAt solutions _ declared)).bind hfinish
    split
    · exact (ChangesBy.ret _).bind hnext
    · exact (ChangesBy.ask (.returned detail)).bind hnext

/-- A call changes the memory as answers do. -/
theorem changes_call (callee : TypeId) (arguments : List TypeId) :
    ChangesBy R (Calls.call p callee arguments) := by
  refine .store fun s => ?_
  split
  · exact .ret _
  · split
    · split
      · split
        · exact .ret _
        · split
          · exact .onStore (keeping_add _)
          · exact .onStore (keeping_instanceOf _)
      · exact changes_callMemberD callee _ arguments
    · exact changes_functionResult p _ arguments _
    · split
      · exact .ask _
      · exact .ret _
    · exact (ChangesBy.mapM (fun part => .ask (.call part arguments)) _).bind fun types =>
        .onStore (keeping_unionOf types)
    · exact .ret _
    · exact .ret _

/-- Binding a member changes the memory as answers do. -/
theorem changes_bound (member object : TypeId) (throughValue : Bool) :
    ChangesBy R (bound p member object throughValue) := by
  refine .get fun m => ?_
  split
  · split
    · exact changes_functionResult p _ [] 1
    · exact .ret member
  · split
    · split
      · exact .ret member
      · rename_i f hf
        split
        · exact .ret member
        · have hreceiver : ChangesBy R (receiver? f object throughValue) := by
            unfold receiver?
            split
            · refine .store fun s => ?_
              split
              · exact (ChangesBy.onStore (keeping_classType _)).bind fun type => .ret (some type)
              · exact .ret (some object)
            · exact .ret _
          refine hreceiver.bind fun receiver => ?_
          split
          · exact .onStore (keeping_add _)
          · exact .ret member
    · exact .ret member

/-- A member of a class changes the memory as answers do. -/
theorem changes_classMember (object : TypeId) (detail : ClassId) (name : String) :
    ChangesBy R (classMember p object detail name) := by
  refine .store fun s => ?_
  split
  · exact (changes_bound p _ object false).bind fun type => .ret (some type)
  · split
    · exact .ret none
    · split
      · exact (changes_bound p _ object true).bind fun type => .ret (some type)
      · exact .ret none

/-- A member changes the memory as answers do. -/
theorem changes_member (object : TypeId) (name : String) :
    ChangesBy R (Calls.member p object name) := by
  refine .store fun s => ?_
  extract_lets ofObject
  have hofObject : ChangesBy R ofObject :=
    (ChangesBy.onStore (keeping_instanceOf _)).bind fun type => .ask (.member type name)
  split
  · exact .ret none
  · split
    · exact .ret _
    · split
      · exact changes_classMember p object _ name
      · split
        · exact (changes_bound p _ object true).bind fun type => .ret (some type)
        · exact .ret none
    · split
      · exact .ret none
      · split
        · exact .ask _
        · exact hofObject
    · exact hofObject
    · refine (ChangesBy.filterMapM (fun part => .ask (.member part name)) _).bind fun found => ?_
      split
      · exact .ret none
      · exact (ChangesBy.onStore (keeping_unionOf found)).bind fun type => .ret (some type)
    · exact .ret _
    · exact .ret _
    · exact .ret none

/-- What a body returns changes the memory as answers do. -/
theorem changes_bodyResult (n body : NodeId) : ChangesBy R (bodyResult p n body) := by
  have hreturned : ∀ statement, ChangesBy R (returnedBy p statement) := by
    intro statement
    unfold returnedBy
    split
    · exact changes_typeOf _
    · exact .ret _
  have hyielded : ∀ expression, ChangesBy R (yieldedBy p expression) := by
    intro expression
    unfold yieldedBy
    split
    · exact changes_typeOf _
    · exact (changes_typeOf _).bind fun type => .onStore (keeping_iteratedAt _ _ type)
    · exact .ret _
  refine (ChangesBy.mapM hreturned _).bind fun types => ?_
  extract_lets returned
  split
  · refine (ChangesBy.mapM hyielded _).bind fun yields => ?_
    refine (ChangesBy.onStore (keeping_unionOf yields)).bind fun yielded => ?_
    extract_lets next
    have hnext : ∀ result, ChangesBy R (next result) := fun result => .onStore (keeping_add _)
    split
    · exact hnext _
    · exact (ChangesBy.onStore (keeping_unionOf returned)).bind hnext
  · exact .onStore (keeping_unionOf returned)

/-- The type that a function returns changes the memory as answers do. -/
theorem changes_returned (detail : FunctionId) : ChangesBy R (returned p detail) := by
  refine .get fun m => ?_
  split
  · exact .ret _
  · split
    · exact .ret _
    · rename_i n hn
      have hresult : ChangesBy R (definitionResult p n) := by
        unfold definitionResult
        split
        · exact changes_typeOf _
        · exact changes_bodyResult p n _
        · exact .ret _
      exact changes_guarded (fun g m => ⟨⟨.refl _, rfl, rfl, rfl⟩, rfl, rfl⟩) hresult
        fun type m => Tolerant.spares ⟨⟨.refl _, rfl, rfl, rfl⟩, rfl, rfl⟩

end Calls

/-! ## Type hints -/

section Hints

open Hints

/-- A type variable that is used changes the memory as answers do. -/
theorem changes_scopedTypeVar (type : TypeId) (context : NodeId) :
    ChangesBy R (scopedTypeVar p type context) := by
  have hparameter : ∀ classNode (detail : TypeVarId),
      ChangesBy R (isTypeParameter classNode detail) := by
    refine fun classNode detail => (ChangesBy.ask (.classDef classNode)).bind fun types => ?_
    split
    · exact .ret _
    · refine .store fun s => ?_
      split
      · exact .ret _
      · exact .ret _
  have hscope : ∀ detail, ChangesBy R (typeVarScope? p detail context) := by
    intro detail
    unfold typeVarScope?
    split
    · exact .ret none
    · split
      · refine (hparameter _ detail).bind fun isParameter => ?_
        split
        · exact .ret _
        · exact .ret _
      · exact .ret _
  refine .store fun s => ?_
  split
  · refine (hscope _).bind fun scope => ?_
    split
    · exact .ret type
    · refine .get fun m => ?_
      split
      · exact .ret _
      · refine (ChangesBy.onStore (keeping_add _)).bind fun fresh => ?_
        exact .bind (.change fun m => ⟨⟨.refl _, rfl, rfl, rfl⟩, rfl, rfl⟩) fun _ => .ret fresh
  · exact .ret type

/-- The type that a value denotes changes the memory as answers do. -/
theorem changes_denoted (type : TypeId) (context : NodeId) :
    ChangesBy R (denoted p type context) := by
  have hvalues : ∀ detail arguments, ChangesBy R (classValues detail arguments) := by
    refine fun detail arguments => .store fun s => ?_
    split
    · exact .ret _
    · split
      · exact .ret _
      · split
        · exact .onStore (keeping_add _)
        · exact .onStore (keeping_instanceOf _)
  refine .store fun s => ?_
  split
  · exact .ret _
  · split
    · split
      · exact hvalues _ _
      · exact .ret _
    · exact changes_scopedTypeVar p type context
    · exact .ret type
    · exact .ret type
    · exact .ret type
    · exact .ret type
    · exact .ret _

/-- A text in a type hint changes the memory as answers do. -/
theorem changes_forwardReference (n : NodeId) (strings : List NodeId) :
    ChangesBy R (forwardReference p n strings) := by
  unfold forwardReference
  split
  · split
    · exact (changes_lookup p n _).bind fun type => changes_denoted p type n
    · exact .ret _
  · exact .ret _

/-- A value that a special form names changes the memory as answers do. -/
theorem changes_literalType (n : NodeId) : ChangesBy R (literalType p n) := by
  unfold literalType
  dsimp only
  split
  · exact .onStore (keeping_add _)
  · exact .onStore (keeping_add _)
  · exact .onStore (keeping_add _)
  · exact .ret _
  · split
    · exact .onStore (keeping_add _)
    · exact .ret _
  · exact changes_typeOf n
  · exact .ret _

/-- A subscripted class changes the memory as answers do. -/
theorem changes_subscriptedClass (detail : ClassId) (hints : List NodeId) :
    ChangesBy R (Hints.subscriptedClass p detail hints) := by
  have hfirst : ChangesBy R (firstHint hints) := by
    unfold firstHint
    split
    · exact .ask _
    · exact .ret _
  have hclass : ChangesBy R (hintedClass hints) := by
    unfold hintedClass
    split
    · exact .ret _
    · refine (ChangesBy.ask _).bind fun type => .store fun s => ?_
      split
      · exact .onStore (keeping_classType _)
      · exact .ret _
  have hhints : ∀ hints : List NodeId,
      ChangesBy R (hints.mapM fun hint => Evaluation.ask (.hint hint)) :=
    .mapM fun hint => .ask (.hint hint)
  refine .store fun s => ?_
  split
  · exact hfirst.bind fun type => .onStore (keeping_unionOf _)
  · exact (hhints hints).bind fun types => .onStore (keeping_unionOf types)
  · exact (ChangesBy.mapM (changes_literalType p) hints).bind fun types =>
      .onStore (keeping_unionOf types)
  · exact hclass
  · exact hfirst
  · exact hfirst
  · split
    · exact .ret _
    · exact (hhints _).bind fun arguments => .onStore (keeping_add _)

/-- A subscripted type hint changes the memory as answers do. -/
theorem changes_subscripted (n base : NodeId) (items : List NodeId) :
    ChangesBy R (subscripted p n base items) := by
  refine (changes_typeOf base).bind fun baseType => .store fun s => ?_
  split
  · split
    · split
      · exact changes_subscriptedClass p _ _
      · exact .ret _
    · exact changes_denoted p baseType n
  · exact changes_denoted p baseType n

/-- A type hint changes the memory as answers do. -/
theorem changes_hint (n : NodeId) : ChangesBy R (hint p n) := by
  unfold hint
  split
  · exact .ret _
  · exact .ret _
  · exact changes_forwardReference p n _
  · exact (ChangesBy.ask _).bind fun left => (ChangesBy.ask _).bind fun right =>
      .onStore (keeping_unionOf _)
  · exact changes_subscripted p n _ _
  · exact (changes_typeOf n).bind fun type => changes_denoted p type n

end Hints

/-! ## Expressions -/

section Expressions

open Expressions

/-- Texts in a row change the memory as answers do. -/
theorem changes_texts (strings : List NodeId) : ChangesBy R (texts p strings) := by
  unfold texts
  dsimp only
  split
  · exact .onStore (keeping_instanceOf _)
  · split
    · exact .onStore (keeping_add _)
    · exact .onStore (keeping_instanceOf _)

/-- The display of a list or a set changes the memory as answers do. -/
theorem changes_display (detail : ClassId) (entries : List NodeId) :
    ChangesBy R (display p detail entries) := by
  have hentry : ∀ n, ChangesBy R (entry p n) := by
    intro n
    unfold entry
    extract_lets next
    have hnext : ∀ type, ChangesBy R (next type) := fun type => .onStore (keeping_widenAt _ type)
    split
    · exact (changes_typeOf _).bind fun type =>
        (ChangesBy.onStore (keeping_iteratedAt _ _ type)).bind hnext
    · exact (changes_typeOf _).bind hnext
    · exact (changes_typeOf n).bind hnext
  refine (ChangesBy.mapM hentry entries).bind fun types => ?_
  exact (ChangesBy.onStore (keeping_unionOrUnknown types)).bind fun item =>
    .onStore (keeping_add _)

/-- An entry of a dictionary changes the memory as answers do. -/
theorem changes_dictionaryEntry (n : NodeId) : ChangesBy R (dictionaryEntry p n) := by
  unfold dictionaryEntry
  extract_lets inner
  split
  · refine (changes_typeOf _).bind fun key => (changes_typeOf _).bind fun value => ?_
    exact (ChangesBy.onStore (keeping_widenAt _ key)).bind fun key =>
      (ChangesBy.onStore (keeping_widenAt _ value)).bind fun value => .ret (some (key, value))
  · refine (changes_typeOf _).bind fun expanded => .store fun s => ?_
    split
    · exact .ret _
    · exact .ret none
  · exact .ret none

/-- The display of a dictionary changes the memory as answers do. -/
theorem changes_dictionary (entries : List NodeId) : ChangesBy R (dictionary p entries) := by
  refine (ChangesBy.filterMapM (changes_dictionaryEntry p) entries).bind fun pairs => ?_
  exact (ChangesBy.onStore (keeping_unionOrUnknown _)).bind fun key =>
    (ChangesBy.onStore (keeping_unionOrUnknown _)).bind fun value => .onStore (keeping_add _)

/-- An argument that is passed by its place changes the memory as answers do. -/
theorem changes_positional (n : NodeId) : ChangesBy R (positional p n) := by
  unfold positional
  split
  · exact (changes_typeOf _).bind fun type => .ret _
  · exact .ret none

/-- A new type variable changes the memory as answers do. -/
theorem changes_newTypeVar (arguments : List NodeId) : ChangesBy R (newTypeVar p arguments) := by
  have hargument : ∀ v place n, ChangesBy R (typeVarArgument p v place n) := by
    intro v place n
    unfold typeVarArgument
    split
    · split
      · split
        · refine (changes_typeOf _).bind fun type => .store fun s => ?_
          split
          · exact .ret _
          · exact .ret v
        · exact (ChangesBy.ask _).bind fun type => .ret _
      · exact (ChangesBy.ask _).bind fun type => .ret _
      · exact .ret _
      · exact .ret _
      · exact .ret v
    · exact .ret v
  unfold newTypeVar
  extract_lets unnamed
  have hfold : ChangesBy R (arguments.zipIdx.foldlM
      (fun v argument => typeVarArgument p v argument.2 argument.1) unnamed) :=
    ChangesBy.foldlM (fun v _ => hargument v _ _) unnamed _
  refine hfold.bind fun v => ?_
  exact (ChangesBy.onStore (keeping_addTypeVar v)).bind fun detail => .onStore (keeping_add _)

/-- A call in the program changes the memory as answers do. -/
theorem changes_callExpression (callee : NodeId) (arguments : List NodeId) :
    ChangesBy R (Expressions.call p callee arguments) := by
  unfold Expressions.call
  extract_lets b
  refine (changes_typeOf callee).bind fun calleeType => ?_
  refine (ChangesBy.filterMapM (changes_positional p) arguments).bind fun types =>
    .store fun s => ?_
  split
  · exact changes_newTypeVar p arguments
  · split
    · split
      · exact .onStore (keeping_classType _)
      · exact .ret _
    · exact .ask _

/-- A member that is taken from a value changes the memory as answers do. -/
theorem changes_memberAccess (left member : NodeId) :
    ChangesBy R (memberAccess p left member) := by
  refine (changes_typeOf left).bind fun object => ?_
  split
  · exact (ChangesBy.ask _).bind fun found => .ret _
  · exact .ret _

/-- A class that is subscripted as a value changes the memory as answers do. -/
theorem changes_subscriptedClassValue (n : NodeId) (detail : ClassId) (items : List NodeId) :
    ChangesBy R (Expressions.subscriptedClass p n detail items) := by
  refine .store fun s => ?_
  split
  · refine (ChangesBy.ask (.hint n)).bind fun type => .store fun s => ?_
    split
    · split
      · exact .onStore (keeping_add _)
      · exact .ret type
    · exact .ret type
  · exact (ChangesBy.mapM (fun value => .ask (.hint value)) _).bind fun arguments =>
      .onStore (keeping_add _)

/-- What stands in the brackets of a subscript changes the memory as answers do. -/
theorem changes_subscriptType (items : List NodeId) : ChangesBy R (subscriptType p items) := by
  unfold subscriptType
  split
  · exact changes_typeOf _
  · exact (ChangesBy.mapM changes_typeOf _).bind fun types => .onStore (keeping_add _)

/-- An item that a subscript picks changes the memory as answers do. -/
theorem changes_picked (container subscript : TypeId) :
    ChangesBy R (picked p container subscript) := by
  unfold picked
  extract_lets b
  refine .store fun s => ?_
  split
  · exact .ret _
  · extract_lets isSlice arguments
    split
    · exact .onStore (keeping_instanceOf _)
    · split
      · exact .ret _
      · split
        · exact .ret _
        · split
          · split
            · exact .onStore (keeping_instanceOf _)
            · split
              · exact .ret _
              · exact .onStore (keeping_unionOrUnknown arguments)
          · exact changes_callMemberD container _ [subscript]

/-- A subscript changes the memory as answers do. -/
theorem changes_index (n base : NodeId) (items : List NodeId) :
    ChangesBy R (index p n base items) := by
  refine (changes_typeOf base).bind fun baseType => .store fun s => ?_
  split
  · exact .ret _
  · split
    · exact changes_subscriptedClassValue p n _ items
    · exact (changes_subscriptType p items).bind fun subscript =>
        changes_picked p baseType subscript

/-- The declaration of a node changes the memory as answers do. -/
theorem changes_declared (n : NodeId) : ChangesBy R (declared p n) := by
  unfold declared
  split
  · exact (ChangesBy.ask _).bind fun type => .ret _
  · exact .ret none

/-- A name changes the memory as answers do. -/
theorem changes_name (n : NodeId) (value : String) : ChangesBy R (name p n value) := by
  have hplain : ChangesBy R (plainName p n value) := by
    refine (changes_declared p n).bind fun found => ?_
    split
    · exact .ret _
    · exact (changes_lookup p n value).bind fun type => .ret _
  unfold name
  split
  · exact hplain
  · split
    · split
      · exact (ChangesBy.ask _).bind fun types => .ret _
      · exact hplain
    · split
      · exact (ChangesBy.ask _).bind fun types => .ret _
      · exact hplain
    · split
      · exact (changes_parameter p _).bind fun type => .ret _
      · exact hplain
    · split
      · exact .ask _
      · exact hplain
    · split
      · exact .ret none
      · exact hplain
    · split
      · split
        · exact changes_declared p _
        · exact .ret none
      · exact .ret none
    · exact changes_declared p _
    · exact changes_declared p _
    · exact hplain

/-- The type of a node changes the memory as answers do, if the making of a function without a name
does. -/
theorem changes_compute {n : NodeId}
    (hlambda : ∀ parameters expression, p.arena.form? n = some (.lambda parameters expression) →
      ChangesBy R (Expressions.lambda p n parameters)) : ChangesBy R (compute p n) := by
  unfold compute
  extract_lets b whole
  -- The cases are those of the forms of expressions, in their order.
  split
  · exact .ret none
  · exact changes_name p n _
  · exact .map (.onStore (keeping_number b _))
  · exact .map (.onStore (keeping_constant b _))
  · exact .map (.onStore (keeping_instanceOf _))
  · exact .map (changes_texts p _)
  · exact .map (changes_texts p _)
  · exact .map (changes_texts p _)
  · exact .map ((ChangesBy.mapM changes_typeOf _).bind fun types => .onStore (keeping_add _))
  · exact .map (changes_display p _ _)
  · exact .map (changes_display p _ _)
  · exact .map (changes_dictionary p _)
  · exact .map ((changes_typeOf _).bind fun type =>
      (ChangesBy.onStore (keeping_widenAt _ type)).bind fun item => .onStore (keeping_add _))
  · exact .map ((changes_typeOf _).bind fun type => changes_unary p _ type)
  · exact .map ((changes_typeOf _).bind fun left => (changes_typeOf _).bind fun right =>
      changes_binary p _ left right)
  · exact .map ((changes_typeOf _).bind fun _ => (changes_typeOf _).bind fun ifType =>
      (changes_typeOf _).bind fun elseType => .onStore (keeping_unionOf _))
  · exact .map (changes_typeOf _)
  · exact .map (.ask _)
  · exact .map ((changes_typeOf _).bind fun type => .store fun _ => .ret _)
  · exact .map ((changes_typeOf _).bind fun type => .onStore (keeping_iteratedAt _ _ type))
  · exact .ret _
  · exact .ret _
  · exact .map (changes_callExpression p _ _)
  · exact .map (changes_memberAccess p _ _)
  · exact .map (changes_index p n _ _)
  · exact .map (.onStore (keeping_instanceOf _))
  · exact .map (hlambda _ _ ‹_›)
  · refine .map ?_
    split
    · exact (ChangesBy.ask _).bind fun _ => .ret _
    · exact .ret _
  · exact .ret none

end Expressions

/-! ## Definitions -/

section Definitions

open Definitions

/-- A decorator that is called changes the memory as answers do. -/
theorem changes_applied (decorator decorated : TypeId) :
    ChangesBy R (applied decorator decorated) :=
  (ChangesBy.ask _).bind fun _ => .store fun _ => .ret _

/-- The arguments of a class definition change the memory as answers do. -/
theorem changes_heritage (arguments : List NodeId) : ChangesBy R (heritage p arguments) := by
  have hargument : ∀ h n, ChangesBy R (heritageArgument p h n) := by
    intro h n
    unfold heritageArgument
    split
    · refine (changes_typeOf _).bind fun type => ?_
      split
      · exact .ret _
      · exact .ret h
      · refine .store fun s => ?_
        dsimp only
        split
        · split
          · exact .ret _
          · exact .ret _
        · exact .ret _
    · exact .ret h
  refine (ChangesBy.foldlM hargument _ arguments).bind fun h => ?_
  split
  · exact (ChangesBy.onStore (keeping_classType _)).bind fun object => .ret _
  · exact .ret h

/-- The class of a class is found or made. -/
theorem changes_metaclassOf (h : Heritage) : ChangesBy R (metaclassOf p h) := by
  refine .store fun s => ?_
  extract_lets inherited
  split
  · exact .ret _
  · exact .onStore (keeping_classType _)

/-- A member that is added to a class changes the memory as answers do. -/
theorem changes_completeField {detail : ClassId} (hmay : MayChange R detail) (n : NodeId)
    (field : String × List Declaration) : ChangesBy R (completeField p n detail field) :=
  (changes_ofDeclarations p field.2 n false).bind fun _ =>
    .allowed fun m => hmay m _ fun _ => rfl

/-- A member that methods give to their objects changes the memory as answers do. -/
theorem changes_completeMember {detail : ClassId} (hmay : MayChange R detail) (n : NodeId)
    (field : String × List Declaration) : ChangesBy R (completeMember p n detail field) := by
  refine .store fun s => ?_
  split
  · split
    · exact .ret _
    · exact changes_completeField p hmay n field
  · exact changes_completeField p hmay n field

/-- What marks a class does not mark it as one whose evaluation is going on. -/
theorem has_partiallyEvaluated_insert {mark : Option Marker} {flag : ClassFlag}
    (h : classMark? mark = some flag) (flags : Flags ClassFlag) :
    (flags.insert flag).has .partiallyEvaluated = flags.has .partiallyEvaluated := by
  have hplace : FlagLabelled.place flag ≠ FlagLabelled.place ClassFlag.partiallyEvaluated := by
    unfold classMark? at h
    split at h
    · cases h
      decide
    · cases h
      decide
    · cases h
  rw [Flags.has_insert, decide_eq_false hplace, Bool.or_false]

/-- A decorator of a class changes the memory as answers do. -/
theorem changes_decorateClass {detail : ClassId} (hmay : MayChange R detail) (decorated : TypeId)
    (expression : NodeId) : ChangesBy R (decorateClass p detail decorated expression) := by
  refine (changes_typeOf expression).bind fun type => ?_
  split
  · rename_i flag hflag
    refine (ChangesBy.allowed fun m => hmay m _ fun c => ?_).bind fun _ => .ret decorated
    rw [ClassDetail.core, has_partiallyEvaluated_insert hflag]
    rfl
  · exact changes_applied type decorated

/-- The class whose body a function definition is in is asked for. -/
theorem changes_ownerOf (n : NodeId) : ChangesBy R (ownerOf p n) := by
  unfold ownerOf
  split
  · exact .ret none
  · refine (ChangesBy.ask _).bind fun types => ?_
    split
    · exact .store fun s => .ret _
    · exact .ret none

/-- The properties of a function change the memory as answers do. -/
theorem changes_functionFlags (n : NodeId) (name : String) (decorators : List NodeId)
    (isAsync : Bool) (owner : Option ClassId) :
    ChangesBy R (functionFlags p n name decorators isAsync owner) := by
  have hmark : ∀ flags expression, ChangesBy R (markFunction p flags expression) :=
    fun flags expression => (changes_typeOf expression).bind fun type => .store fun s => .ret _
  exact (ChangesBy.foldlM hmark _ _).bind fun flags => .ret _

/-- A parameter of a function definition changes the memory as answers do. -/
theorem changes_parameterDefinition (flags : Flags FunctionFlag) (owner : Option ClassId)
    (place : Nat) (n : NodeId) : ChangesBy R (Definitions.parameter p flags owner place n) := by
  have hreceiver : ∀ owner, ChangesBy R (receiverType flags owner) := by
    intro owner
    unfold receiverType
    split
    · exact .onStore (keeping_classType owner)
    · exact .onStore (keeping_instanceOf owner)
  unfold Definitions.parameter
  split
  · extract_lets _ next
    have hnext : ChangesBy R (next ⟨⟩) := by
      dsimp only [next]
      split
      · exact (ChangesBy.ask _).bind fun type => .ret _
      · exact (hreceiver _).bind fun type => .ret _
      · exact .ret _
    split
    · exact (changes_typeOf _).bind fun _ => hnext
    · exact hnext
  · exact .ret none

/-- The completion of a function changes the memory as answers do. -/
theorem changes_completeSignature (detail : FunctionId) (flags : Flags FunctionFlag)
    (owner : Option ClassId) (parameters : List NodeId) (returnHint : Option NodeId) :
    ChangesBy R (completeSignature p detail flags owner parameters returnHint) := by
  unfold completeSignature
  extract_lets receiver
  refine (ChangesBy.filterMapM (fun place => changes_parameterDefinition p flags receiver _ _)
    _).bind fun found => ?_
  extract_lets next
  have hnext : ∀ declared, ChangesBy R (next declared) := by
    refine fun declared => .edit fun s => spares_modifyFunction s detail fun f => ?_
    -- Whether parameters lack types has nothing to do with overloads.
    have hmark : (if found.any (·.2) then f.flags.insert .unannotatedParams else f.flags).has
        .overloaded = f.flags.has .overloaded := by
      split
      · exact Flags.has_insert_of_ne _ (by decide)
      · rfl
    exact congrArg (FunctionCore.mk f.declaration) hmark
  split
  · exact (ChangesBy.ask _).bind fun type => hnext (some type)
  · exact hnext none

/-- A decorator of a function changes the memory as answers do. -/
theorem changes_decorateFunction (detail : FunctionId) (decorated : TypeId)
    (expression : NodeId) :
    ChangesBy R (decorateFunction p detail decorated expression) := by
  have hproperty : ChangesBy R (newProperty p detail) :=
    (ChangesBy.onStore (keeping_add _)).bind fun property =>
      .bind (.change fun m => ⟨⟨.refl _, rfl, rfl, rfl⟩, rfl, rfl⟩) fun _ => .ret property
  have howner : ∀ left : NodeId, ChangesBy R (do
      let owner ← typeOf left
      return if ((← get).getters.lookup owner).isSome then some owner else none) :=
    fun left => (changes_typeOf left).bind fun owner => .get fun m => .ret _
  have haccessor : ChangesBy R (accessorOwner? p expression) := by
    unfold accessorOwner?
    split
    · split
      · exact howner _
      · exact howner _
      · exact howner _
      · exact .ret none
    · exact .ret none
  unfold decorateFunction
  extract_lets b
  refine (changes_typeOf expression).bind fun type => .store fun s => ?_
  split
  · exact hproperty
  · refine haccessor.bind fun found => ?_
    split
    · exact .ret _
    · refine .store fun s => ?_
      split
      · exact .ret decorated
      · exact changes_applied type decorated

/-- Joining a function with overloads changes the memory as answers do. -/
theorem changes_joined (n : NodeId) (name : String) (decorated : TypeId) :
    ChangesBy R (joined p n name decorated) := by
  have hprevious : ChangesBy R (previousOverloads? p n name) := by
    unfold previousOverloads?
    split
    · exact .ret none
    · refine (ChangesBy.ask _).bind fun found => ?_
      split
      · exact .ret none
      · refine .store fun s => ?_
        split
        · exact .ret _
        · exact .ret _
        · exact .ret none
  refine hprevious.bind fun found => ?_
  split
  · exact .onStore (keeping_add _)
  · exact .ret decorated

end Definitions

/-! ## Where definitions are kept -/

/-- A function without a name changes the memory as the relation allows, if it allows that the
function is added. -/
theorem changes_lambda {n : NodeId}
    (hadd : ∀ (m : Memory) f, f.declaration = some n →
      R m { m with store := (m.store.addFunction f).2 }) (parameters : List NodeId) :
    ChangesBy R (Expressions.lambda p n parameters) :=
  (ChangesBy.work fun m => hadd m _ rfl).bind fun _ => .onStore (keeping_add _)

/-- Completing a class with its heritage changes the memory as answers do, if the relation allows
changes of classes that leave their definitions. -/
theorem changes_completeHeritage {detail : ClassId}
    (hmodify : ∀ (m : Memory) change, (∀ c, (change c).declaration = c.declaration) →
      R m { m with store := m.store.modifyClass detail change })
    (classType : TypeId) (h : Definitions.Heritage) (body : NodeId) :
    ChangesBy R (Definitions.completeHeritage p detail classType h body) :=
  .store fun _ => (changes_metaclassOf p h).bind fun _ => .store fun _ =>
    .allowed fun m => hmodify m _ fun _ => rfl

/-- Completing a class with its members changes the memory as answers do, if the relation allows
changes of classes that leave their definitions. -/
theorem changes_completeFields {detail : ClassId}
    (hmodify : ∀ (m : Memory) change, (∀ c, (change c).declaration = c.declaration) →
      R m { m with store := m.store.modifyClass detail change }) (n : NodeId) :
    ChangesBy R (Definitions.completeFields p n detail) :=
  (ChangesBy.forM (changes_completeField p (.of_modifies hmodify) n) _).bind fun _ =>
    (ChangesBy.forM (changes_completeMember p (.of_modifies hmodify) n) _).bind fun _ =>
      .allowed fun m => hmodify m _ fun _ => rfl

/-- A definition of a class is one. -/
theorem isClass_of_form? {n : NodeId} {decorators arguments : List NodeId} {name suite : NodeId}
    (h : p.arena.form? n = some (.classDef decorators name arguments suite)) :
    p.isClass n = true := by
  rw [Program.isClass, Arena.kind?_of_form? h]
  rfl

/-- A definition of a function is one. -/
theorem isFunction_of_form? {n : NodeId} {decorators parameters : List NodeId} {isAsync : Bool}
    {name suite : NodeId} {returnHint : Option NodeId}
    (h : p.arena.form? n = some (.function decorators isAsync name parameters returnHint suite)) :
    p.isFunction n = true := by
  rw [Program.isFunction, Arena.kind?_of_form? h]
  rfl

/-- The evaluation of a node changes the memory as answers do, if the relation allows that its type
is kept and that a node that is a function without a name adds it. -/
theorem changes_node {n : NodeId}
    (hkeep : ∀ (m : Memory) type, R m { m with nodeTypes := (n, type) :: m.nodeTypes })
    (hadd : p.arena.kind? n = some .lambda → ∀ (m : Memory) f, f.declaration = some n →
      R m { m with store := (m.store.addFunction f).2 }) : ChangesBy R (Expressions.node p n) := by
  have hlambda : ∀ parameters expression,
      p.arena.form? n = some (.lambda parameters expression) →
      ChangesBy R (Expressions.lambda p n parameters) := by
    exact fun parameters _ hform => changes_lambda p (hadd (Arena.kind?_of_form? hform)) parameters
  refine .get fun m => ?_
  split
  · exact .ret _
  · refine changes_guarded (fun g m => ⟨⟨.refl _, rfl, rfl, rfl⟩, rfl, rfl⟩)
      (changes_compute p hlambda) fun type? m => ?_
    cases type? with
    | none => exact Tolerant.refl m
    | some type => exact hkeep m type

/-- The evaluation of a class definition changes the memory as answers do, if the relation allows
that its types are kept and that it adds a class and changes that. -/
theorem changes_classDef {n : NodeId} {m : Memory}
    (hkeep : ∀ (m : Memory) types, R m { m with classes := (n, types) :: m.classes })
    (hadd : ∀ c, c.declaration = some n → R m { m with store := (m.store.addClass c).2 })
    (hmodify : ∀ (m' : Memory) change, (∀ c, (change c).declaration = c.declaration) →
      R m' { m' with store := m'.store.modifyClass ⟨m.store.classes.size⟩ change }) :
    (Definitions.classDef p n m).ChangesBy R m := by
  refine ChangesBy.get_at ?_
  cases m.classes.lookup n with
  | some types => exact ChangesBy.ret (some types) m
  | none =>
    cases p.arena.form? n with
    | none => exact ChangesBy.ret none m
    | some form =>
      cases form with
      | classDef decorators name arguments body =>
        refine Dialogue.ChangesBy.bind ?_ fun types m' _ => ChangesBy.ret (some types) m'
        refine ChangesBy.work_at (hadd _ rfl) ?_
        refine (ChangesBy.onStore (keeping_classType _)).bind fun classType => ?_
        refine (ChangesBy.allowed fun m => hkeep m _).bind fun _ => ?_
        refine (changes_heritage p _).bind fun h => ?_
        refine (changes_completeHeritage p hmodify classType h _).bind fun _ => ?_
        refine (changes_completeFields p hmodify n).bind fun _ => ?_
        refine (ChangesBy.foldlM (changes_decorateClass p (.of_modifies hmodify)) classType
          _).bind fun decorated => ?_
        exact (ChangesBy.allowed fun m => hkeep m _).bind fun _ => .ret _
      | _ => exact ChangesBy.ret none m

/-- The evaluation of a function definition changes the memory as answers do, if the relation allows
that its types are kept and that it adds a function. -/
theorem changes_function {n : NodeId}
    (hkeep : ∀ (m : Memory) types, R m { m with functions := (n, types) :: m.functions })
    (hadd : p.isFunction n = true → ∀ (m : Memory) f, f.declaration = some n →
      R m { m with store := (m.store.addFunction f).2 }) :
    ChangesBy R (Definitions.function p n) := by
  refine .get fun m => ?_
  split
  · exact .ret _
  · split
    · rename_i hform
      refine (changes_ownerOf p n).bind fun owner => .get fun m => ?_
      split
      · exact .ret _
      · refine ChangesBy.bind ?_ fun types => .ret (some types)
        refine (changes_functionFlags p n _ _ _ owner).bind fun flags => ?_
        refine (ChangesBy.work fun m => hadd (isFunction_of_form? p hform) m _ rfl).bind
          fun detail => ?_
        refine (ChangesBy.onStore (keeping_add _)).bind fun functionType => ?_
        refine (ChangesBy.allowed fun m => hkeep m _).bind fun _ => ?_
        refine (changes_completeSignature p detail flags owner _ _).bind fun _ => ?_
        refine (ChangesBy.foldlM (changes_decorateFunction p detail) functionType _).bind
          fun decorated => ?_
        refine (changes_joined p n _ decorated).bind fun joined => ?_
        exact (ChangesBy.allowed fun m => hkeep m _).bind fun _ => .ret _
    · exact .ret none

end TypeProbe.Evaluation

namespace TypeProbe

/-- Whether a question is not for what is kept of a node or a definition. -/
def Query.isPlain : Query → Bool
  | .node _ | .classDef _ | .function _ => false
  | .declaration _ | .hint _ | .call _ _ | .member _ _ | .returned _ => true

/-- The rule for a plain question changes the memory as answers do, if the type may be kept of the
declaration that is asked for. -/
theorem Evaluation.changes_plain {R : Memory → Memory → Prop} [Tolerant R] (p : Program) {q : Query}
    (hkeep : ∀ d, q = .declaration d → ∀ (m : Memory) type,
      R m { m with declarationTypes := (d.node, type) :: m.declarationTypes })
    (h : q.isPlain = true) : ChangesBy R (q.rule p) := by
  cases q with
  | declaration d => exact changes_declaration p d (hkeep d rfl)
  | hint n => exact changes_hint p n
  | call callee arguments => exact changes_call p callee arguments
  | member object name => exact changes_member p object name
  | returned detail => exact changes_returned p detail
  | _ => cases h

end TypeProbe
