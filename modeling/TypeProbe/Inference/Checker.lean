import TypeProbe.Inference.Definitions
import TypeProbe.Inference.Expressions
import TypeProbe.Inference.Hints
import TypeProbe.Scope.Builder

/-!
# Checkers

The rules of evaluation together answer all questions (`Query.answer`), unless there is no end to
the questions on the way to an answer. A `Checker` answers questions on one module one after the
other. It keeps what it has worked out, so that the same question has the same answer.
-/

namespace TypeProbe

namespace Query

/-- The rule by which a question is answered. -/
def rule (p : Program) : (q : Query) → Evaluation q.Answer
  | .node n => Expressions.node p n
  | .classDef n => Definitions.classDef p n
  | .function n => Definitions.function p n
  | .declaration d => Names.declaration p d
  | .hint n => Hints.hint p n
  | .call callee arguments => Calls.call p callee arguments
  | .member object name => Calls.member p object name
  | .returned detail => Calls.returned p detail

end Query

/-- The result of a computation. The questions it asks are answered by their rules; if there is no
end to this there is no result. -/
def Dialogue.run (p : Program) {β : Type} (d : Dialogue β) : Option β :=
  match d with
  | .done b => some b
  | .ask q m next => do
    let (a, m) ← q.rule p m |>.run p
    next a m |>.run p
partial_fixpoint

/-- The answer to a question, which its rule gives. -/
def Query.answer (p : Program) (q : Query) (m : Memory) : Option (q.Answer × Memory) :=
  (q.rule p m).run p

/-- The answer to a question that leads to others at most `depth` levels deep. -/
def Query.answerWithin (p : Program) :
    (depth : Nat) → (q : Query) → Memory → Option (q.Answer × Memory)
  | 0, _, _ => none
  | depth + 1, q, m => (q.rule p m).follow (answerWithin p depth)

/-- A module whose types are asked for, and what has been worked out so far. -/
structure Checker where
  /-- The module. -/
  program : Program
  /-- What has been worked out. -/
  memory : Memory

namespace Checker

/-- A checker that has not been asked yet. -/
def ofModule (arena : Arena) (bindings : Bindings) (moduleName : String) : Checker :=
  let (builtins, store) := Builtins.create.run TypeStore.initial
  { program := { arena, bindings, moduleName, builtins }, memory := Memory.ofStore store }

/-- The types that exist now. -/
def store (c : Checker) : TypeStore := c.memory.store

/-- Asks a question, which has no answer if its evaluation does not end. -/
def ask? (c : Checker) (q : Query) : Option (q.Answer × Checker) :=
  (q.answer c.program c.memory).map fun (a, memory) => (a, { c with memory })

/-- Asks a question that leads to others at most `depth` levels deep. -/
def askWithin? (c : Checker) (depth : Nat) (q : Query) : Option (q.Answer × Checker) :=
  (q.answerWithin c.program depth c.memory).map fun (a, memory) => (a, { c with memory })

/-- The type of a node, if it has a value. -/
def typeOf? (c : Checker) (node : NodeId) : Option (Option TypeId × Checker) := c.ask? (.node node)

/-- The types of a class definition, if the node is one. -/
def classOf? (c : Checker) (node : NodeId) : Option (Option DefinitionTypes × Checker) :=
  c.ask? (.classDef node)

/-- The types of a function definition, if the node is one. -/
def functionOf? (c : Checker) (node : NodeId) : Option (Option DefinitionTypes × Checker) :=
  c.ask? (.function node)

end Checker

end TypeProbe
