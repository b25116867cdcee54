import TypeProbe.Inference.Values
import TypeProbe.Proofs.Inference.Builtins

/-!
# What is known beforehand stays

A store foreknows (`TypeStore.Foreknows`) if the types and classes that are in every new store are in
it as they were. No class among them has a member that carries out an operation, so the rules for
operations have nothing to fall back on for their values (`Foreknows.member?_eq_none`).
-/

namespace TypeProbe

/-- The handles of what is known beforehand, and the store with nothing else in it. -/
def Builtins.foreknown : Builtins × TypeStore := Builtins.create.run TypeStore.initial

/-- The classes with rules of their own for what is in their values are not one another. -/
structure Builtins.Apart (b : Builtins) : Prop where
  /-- The class of tuples. -/
  tuple : b.tuple ≠ b.text ∧ b.tuple ≠ b.bytes ∧ b.tuple ≠ b.range ∧ b.tuple ≠ b.list ∧
    b.tuple ≠ b.dictionary
  /-- The class of lists. -/
  list : b.list ≠ b.text ∧ b.list ≠ b.bytes ∧ b.list ≠ b.range ∧ b.list ≠ b.tuple
  /-- The class of whole numbers. -/
  int : b.int ≠ b.slice

namespace TypeStore

open Builtins

/-- A store in which what is known beforehand is as it was. -/
structure Foreknows (s : TypeStore) : Prop where
  /-- The types are the same. -/
  types : ∀ id t, foreknown.2.get? id = some t → s.get? id = some t
  /-- The classes are the same. -/
  classes : ∀ d c, foreknown.2.class? d = some c → s.class? d = some c

/-- The store with nothing else in it foreknows. -/
theorem foreknows_foreknown : foreknown.2.Foreknows := ⟨fun _ _ h => h, fun _ _ h => h⟩

/-- What is known beforehand is sound, and its handles are there. -/
theorem sound_foreknown : foreknown.2.Sound ∧ foreknown.1.In foreknown.2 := by
  have hcreate : create.run initial = foreknown := by rw [foreknown]
  exact works_create sound_initial (hcreate.trans (Prod.eta foreknown).symm)

/-- The types without parts are what they are. -/
theorem get?_foreknown : foreknown.2.get? .unknown = some ⟨bothFlags, .unknown false⟩ ∧
    foreknown.2.get? .incomplete = some ⟨bothFlags, .unknown true⟩ ∧
    foreknown.2.get? .never = some ⟨bothFlags, .never⟩ := by
  decide +kernel

/-- The classes with rules of their own for what is in their values are known. -/
theorem apart_foreknown : foreknown.1.Apart :=
  ⟨by decide +kernel, by decide +kernel, by decide +kernel⟩

namespace Foreknows

variable {s : TypeStore}

/-- Nothing is known of the unknown type. -/
theorem shape?_unknown (h : s.Foreknows) : s.shape? .unknown = some (.unknown false) :=
  shape?_of_get? (h.types _ _ get?_foreknown.1)

/-- Nothing is known of the provisional type. -/
theorem shape?_incomplete (h : s.Foreknows) : s.shape? .incomplete = some (.unknown true) :=
  shape?_of_get? (h.types _ _ get?_foreknown.2.1)

/-- The type without values has none. -/
theorem shape?_never (h : s.Foreknows) : s.shape? .never = some .never :=
  shape?_of_get? (h.types _ _ get?_foreknown.2.2)

end Foreknows

end TypeStore

/-! ## Members for operations -/

/-- The names of the members that carry out operations. -/
def Values.operationNames : List String :=
  ["__neg__", "__pos__", "__invert__", "__add__", "__sub__", "__mul__", "__matmul__", "__truediv__",
    "__floordiv__", "__mod__", "__pow__", "__and__", "__or__", "__xor__", "__lshift__", "__rshift__"]

namespace Values

/-- The member for an operator with two operands carries out an operation. -/
theorem mem_of_operatorMember? {op : Operator} {name : String}
    (h : operatorMember? op = some name) : name ∈ operationNames := by
  unfold operatorMember? at h
  split at h
  all_goals first | cases h; decide | cases h

end Values

namespace TypeStore

open Builtins

/-- No class that is known beforehand has a member that carries out an operation, and all ancestors
of these classes are known beforehand. -/
theorem operations_foreknown : (foreknown.2.classes.all fun c =>
    (c.fields.all fun field => !Values.operationNames.contains field.1) &&
      c.mro.all fun id => (foreknown.2.classOf? id).isSome) = true := by
  decide +kernel

/-- A class that is known beforehand has no member that carries out an operation. -/
theorem fields_foreknown {d : ClassId} {c : ClassDetail} (hc : foreknown.2.class? d = some c) :
    (∀ name ∈ Values.operationNames, c.fields.get? name = none) ∧
      ∀ id ∈ c.mro, (foreknown.2.classOf? id).isSome := by
  obtain ⟨hlt, hget⟩ := Array.getElem?_eq_some_iff.1 hc
  have hall := (Array.all_eq_true.1 operations_foreknown) d.index hlt
  rw [hget, Bool.and_eq_true, List.all_eq_true, List.all_eq_true] at hall
  refine ⟨fun name hname => List.lookup_eq_none_iff.2 fun field hfield => ?_, hall.2⟩
  have hfree := hall.1 field hfield
  rw [Bool.not_eq_true', List.contains_eq_mem, decide_eq_false_iff_not] at hfree
  have hne : name ≠ field.1 := fun heq => hfree (heq ▸ hname)
  exact bne_iff_ne.2 hne

namespace Foreknows

variable {s : TypeStore} {id : TypeId} {c : ClassDetail}

/-- The class of a type that is known beforehand is the same. -/
theorem classOf? (h : s.Foreknows) (hc : foreknown.2.classOf? id = some c) :
    s.classOf? id = some c := by
  obtain ⟨d, hd, hclass⟩ := Option.bind_eq_some_iff.1 hc
  obtain ⟨t, ht, hclass'⟩ := Option.bind_eq_some_iff.1 hd
  have hd' : s.classIdOf? id = some d := by rw [classIdOf?, h.types id t ht]; exact hclass'
  rw [TypeStore.classOf?, hd']
  exact h.classes d c hclass

/-- No class that is known beforehand has a member that carries out an operation, be it its own or
one of an ancestor. -/
theorem member?_eq_none (h : s.Foreknows) {d : ClassId} (hd : d.In foreknown.2) {name : String}
    (hname : name ∈ Values.operationNames) : s.member? d name = none := by
  have hc : foreknown.2.class? d = some foreknown.2.classes[d.index] :=
    Array.getElem?_eq_getElem hd
  obtain ⟨hown, hmro⟩ := fields_foreknown hc
  rw [member?, h.classes _ _ hc]
  dsimp only
  rw [hown name hname, Option.none_or, List.findSome?_eq_none_iff]
  intro c hc
  obtain ⟨id, hid, hclass⟩ := List.mem_filterMap.1 hc
  obtain ⟨c', hc'⟩ := Option.isSome_iff_exists.1 (hmro id hid)
  obtain rfl := Option.some.inj (hclass.symm.trans (h.classOf? hc'))
  obtain ⟨d', -, hd'⟩ := Option.bind_eq_some_iff.1 hc'
  exact (fields_foreknown hd').1 name hname

end Foreknows

end TypeStore

end TypeProbe
