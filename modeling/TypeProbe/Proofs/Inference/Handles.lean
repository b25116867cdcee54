import TypeProbe.Proofs.Inference.Checker

/-!
# Handles that lead somewhere

Types, and the details of classes, functions and type variables, are known by handles, and types are
made of others by their handles (`TypeStore.IsPart`). `Checker.Reached.handles` says that every
handle that a checker keeps is the handle of something, that the parts of a type were there before
it, so that one comes to an end going from types to their parts, and that unions are only made of
types that are there. This holds between questions and of every question that is asked on the way
to an answer, whether or not the evaluation ends.
-/

namespace TypeProbe

namespace TypeStore

/-- A type is one of those that another one is made of. -/
def IsPart (s : TypeStore) (part id : TypeId) : Prop :=
  ∃ shape, s.shape? id = some shape ∧ part ∈ shape.parts

/-- There is an end to going from the types of a sound store to their parts. -/
theorem Sound.wellFounded_isPart {s : TypeStore} (h : s.Sound) : WellFounded s.IsPart :=
  Subrelation.wf (fun ⟨shape, hshape, hpart⟩ => h.parts _ shape hshape _ hpart)
    (measure TypeId.index).wf

end TypeStore

namespace Checker

/-- Whatever a checker for a file has been asked before, all handles that it keeps are handles of
its store, the parts of types were there before them, nothing is being worked out, and no union has
been asked for of a type that is not there. So it is whenever a question is asked on the way to an
answer, except that something is being worked out then. -/
theorem Reached.handles {name text : String} {c : Checker}
    (h : Reached (SourceFile.ofText name text) c) :
    (c.memory.Sound c.program.builtins ∧ c.memory.Idle ∧ WellFounded c.store.IsPart ∧
      c.store.overran = false) ∧
    ∀ (q q' : Query) (m : Memory), q.In c.store → Query.Reaches c.program (q, c.memory) (q', m) →
      m.Sound c.program.builtins ∧ q'.In m.store ∧ WellFounded m.store.IsPart ∧
        m.store.overran = false := by
  have hsound := h.sound
  refine ⟨⟨hsound.memory, h.idle, hsound.memory.store.wellFounded_isPart,
    hsound.memory.store.overran⟩, fun q q' m hq hreaches => ?_⟩
  obtain ⟨hm, hq'⟩ := hreaches.sound hsound.tree ⟨hsound.memory, hq⟩
  exact ⟨hm, hq', hm.store.wellFounded_isPart, hm.store.overran⟩

/-- The type of an expression that has one of two values is a union, which was made of types that
were there. -/
theorem Reached.handles_union :
    let c := (SourceFile.ofText "a.py" "x = 1 if 2 else 'a'\n").checker
    ∃ t c' members, c.typeOf? 5 = some (some t, c') ∧ c'.store.shape? t = some (.union members) ∧
      (∀ part ∈ members, part.index < t.index) ∧ c'.memory.Idle ∧ WellFounded c'.store.IsPart ∧
        c'.store.overran = false := by
  intro c
  have hrun : (c.askWithin? 4 (.node 5)).map (fun r => r.1.bind r.2.store.shape?) =
      some (some (.union [⟨74⟩, ⟨75⟩])) := by decide +kernel
  obtain ⟨⟨t?, c'⟩, hask, hunion⟩ := Option.map_eq_some_iff.1 hrun
  obtain ⟨t, rfl, hshape⟩ := Option.bind_eq_some_iff.1 hunion
  have ht : c.typeOf? 5 = some (some t, c') := ask?_eq_some_iff.2 ⟨4, hask⟩
  have hreached : Reached (SourceFile.ofText "a.py" "x = 1 if 2 else 'a'\n") c' :=
    .answered (q := .node 5) .start trivial ht
  obtain ⟨⟨hsound, hidle, hwf, hoverran⟩, -⟩ := Reached.handles hreached
  exact ⟨t, c', _, ht, hshape, hsound.store.parts t _ hshape, hidle, hwf, hoverran⟩

end Checker

end TypeProbe
