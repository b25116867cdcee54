import TypeProbe.Proofs.Scope.Lookup
import TypeProbe.Proofs.Types.Sound

/-!
# Known declarations

Bindings have declarations in three places: under the nodes that make them, in scopes under the
names, and among the members of classes. A declaration that is found in any of them is known
(`Bindings.Knows`). In the bindings of a tree every known declaration is the one that is found under
its node (`Bindings.declaration?_of_knows`).
-/

namespace TypeProbe.Bindings

/-- Bindings have a declaration: under a node, in a scope, or among the members of a class. -/
inductive Knows (b : Bindings) (d : Declaration) : Prop
  | noted {n : NodeId} (h : (n, d) ∈ b.declarations)
  | listed {i : ScopeId} {s : Scope} (h : b.scope? i = some s) (hd : s.Has d)
  | member {classNode : NodeId} {x : String} (h : (classNode, x, d) ∈ b.members)

variable {b : Bindings} {d : Declaration} {n : NodeId} {s i : ScopeId} {x : String}
  {ds : List Declaration}

/-- What is found under a node is known. -/
theorem knows_of_declaration? (h : b.declaration? n = some d) : b.Knows d :=
  .noted (TypeStore.mem_of_lookup h)

/-- What is found on the way outwards is listed in the scope where it is found. -/
theorem symbol?_of_lookupFrom {fuel : Nat} {current : Option ScopeId}
    (h : b.lookupFrom s x fuel current = some (i, ds)) : b.symbol? i x = some ds := by
  induction fuel generalizing current with
  | zero => cases h
  | succ fuel ih =>
    cases current with
    | none => cases h
    | some j =>
      unfold lookupFrom at h
      split at h
      · cases h
      · rename_i scope hscope
        dsimp only at h
        split at h
        · rename_i declarations hfound
          cases h
          split at hfound
          · exact Option.bind_eq_some_iff.2 ⟨scope, hscope, hfound⟩
          · cases hfound
        · exact ih h

/-- What a name is found to stand for is known. -/
theorem knows_of_lookup? (h : b.lookup? s x = some (i, ds)) (hd : d ∈ ds) : b.Knows d := by
  suffices hsymbol : b.symbol? i x = some ds by
    obtain ⟨scope, hscope, hget⟩ := Option.bind_eq_some_iff.1 hsymbol
    exact .listed hscope ⟨(x, ds), TypeStore.mem_of_lookup hget, hd⟩
  unfold lookup? at h
  split at h
  · cases h
  · split at h
    · obtain ⟨declarations, hget, heq⟩ := Option.map_eq_some_iff.1 h
      cases heq
      exact hget
    · exact symbol?_of_lookupFrom h

/-- What methods are found to give to an object is known. -/
theorem knows_of_membersOf {field : String × List Declaration} (h : field ∈ b.membersOf n)
    (hd : d ∈ field.2) : b.Knows d := by
  have hfold : ∀ (pairs : List (String × Declaration)) (t : Named (List Declaration)),
      field ∈ pairs.foldl (fun t pair => t.alter pair.1 [] (· ++ [pair.2])) t →
      (∃ field ∈ t, d ∈ field.2) ∨ ∃ pair ∈ pairs, d = pair.2 := by
    intro pairs
    induction pairs with
    | nil => exact fun t h => .inl ⟨field, h, hd⟩
    | cons pair pairs ih =>
      intro t h
      rcases ih _ h with ⟨field', hfield, hd'⟩ | ⟨other, hother, rfl⟩
      · exact (mem_alter hfield hd').imp_right fun heq => ⟨pair, List.mem_cons_self, heq⟩
      · exact .inr ⟨other, List.mem_cons_of_mem _ hother, rfl⟩
  rcases hfold (belonging b.members n) [] h with ⟨_, hnil, -⟩ | ⟨⟨y, e⟩, hpair, rfl⟩
  · cases hnil
  · obtain ⟨⟨classNode, pair⟩, hmem, heq⟩ := List.mem_map.1 hpair
    cases heq
    exact .member (List.mem_filter.1 hmem).1

/-- Where no key occurs twice, what is kept with a key is found under it. -/
theorem lookup_of_mem {α κ : Type} [BEq κ] [LawfulBEq κ] {entries : List (κ × α)}
    (hnodup : (entries.map (·.1)).Nodup) {key : κ} {value : α} (h : (key, value) ∈ entries) :
    entries.lookup key = some value := by
  obtain ⟨front, back, rfl⟩ := List.append_of_mem h
  refine List.lookup_eq_some_iff.2 ⟨front, back, rfl, fun e he => ?_⟩
  rw [List.map_append, List.nodup_append] at hnodup
  exact bne_iff_ne.2 fun heq => hnodup.2.2 e.1 (List.mem_map_of_mem he) key
    (List.mem_map_of_mem List.mem_cons_self) heq.symm

/-- What bindings of a tree have in any place is found under its node. -/
theorem declaration?_of_knows {a : Arena} {root : NodeId} (h : a.Rooted root)
    (hd : (ofTree a root).Knows d) : (ofTree a root).declaration? d.node = some d := by
  have hgrows := (advances_ofTree h root).grows
  have hfiled : (ofTree a root).Filed := hgrows.filed ⟨nofun, nofun, nofun⟩
  have hmem : (d.node, d) ∈ (ofTree a root).declarations := by
    cases hd with
    | noted hnoted => exact (hfiled.node _ hnoted).symm ▸ hnoted
    | listed hscope hhas => exact hfiled.symbols _ _ _ hscope hhas
    | member hmember => exact hfiled.members _ hmember
  exact lookup_of_mem (nodup_declarations_ofTree h) hmem

end TypeProbe.Bindings
