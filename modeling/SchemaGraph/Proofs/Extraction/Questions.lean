import SchemaGraph.Proofs.Extraction.Making

/-!
# The Questions of a Member

Whatever the kind of a field is, making it goes the same way: the declared type of the member tells
which requests it makes, they are made one after the other, and the field is made of the answers.
So what a pass does with a member is known once it is known what it does with each request.

- `Pass.requestsOf`: the requests of a member, in order
- `Pass.classifyWith_eq`: its field is made of the answers, and of nothing else
-/

namespace SchemaGraph

theorem mapM_congr {σ ε α β : Type} {f f' : α → ExceptT ε (StateM σ) β} {xs : List α}
    (h : ∀ x ∈ xs, f x = f' x) : xs.mapM f = xs.mapM f' := by
  induction xs with
  | nil => rfl
  | cons x xs ih =>
    rw [List.mapM_cons, List.mapM_cons, h x List.mem_cons_self,
      ih fun y hy => h y (List.mem_cons_of_mem _ hy)]

namespace Pass

/-- The requests that the field of a member makes, in order: the variants of a polymorphic list,
and the schema of a nested type or item type. -/
def requestsOf (p : Pass) (m : Member) : List Request :=
  match m.type with
  | .list (.list _) => []
  | .list (.named itemType) =>
    (if p.isPolymorphic itemType then (p.variantCandidates itemType).map .variant else [])
      ++ if p.conventions.isScalar itemType then [] else [.schema itemType]
  | .named typeName =>
    if !p.conventions.isScalar typeName && p.isNestable typeName then [.schema typeName] else []

/-- The answer to the request for the item schema, which is made last. -/
def itemSchemaOf (p : Pass) (itemType : String) (answers : List Handle) : Handle :=
  if p.conventions.isScalar itemType then noHandle else answers.getLastD noHandle

/-- The field of a member, made of the answers to its requests. -/
def fieldOf (p : Pass) (m : Member) (answers : List Handle) : Field :=
  p.mark m <| match m.type with
  | .list (.list _) => .list m.name m.type.display noHandle
  | .list (.named itemType) =>
    if p.isPolymorphic itemType then
      .polymorphicList m.name m.type.display (p.itemSchemaOf itemType answers)
        (if p.conventions.isScalar itemType then answers else answers.dropLast)
    else .list m.name m.type.display (p.itemSchemaOf itemType answers)
  | .named typeName =>
    if p.conventions.isScalar typeName then .scalar m.name typeName
    else
      match p.module.lookup? typeName with
      | some t =>
        if t.isEnum then .enumerated m.name t.name t.enumValues
        else .nested m.name typeName (answers.headD noHandle)
      | none =>
        if p.isBanned typeName then .nested m.name typeName (answers.headD noHandle)
        else .external m.name typeName

variable {p : Pass} {m : Member} {ask ask' : Request → Run Handle}

theorem mark_fieldOf_named {typeName : String} (htype : m.type = .named typeName) :
    (p.mark m) <$> p.classifyNamed ask m.name typeName =
      p.fieldOf m <$> (p.requestsOf m).mapM ask := by
  unfold classifyNamed fieldOf requestsOf isNestable
  simp only [htype]
  cases hscalar : p.conventions.isScalar typeName with
  | true => simp
  | false =>
    cases hlookup : p.module.lookup? typeName with
    | some t => cases henum : t.isEnum <;> simp [henum]
    | none => cases hbanned : p.isBanned typeName <;> simp

theorem mark_fieldOf_list {item : TypeRef} (htype : m.type = .list item) :
    (p.mark m) <$> p.classifyList ask m.name item =
      p.fieldOf m <$> (p.requestsOf m).mapM ask := by
  cases item with
  | list item =>
    unfold classifyList fieldOf requestsOf
    simp [htype]
  | named itemType =>
    unfold classifyList fieldOf requestsOf itemSchemaOf
    simp only [htype]
    -- Whether there are variants to ask for, and whether there is a schema to ask for, are
    -- independent.
    cases hpoly : p.isPolymorphic itemType <;>
      cases hscalar : p.conventions.isScalar itemType <;> simp [Function.comp_def]

/-- **Classification**: the field of a member is made of the answers to its requests. -/
theorem classifyWith_eq (p : Pass) (ask : Request → Run Handle) (m : Member) :
    p.classifyWith ask m = p.fieldOf m <$> (p.requestsOf m).mapM ask := by
  unfold classifyWith
  cases htype : m.type with
  | named typeName =>
    rw [← mark_fieldOf_named htype]
    rfl
  | list item =>
    rw [← mark_fieldOf_list htype]
    rfl

/-- Only how the requests of the member are answered matters. -/
theorem classifyWith_congr (h : ∀ x ∈ p.requestsOf m, ask x = ask' x) :
    p.classifyWith ask m = p.classifyWith ask' m := by
  rw [classifyWith_eq, classifyWith_eq, mapM_congr h]

end Pass

end SchemaGraph
