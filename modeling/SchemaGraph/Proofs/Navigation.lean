import SchemaGraph.Proofs.Query

/-!
# The Longest Match of a Path

A path counts from its last tag on.  Below the definition of that tag each segment leads from one
place to the next: to the first field of its name, or, for an item tag right below a list, to the
list itself.  The deepest field of a path is where the longest part leads that can be followed.

- `Keeps`: the segments that count, from the last tag on
- `Cache.Leads`, `Cache.Follows`: where one segment leads, and where several lead
- `Cache.LongestMatch`: the longest part that can be followed
- `Cache.longestMatch_reach`: a walk finds that part, by induction on the segments
- `Cache.path_resolution`: the deepest field of a path, and the changes to a path that keep it
-/

namespace SchemaGraph

namespace Cache

/-! ## §1 The segments that count -/

/-- The part of a list from the last entry with a property on, or the whole list if no entry has
it. -/
inductive Keeps {α : Type} (p : α → Bool) (xs : List α) : List α → Prop where
  | last {before after : List α} {x : α} (hxs : xs = before ++ x :: after) (hx : p x = true)
      (hafter : ∀ y ∈ after, p y = false) : Keeps p xs (x :: after)
  | whole (hnone : ∀ x ∈ xs, p x = false) : Keeps p xs xs

section FromLast

variable {α : Type} {p : α → Bool} {xs kept : List α}

theorem exists_keeps (p : α → Bool) (xs : List α) : ∃ kept, Keeps p xs kept := by
  induction xs with
  | nil => exact ⟨[], .whole (by simp)⟩
  | cons x xs ih =>
    obtain ⟨kept, hkept⟩ := ih
    cases hkept with
    | @last before after y hxs hy hafter =>
      have hcons : x :: xs = (x :: before) ++ y :: after := by rw [hxs, List.cons_append]
      -- `x` comes before the last segment with the property, which stays the last one.
      exact ⟨_, .last hcons hy hafter⟩
    | whole hnone =>
      cases hx : p x with
      | true => exact ⟨_, .last (List.nil_append _).symm hx hnone⟩
      | false => exact ⟨_, .whole (List.forall_mem_cons.2 ⟨hx, hnone⟩)⟩

/-- A search from behind passes the entries without the property. -/
theorem dropWhile_reverse_append (hnone : ∀ x ∈ xs, p x = false) (ys : List α) :
    (xs.reverse ++ ys).dropWhile (fun y => !p y) = ys.dropWhile (fun y => !p y) :=
  List.dropWhile_append_of_pos fun x hx => by simp [hnone x (List.mem_reverse.1 hx)]

theorem fromLast_cons_of_none {x : α} (hnone : ∀ y ∈ xs, p y = false) :
    fromLast p (x :: xs) = x :: xs := by
  have hpassed : xs.reverse.dropWhile (fun y => !p y) = [] := by
    rw [← List.append_nil xs.reverse, dropWhile_reverse_append hnone]
    rfl
  rw [fromLast, hpassed]

theorem fromLast_append_cons {before after : List α} {x : α} (hx : p x = true)
    (hafter : ∀ y ∈ after, p y = false) :
    fromLast p (before ++ x :: after) = x :: after := by
  -- The first entry is not searched: if it is `x`, nothing is found.
  cases before with
  | nil => exact fromLast_cons_of_none hafter
  | cons y before =>
    have hfound : (before ++ x :: after).reverse.dropWhile (fun y => !p y) =
        x :: before.reverse := by
      rw [List.reverse_append, List.reverse_cons, List.append_assoc,
        dropWhile_reverse_append hafter]
      simp [hx]
    rw [List.cons_append, fromLast, hfound]
    simp

theorem fromLast_eq_self (hnone : ∀ x ∈ xs, p x = false) : fromLast p xs = xs := by
  cases xs with
  | nil => rfl
  | cons x xs => exact fromLast_cons_of_none (List.forall_mem_cons.1 hnone).2

theorem Keeps.fromLast_eq (h : Keeps p xs kept) : fromLast p xs = kept := by
  cases h with
  | last hxs hx hafter => rw [hxs, fromLast_append_cons hx hafter]
  | whole hnone => exact fromLast_eq_self hnone

theorem fromLast_eq_iff : fromLast p xs = kept ↔ Keeps p xs kept := by
  refine ⟨fun h => ?_, Keeps.fromLast_eq⟩
  obtain ⟨kept', hkept⟩ := exists_keeps p xs
  rwa [← h, hkept.fromLast_eq]

theorem Keeps.tail {x : α} {after : List α} (h : Keeps p xs (x :: after)) :
    ∀ y ∈ after, p y = false := by
  cases h with
  | last _ _ hafter => exact hafter
  | whole hnone => exact (List.forall_mem_cons.1 hnone).2

/-- Entries without the property that come after the kept part are kept. -/
theorem fromLast_append {ys : List α} (hys : ∀ y ∈ ys, p y = false) :
    fromLast p (xs ++ ys) = fromLast p xs ++ ys := by
  obtain ⟨kept, hkept⟩ := exists_keeps p xs
  rw [hkept.fromLast_eq]
  cases hkept with
  | @last before after x hxs hx hafter =>
    rw [hxs, List.append_assoc, List.cons_append]
    exact fromLast_append_cons hx (List.forall_mem_append.2 ⟨hafter, hys⟩)
  | whole hnone => exact fromLast_eq_self (List.forall_mem_append.2 ⟨hnone, hys⟩)

end FromLast

/-! ## §2 Following segments -/

/-- The last definition with a tag. -/
def IsLastTagged (c : Cache) (tag : String) (d : Definition) : Prop :=
  ∃ earlier later, c.definitions = earlier ++ d :: later ∧ d.tagName = tag
    ∧ ∀ e ∈ later, e.tagName ≠ tag

/-- Where a segment leads below a definition, from the definition itself or from a field. -/
inductive Leads (c : Cache) (d : Definition) : Option Field → String → Option Field → Prop where
  /-- From the definition to its first field of that name. -/
  | first {name : String} {f : Field}
      (hfind : d.fields.find? (fun g => g.name = name) = some f) : Leads c d none name (some f)
  /-- From a list to its items, which stand for the list. -/
  | item {f : Field} (hlist : f.kind.isList = true) : Leads c d (some f) itemTag (some f)
  /-- From a field with structure to the first field of that name below. -/
  | below {f g : Field} {name : String} (hstructure : f.kind.hasStructure = true)
      (hitem : ¬ (name = itemTag ∧ f.kind.isList = true))
      (hfind : (f.childrenIn c.schemas).find? (fun g => g.name = name) = some g) :
      Leads c d (some f) name (some g)

/-- Where segments lead one after the other. -/
inductive Follows (c : Cache) (d : Definition) :
    Option Field → List String → Option Field → Prop where
  | nil (place : Option Field) : Follows c d place [] place
  | cons {place next last : Option Field} {name : String} {names : List String}
      (hstep : c.Leads d place name next) (hrest : Follows c d next names last) :
      Follows c d place (name :: names) last

/-- The answer is where the longest part of the segments leads that can be followed from the
definition. -/
def LongestMatch (c : Cache) (d : Definition) (names : List String) (answer : Option Field) :
    Prop :=
  ∃ taken left, names = taken ++ left ∧ c.Follows d none taken answer
    ∧ ∀ longer place, longer <+: names → c.Follows d none longer place →
        longer.length ≤ taken.length

/-- The fields among which the next segment is looked up. -/
def fieldsBelow (c : Cache) (d : Definition) : Option Field → List Field
  | none => d.fields
  | some f => if f.kind.hasStructure then f.childrenIn c.schemas else []

/-- The walk on from a place below a definition. -/
def reach (c : Cache) (d : Definition) (place : Option Field) (names : List String) :
    Option Field :=
  walk c.schemas (c.fieldsBelow d place) place names

section Walks

variable {c : Cache} {d : Definition} {place next : Option Field} {name : String}
  {names taken : List String}

/-- A walk ends at a field without structure. -/
theorem walk_nil_fields {f : Field} (hf : ¬ f.kind.hasStructure = true) :
    walk c.schemas [] (some f) names = some f := by
  cases names with
  | nil => rfl
  | cons name names =>
    have hlist : ¬ (name = itemTag ∧ Option.any (·.kind.isList) (some f) = true) :=
      fun h => hf (FieldKind.hasStructure_of_isList h.2)
    rw [walk, if_neg hlist]
    rfl

/-- One step of a walk, wherever it is. -/
theorem reach_cons : c.reach d place (name :: names) =
    if name = itemTag ∧ place.any (·.kind.isList) then c.reach d place names
    else ((c.fieldsBelow d place).find? (fun f => f.name = name)).elim place
      fun f => c.reach d (some f) names := by
  rw [reach, walk]
  refine ite_congr rfl (fun _ => rfl) fun _ => ?_
  cases (c.fieldsBelow d place).find? (fun f => f.name = name) with
  | none => rfl
  | some f =>
    show ite _ _ _ = walk c.schemas (ite _ _ _) (some f) names
    by_cases hf : f.kind.hasStructure = true
    · rw [if_pos hf, if_pos hf]
    · rw [if_neg hf, if_neg hf, walk_nil_fields hf]

theorem Leads.reach_cons (h : c.Leads d place name next) (names : List String) :
    c.reach d place (name :: names) = c.reach d next names := by
  rw [Cache.reach_cons]
  cases h with
  | first hfind => rw [if_neg (by simp), fieldsBelow, hfind, Option.elim_some]
  | item hlist => exact if_pos ⟨rfl, hlist⟩
  | below hstructure hitem hfind =>
    rw [Option.any_some, if_neg hitem, fieldsBelow, if_pos hstructure, hfind, Option.elim_some]

theorem reach_cons_of_stuck (h : ∀ next, ¬ c.Leads d place name next) (names : List String) :
    c.reach d place (name :: names) = place := by
  rw [reach_cons]
  -- Nothing is matched yet, so the segment would have to name a field of the definition.
  cases place with
  | none =>
    cases hfind : d.fields.find? (fun f => f.name = name) with
    | none => rw [if_neg (by simp), fieldsBelow, hfind, Option.elim_none]
    | some f => exact absurd (.first hfind) (h _)
  | some f =>
    by_cases hitem : name = itemTag ∧ f.kind.isList = true
    · obtain ⟨rfl, hlist⟩ := hitem
      -- The segment is no list item here, so it would have to name a field right below.
      exact absurd (.item hlist) (h _)
    · rw [Option.any_some, if_neg hitem, fieldsBelow]
      by_cases hstructure : f.kind.hasStructure = true
      · rw [if_pos hstructure]
        cases hfind : (f.childrenIn c.schemas).find? (fun g => g.name = name) with
        | none => rfl
        | some g => exact absurd (.below hstructure hitem hfind) (h _)
      · rw [if_neg hstructure]
        rfl

theorem Leads.isSome (h : c.Leads d place name next) : next.isSome = true := by
  cases h <;> rfl

theorem Follows.reach_append (h : c.Follows d place taken next) (names : List String) :
    c.reach d place (taken ++ names) = c.reach d next names := by
  induction h with
  | nil => rfl
  | cons hstep _ ih => rw [List.cons_append, hstep.reach_cons, ih]

/-- Segments lead to one place only. -/
theorem Follows.reach_eq (h : c.Follows d place taken next) : c.reach d place taken = next := by
  rw [← List.append_nil taken, h.reach_append]
  rfl

theorem Follows.isSome (h : c.Follows d place taken next) (hplace : place.isSome = true) :
    next.isSome = true := by
  induction h with
  | nil => exact hplace
  | cons hstep _ ih => exact ih hstep.isSome

theorem Follows.exists_of_append (h : c.Follows d place (taken ++ names) next) :
    ∃ mid, c.Follows d place taken mid ∧ c.Follows d mid names next := by
  induction taken generalizing place with
  | nil => exact ⟨place, .nil place, h⟩
  | cons name taken ih =>
    obtain _ | ⟨hstep, hrest⟩ := h
    obtain ⟨mid, hfirst, hlast⟩ := ih hrest
    exact ⟨mid, .cons hstep hfirst, hlast⟩

/-- **A walk stops only where it must**: it follows a part of the segments, and the next one leads
nowhere. -/
theorem exists_follows_reach (c : Cache) (d : Definition) (place : Option Field)
    (names : List String) :
    ∃ taken left, names = taken ++ left ∧ c.Follows d place taken (c.reach d place names)
      ∧ ∀ name ∈ left.head?, ∀ next, ¬ c.Leads d (c.reach d place names) name next := by
  -- Either the first segment leads on, and the walk is that from there, or it ends before it.
  induction names generalizing place with
  | nil => exact ⟨[], [], rfl, .nil place, by simp⟩
  | cons name names ih =>
    by_cases hleads : ∃ next, c.Leads d place name next
    · obtain ⟨next, hstep⟩ := hleads
      obtain ⟨taken, left, hnames, hfollows, hstuck⟩ := ih next
      rw [hstep.reach_cons]
      exact ⟨name :: taken, left, by rw [hnames, List.cons_append], .cons hstep hfollows, hstuck⟩
    · have hstuck := not_exists.1 hleads
      rw [reach_cons_of_stuck hstuck]
      refine ⟨[], name :: names, rfl, .nil place, fun first hfirst => ?_⟩
      rwa [← Option.mem_some_iff.1 hfirst]

theorem longestMatch_reach (c : Cache) (d : Definition) (names : List String) :
    c.LongestMatch d names (c.reach d none names) := by
  obtain ⟨taken, left, hnames, hfollows, hstuck⟩ := exists_follows_reach c d none names
  refine ⟨taken, left, hnames, hfollows, fun longer place hlonger hplace => ?_⟩
  refine Nat.le_of_not_lt fun hlength => ?_
  -- A longer part begins with `taken` and the segment after it.
  obtain ⟨more, rfl⟩ : taken <+: longer :=
    List.prefix_of_prefix_length_le (hnames ▸ List.prefix_append taken left) hlonger (by omega)
  obtain ⟨mid, hmid, hmore⟩ := hplace.exists_of_append
  obtain _ | ⟨hstep, -⟩ := hmore
  · simp at hlength
  · rw [hnames, List.prefix_append_right_inj] at hlonger
    obtain ⟨rest, rfl⟩ := hlonger
    rw [← hfollows.reach_eq, hmid.reach_eq] at hstuck
    exact hstuck _ rfl _ hstep

/-- One more segment is either of no use or leads one step further. -/
theorem reach_append_singleton (c : Cache) (d : Definition) (place : Option Field)
    (names : List String) (name : String) :
    c.reach d place (names ++ [name]) = c.reach d place names
      ∨ c.Leads d (c.reach d place names) name (c.reach d place (names ++ [name])) := by
  obtain ⟨taken, left, hnames, hfollows, hstuck⟩ := exists_follows_reach c d place names
  have happend : c.reach d place (names ++ [name]) =
      c.reach d (c.reach d place names) (left ++ [name]) := by
    conv => lhs; rw [hnames, List.append_assoc]
    exact hfollows.reach_append _
  rw [happend]
  -- A walk that has stopped before does not get to the new segment.
  cases left with
  | cons first left => exact .inl (reach_cons_of_stuck (hstuck first rfl) _)
  | nil =>
    by_cases hleads : ∃ next, c.Leads d (c.reach d place names) name next
    · obtain ⟨next, hstep⟩ := hleads
      right
      rw [List.nil_append, hstep.reach_cons]
      exact hstep
    · exact .inl (reach_cons_of_stuck (not_exists.1 hleads) [])

/-- Item tags below a list are stepped over, however many there are. -/
theorem follows_items {f : Field} (hlist : f.kind.isList = true) (n : Nat) :
    c.Follows d (some f) (List.replicate n itemTag) (some f) := by
  induction n with
  | zero => exact .nil _
  | succ n ih => exact .cons (.item hlist) ih

/-- Nothing is matched exactly if the first segment names no field of the definition. -/
theorem reach_eq_none_iff : c.reach d none names = none ↔
    ∀ name ∈ names.head?, ∀ f ∈ d.fields, f.name ≠ name := by
  cases names with
  | nil => exact ⟨fun _ => by simp, fun _ => rfl⟩
  | cons name names =>
    constructor
    · intro hnone first hfirst f hf hname
      -- The segment names a field of the definition, and from there on the walk is somewhere.
      rw [← Option.mem_some_iff.1 hfirst] at hname
      have hsome : (d.fields.find? (fun g => g.name = name)).isSome = true :=
        List.find?_isSome.2 ⟨f, hf, decide_eq_true hname⟩
      obtain ⟨g, hg⟩ := Option.isSome_iff_exists.1 hsome
      rw [(Leads.first hg).reach_cons] at hnone
      obtain ⟨_, _, -, hfollows, -⟩ := exists_follows_reach c d (some g) names
      simpa [hnone] using hfollows.isSome rfl
    · intro hfields
      refine reach_cons_of_stuck (fun next hstep => ?_) names
      obtain @⟨_, f, hfind⟩ := hstep
      have hname : f.name = name := by simpa using List.find?_some hfind
      exact hfields name rfl f (List.mem_of_find?_eq_some hfind) hname

end Walks

/-! ## §3 Paths -/

section Paths

variable {c : Cache} {d : Definition} {tag : String} {rest : List String} {path : String}

theorem lastDefinition?_eq_some_iff : c.lastDefinition? tag = some d ↔ c.IsLastTagged tag d := by
  rw [lastDefinition?, List.find?_eq_some_iff_append, IsLastTagged]
  simp only [decide_eq_true_eq, decide_eq_false_iff_not, Bool.not_eq_true']
  constructor
  · rintro ⟨htag, later, earlier, hdefinitions, hlater⟩
    refine ⟨earlier.reverse, later.reverse, ?_, htag, by simpa using hlater⟩
    simpa using congrArg List.reverse hdefinitions
  · rintro ⟨earlier, later, hdefinitions, htag, hlater⟩
    refine ⟨htag, later.reverse, earlier.reverse, by simp [hdefinitions], by simpa using hlater⟩

theorem hasTag_eq_isSome : c.hasTag tag = (c.lastDefinition? tag).isSome := by
  rw [Bool.eq_iff_iff, lastDefinition?, List.find?_isSome, hasTag, List.any_eq_true]
  simp only [List.mem_reverse]

theorem deepestIn_cons_of_isLastTagged (hd : c.IsLastTagged tag d) (rest : List String) :
    c.deepestIn (tag :: rest) = c.reach d none rest := by
  rw [deepestIn, lastDefinition?_eq_some_iff.2 hd]
  rfl

theorem deepestIn_cons_of_not_hasTag (htag : c.hasTag tag = false) (rest : List String) :
    c.deepestIn (tag :: rest) = none := by
  rw [deepestIn, lastDefinition?_eq_none_of_hasTag htag]

theorem exists_isLastTagged (htag : c.hasTag tag = true) : ∃ d, c.IsLastTagged tag d := by
  rw [hasTag_eq_isSome, Option.isSome_iff_exists] at htag
  exact htag.imp fun _ => lastDefinition?_eq_some_iff.1

theorem IsLastTagged.hasTag (hd : c.IsLastTagged tag d) : c.hasTag tag = true := by
  rw [hasTag_eq_isSome, lastDefinition?_eq_some_iff.2 hd, Option.isSome_some]

theorem deepestIn_cons_eq_none_iff : c.deepestIn (tag :: rest) = none ↔
    c.hasTag tag = false
      ∨ ∃ d, c.IsLastTagged tag d ∧ ∀ name ∈ rest.head?, ∀ f ∈ d.fields, f.name ≠ name := by
  constructor
  · intro hnone
    cases htag : c.hasTag tag with
    | false => exact .inl rfl
    | true =>
      obtain ⟨d, hd⟩ := exists_isLastTagged htag
      -- Only the last definition of the tag is asked, and the walk begins at its fields.
      rw [deepestIn_cons_of_isLastTagged hd] at hnone
      exact .inr ⟨d, hd, reach_eq_none_iff.1 hnone⟩
  · rintro (htag | ⟨d, hd, hfields⟩)
    · exact deepestIn_cons_of_not_hasTag htag rest
    · rw [deepestIn_cons_of_isLastTagged hd]
      exact reach_eq_none_iff.2 hfields

/-- What comes before the last tag does not count. -/
theorem deepestField?_of_pathSegments {before : List String} (htag : c.hasTag tag = true)
    (hrest : ∀ name ∈ rest, c.hasTag name = false)
    (hpath : pathSegments path = before ++ tag :: rest) :
    c.deepestField? path = c.deepestIn (tag :: rest) := by
  rw [deepestField?, segments, hpath, fromLast_append_cons htag hrest]

/-- Item tags may be put after a list or left out. -/
theorem deepestIn_items (hd : c.IsLastTagged tag d) {front back : List String} {f : Field}
    (hfront : c.Follows d none front (some f)) (hlist : f.kind.isList = true) (n : Nat) :
    c.deepestIn (tag :: (front ++ List.replicate n itemTag ++ back)) =
      c.deepestIn (tag :: (front ++ back)) := by
  rw [deepestIn_cons_of_isLastTagged hd, deepestIn_cons_of_isLastTagged hd, List.append_assoc,
    hfront.reach_append, hfront.reach_append, (follows_items hlist n).reach_append]

/-- One more segment leads to a field right below, if anywhere. -/
theorem deepestIn_append_singleton (c : Cache) (tag : String) (rest : List String)
    (name : String) :
    c.deepestIn (tag :: (rest ++ [name])) = c.deepestIn (tag :: rest)
      ∨ (∃ f g, c.deepestIn (tag :: rest) = some f ∧ g ∈ f.childrenIn c.schemas
          ∧ c.deepestIn (tag :: (rest ++ [name])) = some g)
      ∨ ∃ d g, c.deepestIn (tag :: rest) = none ∧ c.IsLastTagged tag d ∧ g ∈ d.fields
          ∧ c.deepestIn (tag :: (rest ++ [name])) = some g := by
  cases htag : c.hasTag tag with
  | false =>
    left
    rw [deepestIn_cons_of_not_hasTag htag, deepestIn_cons_of_not_hasTag htag]
  | true =>
    obtain ⟨d, hd⟩ := exists_isLastTagged htag
    rw [deepestIn_cons_of_isLastTagged hd, deepestIn_cons_of_isLastTagged hd]
    -- The walk is at the same place as before, or one step further down.
    obtain hsame | hstep := reach_append_singleton c d none rest name
    · exact .inl hsame
    generalize c.reach d none rest = place at hstep
    generalize c.reach d none (rest ++ [name]) = next at hstep
    cases hstep with
    | first hfind => exact .inr (.inr ⟨d, _, rfl, hd, List.mem_of_find?_eq_some hfind, rfl⟩)
    | item hlist => exact .inl rfl
    | below hstructure hitem hfind =>
      exact .inr (.inl ⟨_, _, rfl, List.mem_of_find?_eq_some hfind, rfl⟩)

/-- **Paths resolve to their longest match**: of a path the segments from its last tag on count, and
its deepest field is where the longest part of them leads that can be followed from the last
definition of that tag.  Nothing is matched exactly without such a definition or if the first
segment after the tag names no field of it.  So the deepest field stays the same

* when item tags are put after a list or left out, unless the item tag is itself a tag,
* when the part before the last tag is another one;

and one more segment, if it is no tag, leads to a field right below or nowhere. -/
theorem path_resolution (c : Cache) :
    (∀ path kept, c.segments path = kept ↔ Keeps c.hasTag (pathSegments path) kept)
      ∧ (∀ path tag rest, c.segments path = tag :: rest →
          (c.deepestField? path = none ↔
            c.hasTag tag = false
              ∨ ∃ d, c.IsLastTagged tag d
                  ∧ ∀ name ∈ rest.head?, ∀ f ∈ d.fields, f.name ≠ name)
          ∧ ∀ d, c.IsLastTagged tag d → c.LongestMatch d rest (c.deepestField? path))
      ∧ (c.hasTag itemTag = false → ∀ path path' before tag front back n d f,
          pathSegments path = before ++ tag :: (front ++ back) →
          pathSegments path' = before ++ tag :: (front ++ List.replicate n itemTag ++ back) →
          (∀ name ∈ front ++ back, c.hasTag name = false) → c.IsLastTagged tag d →
          c.Follows d none front (some f) → f.kind.isList = true →
            c.deepestField? path' = c.deepestField? path)
      ∧ (∀ path path' before tag rest, c.segments path = tag :: rest → c.hasTag tag = true →
          pathSegments path' = before ++ tag :: rest →
            c.deepestField? path' = c.deepestField? path)
      ∧ ∀ path path' name, pathSegments path' = pathSegments path ++ [name] →
          c.hasTag name = false →
            c.deepestField? path' = c.deepestField? path
              ∨ (∃ f g, c.deepestField? path = some f ∧ g ∈ f.childrenIn c.schemas
                  ∧ c.deepestField? path' = some g)
              ∨ ∃ tag rest d g, c.deepestField? path = none ∧ c.segments path = tag :: rest
                  ∧ c.IsLastTagged tag d ∧ g ∈ d.fields ∧ c.deepestField? path' = some g := by
  refine ⟨fun _ _ => fromLast_eq_iff, fun path tag rest hkept => ⟨?_, fun d hd => ?_⟩, ?_, ?_, ?_⟩
  · rw [deepestField?, hkept]
    exact deepestIn_cons_eq_none_iff
  · rw [deepestField?, hkept, deepestIn_cons_of_isLastTagged hd]
    exact longestMatch_reach c d rest
  · -- The inserted segments are no tags, so both paths count from the same one.
    intro hitem path path' before tag front back n d f hpath hpath' hnone hd hfront hlist
    have hnone' : ∀ name ∈ front ++ List.replicate n itemTag ++ back, c.hasTag name = false := by
      intro name hname
      simp only [List.mem_append, List.mem_replicate] at hname hnone
      obtain (hname | ⟨-, rfl⟩) | hname := hname
      · exact hnone name (.inl hname)
      · exact hitem
      · exact hnone name (.inr hname)
    rw [deepestField?_of_pathSegments hd.hasTag hnone hpath,
      deepestField?_of_pathSegments hd.hasTag hnone' hpath']
    exact deepestIn_items hd hfront hlist n
  -- What comes before the last tag does not count.
  · intro path path' before tag rest hkept htag hpath'
    have hrest := (fromLast_eq_iff.1 hkept).tail
    rw [deepestField?_of_pathSegments htag hrest hpath', deepestField?, hkept]
  · intro path path' name hpath' hname
    -- A segment that is no tag is added at the end of those that are kept.
    have hkept' : c.segments path' = c.segments path ++ [name] := by
      rw [segments, hpath', fromLast_append (by simpa using hname)]
      rfl
    rw [deepestField?, deepestField?, hkept']
    cases c.segments path with
    | nil => exact .inl (deepestIn_cons_of_not_hasTag hname [])
    | cons tag rest =>
      obtain hsame | hbelow | ⟨d, g, hnone, hd, hg, hdeepest⟩ :=
        deepestIn_append_singleton c tag rest name
      · exact .inl hsame
      · exact .inr (.inl hbelow)
      · exact .inr (.inr ⟨tag, rest, d, g, hnone, rfl, hd, hg, hdeepest⟩)

end Paths

/-- A lamp has its components in a list. -/
theorem path_resolution_lamp :
    lampCache.hasTag itemTag = false
      ∧ lampCache.segments "Defs/ThingDef/comps/compClass/deeper" =
          ["ThingDef", "comps", "compClass", "deeper"]
      ∧ lampCache.deepestField? "Defs/ThingDef/comps/compClass/deeper" =
          some (.scalar "compClass" "System.Type")
      ∧ (∀ d, lampCache.IsLastTagged "ThingDef" d →
          lampCache.LongestMatch d ["comps", "compClass", "deeper"]
            (some (.scalar "compClass" "System.Type")))
      ∧ lampCache.deepestField? "Defs/ThingDef/comps/li/li/compClass/deeper" =
          lampCache.deepestField? "Defs/ThingDef/comps/compClass/deeper"
      ∧ lampCache.deepestField? "ThingDef / li // ThingDef/comps/compClass/deeper" =
          lampCache.deepestField? "Defs/ThingDef/comps/compClass/deeper"
      ∧ ∃ f g, lampCache.deepestField? "Defs/ThingDef/comps" = some f
          ∧ g ∈ f.childrenIn lampCache.schemas
          ∧ lampCache.deepestField? "Defs/ThingDef/comps/compClass" = some g := by
  have hitem : lampCache.hasTag itemTag = false := by decide
  have hkept : lampCache.segments "Defs/ThingDef/comps/compClass/deeper" =
      ["ThingDef", "comps", "compClass", "deeper"] := by decide
  have hdeepest : lampCache.deepestField? "Defs/ThingDef/comps/compClass/deeper" =
      some (.scalar "compClass" "System.Type") := by decide
  obtain ⟨-, hlongest, hitems, hbefore, hextend⟩ := path_resolution lampCache
  refine ⟨hitem, hkept, hdeepest, hdeepest ▸ (hlongest _ _ _ hkept).2, ?_, ?_, ?_⟩
  · exact hitems hitem _ _ ["Defs"] "ThingDef" ["comps"] ["compClass", "deeper"] 2 _ _
      (by decide +kernel) (by decide +kernel) (by decide) ⟨[], [], rfl, rfl, by simp⟩
      (.cons (.first rfl) (.nil _)) rfl
  · exact hbefore _ _ ["ThingDef", "li"] "ThingDef" ["comps", "compClass", "deeper"] hkept
      (by decide) (by decide)
  · obtain hsame | hbelow | ⟨_, _, _, _, hnone, -⟩ :=
      hextend "Defs/ThingDef/comps" "Defs/ThingDef/comps/compClass" "compClass"
        (by decide +kernel) (by decide)
    · exact absurd hsame (by decide +kernel)
    · exact hbelow
    · exact absurd hnone (by decide +kernel)

end Cache

end SchemaGraph
