import SchemaGraph.Files.FileTree

/-!
# Changes of Trees

Where a path leads is told by its steps, the current directory and the links; what stands in the
tree only tells whether one gets there.  No operation changes the links, so what it does change can
be said place by place: writing puts a file at one place, and making directories puts some where
nothing stood.

- `FileTree.at?_of_find`: what a path leads to stands at its place
- `FileTree.Keeps.write`, `FileTree.Keeps.makeDirectories`: what stands in the tree afterwards
- `FileTree.Keeps.find`: what does not change where a path leads
- `FileTree.read_of_write`: a file that was written is read as it was written
- `FileTree.SameFiles.find`: the clock does not matter
-/

namespace SchemaGraph

/-- Entries under other keys do not count when a key is looked up. -/
theorem lookup_filter {κ ν : Type} [BEq κ] [LawfulBEq κ] (keep : κ → Bool) {k : κ}
    (hk : keep k = true) (entries : List (κ × ν)) :
    (entries.filter fun e => keep e.1).lookup k = entries.lookup k := by
  induction entries with
  | nil => rfl
  | cons e entries ih =>
    -- Entries that are filtered out have another key than the one that is looked up.
    cases he : keep e.1 with
    | true => rw [List.filter_cons_of_pos (by exact he), List.lookup_cons, List.lookup_cons, ih]
    | false =>
      have hne : (k == e.1) = false := by
        rw [beq_eq_false_iff_ne]
        rintro rfl
        exact Bool.false_ne_true (he.symm.trans hk)
      rw [List.filter_cons_of_neg (by simp [he]), ih, List.lookup_cons, hne]

namespace FileTree

variable {t t' t'' : FileTree} {p : Path} {l : Location} {contents : Bytes} {modified : Int}

/-! ## §1 Places -/

/-- The place that a path names, whether or not one gets there. -/
def spot (t : FileTree) (p : Path) : Location :=
  (steps p).foldl (fun l step => stepFrom (t.follow l) step) (if p.isAbsolute then [] else t.home)

/-- The place that a path leads to, whether or not one gets there. -/
def place (t : FileTree) (p : Path) : Location := t.follow (t.spot p)

/-- Paths name the same places where the current directory and the links are the same. -/
theorem spot_congr (hhome : t'.home = t.home) (hlinks : t'.links = t.links) (p : Path) :
    t'.spot p = t.spot p := by
  simp only [spot, follow, hhome, hlinks]

/-- So they lead to the same places, if they lead anywhere. -/
theorem place_congr (hhome : t'.home = t.home) (hlinks : t'.links = t.links) (p : Path) :
    t'.place p = t.place p := by
  rw [place, place, spot_congr hhome hlinks, follow, follow, hlinks]

theorem eq_of_walk {steps : List String} {start : Location} (h : t.walk start steps = .ok l) :
    l = steps.foldl (fun l step => stepFrom (t.follow l) step) start := by
  induction steps generalizing start with
  | nil => exact (Except.ok.inj h).symm
  | cons step steps ih =>
    rw [walk] at h
    split at h
    · cases h
    · cases h
    -- The walk goes on from the directory that the step leads to.
    · split at h
      · cases h
      · exact ih h

theorem eq_of_origin (h : t.origin p = .ok l) : l = if p.isAbsolute then [] else t.home := by
  unfold origin at h
  split at h
  · cases h
  · split at h
    · cases h
    · split at h
      · cases h
      · exact (Except.ok.inj h).symm

theorem exists_walk_of_locate (h : t.locate p = .ok l) :
    ∃ start, t.origin p = .ok start ∧ t.walk start (steps p) = .ok l := by
  unfold locate at h
  cases hstart : t.origin p with
  | error e =>
    rw [hstart] at h
    cases h
  | ok start =>
    rw [hstart] at h
    exact ⟨start, rfl, h⟩

theorem eq_spot_of_locate (h : t.locate p = .ok l) : l = t.spot p := by
  obtain ⟨start, hstart, hwalk⟩ := exists_walk_of_locate h
  rw [eq_of_walk hwalk, eq_of_origin hstart, spot]

/-- What a path leads to stands at the place of the path. -/
theorem at?_of_find {e : Entry} (h : t.find p = .ok (l, e)) :
    t.locate p = .ok (t.spot p) ∧ l = t.place p ∧ t.at? l = some e := by
  unfold find at h
  cases hlocate : t.locate p with
  | error e =>
    rw [hlocate] at h
    cases h
  | ok l' =>
    obtain rfl := eq_spot_of_locate hlocate
    rw [hlocate] at h
    -- The place is told by the path alone; what is left to ask is whether anything stands there.
    simp only [bind, Except.bind] at h
    split at h
    next e' hat =>
      obtain ⟨rfl, rfl⟩ := Prod.mk.inj (Except.ok.inj h)
      exact ⟨rfl, rfl, hat⟩
    next => cases h

theorem find_of_locate {e : Entry} (hl : t.locate p = .ok l) (hat : t.at? (t.follow l) = some e) :
    t.find p = .ok (t.follow l, e) := by
  rw [find, hl]
  simp only [bind, Except.bind, hat]
  rfl

theorem read_of_file (h : t.find p = .ok (l, .file contents modified)) :
    t.read p = .ok contents := by
  simp [read, h, bind, Except.bind, pure, Except.pure]

theorem find_of_read (h : t.read p = .ok contents) :
    ∃ l modified, t.find p = .ok (l, .file contents modified) := by
  unfold read at h
  cases hfind : t.find p with
  | error e =>
    rw [hfind] at h
    cases h
  | ok found =>
    -- A directory cannot be read.
    rcases found with ⟨l, _ | ⟨contents', modified⟩⟩
    · rw [hfind] at h
      cases h
    · rw [hfind] at h
      obtain rfl := Except.ok.inj h
      exact ⟨l, modified, rfl⟩

/-- What is read at a path is the file at its place. -/
theorem at?_of_read (h : t.read p = .ok contents) :
    ∃ modified, t.at? (t.place p) = some (.file contents modified) := by
  obtain ⟨l, modified, hfind⟩ := find_of_read h
  obtain ⟨-, rfl, hat⟩ := at?_of_find hfind
  exact ⟨modified, hat⟩

/-! ## §2 Putting something at a place -/

@[simp] theorem follow_put (t : FileTree) (l : Location) (e : Entry) (l' : Location) :
    (t.put l e).follow l' = t.follow l' := rfl

theorem at?_put (t : FileTree) (l : Location) (e : Entry) (l' : Location) :
    (t.put l e).at? l' =
      if l' = [] then some .directory else if l' = l then some e else t.at? l' := by
  unfold at? put
  by_cases hroot : l' = []
  · rw [if_pos hroot, if_pos hroot]
  · rw [if_neg hroot, if_neg hroot, if_neg hroot]
    by_cases hl : l' = l
    · rw [if_pos hl, hl, List.lookup_cons_self]
    -- The new entry stands in front, and the old one of this place has been taken out.
    · have hbeq : (l' == l) = false := by simpa using hl
      rw [if_neg hl, List.lookup_cons, hbeq]
      exact lookup_filter (· ≠ l) (decide_eq_true hl) t.entries

/-- A file can be put at a place: there is none but a file, and it stands in a directory. -/
structure HasRoom (t : FileTree) (l : Location) : Prop where
  free : t.at? l ≠ some .directory
  around : t.at? l.dropLast = some .directory

/-- The root is a directory. -/
theorem HasRoom.ne_nil (h : t.HasRoom l) : l ≠ [] := by
  rintro rfl
  exact h.free rfl

/-- **Writing** puts a file where there is room for it. -/
theorem exists_hasRoom_of_write (h : t.write p contents = .ok t') :
    ∃ l, t.locateFile p = .ok l ∧ t.HasRoom (t.follow l)
      ∧ t' = t.put (t.follow l) (.file contents t.seconds) := by
  unfold write at h
  cases hl : t.locateFile p with
  | error e =>
    rw [hl] at h
    cases h
  | ok l =>
    -- The file is written where a link at the place leads, if nothing but a file stands there.
    rw [hl] at h
    simp only [bind, Except.bind] at h
    split at h
    · cases h
    next hfree =>
      split at h
      next haround => exact ⟨l, rfl, ⟨hfree, haround⟩, (Except.ok.inj h).symm⟩
      next => cases h
      next => cases h

theorem write_of_hasRoom (hl : t.locateFile p = .ok l) (h : t.HasRoom (t.follow l))
    (contents : Bytes) :
    t.write p contents = .ok (t.put (t.follow l) (.file contents t.seconds)) := by
  rw [write, hl]
  simp only [bind, Except.bind]
  split
  next hdirectory => exact absurd hdirectory h.free
  next => simp only [h.around]; rfl

theorem follow_of_not_isLink (h : t.isLink l = false) : t.follow l = l := by
  rw [isLink, Option.isSome_eq_false_iff, Option.isNone_iff_eq_none] at h
  rw [follow, h, Option.getD_none]

/-- **Making a directory** puts it where nothing stands. -/
theorem exists_put_of_makeDirectory (h : t.makeDirectory p = .ok t') :
    ∃ l, t.locate p = .ok l ∧ t.isLink l = false ∧ t.at? l = none
      ∧ t' = t.put l .directory := by
  unfold makeDirectory at h
  cases hl : t.locate p with
  | error e =>
    rw [hl] at h
    cases h
  | ok l =>
    rw [hl] at h
    simp only [bind, Except.bind] at h
    -- Neither a link nor an entry may stand at the place.
    cases hlink : t.isLink l with
    | true =>
      rw [hlink] at h
      cases h
    | false =>
      rw [hlink] at h
      simp only [Bool.false_eq_true, if_false] at h
      split at h
      · cases h
      next hnone => exact ⟨l, rfl, hlink, hnone, (Except.ok.inj h).symm⟩

/-- A directory is made unless there is one. -/
theorem makeDirectory_or_find_of_ensureDirectory (h : t.ensureDirectory p = .ok t') :
    t.makeDirectory p = .ok t' ∨ t' = t ∧ ∃ l, t.find p = .ok (l, .directory) := by
  unfold ensureDirectory at h
  split at h
  next hmake =>
    obtain rfl := Except.ok.inj h
    exact .inl hmake
  -- Making failed, so the answer says whether a directory is there all the same.
  next =>
    split at h
    next hdirectory =>
      refine .inr ⟨(Except.ok.inj h).symm, ?_⟩
      unfold isDirectory at hdirectory
      split at hdirectory
      next l hfind => exact ⟨l, hfind⟩
      next => cases hdirectory
    next => cases h

/-- **Making directories** ends with the directory itself, if the path names one. -/
theorem ensureDirectory_of_makeDirectories {fuel : Nat}
    (h : makeDirectories (fuel + 1) t p = .ok t') :
    p = "" ∧ t' = t ∨ ∃ t₁, (t₁ = t ∨ ∃ around, makeDirectories fuel t around = .ok t₁)
      ∧ t₁.ensureDirectory p = .ok t' := by
  rw [makeDirectories] at h
  split at h
  next hempty => exact .inl ⟨hempty, (Except.ok.inj h).symm⟩
  next =>
    refine .inr ?_
    split at h
    next hensure =>
      obtain rfl := Except.ok.inj h
      exact ⟨t, .inl rfl, hensure⟩
    -- The directory around was missing, and was made first.
    next around _ _ =>
      split at h
      next t₁ haround => exact ⟨t₁, .inr ⟨around, haround⟩, h⟩
      next => cases h
    next => cases h

/-- What stands at a place is listed. -/
theorem mem_entries_of_at? {e : Entry} (h : t.at? l = some e) (hl : l ≠ []) :
    (l, e) ∈ t.entries := by
  rw [at?, if_neg hl] at h
  obtain ⟨front, back, hentries, -⟩ := List.lookup_eq_some_iff.1 h
  rw [hentries]
  exact List.mem_append_right _ List.mem_cons_self

/-- In an empty tree there are no files. -/
theorem at?_empty_ne_file (home l : Location) (contents : Bytes) (modified : Int) :
    (FileTree.empty home).at? l ≠ some (.file contents modified) := by
  intro h
  have hl : l ≠ [] := by
    rintro rfl
    cases h
  have hmem := mem_entries_of_at? h hl
  simp [FileTree.empty] at hmem

/-! ## §3 What is kept -/

theorem locate_of_locateFile (h : t.locateFile p = .ok l) : t.locate p = .ok l := by
  unfold locateFile at h
  split at h
  next name _ _ =>
    split at h
    · exact h
    -- A path that ends in a slash locates no file.
    · cases horigin : t.origin p with
      | error e =>
        rw [horigin] at h
        cases h
      | ok start =>
        rw [horigin] at h
        simp only [bind, Except.bind] at h
        cases hwalk : t.walk start ((properSteps p).dropLast ++ ["."]) with
        | error e =>
          rw [hwalk] at h
          cases h
        | ok l' =>
          rw [hwalk] at h
          cases h
  next => exact h

/-- The current directory, the links and the clock stay.  Every file is one of before or is new,
and only where there is a new file something is lost, which was no directory. -/
structure Keeps (new : Location → Bytes → Prop) (t t' : FileTree) : Prop where
  home : t'.home = t.home
  links : t'.links = t.links
  timestamp : t'.timestamp = t.timestamp
  files : ∀ l contents modified, t'.at? l = some (.file contents modified) →
    t.at? l = some (.file contents modified) ∨ new l contents
  stands : ∀ l e, t.at? l = some e →
    t'.at? l = some e ∨ e ≠ .directory ∧ ∃ contents, new l contents

namespace Keeps

variable {new : Location → Bytes → Prop}

theorem refl (t : FileTree) : Keeps new t t :=
  ⟨rfl, rfl, rfl, fun _ _ _ h => .inl h, fun _ _ h => .inl h⟩

theorem trans (h : Keeps new t t') (h' : Keeps new t' t'') : Keeps new t t'' where
  home := h'.home.trans h.home
  links := h'.links.trans h.links
  timestamp := h'.timestamp.trans h.timestamp
  files l contents modified hat := by
    -- A file of the last tree is new to one of the two steps, or an old one.
    rcases h'.files l contents modified hat with hat | hnew
    · exact h.files l contents modified hat
    · exact .inr hnew
  stands l e hat := by
    rcases h.stands l e hat with hat | hlost
    · exact h'.stands l e hat
    · exact .inr hlost

/-- Something is put at a place where there was no directory. -/
theorem put {e : Entry} (hplace : t.at? l ≠ some .directory)
    (hnew : ∀ contents modified, e = .file contents modified → new l contents)
    (hlost : ∀ contents modified, t.at? l = some (.file contents modified) →
      ∃ contents', new l contents') : Keeps new t (t.put l e) where
  home := rfl
  links := rfl
  timestamp := rfl
  files l' contents modified hat := by
    rw [at?_put] at hat
    split at hat
    -- The root is a directory, so it is no file.
    · cases hat
    · split at hat
      next hl =>
        subst hl
        exact .inr (hnew contents modified (Option.some.inj hat))
      next => exact .inl hat
  stands l' e' hat := by
    rw [at?_put]
    by_cases hroot : l' = []
    · subst hroot
      exact .inl hat
    · rw [if_neg hroot]
      by_cases hl : l' = l
      · subst hl
        -- Only a file can get lost.
        cases e' with
        | directory => exact absurd hat hplace
        | file contents modified => exact .inr ⟨nofun, hlost contents modified hat⟩
      · rw [if_neg hl]
        exact .inl hat

theorem putFile (h : t.HasRoom l) (hnew : new l contents) :
    Keeps new t (t.put l (.file contents modified)) := by
  refine put h.free (fun contents' modified' he => ?_) fun _ _ _ => ⟨contents, hnew⟩
  cases he
  exact hnew

/-- Writing puts one file. -/
theorem write (h : t.write p contents = .ok t') (hnew : new (t.place p) contents) :
    Keeps new t t' := by
  obtain ⟨l, hl, hroom, rfl⟩ := exists_hasRoom_of_write h
  obtain rfl := eq_spot_of_locate (locate_of_locateFile hl)
  exact putFile hroom hnew

theorem makeDirectory (h : t.makeDirectory p = .ok t') : Keeps new t t' := by
  obtain ⟨l, -, -, hnone, rfl⟩ := exists_put_of_makeDirectory h
  refine put (fun hat => ?_) nofun fun contents modified hat => ?_ <;>
    · rw [hnone] at hat
      cases hat

theorem ensureDirectory (h : t.ensureDirectory p = .ok t') : Keeps new t t' := by
  rcases makeDirectory_or_find_of_ensureDirectory h with hmake | ⟨rfl, -⟩
  · exact makeDirectory hmake
  · exact refl t'

/-- Making directories leaves everything as it is. -/
theorem makeDirectories {fuel : Nat} (h : FileTree.makeDirectories fuel t p = .ok t') :
    Keeps new t t' := by
  induction fuel generalizing p t' with
  | zero => cases h
  | succ fuel ih =>
    rcases ensureDirectory_of_makeDirectories h with ⟨-, rfl⟩ | ⟨t₁, rfl | ⟨around, hmake⟩, hensure⟩
    · exact refl t'
    · exact ensureDirectory hensure
    · exact (ih hmake).trans (ensureDirectory hensure)

theorem spot_eq (h : Keeps new t t') (p : Path) : t'.spot p = t.spot p :=
  spot_congr h.home h.links p

theorem place_eq (h : Keeps new t t') (p : Path) : t'.place p = t.place p :=
  place_congr h.home h.links p

/-- A directory is not replaced by a file. -/
theorem directory (h : Keeps new t t') (hat : t.at? l = some .directory) :
    t'.at? l = some .directory := by
  rcases h.stands _ _ hat with hat | ⟨hne, -⟩
  · exact hat
  · exact absurd rfl hne

theorem walk (h : Keeps new t t') {steps : List String} {start : Location}
    (hwalk : t.walk start steps = .ok l) : t'.walk start steps = .ok l := by
  induction steps generalizing start with
  | nil => exact hwalk
  | cons step steps ih =>
    rw [FileTree.walk] at hwalk ⊢
    split at hwalk
    · cases hwalk
    · cases hwalk
    next hdirectory =>
      -- What is passed on the way is a directory, so it is still there.
      rw [follow, h.links, ← follow, h.directory hdirectory]
      simp only
      split at hwalk
      · cases hwalk
      next hlength =>
        rw [if_neg hlength]
        exact ih hwalk

/-- Places that paths lead to are not lost. -/
theorem locate (h : Keeps new t t') (hl : t.locate p = .ok l) : t'.locate p = .ok l := by
  obtain ⟨start, hstart, hwalk⟩ := exists_walk_of_locate hl
  have hstart' : t'.origin p = .ok start := by
    rw [origin, h.home]
    exact hstart
  rw [FileTree.locate, hstart']
  exact h.walk hwalk

/-- **Paths** go on to lead to what they lead to, unless there is a new file. -/
theorem find (h : Keeps new t t') {e : Entry} (hfind : t.find p = .ok (l, e))
    (hnew : ∀ contents, ¬ new l contents) : t'.find p = .ok (l, e) := by
  obtain ⟨hlocate, rfl, hat⟩ := at?_of_find hfind
  have hat' : t'.at? (t'.place p) = some e := by
    rw [h.place_eq]
    rcases h.stands _ _ hat with hat | ⟨-, contents, hlost⟩
    · exact hat
    · exact absurd hlost (hnew contents)
  rw [← h.place_eq]
  exact find_of_locate (h.spot_eq p ▸ h.locate hlocate) hat'

end Keeps

/-! ## §4 Reading what was written -/

/-- **A file that was written** is read as it was written. -/
theorem read_of_write (h : t.write p contents = .ok t') : t'.read p = .ok contents := by
  obtain ⟨l, hl, hroom, rfl⟩ := exists_hasRoom_of_write h
  -- The directories on the way to the file are still there.
  let spot := t.follow l
  have hkeeps : Keeps (fun _ _ => True) t (t.put spot (.file contents t.seconds)) :=
    .putFile hroom trivial
  have hlocate := hkeeps.locate (locate_of_locateFile hl)
  have hat : (t.put spot (.file contents t.seconds)).at? spot =
      some (.file contents t.seconds) := by
    rw [at?_put, if_neg hroom.ne_nil, if_pos rfl]
  exact read_of_file (find_of_locate hlocate hat)

/-! ## §5 The same files at another time -/

/-- The same things stand at the same places, whatever the clock says. -/
structure SameFiles (t t' : FileTree) : Prop where
  home : t'.home = t.home
  links : t'.links = t.links
  stands : ∀ l, t'.at? l = t.at? l

namespace SameFiles

theorem clock (t : FileTree) (seconds : Int) (timestamp : String) :
    SameFiles t { t with seconds, timestamp } := ⟨rfl, rfl, fun _ => rfl⟩

theorem follow (h : SameFiles t t') (l : Location) : t'.follow l = t.follow l := by
  rw [FileTree.follow, FileTree.follow, h.links]

theorem walk (h : SameFiles t t') (start : Location) (steps : List String) :
    t'.walk start steps = t.walk start steps := by
  induction steps generalizing start with
  | nil => rfl
  | cons step steps ih => rw [FileTree.walk, FileTree.walk, h.follow, h.stands, ih]

/-- **Paths** lead to the same. -/
theorem find (h : SameFiles t t') (p : Path) : t'.find p = t.find p := by
  have hlocate : t'.locate p = t.locate p := by
    rw [locate, locate, origin, origin, h.home]
    exact bind_congr fun start => h.walk start _
  rw [FileTree.find, FileTree.find, hlocate]
  exact bind_congr fun l => by simp only [h.follow, h.stands]

end SameFiles

end FileTree

end SchemaGraph
