import Mathlib.Data.List.Induction
import SchemaGraph.Proofs.Files.Trees
import SchemaGraph.Proofs.Store.Steps
import SchemaGraph.Proofs.Text.Segment

/-!
# Canonical Paths

In a tree where everything stands in a directory and has a proper name, the canonical path of
something leads to it, and so does every other path with that canonical path.  Unless a path ends
with a link, its canonical path has the same extension; a link can have another one than the file
that it leads to.

- `FileTree.find_of_canonical`: a canonical path leads to the same place
- `FileTree.find_eq_of_keyOf_eq`: modules with one key are one module
- `FileTree.isYaml_keyOf`: a path that does not end with a link has the format of its key
-/

namespace SchemaGraph

namespace FileTree

/-! ## §1 Well-formed trees -/

/-- A name that can stand in a directory. -/
def isName (name : String) : Bool :=
  name ≠ "" && name ≠ "." && name ≠ ".." && !name.toList.contains '/'
    && !name.toList.contains '\x00' && name.utf8ByteSize ≤ maxStep

theorem isName_iff {name : String} : isName name = true ↔
    name ≠ "" ∧ name ≠ "." ∧ name ≠ ".." ∧ '/' ∉ name.toList ∧ '\x00' ∉ name.toList
      ∧ name.utf8ByteSize ≤ maxStep := by
  simp [isName, and_assoc]

/-- Everything but the root has a name and stands in a directory, and nothing stands where a link
does. -/
def isWellFormed (t : FileTree) : Bool :=
  (t.entries.all fun e =>
    match e.1.getLast? with
    | none => true
    | some name => isName name && t.at? e.1.dropLast = some .directory)
  && t.links.all fun link => t.at? link.1 = none

variable {t : FileTree} {l : Location} {p : Path} {e : Entry}

theorem parent_of_at? (h : t.isWellFormed = true) {name : String}
    (hat : t.at? (l ++ [name]) = some e) : isName name = true ∧ t.at? l = some .directory := by
  have hmem := mem_entries_of_at? hat (by simp)
  have hentry := List.all_eq_true.1 (Bool.and_eq_true_iff.1 h).1 _ hmem
  simpa using hentry

/-- Where something stands, there is no link to follow. -/
theorem follow_of_at? (h : t.isWellFormed = true) (hat : t.at? l = some e) : t.follow l = l := by
  apply follow_of_not_isLink
  cases hlink : t.links.lookup l with
  | none => simp [isLink, hlink]
  | some target =>
    obtain ⟨front, back, hlinks, -⟩ := List.lookup_eq_some_iff.1 hlink
    have hmem : (l, target) ∈ t.links := by simp [hlinks]
    have hnone := List.all_eq_true.1 (Bool.and_eq_true_iff.1 h).2 _ hmem
    simp [hat] at hnone

/-- On the way to something there are only directories. -/
theorem directory_of_at?_append (h : t.isWellFormed = true) {rest : List String} (hne : rest ≠ [])
    (hat : t.at? (l ++ rest) = some e) : t.at? l = some .directory := by
  induction rest using List.reverseRecOn generalizing e with
  | nil => exact absurd rfl hne
  | append_singleton rest name ih =>
    rw [← List.append_assoc] at hat
    have hparent := (parent_of_at? h hat).2
    by_cases hrest : rest = []
    · subst hrest
      rwa [List.append_nil] at hparent
    · exact ih hrest hparent

theorem isName_of_mem (h : t.isWellFormed = true) (hat : t.at? l = some e) :
    ∀ name ∈ l, isName name = true := by
  intro name hname
  obtain ⟨front, back, rfl⟩ := List.append_of_mem hname
  -- Either there is more below the name, and then a directory stands there, or it is the last one.
  have hfront : t.at? (front ++ [name]) = some .directory ∨ back = [] := by
    by_cases hback : back = []
    · exact .inr hback
    · have hat' : t.at? ((front ++ [name]) ++ back) = some e := by simpa using hat
      exact .inl (directory_of_at?_append h hback hat')
  rcases hfront with hfront | rfl
  · exact (parent_of_at? h hfront).1
  · exact (parent_of_at? h hat).1

/-! ## §2 The path of a place -/

/-- The pieces of the path of a place are the names of the place. -/
theorem splitAt_pathOf (hne : l ≠ []) (hnames : ∀ name ∈ l, isName name = true) :
    Text.splitAt '/' (pathOf l) = "" :: l := by
  have hslash : ∀ name ∈ l, '/' ∉ name.toList := by
    intro name hname
    obtain ⟨-, -, -, hslash, -⟩ := isName_iff.1 (hnames name hname)
    exact hslash
  have hjoin := Text.splitAt_joinWith hne hslash
  rw [Text.splitAt] at hjoin
  have hchars : ("/" : String).toList = ['/'] := rfl
  rw [pathOf, Text.splitAt, String.toList_append, hchars, List.singleton_append, Text.pieces,
    if_pos rfl, List.map_cons, hjoin]

theorem walk_append (h : t.isWellFormed = true) {rest : List String}
    (hat : t.at? (l ++ rest) = some e) : t.walk l rest = .ok (l ++ rest) := by
  induction rest generalizing l with
  | nil => rw [walk, List.append_nil]
  | cons name rest ih =>
    obtain ⟨-, hdot, hdots, -, -, hsize⟩ := isName_iff.1 (isName_of_mem h hat name (by simp))
    have hdirectory := directory_of_at?_append h (List.cons_ne_nil _ _) hat
    have hat' : t.at? ((l ++ [name]) ++ rest) = some e := by simpa using hat
    -- A name is neither of the two dots and no longer than a step may be, so the walk enters it.
    rw [walk, follow_of_at? h hdirectory, hdirectory]
    simp only
    rw [if_neg (Nat.not_lt.2 hsize), stepFrom, if_neg hdot, if_neg hdots, ih hat']
    simp

/-- The steps of the path of a place are the names of the place, unless it is the root. -/
theorem steps_pathOf (hne : l ≠ []) (hnames : ∀ name ∈ l, isName name = true) :
    steps (pathOf l) = l := by
  have hsplit := splitAt_pathOf hne hnames
  have hempty : ∀ name ∈ l, name ≠ "" := fun name hname => (isName_iff.1 (hnames name hname)).1
  have hpath : pathOf l ≠ "" := by
    intro h
    rw [h] at hsplit
    exact hne (List.cons.inj hsplit).2.symm
  -- A slash at its end would leave an empty name behind it.
  have hends : Text.endsWith "/" (pathOf l) = false := by
    rw [Bool.eq_false_iff, ne_eq, Text.endsWith_slash_iff hpath, hsplit,
      List.getLast?_cons_of_ne_nil hne]
    exact fun hlast => hempty _ (List.mem_of_getLast? hlast) rfl
  have hproper : properSteps (pathOf l) = l := by
    rw [properSteps, hsplit, List.filter_cons_of_neg (by simp), List.filter_eq_self]
    exact fun name hname => by simpa using hempty name hname
  rw [steps, hends, hproper]
  simp

theorem mem_joinWith {c : Char} {parts : List String}
    (h : c ∈ (Text.joinWith "/" parts).toList) : c = '/' ∨ ∃ part ∈ parts, c ∈ part.toList := by
  induction parts with
  | nil => simp [Text.joinWith] at h
  | cons part parts ih =>
    cases parts with
    | nil =>
      rw [Text.joinWith, String.intercalate_singleton] at h
      exact .inr ⟨part, List.mem_cons_self, h⟩
    | cons next parts =>
      rw [Text.joinWith, String.intercalate_cons_cons] at h
      simp only [String.toList_append, List.mem_append] at h
      -- A character comes from the first piece, from the slash behind it or from what follows.
      rcases h with (h | h) | h
      · exact .inr ⟨part, List.mem_cons_self, h⟩
      · exact .inl (by simpa using h)
      · rcases ih h with h | ⟨part', hpart', h⟩
        · exact .inl h
        · exact .inr ⟨part', List.mem_cons_of_mem _ hpart', h⟩

theorem origin_pathOf (hnames : ∀ name ∈ l, isName name = true)
    (hlength : (pathOf l).utf8ByteSize ≤ maxPath) : t.origin (pathOf l) = .ok [] := by
  have hchars : (pathOf l).toList = '/' :: (Text.joinWith "/" l).toList := by
    rw [pathOf, String.toList_append]
    rfl
  have hzero : (pathOf l).toList.contains '\x00' = false := by
    rw [Bool.eq_false_iff, ne_eq, List.contains_iff_mem, hchars]
    -- Neither the slashes nor the names hold a zero.
    intro h
    rcases List.mem_cons.1 h with h | h
    · cases h
    · rcases mem_joinWith h with h | ⟨name, hname, h⟩
      · cases h
      · obtain ⟨-, -, -, -, hzero, -⟩ := isName_iff.1 (hnames name hname)
        exact hzero h
  have hne : pathOf l ≠ "" := by
    intro h
    rw [h] at hchars
    cases hchars
  have habsolute : (pathOf l).isAbsolute = true := by
    rw [Path.isAbsolute, Text.beginsWith, hchars]
    rfl
  rw [origin, hzero, if_neg Bool.false_ne_true, if_neg hne, if_neg (Nat.not_lt.2 hlength),
    habsolute, if_pos rfl]

/-- **Canonical paths** lead to the place that they are the paths of. -/
theorem find_pathOf (h : t.isWellFormed = true) (hat : t.at? l = some e)
    (hlength : (pathOf l).utf8ByteSize ≤ maxPath) : t.find (pathOf l) = .ok (l, e) := by
  have hnames := isName_of_mem h hat
  have hlocate : t.locate (pathOf l) = .ok l := by
    rw [locate, origin_pathOf hnames hlength]
    by_cases hl : l = []
    · subst hl
      -- The path of the root is a step on the spot.
      have hstep : t.walk [] ["."] = .ok [] := by
        rw [walk, follow_of_at? h hat]
        rfl
      exact hstep
    · rw [steps_pathOf hl hnames]
      exact walk_append h (l := []) hat
  -- Nothing of a well-formed tree stands behind a link, so none is followed at the end.
  have hfollow := follow_of_at? h hat
  have hfind := find_of_locate hlocate (hfollow.symm ▸ hat)
  rwa [hfollow] at hfind

/-- The canonical path is that of the place to which the path leads. -/
theorem exists_find_of_canonical {q : Path} (hq : t.canonical p = .ok q) :
    ∃ l e, t.find p = .ok (l, e) ∧ q = pathOf l ∧ (pathOf l).utf8ByteSize ≤ maxPath := by
  unfold canonical at hq
  cases hfind : t.find p with
  | error e =>
    rw [hfind] at hq
    cases hq
  | ok found =>
    obtain ⟨l, e⟩ := found
    rw [hfind] at hq
    simp only [bind, Except.bind] at hq
    split at hq
    -- A path that is too long for its name has no canonical form.
    · cases hq
    next hlength => exact ⟨l, e, rfl, (Except.ok.inj hq).symm, Nat.not_lt.1 hlength⟩

theorem find_of_canonical (h : t.isWellFormed = true) {q : Path} (hq : t.canonical p = .ok q) :
    t.find q = t.find p := by
  obtain ⟨l, e, hfind, rfl, hlength⟩ := exists_find_of_canonical hq
  rw [hfind, find_pathOf h (at?_of_find hfind).2.2 hlength]

/-- **One key, one module.** -/
theorem find_eq_of_keyOf_eq (h : t.isWellFormed = true) {p' : Path}
    (hkey : t.keyOf p = t.keyOf p') : t.find p = t.find p' := by
  unfold keyOf at hkey
  -- A path that has no canonical form is its own key, so the other one has it as canonical path.
  cases hq : t.canonical p with
  | ok q =>
    cases hq' : t.canonical p' with
    | ok q' =>
      rw [hq, hq'] at hkey
      obtain rfl : q = q' := hkey
      rw [← find_of_canonical h hq, find_of_canonical h hq']
    | error e =>
      rw [hq, hq'] at hkey
      obtain rfl : q = p' := hkey
      exact (find_of_canonical h hq).symm
  | error e =>
    cases hq' : t.canonical p' with
    | ok q' =>
      rw [hq, hq'] at hkey
      obtain rfl : p = q' := hkey
      exact find_of_canonical h hq'
    | error e' =>
      rw [hq, hq'] at hkey
      obtain rfl : p = p' := hkey
      rfl

/-! ## §3 The extension of a file -/

theorem fileName?_of_splitAt {front : List String} {name : String}
    (hsplit : Text.splitAt '/' p = front ++ [name]) (hname : name ≠ "") (hdot : name ≠ ".")
    (hdots : name ≠ "..") : p.fileName? = some name := by
  have hlast : (Path.parts p).getLast? = some (name, front.length) := by
    rw [Path.parts, hsplit, List.zipIdx_append, List.filter_append]
    simp [Path.isPart, hname, hdot]
  rw [Path.fileName?, hlast]
  simp [hdot, hdots]

theorem exists_of_walk_concat {start : Location} {front : List String} {step : String}
    (hwalk : t.walk start (front ++ [step]) = .ok l) :
    ∃ last, t.at? (t.follow last) = some .directory ∧ l = stepFrom (t.follow last) step := by
  induction front generalizing start with
  | nil =>
    rw [List.nil_append, walk] at hwalk
    split at hwalk
    · cases hwalk
    · cases hwalk
    -- The last step starts where the walk has come so far, and that is a directory.
    next hdirectory =>
      split at hwalk
      · cases hwalk
      · exact ⟨start, hdirectory, (Except.ok.inj hwalk).symm⟩
  | cons first front ih =>
    rw [List.cons_append, walk] at hwalk
    split at hwalk
    · cases hwalk
    · cases hwalk
    · split at hwalk
      · cases hwalk
      · exact ih hwalk

/-- A step that leads from a directory to a file is the name of the file. -/
theorem eq_concat_of_stepFrom (h : t.isWellFormed = true) {last : Location} {step : String}
    (hlast : t.at? last = some .directory) {contents : Bytes} {modified : Int}
    (hfile : t.at? (stepFrom last step) = some (.file contents modified)) :
    stepFrom last step = last ++ [step] ∧ step ≠ "." ∧ step ≠ ".." := by
  unfold stepFrom at hfile ⊢
  split at hfile
  -- A step on the spot would stay in the directory.
  · rw [hlast] at hfile
    cases hfile
  next hdot =>
    split at hfile
    next hdots =>
      -- Around a directory there are directories only.
      have hparent : t.at? last.dropLast = some .directory := by
        cases last using List.reverseRecOn with
        | nil => rfl
        | append_singleton parent name =>
          rw [List.dropLast_concat]
          exact (parent_of_at? h hlast).2
      rw [hparent] at hfile
      cases hfile
    next hdots => exact ⟨by rw [if_neg hdot, if_neg hdots], hdot, hdots⟩

/-- The last piece of the path of a file is the name of the file, unless it is that of a link. -/
theorem exists_splitAt_of_file (h : t.isWellFormed = true) (hlink : t.isLink (t.spot p) = false)
    {contents : Bytes} {modified : Int} (hfind : t.find p = .ok (l, .file contents modified)) :
    ∃ front parent name, Text.splitAt '/' p = front ++ [name] ∧ l = parent ++ [name]
      ∧ name ≠ "" ∧ name ≠ "." ∧ name ≠ ".." := by
  obtain ⟨hlocate, hplace, hfile⟩ := at?_of_find hfind
  obtain ⟨start, hstart, hwalk⟩ := exists_walk_of_locate hlocate
  rw [place, follow_of_not_isLink hlink] at hplace
  rw [← hplace] at hwalk
  -- The empty path leads nowhere.
  have hne : p ≠ "" := by
    rintro rfl
    cases hstart
  obtain ⟨front, name, hsplit⟩ : ∃ front name, Text.splitAt '/' p = front ++ [name] := by
    rcases List.eq_nil_or_concat (Text.splitAt '/' p) with hnil | ⟨front, name, hconcat⟩
    · exact absurd (List.map_eq_nil_iff.1 hnil) (Text.pieces_ne_nil _ _)
    · exact ⟨front, name, hconcat.trans (List.concat_eq_append ..)⟩
  by_cases hname : name = ""
  · -- After a slash at the end there is a step on the spot.
    have hends : Text.endsWith "/" p = true := by
      rw [Text.endsWith_slash_iff hne, hsplit, hname, List.getLast?_concat]
    rw [steps, hends, if_pos rfl] at hwalk
    obtain ⟨last, hlast, hl⟩ := exists_of_walk_concat hwalk
    rw [hl] at hfile
    exact absurd rfl (eq_concat_of_stepFrom h hlast hfile).2.1
  · have hends : Text.endsWith "/" p = false := by
      rw [Bool.eq_false_iff, ne_eq, Text.endsWith_slash_iff hne, hsplit, List.getLast?_concat]
      simpa using hname
    -- The name is the last step of the walk, so it is told by the place.
    have hsteps : steps p = front.filter (· ≠ "") ++ [name] := by
      rw [steps, hends, properSteps, hsplit, List.filter_append]
      simp [hname]
    rw [hsteps] at hwalk
    obtain ⟨last, hlast, rfl⟩ := exists_of_walk_concat hwalk
    obtain ⟨hconcat, hdot, hdots⟩ := eq_concat_of_stepFrom h hlast hfile
    exact ⟨front, t.follow last, name, hsplit, hconcat, hname, hdot, hdots⟩

/-- **Extensions**: a path that does not end with a link has the format of the key. -/
theorem isYaml_keyOf (h : t.isWellFormed = true) (hlink : t.isLink (t.spot p) = false)
    {contents : Bytes} (hread : t.read p = .ok contents) :
    Path.isYaml (t.keyOf p) = Path.isYaml p := by
  obtain ⟨l, modified, hfind⟩ := find_of_read hread
  obtain ⟨front, parent, name, hsplit, rfl, hname, hdot, hdots⟩ :=
    exists_splitAt_of_file h hlink hfind
  have hp := fileName?_of_splitAt hsplit hname hdot hdots
  cases hq : t.canonical p with
  | error e => rw [keyOf, hq]; rfl
  | ok q =>
    -- The canonical path ends with the name of the place as well.
    have hpath : q = pathOf (parent ++ [name]) := by
      obtain ⟨l, e, hfind', rfl, -⟩ := exists_find_of_canonical hq
      obtain ⟨rfl, -⟩ := Prod.mk.inj (Except.ok.inj (hfind'.symm.trans hfind))
      rfl
    have hnames := isName_of_mem h (at?_of_find hfind).2.2
    have hq' : q.fileName? = some name := by
      have hsplit' : Text.splitAt '/' (pathOf (parent ++ [name])) = ("" :: parent) ++ [name] :=
        splitAt_pathOf (by simp) hnames
      rw [hpath]
      exact fileName?_of_splitAt hsplit' hname hdot hdots
    have hkey : t.keyOf p = q := by
      rw [keyOf, hq]
      rfl
    rw [hkey, Path.isYaml, Path.isYaml, Path.extension?, Path.extension?, hp, hq']

end FileTree

end SchemaGraph
