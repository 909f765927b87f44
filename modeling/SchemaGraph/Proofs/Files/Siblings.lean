import SchemaGraph.Proofs.Files.Canonical

/-!
# Files Side by Side

The files of one directory are told apart by their names: the path of each is the path of the
directory with a name at its end, and so is the place that it names.  Writing one of them makes the
directory if it is not there, and does not get in the way of writing another one.

- `FileTree.exists_spot_join`, `Path.exists_parent?_join`: where a file in a directory is
- `FileTree.writable_iff`: when a file can be written, whatever its contents are
- `FileTree.Writable.write_sibling`: a file can still be written after its sibling
-/

namespace SchemaGraph

open OnTree

/-! ## §1 Paths of files in a directory -/

namespace Path

/-- A name that stands for a file in its directory. -/
structure IsPlain (name : String) : Prop where
  nonempty : name ≠ ""
  dot : name ≠ "."
  dots : name ≠ ".."
  slash : '/' ∉ name.toList

variable {name name' : String}

theorem IsPlain.splitAt (h : IsPlain name) : Text.splitAt '/' name = [name] := by
  rw [Text.splitAt, Text.pieces_of_notMem h.slash]
  simp

theorem isAbsolute_iff {p : Path} : p.isAbsolute = true ↔ ∃ rest, p.toList = '/' :: rest := by
  have hchars : ("/" : String).toList = ['/'] := rfl
  simp only [isAbsolute, Text.beginsWith, hchars, List.isPrefixOf_iff_prefix]
  exact exists_congr fun rest => eq_comm

theorem IsPlain.isAbsolute (h : IsPlain name) : isAbsolute name = false := by
  rw [Bool.eq_false_iff, ne_eq, isAbsolute_iff]
  rintro ⟨rest, hrest⟩
  exact h.slash (hrest ▸ List.mem_cons_self)

theorem isAbsolute_append {p : Path} (hne : p ≠ "") (rest : String) :
    isAbsolute (p ++ rest) = isAbsolute p := by
  have hiff : isAbsolute (p ++ rest) = true ↔ isAbsolute p = true := by
    rw [isAbsolute_iff, isAbsolute_iff, String.toList_append]
    cases hchars : p.toList with
    | nil => exact absurd (by simpa using hchars) hne
    | cons c cs => simp
  exact Bool.eq_iff_iff.2 hiff

/-- The path of a file is that of its directory, cut into pieces, with the name at the end. -/
theorem exists_splitAt_join (directory : Path) :
    ∃ front, ∀ name, IsPlain name →
      Text.splitAt '/' (join directory name) = front ++ [name]
        ∧ isAbsolute (join directory name) = isAbsolute directory := by
  have hslash : ("/" : String).toList = ['/'] := rfl
  by_cases hempty : directory = ""
  -- Below the current directory the path is the name alone.
  · refine ⟨[], fun name h => ?_⟩
    rw [join, if_pos (.inr hempty), h.splitAt, h.isAbsolute, hempty]
    exact ⟨rfl, rfl⟩
  by_cases hends : Text.endsWith "/" directory = true
  · -- The slash at the end of the directory stands in front of the name.
    obtain ⟨cs, hcs⟩ : ∃ cs, directory.toList = cs ++ ['/'] := by
      rw [Text.endsWith, hslash, List.isSuffixOf_iff_suffix] at hends
      obtain ⟨cs, hcs⟩ := hends
      exact ⟨cs, hcs.symm⟩
    refine ⟨(Text.pieces '/' cs).map String.ofList, fun name h => ?_⟩
    have hjoin : join directory name = directory ++ name := by
      rw [join, if_neg (by simp [h.isAbsolute, hempty]), if_pos hends]
    rw [hjoin, isAbsolute_append hempty, Text.splitAt, String.toList_append, hcs,
      List.append_assoc, List.singleton_append, Text.pieces_append_sep, List.map_append,
      Text.pieces_of_notMem h.slash]
    simp
  -- Otherwise a slash is put between the two.
  · refine ⟨Text.splitAt '/' directory, fun name h => ?_⟩
    have hjoin : join directory name = directory ++ "/" ++ name := by
      rw [join, if_neg (by simp [h.isAbsolute, hempty]), if_neg hends]
    rw [hjoin, String.append_assoc, isAbsolute_append hempty, Text.splitAt, String.toList_append,
      String.toList_append, hslash, List.singleton_append, Text.pieces_append_sep, List.map_append,
      Text.pieces_of_notMem h.slash]
    simp [Text.splitAt]

/-- Files of one directory have one parent. -/
theorem exists_parent?_join (directory : Path) :
    ∃ parent, ∀ name, IsPlain name → (join directory name).parent? = parent := by
  obtain ⟨front, hfront⟩ := exists_splitAt_join directory
  let before := front.zipIdx.filter fun part => isPart part.2 part.1
  -- The name is the last part, so the parent is told by the parts before it.
  have hparts : ∀ name, IsPlain name →
      (parts (join directory name)).reverse = (name, front.length) :: before.reverse := by
    intro name h
    rw [parts, (hfront name h).1, List.zipIdx_append, List.filter_append]
    simp [isPart, h.nonempty, h.dot, before]
  cases hbefore : before.reverse with
  | nil =>
    refine ⟨some (if isAbsolute directory then "/" else ""), fun name h => ?_⟩
    rw [parent?, hparts name h, hbefore, (hfront name h).2]
  | cons part rest =>
    -- The parent is what the path of the directory is cut to, which leaves the name out.
    obtain ⟨piece, position⟩ := part
    refine ⟨some (Text.joinWith "/" (front.take (position + 1))), fun name h => ?_⟩
    have hpart : (piece, position) ∈ front.zipIdx := by
      have hmem : (piece, position) ∈ before.reverse := hbefore ▸ List.mem_cons_self
      exact (List.mem_filter.1 (List.mem_reverse.1 hmem)).1
    have hlt : position < 0 + front.length := (List.mem_zipIdx hpart).2.1
    rw [parent?, hparts name h, hbefore]
    simp only
    rw [(hfront name h).1, List.take_append_of_le_length (by omega)]

end Path

namespace FileTree

variable {t t' : FileTree} {p : Path} {l : Location} {name : String}

/-- The path of a file does not end with a slash. -/
theorem endsWith_slash_join (directory : Path) (h : Path.IsPlain name) :
    Text.endsWith "/" (Path.join directory name) = false := by
  obtain ⟨front, hfront⟩ := Path.exists_splitAt_join directory
  have hsplit := (hfront name h).1
  have hne : Path.join directory name ≠ "" := by
    intro hempty
    rw [hempty] at hsplit
    -- An empty path has one piece, and this is no name.
    have hlast : (Text.splitAt '/' "").getLast? = some name := by
      rw [hsplit, List.getLast?_concat]
    exact h.nonempty (Option.some.inj hlast).symm
  rw [Bool.eq_false_iff, ne_eq, Text.endsWith_slash_iff hne, hsplit, List.getLast?_concat]
  exact fun hname => h.nonempty (Option.some.inj hname)

/-- The path of a file names the place of its directory with the name at the end. -/
theorem exists_spot_join (t : FileTree) (directory : Path) :
    ∃ parent, ∀ name, Path.IsPlain name →
      t.spot (Path.join directory name) = parent ++ [name] := by
  obtain ⟨front, hfront⟩ := Path.exists_splitAt_join directory
  let parent := (front.filter (· ≠ "")).foldl (fun l step => stepFrom (t.follow l) step)
    (if directory.isAbsolute then [] else t.home)
  refine ⟨t.follow parent, fun name h => ?_⟩
  -- The walk to the file is the walk to its directory, and then one more step.
  have hsteps : steps (Path.join directory name) = front.filter (· ≠ "") ++ [name] := by
    rw [steps, endsWith_slash_join directory h, properSteps, (hfront name h).1, List.filter_append]
    simp [h.nonempty]
  rw [spot, hsteps, (hfront name h).2, List.foldl_append, List.foldl_cons, List.foldl_nil,
    stepFrom, if_neg h.dot, if_neg h.dots]

/-! ## §2 Making a directory once -/

theorem find_of_makeDirectory (h : t.makeDirectory p = .ok t') :
    ∃ l, t'.find p = .ok (l, .directory) := by
  have hkeeps : Keeps (fun _ _ => False) t t' := .makeDirectory h
  obtain ⟨l, hl, hlink, -, rfl⟩ := exists_put_of_makeDirectory h
  have hat : (t.put l .directory).at? (t.follow l) = some .directory := by
    rw [follow_of_not_isLink hlink, at?_put, if_pos rfl, ite_self]
  exact ⟨t.follow l, find_of_locate (hkeeps.locate hl) hat⟩

theorem find_of_ensureDirectory (h : t.ensureDirectory p = .ok t') :
    ∃ l, t'.find p = .ok (l, .directory) := by
  rcases makeDirectory_or_find_of_ensureDirectory h with hmake | ⟨rfl, hfind⟩
  · exact find_of_makeDirectory hmake
  · exact hfind

/-- Where directories were made, there is a directory. -/
theorem find_of_makeDirectories {fuel : Nat} (h : makeDirectories fuel t p = .ok t') :
    p = "" ∨ ∃ l, t'.find p = .ok (l, .directory) := by
  cases fuel with
  | zero => cases h
  | succ fuel =>
    rcases ensureDirectory_of_makeDirectories h with ⟨hempty, -⟩ | ⟨t₁, -, hensure⟩
    · exact .inl hempty
    · exact .inr (find_of_ensureDirectory hensure)

/-- Nothing is made where there is a directory. -/
theorem makeDirectories_of_find (h : t.find p = .ok (l, .directory)) (fuel : Nat) :
    makeDirectories (fuel + 1) t p = .ok t := by
  obtain ⟨hlocate, rfl, hat⟩ := at?_of_find h
  have hmake : t.makeDirectory p = .error .alreadyExists := by
    rw [makeDirectory, hlocate]
    simp only [bind, Except.bind]
    -- What is in the way is the directory itself, or the link that leads to it.
    cases hlink : t.isLink (t.spot p) with
    | true => rfl
    | false =>
      rw [place, follow_of_not_isLink hlink] at hat
      simp only [hat]
      rfl
  have hensure : t.ensureDirectory p = .ok t := by
    rw [ensureDirectory, hmake]
    simp only [isDirectory, h, if_true]
  rw [makeDirectories, hensure]
  simp

/-- The directory around a path is made once, as long as nothing takes the place of a directory. -/
theorem withDirectory_again {new : Location → Bytes → Prop} {t₁ t₂ : FileTree}
    (hmade : t.withDirectory p = .ok t₁) (h : Keeps new t₁ t₂)
    (hnew : ∀ l contents, new l contents → t₁.at? l ≠ some .directory) :
    t₂.withDirectory p = .ok t₂ := by
  rw [withDirectory] at hmade ⊢
  cases hp : p.parent? with
  | none => rfl
  | some directory =>
    rw [hp] at hmade
    rcases find_of_makeDirectories hmade with rfl | ⟨l, hfind⟩
    · -- The empty path stands for where one is.
      rfl
    · have hfind' : t₂.find directory = .ok (l, .directory) :=
        h.find hfind fun contents hl => hnew l contents hl (at?_of_find hfind).2.2
      exact makeDirectories_of_find hfind' directory.length

/-! ## §3 Writing one file after the other -/

theorem locateFile_eq_locate (h : Text.endsWith "/" p = false) (t : FileTree) :
    t.locateFile p = t.locate p := by
  rw [locateFile, h]

/-- A file does not take the room of another one. -/
theorem HasRoom.put_file {l' : Location} (h : t.HasRoom l) (h' : t.HasRoom l') (contents : Bytes)
    (modified : Int) : (t.put l' (.file contents modified)).HasRoom l := by
  have hkeeps : Keeps (fun _ _ => True) t (t.put l' (.file contents modified)) :=
    .putFile h' trivial
  refine ⟨?_, hkeeps.directory h.around⟩
  rw [at?_put, if_neg h.ne_nil]
  split
  · exact nofun
  · exact h.free

/-- A file can be written at the path, together with its directory, whatever its contents are. -/
def Writable (t : FileTree) (p : Path) : Prop :=
  ∀ contents, ((FileSystem.writeWithDirectory p contents : Task OnTree _) t).1 = .ok (.ok ())

/-- A file that is written with its directory has room once the directory is there. -/
theorem exists_hasRoom_of_writeWithDirectory {contents : Bytes}
    (h : ((FileSystem.writeWithDirectory p contents : Task OnTree _) t).1 = .ok (.ok ())) :
    ∃ t' l, t.withDirectory p = .ok t' ∧ t'.locateFile p = .ok l ∧ t'.HasRoom (t'.follow l) := by
  rw [writeWithDirectory_apply] at h
  cases hmade : t.withDirectory p with
  | error e =>
    rw [hmade] at h
    cases h
  | ok t' =>
    rw [hmade] at h
    simp only at h
    cases hwrite : t'.write p contents with
    | error e =>
      rw [hwrite] at h
      cases h
    | ok t'' =>
      -- The write has gone through, so there was room for it.
      obtain ⟨l, hl, hroom, -⟩ := exists_hasRoom_of_write hwrite
      exact ⟨t', l, rfl, hl, hroom⟩

theorem writable_iff : t.Writable p ↔
    ∃ t' l, t.withDirectory p = .ok t' ∧ t'.locateFile p = .ok l ∧ t'.HasRoom (t'.follow l) := by
  constructor
  · intro h
    exact exists_hasRoom_of_writeWithDirectory (h [])
  · rintro ⟨t', l, hmade, hl, hroom⟩ contents
    rw [writeWithDirectory_apply, hmade]
    simp only [write_of_hasRoom hl hroom]

/-- Whether a file can be written does not depend on its contents. -/
theorem writable_of_writeWithDirectory {contents : Bytes}
    (h : ((FileSystem.writeWithDirectory p contents : Task OnTree _) t).1 = .ok (.ok ())) :
    t.Writable p := writable_iff.2 (exists_hasRoom_of_writeWithDirectory h)

/-- What a file leaves that is written with its directory. -/
theorem Writable.exists_put (h : t.Writable p) (contents : Bytes) :
    ∃ t' l, t.withDirectory p = .ok t' ∧ t'.locateFile p = .ok l ∧ t'.HasRoom (t'.follow l)
      ∧ (FileSystem.writeWithDirectory p contents : Task OnTree _) t =
          (.ok (.ok ()), t'.put (t'.follow l) (.file contents t'.seconds)) := by
  obtain ⟨t', l, hmade, hl, hroom⟩ := writable_iff.1 h
  refine ⟨t', l, hmade, hl, hroom, ?_⟩
  rw [writeWithDirectory_apply, hmade]
  simp only [write_of_hasRoom hl hroom]

/-- **Writing a file does not get in the way of its siblings**: the directory is there already,
and no other place has been taken. -/
theorem Writable.write_sibling {directory : Path} {name' : String}
    (hname : Path.IsPlain name) (hname' : Path.IsPlain name')
    (h : t.Writable (Path.join directory name)) (h' : t.Writable (Path.join directory name'))
    (contents : Bytes) :
    ((FileSystem.writeWithDirectory (Path.join directory name') contents : Task OnTree _)
      t).2.Writable (Path.join directory name) := by
  obtain ⟨t₁, l, hmade, hl, hroom⟩ := writable_iff.1 h
  obtain ⟨t₁', l', hmade', hl', hroom', hwrite⟩ := h'.exists_put contents
  obtain ⟨parent, hparent⟩ := Path.exists_parent?_join directory
  -- Both files have one directory, which is made once.
  have hsame : t₁' = t₁ := by
    rw [withDirectory, hparent name' hname', ← hparent name hname, ← withDirectory, hmade] at hmade'
    exact (Except.ok.inj hmade').symm
  subst hsame
  rw [hwrite, writable_iff]
  have hkeeps : Keeps (fun place _ => place = t₁'.follow l') t₁'
      (t₁'.put (t₁'.follow l') (.file contents t₁'.seconds)) := .putFile hroom' rfl
  -- What was written keeps the walk to the sibling and the directory around it.
  refine ⟨_, l, withDirectory_again hmade hkeeps ?_, ?_, hroom.put_file hroom' ..⟩
  · rintro place _ rfl
    exact hroom'.free
  · rw [locateFile_eq_locate (endsWith_slash_join directory hname)] at hl ⊢
    exact hkeeps.locate hl

end FileTree

end SchemaGraph
