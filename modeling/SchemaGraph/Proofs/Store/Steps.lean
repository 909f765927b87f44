import SchemaGraph.Proofs.Extraction.Relocation
import SchemaGraph.Proofs.Files.Trees
import SchemaGraph.Store

/-!
# The Store on a Tree

Most of what the store does reads files and changes nothing, so on a tree it has an answer that can
be written down without the tree that it leaves.  Only saving changes the tree.

- `Store.load?_apply`, `extractModule_apply`: what is read
- `Store.obtain_apply`: what obtaining a cache answers, and the tree that it leaves
- `Store.keeps_saved`: what saving changes
-/

namespace SchemaGraph

/-! ## §1 Computations on a tree -/

/-- Computations on a tree. -/
abbrev OnTree := StateM FileTree

namespace OnTree

variable {α β : Type} {t t' : FileTree}

theorem bind_apply (x : OnTree α) (f : α → OnTree β) (t : FileTree) :
    (x >>= f) t = f (x t).1 (x t).2 := rfl

theorem map_apply (x : OnTree α) (f : α → β) (t : FileTree) :
    (f <$> x) t = (f (x t).1, (x t).2) := rfl

theorem pure_apply (a : α) (t : FileTree) : (pure a : OnTree α) t = (a, t) := rfl

theorem discard_apply (x : OnTree α) (y : OnTree β) (t : FileTree) :
    (do discard x; y) t = y (x t).2 := rfl

/-- A task goes on where a part of it succeeded. -/
theorem task_bind_ok {x : Task OnTree α} {f : α → Task OnTree β} {a : α} (h : x t = (.ok a, t')) :
    (x >>= f) t = f a t' := by
  show ExceptT.bindCont f (x t).1 (x t).2 = _
  rw [h]
  rfl

theorem task_bind_error {x : Task OnTree α} {f : α → Task OnTree β} {e : Failure}
    (h : x t = (.error e, t')) : (x >>= f) t = (.error e, t') := by
  show ExceptT.bindCont f (x t).1 (x t).2 = _
  rw [h]
  rfl

theorem ofIo_ok {run : Task OnTree (Except IoError α)} {a : α} (h : run t = (.ok (.ok a), t')) :
    (Task.ofIo run) t = (.ok a, t') := by
  rw [Task.ofIo, task_bind_ok h]
  rfl

theorem ofIo_error {run : Task OnTree (Except IoError α)} {e : IoError}
    (h : run t = (.ok (.error e), t')) : (Task.ofIo run) t = (.error (.io e), t') := by
  rw [Task.ofIo, task_bind_ok h]
  rfl

theorem eq_of_ofIo_ok {run : Task OnTree (Except IoError α)} {a : α}
    (h : (Task.ofIo run) t = (.ok a, t')) : run t = (.ok (.ok a), t') := by
  rcases hrun : run t with ⟨e | e | b, t''⟩
  · rw [Task.ofIo, task_bind_error hrun] at h
    cases h
  · rw [ofIo_error hrun] at h
    cases h
  · rw [ofIo_ok hrun] at h
    cases h
    rfl

/-- What is done with the answer does not change the tree. -/
theorem task_map_snd (x : Task OnTree α) (f : α → β) (t : FileTree) :
    ((do let a ← x; return f a : Task OnTree β) t).2 = (x t).2 := by
  rcases hx : x t with ⟨e | a, t'⟩
  · rw [task_bind_error hx]
  · rw [task_bind_ok hx]
    rfl

theorem ofIo_snd (run : Task OnTree (Except IoError α)) (t : FileTree) :
    ((Task.ofIo run) t).2 = (run t).2 := by
  rcases hrun : run t with ⟨e | e | a, t'⟩
  · rw [Task.ofIo, task_bind_error hrun]
  · rw [ofIo_error hrun]
  · rw [ofIo_ok hrun]

end OnTree

open OnTree

/-! ## §2 Reading -/

namespace FileTree

variable {t : FileTree} {p : Path} {l : Location} {contents : Bytes} {modified : Int} {e : IoError}

theorem read_of_directory (h : t.find p = .ok (l, .directory)) :
    t.read p = .error .isADirectory := by
  simp [read, h, bind, Except.bind, throw, throwThe, MonadExceptOf.throw]

theorem read_of_error (h : t.find p = .error e) : t.read p = .error e := by
  simp [read, h, bind, Except.bind]

theorem stat_of_file (h : t.find p = .ok (l, .file contents modified)) :
    t.stat p = .ok ⟨true, contents.length, modified⟩ := by
  simp [stat, h, bind, Except.bind, pure, Except.pure]

theorem stat_of_directory (h : t.find p = .ok (l, .directory)) : t.stat p = .ok ⟨false, 0, 0⟩ := by
  simp [stat, h, bind, Except.bind, pure, Except.pure]

theorem stat_of_error (h : t.find p = .error e) : t.stat p = .error e := by
  simp [stat, h, bind, Except.bind]

/-- What a module at the path is known by: where the path leads, links followed. -/
def keyOf (t : FileTree) (p : Path) : String := (t.canonical p).toOption.getD p

/-- The fingerprint of a module file, if it can be read. -/
def fingerprint? (t : FileTree) (p : Path) : Option Fingerprint :=
  match t.find p with
  | .ok (_, .file contents modified) =>
    some ⟨t.keyOf p, contents.length, max modified 0, Sha256.hexDigest contents⟩
  | _ => none

/-- Where a path leads tells what can be read there. -/
theorem read_congr {t' : FileTree} (h : t'.find p = t.find p) : t'.read p = t.read p := by
  rw [read, read, h]

theorem keyOf_congr {t' : FileTree} (h : t'.find p = t.find p) : t'.keyOf p = t.keyOf p := by
  rw [keyOf, keyOf, canonical, canonical, h]

theorem fingerprint?_congr {t' : FileTree} (h : t'.find p = t.find p) :
    t'.fingerprint? p = t.fingerprint? p := by
  rw [fingerprint?, fingerprint?, keyOf_congr h, h]

end FileTree

/-- What extraction makes of the contents of a module file in one of the two formats. -/
def extractContents? (isYaml : Bool) (c : Conventions) (contents : Bytes) : Option Cache :=
  if c.missingName?.isSome then none
  else (contents.text?.bind (ModuleManifest.ofText? isYaml)).bind fun manifest =>
    ((Module.ofManifest "" manifest).extract c).toOption

namespace FileTree

/-- The cache of a module, if it can be read and extracted; the path tells the format. -/
def extract? (t : FileTree) (p : Path) (c : Conventions) : Option Cache :=
  (t.read p).toOption.bind (extractContents? (Path.isYaml p) c)

theorem extract?_congr {t t' : FileTree} {p : Path} (h : t'.find p = t.find p) (c : Conventions) :
    t'.extract? p c = t.extract? p c := by
  rw [extract?, extract?, read_congr h]

end FileTree

theorem canonicalOrSelf_apply (p : Path) (t : FileTree) :
    (FileSystem.canonicalOrSelf p : OnTree _) t = (t.keyOf p, t) := by
  have hcanonical : (FileSystem.canonical p : OnTree _) t = (t.canonical p, t) := rfl
  rw [FileSystem.canonicalOrSelf, bind_apply, hcanonical, FileTree.keyOf]
  cases t.canonical p <;> rfl

theorem task_canonicalOrSelf_apply (p : Path) (t : FileTree) :
    (FileSystem.canonicalOrSelf p : Task OnTree _) t = (.ok (t.keyOf p), t) := by
  have hcanonical : (FileSystem.canonical p : Task OnTree _) t = (.ok (t.canonical p), t) := rfl
  rw [FileSystem.canonicalOrSelf, task_bind_ok hcanonical, FileTree.keyOf]
  cases t.canonical p <;> rfl

theorem ofFile_apply (p : Path) (t : FileTree) :
    ∃ answer, (Fingerprint.ofFile p : Task OnTree _) t = (answer, t)
      ∧ answer.toOption = t.fingerprint? p := by
  unfold Fingerprint.ofFile FileTree.fingerprint?
  cases hfind : t.find p with
  | error e =>
    have hstat : (FileSystem.stat p : Task OnTree _) t = (.ok (.error e), t) := by
      rw [← FileTree.stat_of_error hfind]
      rfl
    exact ⟨_, task_bind_error (ofIo_error hstat), rfl⟩
  | ok found =>
    rcases found with ⟨l, _ | ⟨contents, modified⟩⟩
    -- A directory has a fingerprint no more than a missing file: it cannot be read.
    · have hstat : (FileSystem.stat p : Task OnTree _) t = (.ok (.ok ⟨false, 0, 0⟩), t) := by
        rw [← FileTree.stat_of_directory hfind]
        rfl
      have hread : (FileSystem.read p : Task OnTree _) t = (.ok (.error .isADirectory), t) := by
        rw [← FileTree.read_of_directory hfind]
        rfl
      rw [task_bind_ok (ofIo_ok hstat)]
      exact ⟨_, task_bind_error (ofIo_error hread), rfl⟩
    -- The file is asked for its size and time, then for its contents, then for its key.
    · have hstat : (FileSystem.stat p : Task OnTree _) t =
          (.ok (.ok ⟨true, contents.length, modified⟩), t) := by
        rw [← FileTree.stat_of_file hfind]
        rfl
      have hread : (FileSystem.read p : Task OnTree _) t = (.ok (.ok contents), t) := by
        rw [← FileTree.read_of_file hfind]
        rfl
      rw [task_bind_ok (ofIo_ok hstat), task_bind_ok (ofIo_ok hread),
        task_bind_ok (task_canonicalOrSelf_apply p t)]
      exact ⟨_, rfl, rfl⟩

/-! ## §3 Extraction -/

theorem isFile_apply (p : Path) (t : FileTree) :
    (FileSystem.isFile p : Task OnTree _) t =
      (.ok (match t.stat p with
        | .ok stat => stat.isFile
        | .error _ => false), t) := by
  have hrun : (FileSystem.isFile p : Task OnTree _) t =
      (match t.stat p with
      | .ok stat => pure stat.isFile
      | .error _ => pure false : Task OnTree _) t := rfl
  rw [hrun]
  cases t.stat p <;> rfl

/-- Loading a module reads its file. -/
theorem load_apply (p : Path) (t : FileTree) :
    ∃ answer, (Module.load p : Task OnTree _) t = (answer, t)
      ∧ answer.toOption = (t.read p).toOption.bind fun contents =>
          (contents.text?.bind (ModuleManifest.ofText? (Path.isYaml p))).map (.ofManifest p) := by
  unfold Module.load
  rw [task_bind_ok (isFile_apply p t)]
  cases hfind : t.find p with
  | error e =>
    rw [FileTree.stat_of_error hfind, FileTree.read_of_error hfind]
    exact ⟨_, rfl, rfl⟩
  | ok found =>
    rcases found with ⟨l, _ | ⟨contents, modified⟩⟩
    · rw [FileTree.stat_of_directory hfind, FileTree.read_of_directory hfind]
      exact ⟨_, rfl, rfl⟩
    -- What is in the file is decoded and read as a manifest, in the format that the path tells.
    · have hread : (FileSystem.read p : Task OnTree _) t = (.ok (.ok contents), t) := by
        rw [← FileTree.read_of_file hfind]
        rfl
      rw [FileTree.stat_of_file hfind, FileTree.read_of_file hfind]
      simp only [Bool.not_true, Bool.false_eq_true, if_false]
      rw [task_bind_ok hread]
      simp only [Except.toOption, Option.bind_some]
      cases contents.text? with
      | none => exact ⟨_, rfl, rfl⟩
      | some text =>
        simp only [Option.bind_some]
        cases ModuleManifest.ofText? (Path.isYaml p) text with
        | none => exact ⟨_, rfl, rfl⟩
        | some manifest => exact ⟨_, rfl, rfl⟩

/-- **Extracting a module** reads its file and changes nothing. -/
theorem extractModule_apply (p : Path) (c : Conventions) (t : FileTree) :
    ∃ answer, (extractModule p c : Task OnTree _) t = (answer, t)
      ∧ answer.toOption = t.extract? p c := by
  obtain ⟨loaded, hload, hloaded⟩ := load_apply p t
  unfold extractModule FileTree.extract?
  cases hmissing : c.missingName? with
  -- Without the names that it needs, nothing is extracted, whatever is in the file.
  | some missing =>
    refine ⟨_, rfl, ?_⟩
    cases (t.read p).toOption <;> simp [extractContents?, hmissing, Except.toOption]
  | none =>
    simp only
    cases loaded with
    | error e =>
      refine ⟨_, task_bind_error hload, ?_⟩
      -- The module did not load, so there is nothing to extract.
      cases hread : (t.read p).toOption with
      | none => rfl
      | some contents =>
        rw [hread, Option.bind_some] at hloaded
        have hnone := Option.map_eq_none_iff.1 hloaded.symm
        simp [extractContents?, hmissing, hnone, Except.toOption]
    | ok m =>
      rw [task_bind_ok hload]
      obtain ⟨contents, hread, hm⟩ := Option.bind_eq_some_iff.1 hloaded.symm
      obtain ⟨manifest, hmanifest, rfl⟩ := Option.map_eq_some_iff.1 hm
      -- What can be read is extracted, and the path has no part in that.
      have hextract : (t.read p).toOption.bind (extractContents? (Path.isYaml p) c) =
          ((Module.ofManifest p manifest).extract c).toOption := by
        simp [hread, extractContents?, hmissing, hmanifest, Module.extract_ofManifest p ""]
      rw [hextract]
      cases (Module.ofManifest p manifest).extract c with
      | error e => exact ⟨_, rfl, rfl⟩
      | ok cache => exact ⟨_, rfl, rfl⟩

/-! ## §4 Persisted caches -/

namespace Store

/-- The persisted cache that a file holds. -/
def documentAt? (t : FileTree) (p : Path) : Option PersistedCache :=
  (t.read p).toOption.bind PersistedCache.ofBytes?

/-- The usable persisted cache of a module, if there is one. -/
def persisted? (s : Store) (t : FileTree) (f : Fingerprint) (c : Conventions) : Option Cache :=
  (documentAt? t (s.pathFor f.path)).bind fun p => if isUsable f c p then some p.cache else none

theorem loadDocument_apply (p : Path) (t : FileTree) :
    ∃ answer, (PersistedCache.load p : Task OnTree _) t = (answer, t)
      ∧ answer.toOption = documentAt? t p := by
  have hread : (FileSystem.read p : Task OnTree _) t = (.ok (t.read p), t) := rfl
  unfold PersistedCache.load documentAt?
  rw [task_bind_ok hread]
  cases t.read p with
  | error e =>
    -- A directory counts as a corrupt document, any other fault is passed on; neither is one.
    by_cases he : e = .isADirectory
    · subst he
      exact ⟨.error (.corruptCache p), rfl, rfl⟩
    · refine ⟨.error (.io e), ?_, rfl⟩
      cases e <;> first | exact absurd rfl he | rfl
  | ok contents =>
    simp only [Except.toOption, Option.bind_some]
    cases PersistedCache.ofBytes? contents with
    | none => exact ⟨_, rfl, rfl⟩
    | some document => exact ⟨_, rfl, rfl⟩

/-- **Looking up** a persisted cache reads its file and changes nothing. -/
theorem load?_apply (s : Store) (f : Fingerprint) (c : Conventions) (t : FileTree) :
    (s.load? f c : OnTree _) t = (s.persisted? t f c, t) := by
  obtain ⟨answer, hload, hanswer⟩ := loadDocument_apply (s.pathFor f.path) t
  have hrun : ((PersistedCache.load (s.pathFor f.path)).run : OnTree _) t = (answer, t) := hload
  unfold load? persisted?
  rw [← hanswer, bind_apply, hrun]
  cases answer with
  | error e => rfl
  | ok p => rfl

/-- The tree after persisting a cache, if that is possible. -/
def saved (s : Store) (t : FileTree) (f : Fingerprint) (c : Conventions) (cache : Cache) :
    FileTree :=
  ((s.save f c cache : Task OnTree _) t).2

/-- **Obtaining a cache**: what is answered, and the tree that is left. -/
theorem obtain_apply (s : Store) (p : Path) (c : Conventions) (force : Bool) (t : FileTree) :
    (s.obtain p c force : OnTree _) t =
      match t.fingerprint? p with
      | none => ((.empty, .degraded), t)
      | some f =>
        match if force then none else s.persisted? t f c with
        | some cache => ((cache, .hit), t)
        | none =>
          match t.extract? p c with
          | none => ((.empty, .degraded), t)
          | some cache => ((cache, .extracted), s.saved t f c cache) := by
  obtain ⟨fingerprint, hfingerprint, hf⟩ := ofFile_apply p t
  obtain ⟨extracted, hextracted, hcache⟩ := extractModule_apply p c t
  -- Both actions leave the tree alone, so the three branches differ in the last step only.
  have hrun : ((Fingerprint.ofFile p).run : OnTree _) t = (fingerprint, t) := hfingerprint
  have hrun' : ((extractModule p c).run : OnTree _) t = (extracted, t) := hextracted
  unfold obtain
  rw [bind_apply, hrun, ← hf, ← hcache]
  cases fingerprint with
  | error e => rfl
  | ok f =>
    -- Only a miss makes the store extract the module.
    have hmiss : (s.extract p c f : OnTree _) t =
        match extracted.toOption with
        | none => ((.empty, .degraded), t)
        | some cache => ((cache, .extracted), s.saved t f c cache) := by
      unfold extract
      rw [bind_apply, hrun']
      cases extracted with
      | error e => rfl
      | ok cache =>
        simp only [discard_apply, pure_apply, Except.toOption, saved]
        rfl
    simp only [Except.toOption]
    cases force with
    | true =>
      simp only [if_true, bind_apply, pure_apply]
      exact hmiss
    | false =>
      simp only [Bool.false_eq_true, if_false, bind_apply, load?_apply]
      cases s.persisted? t f c with
      | some cache => rfl
      | none => exact hmiss

section

variable {s : Store} {t : FileTree} {p : Path} {f : Fingerprint} {c : Conventions} {cache : Cache}

/-- A persisted cache is hit. -/
theorem obtain_of_persisted? (hf : t.fingerprint? p = some f)
    (hcache : s.persisted? t f c = some cache) :
    (s.obtain p c false : OnTree _) t = ((cache, .hit), t) := by
  rw [obtain_apply, hf]
  simp only [Bool.false_eq_true, if_false, hcache]

theorem unheeded_eq_none {force : Bool} (h : force = true ∨ s.persisted? t f c = none) :
    (if force then none else s.persisted? t f c) = none := by
  rcases h with rfl | h
  · rw [if_pos rfl]
  · rw [h, ite_self]

/-- Without a persisted cache, or without heeding it, the module is extracted. -/
theorem obtain_of_extract? {force : Bool} (hf : t.fingerprint? p = some f)
    (hmiss : force = true ∨ s.persisted? t f c = none) (hcache : t.extract? p c = some cache) :
    (s.obtain p c force : OnTree _) t = ((cache, .extracted), s.saved t f c cache) := by
  rw [obtain_apply, hf]
  simp only [unheeded_eq_none hmiss, hcache]

/-- A module that cannot be extracted is degraded, unless a persisted cache is heeded. -/
theorem obtain_of_extract?_eq_none {force : Bool} (hf : t.fingerprint? p = some f)
    (hmiss : force = true ∨ s.persisted? t f c = none) (hcache : t.extract? p c = none) :
    (s.obtain p c force : OnTree _) t = ((.empty, .degraded), t) := by
  rw [obtain_apply, hf]
  simp only [unheeded_eq_none hmiss, hcache]

end

end Store

/-! ## §5 Saving -/

namespace FileTree

theorem write_apply (p : Path) (contents : Bytes) (t : FileTree) :
    (FileSystem.write p contents : Task OnTree _) t =
      match t.write p contents with
      | .error e => (.ok (.error e), t)
      | .ok t' => (.ok (.ok ()), t') := by
  have hrun : (FileSystem.write p contents : Task OnTree _) t =
      (.ok (change (·.write p contents) t).1, (change (·.write p contents) t).2) := rfl
  rw [hrun, change]
  cases t.write p contents <;> rfl

/-- The tree in which the directory around a path is there. -/
def withDirectory (t : FileTree) (p : Path) : Except IoError FileTree :=
  match p.parent? with
  | none => .ok t
  | some directory => makeDirectories (directory.length + 1) t directory

/-- **Writing with the directory**: the directory comes first, and it stays if writing fails. -/
theorem writeWithDirectory_apply (p : Path) (contents : Bytes) (t : FileTree) :
    (FileSystem.writeWithDirectory p contents : Task OnTree _) t =
      match t.withDirectory p with
      | .error e => (.ok (.error e), t)
      | .ok t' =>
        match t'.write p contents with
        | .error e => (.ok (.error e), t')
        | .ok t'' => (.ok (.ok ()), t'') := by
  unfold FileSystem.writeWithDirectory withDirectory
  -- Without a parent there is no directory to make.
  cases p.parent? with
  | none => exact write_apply p contents t
  | some directory =>
    simp only
    -- The directories are made first, and their tree stays if writing fails.
    let make := fun t => makeDirectories (directory.length + 1) t directory
    have hrun : (FileSystem.createDirectories directory : Task OnTree _) t =
        (.ok (change make t).1, (change make t).2) := rfl
    cases hmade : makeDirectories (directory.length + 1) t directory with
    | error e =>
      rw [change, show make t = .error e from hmade] at hrun
      rw [task_bind_ok hrun]
      rfl
    | ok t' =>
      rw [change, show make t = .ok t' from hmade] at hrun
      rw [task_bind_ok hrun]
      exact write_apply p contents t'

namespace Keeps

variable {new : Location → Bytes → Prop} {t t' : FileTree} {p : Path}

theorem withDirectory (h : t.withDirectory p = .ok t') : Keeps new t t' := by
  unfold FileTree.withDirectory at h
  cases hparent : p.parent? with
  | none =>
    rw [hparent] at h
    obtain rfl := Except.ok.inj h
    exact refl t
  | some directory =>
    rw [hparent] at h
    exact makeDirectories h

theorem writeWithDirectory (p : Path) {contents : Bytes} (t : FileTree)
    (hnew : new (t.place p) contents) :
    Keeps new t ((FileSystem.writeWithDirectory p contents : Task OnTree _) t).2 := by
  rw [writeWithDirectory_apply]
  cases hmade : t.withDirectory p with
  | error e => exact refl t
  | ok t' =>
    have hkeeps : Keeps new t t' := withDirectory hmade
    simp only
    cases hwrite : t'.write p contents with
    | error e => exact hkeeps
    | ok t'' => exact hkeeps.trans (write hwrite (by rwa [hkeeps.place_eq]))

end Keeps

/-- A file that was written with its directory is read as it was written. -/
theorem read_of_writeWithDirectory {p : Path} {contents : Bytes} {t t' : FileTree}
    (h : (FileSystem.writeWithDirectory p contents : Task OnTree _) t = (.ok (.ok ()), t')) :
    t'.read p = .ok contents := by
  -- Writing comes last, so it does not matter which directories were made before.
  rw [writeWithDirectory_apply] at h
  cases hmade : t.withDirectory p with
  | error e =>
    rw [hmade] at h
    cases h
  | ok made =>
    rw [hmade] at h
    simp only at h
    cases hwrite : made.write p contents with
    | error e =>
      rw [hwrite] at h
      cases h
    | ok t'' =>
      rw [hwrite] at h
      obtain rfl : t'' = t' := congrArg Prod.snd h
      exact read_of_write hwrite

end FileTree

namespace Store

/-- The place of the document of a module. -/
def placeFor (s : Store) (t : FileTree) (key : String) : Location :=
  t.place (s.pathFor key)

/-- Saving a cache writes the document of the module. -/
theorem saved_eq (s : Store) (t : FileTree) (f : Fingerprint) (c : Conventions) (cache : Cache) :
    s.saved t f c cache = ((FileSystem.writeWithDirectory (s.pathFor f.path)
      (PersistedCache.ofCache f c cache t.timestamp).toBytes : Task OnTree _) t).2 := by
  have hnow : (FileSystem.now : Task OnTree String) t = (.ok t.timestamp, t) := rfl
  unfold saved save
  rw [task_bind_ok hnow, task_map_snd]
  unfold PersistedCache.save
  rw [ofIo_snd]

/-- **Saving a cache** changes nothing but the document of the module. -/
theorem keeps_saved (s : Store) (t : FileTree) (f : Fingerprint) (c : Conventions) (cache : Cache) :
    FileTree.Keeps (fun l contents => l = s.placeFor t f.path
        ∧ contents = (PersistedCache.ofCache f c cache t.timestamp).toBytes) t
      (s.saved t f c cache) := by
  rw [saved_eq]
  exact FileTree.Keeps.writeWithDirectory (s.pathFor f.path) t ⟨rfl, rfl⟩

end Store

end SchemaGraph
