import SchemaGraph.Proofs.Library.Loads
import SchemaGraph.Proofs.Store.Sharing

/-!
# Interleaved Workers

Add-ons can be obtained by workers that share the files of the store, in whatever order these make
their steps.  Each of them answers what extraction gives; merged in the order of the paths, that is
the library that one gets by adding the modules one after the other.

- `Library.addInterleaved_eq_addEach`: any order of the workers against none
- `Library.loaded_of_overtaking`, `Library.loaded_of_degraded`: how two modules of one document can
  fare differently
- `Library.addInterleaved_ne_addEach`: paths for which it does matter
-/

namespace SchemaGraph

open OnTree FileTree

namespace Library

/-! ## §1 Libraries that are alike -/

/-- Two libraries obtain their modules in the same way. -/
structure Akin (l l' : Library) : Prop where
  store : l.store = l'.store
  conventions : l.conventions = l'.conventions
  force : l.force = l'.force

theorem Akin.taking {l l' : Library} (h : l.Akin l') (t : FileTree) (i : Incoming) :
    (l.taking t i).Akin l' :=
  ⟨store_taking.trans h.store, conventions_taking.trans h.conventions, force_taking.trans h.force⟩

theorem Akin.addonJob {l l' : Library} (h : l.Akin l') (p : Path) :
    l.addonJob p = l'.addonJob p := by
  rw [Library.addonJob, Library.addonJob, h.conventions, h.force]

/-- Two libraries differ at most in what their inventories note about their modules. -/
structure Alike (l l' : Library) : Prop extends Akin l l' where
  cache : l.cache = l'.cache
  loaded : l.loaded = l'.loaded
  order : l.inventory.loadOrder = l'.inventory.loadOrder
  modules : ∀ key, l.inventory.modules.contains key = l'.inventory.modules.contains key

namespace Alike

variable {l l' l'' : Library} {t t' : FileTree} {i i' : Incoming}

theorem refl (l : Library) : l.Alike l := ⟨⟨rfl, rfl, rfl⟩, rfl, rfl, rfl, fun _ => rfl⟩

theorem symm (h : l.Alike l') : l'.Alike l where
  store := h.store.symm
  conventions := h.conventions.symm
  force := h.force.symm
  cache := h.cache.symm
  loaded := h.loaded.symm
  order := h.order.symm
  modules key := (h.modules key).symm

theorem trans (h : l.Alike l') (h' : l'.Alike l'') : l.Alike l'' where
  store := h.store.trans h'.store
  conventions := h.conventions.trans h'.conventions
  force := h.force.trans h'.force
  cache := h.cache.trans h'.cache
  loaded := h.loaded.trans h'.loaded
  order := h.order.trans h'.order
  modules key := (h.modules key).trans (h'.modules key)

/-- Taking in the same cache keeps libraries alike, whether it was extracted or persisted. -/
theorem taking (h : l.Alike l') (hkey : i.key = i'.key) (hcache : i.cache = i'.cache)
    (houtcome : i.outcome = .degraded ↔ i'.outcome = .degraded) :
    (l.taking t i).Alike (l'.taking t' i') where
  store := by rw [store_taking, store_taking, h.store]
  conventions := by rw [conventions_taking, conventions_taking, h.conventions]
  force := by rw [force_taking, force_taking, h.force]
  cache := by rw [cache_taking, cache_taking, h.cache, hcache]
  loaded := by simp only [loaded_taking, h.loaded, hkey, houtcome]
  order := by
    simp only [inventory_taking, Inventory.loadOrder_record, h.order, h.modules, hkey]
  modules key := by rw [inventory_taking, inventory_taking, Inventory.contains_record,
    Inventory.contains_record, h.modules, hkey]

/-- A degraded load of a module that the inventory knows changes nothing that counts. -/
theorem taking_of_degraded (hdegraded : i.outcome = .degraded) (hempty : i.cache = .empty)
    (hknown : l.inventory.modules.contains i.key = true) : (l.taking t i).Alike l where
  store := store_taking
  conventions := conventions_taking
  force := force_taking
  cache := by rw [cache_taking, hempty, Cache.merge_empty]
  loaded := by rw [loaded_taking, if_pos hdegraded]
  order := by rw [inventory_taking, Inventory.loadOrder_record, if_pos hknown]
  modules key := by
    rw [inventory_taking, Inventory.contains_record]
    by_cases hkey : i.key = key
    · subst hkey
      rw [hknown, Bool.or_true]
    · simp [hkey]

end Alike

/-! ## §2 Modules as extraction gives them -/

/-- The load of an add-on that is extracted. -/
def extraction (l : Library) (t : FileTree) (p : Path) : Incoming :=
  addon (t.keyOf p, p) <|
    match t.extract? p (l.conventions.keepingNamespace true) with
    | none => (.empty, .degraded)
    | some cache => (cache, .extracted)

/-- The library after an add-on is extracted and taken in. -/
def extracting (l : Library) (t : FileTree) (p : Path) : Library := l.taking t (l.extraction t p)

/-- The same, unless the add-on is part of the library. -/
def extractingNew (l : Library) (t : FileTree) (p : Path) : Library :=
  if t.keyOf p ∈ l.loaded then l else l.extracting t p

variable {l l' : Library} {t t' : FileTree} {p : Path} {i : Incoming}

/-- A settled answer is as good as extraction. -/
theorem Alike.extracting (h : l.Alike l') (hkey : i.key = t.keyOf p)
    (hsettles : Store.Settles t (l'.addonJob p) (i.cache, i.outcome)) :
    (l.taking t' i).Alike (l'.extracting t p) := by
  unfold Store.Settles addonJob at hsettles
  unfold Library.extracting extraction
  cases hcache : t.extract? p (l'.conventions.keepingNamespace true) with
  | none =>
    rw [hcache] at hsettles
    obtain ⟨hempty, hdegraded⟩ := Prod.mk.inj hsettles
    exact h.taking hkey hempty (by simp [addon, hdegraded])
  | some cache =>
    rw [hcache] at hsettles
    exact h.taking hkey hsettles.1 (by simp [addon, hsettles.2])

/-- One key, one extraction: paths of one key are taken for one module of one format. -/
def Agree (t : FileTree) (paths : List Path) : Prop :=
  ∀ p ∈ paths, ∀ q ∈ paths, t.keyOf p = t.keyOf q → ∀ c, t.extract? p c = t.extract? q c

theorem agree_of_setting {s : Store} {calls : List Store.Call} {paths : List Path}
    {job : Path → Store.Job} (hjob : ∀ p, (job p).module = p)
    (h : s.Setting calls (paths.map job) t) : Agree t paths := by
  intro p hp q hq hkey c
  -- Paths with one key lead to one file, so both give the same contents.
  have hread : t.read p = t.read q := by
    rw [FileTree.read, FileTree.read, find_eq_of_keyOf_eq h.wellFormed hkey]
  rw [FileTree.extract?, FileTree.extract?, ← hread]
  cases hcontents : t.read p with
  | error e => rfl
  | ok contents =>
    -- The contents are read in one format, as only that one makes a module of them.
    have hformat := h.oneFormat _ (Store.Setting.mem_calls (List.mem_map_of_mem hp)) _
      (Store.Setting.mem_calls (List.mem_map_of_mem hq))
    simp only [Store.Call.key, hjob] at hformat
    rw [hformat hkey contents hcontents (hread ▸ hcontents)]

/-- The keys that were asked for: each is loaded, or it was tried in vain by whichever path. -/
structure Tried (t : FileTree) (paths : List Path) (l : Library) (known : List String) :
    Prop where
  loaded : ∀ key ∈ l.loaded, key ∈ known
  failed : ∀ p ∈ paths, t.keyOf p ∈ known → t.keyOf p ∉ l.loaded →
    l.inventory.modules.contains (t.keyOf p) = true
      ∧ t.extract? p (l.conventions.keepingNamespace true) = none

variable {paths : List Path} {known : List String}

/-- What is loaded at first was tried. -/
theorem Tried.start (t : FileTree) (paths : List Path) (l : Library) :
    Tried t paths l l.loaded where
  loaded _ hkey := hkey
  failed _ _ hkey hnew := absurd hkey hnew

theorem Tried.congr (htried : Tried t paths l known) (h : l.Alike l') :
    Tried t paths l' known where
  loaded := h.loaded ▸ htried.loaded
  failed p hp hkey hnew := by
    rw [← h.modules, ← h.conventions]
    exact htried.failed p hp hkey (h.loaded ▸ hnew)

/-- **One more add-on** was tried. -/
theorem Tried.extracting (h : Tried t paths l known) (hagree : Agree t paths) (hp : p ∈ paths) :
    Tried t paths (l.extracting t p) (t.keyOf p :: known) := by
  have hconventions : (l.extracting t p).conventions = l.conventions := conventions_taking
  constructor
  · intro key hkey
    rw [Library.extracting, loaded_taking] at hkey
    split at hkey
    · exact List.mem_cons_of_mem _ (h.loaded key hkey)
    · rcases List.mem_cons.1 hkey with rfl | hkey
      · exact List.mem_cons_self
      · exact List.mem_cons_of_mem _ (h.loaded key hkey)
  -- A module was tried and is not loaded.  It was either tried just now or before.
  · intro q hqs hq hnew
    rw [hconventions]
    have hcontains : (l.extracting t p).inventory.modules.contains (t.keyOf q) =
        (decide (t.keyOf p = t.keyOf q) || l.inventory.modules.contains (t.keyOf q)) := by
      rw [Library.extracting, inventory_taking, Inventory.contains_record]
      rfl
    rw [hcontains]
    rw [Library.extracting, loaded_taking] at hnew
    by_cases hkey : t.keyOf p = t.keyOf q
    · -- Both paths lead to the module that has just been tried.
      refine ⟨by simp [hkey], ?_⟩
      rw [← hagree p hp q hqs hkey]
      -- A module that can be extracted is loaded now.
      cases hcache : t.extract? p (l.conventions.keepingNamespace true) with
      | none => rfl
      | some cache =>
        simp [extraction, hcache, addon, hkey] at hnew
    · -- This one was tried before, and nothing has changed for it.
      have hq' : t.keyOf q ∈ known := by
        rcases List.mem_cons.1 hq with hq | hq
        · exact absurd hq.symm hkey
        · exact hq
      have hnew' : t.keyOf q ∉ l.loaded := by
        intro hmem
        split at hnew
        · exact hnew hmem
        · exact hnew (List.mem_cons_of_mem _ hmem)
      obtain ⟨hmodules, hnone⟩ := h.failed q hqs hq' hnew'
      exact ⟨by rw [hmodules, Bool.or_true], hnone⟩

/-- **Repetitions**: it does not matter whether the add-ons are sorted out before any of them is
taken in or one by one. -/
theorem Alike.foldl_newcomers (h : l.Alike l') (htried : Tried t paths l' known)
    (hagree : Agree t paths) {rest : List Path} (hrest : ∀ p ∈ rest, p ∈ paths) :
    ((newcomers t.keyOf known rest).foldl (·.extracting t ·) l).Alike
      (rest.foldl (·.extractingNew t ·) l') := by
  -- On one side `known` says what is skipped, on the other what is loaded; `Tried` ties the two.
  induction rest generalizing l l' known with
  | nil => exact h
  | cons p rest ih =>
    obtain ⟨hp, hrest⟩ := List.forall_mem_cons.1 hrest
    rw [newcomers, List.foldl_cons, extractingNew]
    by_cases hknown : t.keyOf p ∈ known
    · rw [if_pos hknown]
      by_cases hloaded : t.keyOf p ∈ l'.loaded
      · rw [if_pos hloaded]
        exact ih h htried hrest
      · -- The module is tried once more, and once more in vain.
        rw [if_neg hloaded]
        obtain ⟨hmodules, hnone⟩ := htried.failed p hp hknown hloaded
        have hagain : (l'.extracting t p).Alike l' := by
          unfold Library.extracting extraction
          rw [hnone]
          exact taking_of_degraded rfl rfl hmodules
        exact ih (h.trans hagain.symm) (htried.congr hagain.symm) hrest
    -- A module that is new is new for both, and both take in the same.
    · have hloaded : t.keyOf p ∉ l'.loaded := fun hmem => hknown (htried.loaded _ hmem)
      rw [if_neg hknown, if_neg hloaded, List.foldl_cons]
      have hboth : (l.extracting t p).Alike (l'.extracting t p) := by
        have hextraction : l.extraction t p = l'.extraction t p := by
          rw [extraction, extraction, h.conventions]
        exact h.taking (by rw [hextraction]) (by rw [hextraction]) (by rw [hextraction])
      exact ih hboth (htried.extracting hagree hp) hrest

/-! ## §3 Add-ons on trees where caches are saved -/

/-- The load brings what extraction gives for the add-on at the path. -/
def Brings (l : Library) (t : FileTree) (p : Path) (i : Incoming) : Prop :=
  i.key = t.keyOf p ∧ Store.Settles t (l.addonJob p) (i.cache, i.outcome)

theorem Akin.extracting (h : l.Akin l') (t : FileTree) (p : Path) :
    (l.extracting t p).Akin l' :=
  h.taking t _

theorem Akin.extractingNew (h : l.Akin l') (t : FileTree) (p : Path) :
    (l.extractingNew t p).Akin l' := by
  unfold Library.extractingNew
  split
  · exact h
  · exact h.extracting t p

/-- The answers of the workers are merged as if each module were extracted. -/
theorem Alike.takingAll {start : Library} (h : l.Alike l') (hakin : l'.Akin start)
    {paths : List Path} {incoming : List Incoming}
    (hbrings : List.Forall₂ (start.Brings t) paths incoming) :
    (l.takingAll t' incoming).Alike (paths.foldl (·.extracting t ·) l') := by
  induction hbrings generalizing l l' with
  | nil => exact h
  | @cons p i paths incoming hi _ ih =>
    have hfirst : (l.taking t' i).Alike (l'.extracting t p) :=
      h.extracting hi.1 (hakin.addonJob p ▸ hi.2)
    exact ih hfirst (hakin.extracting t p)

theorem brings_addons {paths : List Path} {answers : List (Cache × Outcome)}
    (h : List.Forall₂ (Store.Settles t) (paths.map l.addonJob) answers) :
    List.Forall₂ (l.Brings t) paths
      (List.zipWith addon (paths.map fun p => (t.keyOf p, p)) answers) := by
  rw [List.forall₂_map_left_iff] at h
  induction h with
  | nil => exact .nil
  | cons hanswer _ ih => exact .cons ⟨rfl, hanswer⟩ ih

/-- Several add-ons are taken in as the workers bring them. -/
theorem perform_addInterleaved_apply (l : Library) (schedule : List Nat) (paths : List Path)
    (t : FileTree) :
    let pending := l.pending (paths.map fun p => (t.keyOf p, p))
    let answers := (l.store.obtainAll schedule (pending.map fun k => l.addonJob k.2) : OnTree _) t
    l.perform (.addInterleaved schedule paths) t =
      (l.takingAll answers.2 (List.zipWith addon pending answers.1), answers.2) := by
  rw [perform_apply]
  simp only [loads, bind_apply, pure_apply, mapM_keyOf]

/-- A new add-on is taken in as the store gives it. -/
theorem perform_addModule_of_notMem (h : t.keyOf p ∉ l.loaded) :
    l.perform (.addModule p) t =
      (l.taking (l.obtained t p true).2 (addon (t.keyOf p, p) (l.obtained t p true).1),
        (l.obtained t p true).2) := by
  rw [perform_apply]
  simp only [loads]
  rw [loadsOf_of_notMem h]
  rfl

section

variable {start : Library} {calls : List Store.Call} {paths : List Path}

/-- **All at once**: in whatever order the workers come, the library is as if each new module were
extracted. -/
theorem perform_addInterleaved
    (h : start.store.Setting calls (paths.map start.addonJob) t) (schedule : List Nat) :
    (start.perform (.addInterleaved schedule paths) t).1.Alike
      ((newcomers t.keyOf start.loaded paths).foldl (·.extracting t ·) start) := by
  -- What is sorted out by key is sorted out by path: each key belongs to its path.
  have hpending : start.pending (paths.map fun p => (t.keyOf p, p)) =
      (newcomers t.keyOf start.loaded paths).map fun p => (t.keyOf p, p) := newcomers_map _ _ _ _
  have hpart : ∀ j ∈ (newcomers t.keyOf start.loaded paths).map start.addonJob,
      j ∈ paths.map start.addonJob := by
    intro j hj
    obtain ⟨p, hp, rfl⟩ := List.mem_map.1 hj
    exact List.mem_map_of_mem (mem_of_mem_newcomers hp)
  obtain ⟨-, hanswers⟩ := h.obtainAll schedule hpart
  rw [perform_addInterleaved_apply]
  simp only [hpending, List.map_map]
  exact (Alike.refl start).takingAll ⟨rfl, rfl, rfl⟩ (brings_addons hanswers)

/-- **One more module** on a tree where caches were saved. -/
theorem perform_addModule (hsetting : start.store.Setting calls (paths.map start.addonJob) t)
    (ht' : start.store.Saves (paths.map start.addonJob) t t') (h : l.Alike l')
    (hakin : l'.Akin start) (hp : p ∈ paths) :
    start.store.Saves (paths.map start.addonJob) t (l.perform (.addModule p) t').2
      ∧ (l.perform (.addModule p) t').1.Alike (l'.extractingNew t p) := by
  have hj : start.addonJob p ∈ paths.map start.addonJob := List.mem_map_of_mem hp
  have hfind : t'.find p = t.find p := hsetting.undisturbed t' ht' (start.addonJob p) hj
  have hkey : t'.keyOf p = t.keyOf p := keyOf_congr hfind
  -- The store of the library does the job for this path.
  have hobtained : l.obtained t' p true = ((start.addonJob p).run start.store : OnTree _) t' := by
    rw [obtained, h.store, h.conventions, h.force, hakin.store, hakin.conventions, hakin.force]
    rfl
  obtain ⟨hsaves, hsettles⟩ := hsetting.run ht' hj
  by_cases hloaded : t'.keyOf p ∈ l.loaded
  · rw [perform_apply, loads, loadsOf_of_mem hloaded, extractingNew,
      if_pos (h.loaded ▸ hkey ▸ hloaded)]
    exact ⟨ht', h⟩
  · rw [perform_addModule_of_notMem hloaded, extractingNew,
      if_neg (h.loaded ▸ hkey ▸ hloaded), hobtained]
    exact ⟨hsaves, h.extracting hkey (hakin.addonJob p ▸ hsettles)⟩

/-- **One after the other**: the library is as if each module were extracted in its turn. -/
theorem live_addModules (hsetting : start.store.Setting calls (paths.map start.addonJob) t)
    (ht' : start.store.Saves (paths.map start.addonJob) t t') (h : l.Alike l')
    (hakin : l'.Akin start) {rest : List Path} (hrest : ∀ p ∈ rest, p ∈ paths) :
    (l.live (rest.map .addModule) t').1.Alike (rest.foldl (·.extractingNew t ·) l') := by
  induction rest generalizing l l' t' with
  | nil => exact h
  | cons p rest ih =>
    obtain ⟨hsaves, halike⟩ :=
      perform_addModule hsetting ht' h hakin (hrest p List.mem_cons_self)
    exact ih hsaves halike (hakin.extractingNew t p) fun q hq => hrest q (List.mem_cons_of_mem _ hq)

/-- **Add-ons can be extracted at the same time.**  Whatever the library is, whatever the paths are
and in whatever order the workers make their steps, the library is the one that one gets by adding
the modules one after the other. -/
theorem addInterleaved_eq_addEach
    (h : start.store.Setting calls (paths.map start.addonJob) t) (schedule : List Nat) :
    let together := (start.perform (.addInterleaved schedule paths) t).1
    let each := (start.live (paths.map .addModule) t).1
    together.cache = each.cache ∧ together.loaded = each.loaded
      ∧ together.inventory.loadOrder = each.inventory.loadOrder := by
  -- Both are compared with the library that extracts, which has no files to share.
  have htogether := perform_addInterleaved h schedule
  have heach := live_addModules h .start (.refl start) ⟨rfl, rfl, rfl⟩ fun _ hp => hp
  have hnew := (Alike.refl start).foldl_newcomers (.start t paths start)
    (agree_of_setting (fun _ => rfl) h) fun _ hp => hp
  have hboth := htogether.trans (hnew.trans heach.symm)
  exact ⟨hboth.cache, hboth.loaded, hboth.order⟩

end

/-! ## §4 Documents that are replaced -/

/-- **All at once**, a worker may find a document that another one is about to replace. -/
theorem loaded_of_overtaking {q : Path} {f : Fingerprint} {cache cache' : Cache}
    (hp : t.keyOf p ∉ l.loaded) (hq : t.keyOf q ∉ l.loaded) (hne : t.keyOf q ≠ t.keyOf p)
    (hforce : l.force = false) (hf : t.fingerprint? q = some f)
    (hcache : l.store.persisted? t f (l.conventions.keepingNamespace true) = some cache)
    (hfirst : l.obtained t p true = ((cache', .extracted), t')) :
    (l.perform (.addInterleaved [1, 1] [p, q]) t).1.loaded =
      t.keyOf q :: t.keyOf p :: l.loaded := by
  -- Two new keys, so both paths get a worker.
  have hpending : l.pending [(t.keyOf p, p), (t.keyOf q, q)] =
      [(t.keyOf p, p), (t.keyOf q, q)] := by
    simp [pending, newcomers, hp, hq, hne]
  have hrun : ((l.addonJob p).run l.store : OnTree _) t = ((cache', .extracted), t') := hfirst
  have hanswers : (l.store.obtainAll [1, 1] [l.addonJob p, l.addonJob q] : OnTree _) t =
      ([(cache', .extracted), (cache, .hit)], t') := by
    rw [l.store.obtainAll_overtaking (l.addonJob p) (l.addonJob q) hforce hf hcache, hrun]
  rw [perform_addInterleaved_apply]
  simp only [List.map_cons, List.map_nil, hpending, hanswers]
  simp [takingAll, addon]

/-- **One after the other**, the document is replaced before it is looked for. -/
theorem loaded_of_degraded {q : Path} {cache cache' : Cache}
    (hp : t.keyOf p ∉ l.loaded) (hq : t.keyOf q ∉ l.loaded) (hne : t.keyOf q ≠ t.keyOf p)
    (hkey : t'.keyOf q = t.keyOf q)
    (hfirst : l.obtained t p true = ((cache', .extracted), t'))
    (hsecond : l.obtained t' q true = ((cache, .degraded), t')) :
    (l.live ([p, q].map .addModule) t).1.loaded = t.keyOf p :: l.loaded := by
  let i := addon (t.keyOf p, p) (cache', .extracted)
  have hloaded : (l.taking t' i).loaded = t.keyOf p :: l.loaded := by
    rw [loaded_taking, if_neg (by simp [i, addon])]
    rfl
  have hobtained : (l.taking t' i).obtained t' q true = ((cache, .degraded), t') := by
    rw [obtained, store_taking, conventions_taking, force_taking]
    exact hsecond
  have hnew : t'.keyOf q ∉ (l.taking t' i).loaded := by
    rw [hloaded, hkey, List.mem_cons, not_or]
    exact ⟨hne, hq⟩
  -- The second module is new for the library that has taken in the first one.
  have hrun : l.live ([p, q].map .addModule) t =
      (l.taking t' i).perform (.addModule q) t' := by
    show (do let l' ← l.perform (.addModule p); l'.perform (.addModule q) : OnTree _) t = _
    rw [bind_apply, perform_addModule_of_notMem hp, hfirst]
  rw [hrun, perform_addModule_of_notMem hnew, hobtained, loaded_taking,
    if_pos (show (addon _ (cache, .degraded)).outcome = .degraded from rfl), hloaded]

/-! ## §5 Sample libraries

Where the documents are kept next to the modules, and links lead to these. -/

/-- The library has no modules yet. -/
def newLibrary : Library where
  store := ⟨"cache"⟩
  conventions := Store.bellConventions
  force := false
  cache := .empty
  loaded := []
  inventory := .empty ""

/-- Add-ons are undisturbed where no document is kept. -/
theorem undisturbed_of_places {paths : List Path}
    (h : ∀ p ∈ paths, (t.find p).toOption.isSome = true
      ∧ ∀ q ∈ paths, t.place p ≠ l.store.placeFor t (t.keyOf q)) :
    l.store.Undisturbed (paths.map l.addonJob) t := by
  apply Store.undisturbed_of_outside
  intro j hj
  obtain ⟨p, hp, rfl⟩ := List.mem_map.1 hj
  obtain ⟨hfound, hplace⟩ := h p hp
  cases hfind : t.find p with
  | error e =>
    rw [hfind] at hfound
    cases hfound
  | ok found =>
    refine ⟨found.1, found.2, hfind, fun j' hj' => ?_⟩
    obtain ⟨q, hq, rfl⟩ := List.mem_map.1 hj'
    rw [(at?_of_find hfind).2.1]
    exact hplace q hq

/-- What is hashed for add-ons: files of the tree and the conventions of the library. -/
theorem mem_inputs_addons {calls : List Store.Call}
    (hcalls : ∀ call ∈ calls, ∃ p, call.job = l.addonJob p ∧ call.tree.find p = t.find p)
    {b : Bytes} (h : b ∈ Store.inputs calls) :
    (∃ spot modified, t.at? spot = some (.file b modified))
      ∨ b = Bytes.ofText (l.conventions.keepingNamespace true).toJson.compact := by
  obtain ⟨⟨now, job⟩, hcall, hb⟩ := h
  obtain ⟨p, hjob, hfind⟩ := hcalls _ hcall
  obtain rfl : job = l.addonJob p := hjob
  rcases List.mem_append.1 hb with hb | hb
  · -- The file is where it was on the tree.
    have hread : now.read (l.addonJob p).module = t.read p := read_congr hfind
    rw [hread] at hb
    cases hcontents : t.read p with
    | error e => simp [hcontents, Except.toOption] at hb
    | ok contents =>
      obtain ⟨modified, hat⟩ := FileTree.at?_of_read hcontents
      obtain rfl : b = contents := by simpa [hcontents, Except.toOption] using hb
      exact .inl ⟨_, modified, hat⟩
  -- Besides the contents of files only the document of the conventions is hashed.
  · exact .inr (List.mem_singleton.1 hb)

/-- The calls that the workers for some add-ons make. -/
theorem exists_addonJob {paths : List Path} {call : Store.Call}
    (h : call ∈ (paths.map l.addonJob).map (⟨t, ·⟩ : Store.Job → Store.Call)) :
    ∃ p ∈ paths, call = ⟨t, l.addonJob p⟩ := by
  rw [List.map_map] at h
  obtain ⟨p, hp, rfl⟩ := List.mem_map.1 h
  exact ⟨p, hp, rfl⟩

/-- Add-ons are read in one format where no path ends like YAML. -/
theorem oneFormat_addons {paths : List Path} (h : ∀ p ∈ paths, Path.isYaml p = false) :
    Store.OneFormat ((paths.map l.addonJob).map (⟨t, ·⟩)) := by
  refine Store.oneFormat_of_not_isYaml fun call hcall => ?_
  obtain ⟨p, hp, rfl⟩ := exists_addonJob hcall
  exact h p hp

/-- A directory with a module, a file that is none, and a link to the module. -/
def linkedTree : FileTree :=
  { (((FileTree.empty ["modules"]).put ["modules", "A.json"] (.file [0x62] 0)).put
      ["modules", "Bell.json"] (.file Store.bellBytes 0)) with
    links := [(["modules", "Alias.json"], ["modules", "Bell.json"])] }

theorem linkedTree_files {l : Location} {contents : Bytes} {modified : Int}
    (h : linkedTree.at? l = some (.file contents modified)) :
    contents = [0x62] ∨ contents = Store.bellBytes := by
  -- The tree holds two files; everything else on it is a directory or a link.
  have hput : linkedTree.at? l =
      (((FileTree.empty ["modules"]).put ["modules", "A.json"] (.file [0x62] 0)).put
        ["modules", "Bell.json"] (.file Store.bellBytes 0)).at? l := rfl
  rw [hput, FileTree.at?_put, FileTree.at?_put] at h
  split_ifs at h with hroot hbell ha
  · cases h
  · cases h
    exact .inr rfl
  · cases h
    exact .inl rfl
  · exact absurd h (FileTree.at?_empty_ne_file _ _ _ _)

theorem madeBy_linkedTree (s : Store) : s.MadeBy [] linkedTree := by
  have hnone : PersistedCache.ofBytes? [0x62] = none := by decide
  intro key contents modified d hat hd
  rcases linkedTree_files hat with rfl | rfl
  · rw [hnone] at hd
    cases hd
  · rw [Store.ofBytes?_bellBytes] at hd
    cases hd

theorem isWellFormed_linkedTree : linkedTree.isWellFormed = true := by decide

theorem injOn_linkedTree (paths : List Path) :
    Set.InjOn Sha256.hexDigest
      (Store.inputs ([] ++ (paths.map newLibrary.addonJob).map (⟨linkedTree, ·⟩))) := by
  refine Store.injOn_bellInputs.mono ?_
  intro b hb
  have hcalls : ∀ call ∈ [] ++ (paths.map newLibrary.addonJob).map
      (⟨linkedTree, ·⟩ : Store.Job → Store.Call),
      ∃ p, call.job = newLibrary.addonJob p ∧ call.tree.find p = linkedTree.find p := by
    intro call hcall
    obtain ⟨p, -, rfl⟩ := exists_addonJob hcall
    exact ⟨p, rfl, rfl⟩
  rcases mem_inputs_addons hcalls hb with ⟨spot, modified, hat⟩ | rfl
  · rcases linkedTree_files hat with rfl | rfl <;> simp [Store.bellInputs]
  · simp [Store.bellInputs, newLibrary]

/-- **The link is a repetition** of the module, as is the path that takes a way round. -/
theorem addInterleaved_eq_addEach_linked :
    let paths : List Path :=
      ["Bell.json", "A.json", "Alias.json", "../modules/Bell.json", "A.json"]
    let together := (newLibrary.perform (.addInterleaved [1, 0, 0, 1, 0] paths) linkedTree).1
    let each := (newLibrary.live (paths.map .addModule) linkedTree).1
    newLibrary.store.Setting [] (paths.map newLibrary.addonJob) linkedTree
      ∧ together.cache = each.cache ∧ together.loaded = each.loaded
      ∧ together.inventory.loadOrder = each.inventory.loadOrder := by
  intro paths
  have hpaths : ∀ p ∈ paths, (linkedTree.find p).toOption.isSome = true
      ∧ Path.isYaml p = false
      ∧ ∀ q ∈ paths, linkedTree.place p ≠
          newLibrary.store.placeFor linkedTree (linkedTree.keyOf q) := by
    decide
  -- No path ends like YAML, so the contents are read in one format.
  have hformat : Store.OneFormat ([] ++ (paths.map newLibrary.addonJob).map (⟨linkedTree, ·⟩)) :=
    oneFormat_addons fun p hp => (hpaths p hp).2.1
  have hquiet : newLibrary.store.Undisturbed (paths.map newLibrary.addonJob) linkedTree :=
    undisturbed_of_places fun p hp => ⟨(hpaths p hp).1, (hpaths p hp).2.2⟩
  have hsetting : newLibrary.store.Setting [] (paths.map newLibrary.addonJob) linkedTree :=
    ⟨madeBy_linkedTree _, isWellFormed_linkedTree, hformat, injOn_linkedTree _, hquiet⟩
  exact ⟨hsetting, addInterleaved_eq_addEach hsetting _⟩

theorem loadOrder_detour :
    let paths : List Path := ["Bell.json", "cache/../A.json"]
    let together := newLibrary.perform (.addInterleaved [] paths) linkedTree
    let each := newLibrary.live (paths.map .addModule) linkedTree
    (∀ p ∈ (["/modules/A.json", "/modules/Bell.json"] : List Path),
        together.2.read p = linkedTree.read p ∧ each.2.read p = linkedTree.read p)
      ∧ together.1.inventory.loadOrder = ["/modules/Bell.json", "cache/../A.json"]
      ∧ each.1.inventory.loadOrder = ["/modules/Bell.json", "/modules/A.json"] := by
  decide +kernel

/-- What is a module in YAML only, a link to it with the other extension, and another module whose
document has the same name. -/
def bilingualTree : FileTree :=
  { (((FileTree.empty ["modules"]).put ["modules", "Addon.yaml"] (.file [0x7b, 0x78, 0x7d] 0)).put
      ["modules", "new"] .directory).put ["modules", "new", "Addon.json"]
        (.file [0x7b, 0x7d] 0) with
    links := [(["modules", "Addon.json"], ["modules", "Addon.yaml"])] }

theorem bilingualTree_files {l : Location} {contents : Bytes} {modified : Int}
    (h : bilingualTree.at? l = some (.file contents modified)) :
    contents = [0x7b, 0x78, 0x7d] ∨ contents = [0x7b, 0x7d] := by
  -- The link is beside the files, so it does not matter here.
  have hput : bilingualTree.at? l =
      ((((FileTree.empty ["modules"]).put ["modules", "Addon.yaml"]
        (.file [0x7b, 0x78, 0x7d] 0)).put ["modules", "new"] .directory).put
          ["modules", "new", "Addon.json"] (.file [0x7b, 0x7d] 0)).at? l := rfl
  rw [hput, FileTree.at?_put, FileTree.at?_put, FileTree.at?_put] at h
  split_ifs at h with hroot hother hdirectory haddon
  · cases h
  · cases h
    exact .inr rfl
  · cases h
  · cases h
    exact .inl rfl
  · exact absurd h (FileTree.at?_empty_ne_file _ _ _ _)

theorem madeBy_bilingualTree (s : Store) : s.MadeBy [] bilingualTree := by
  have hnone : PersistedCache.ofBytes? [0x7b, 0x78, 0x7d] = none
      ∧ PersistedCache.ofBytes? [0x7b, 0x7d] = none := by decide
  intro key contents modified d hat hd
  rcases bilingualTree_files hat with rfl | rfl
  · rw [hnone.1] at hd
    cases hd
  · rw [hnone.2] at hd
    cases hd

/-- The conventions by which the library extracts add-ons. -/
def addonConventions : Conventions := newLibrary.conventions.keepingNamespace true

/-- On the trees to come the files of the modules are those of this tree, so nothing else is
hashed. -/
theorem injOn_bilingual {calls : List Store.Call}
    (hcalls : ∀ call ∈ calls, ∃ p, call.job = newLibrary.addonJob p
      ∧ call.tree.find p = bilingualTree.find p) :
    Set.InjOn Sha256.hexDigest (Store.inputs calls) := by
  refine Store.injOn_bellInputs.mono ?_
  intro b hb
  rcases mem_inputs_addons hcalls hb with ⟨spot, modified, hat⟩ | rfl
  · rcases bilingualTree_files hat with rfl | rfl <;> simp [Store.bellInputs]
  · simp [Store.bellInputs, newLibrary]

theorem injOn_bilingualTree (paths : List Path) :
    Set.InjOn Sha256.hexDigest
      (Store.inputs ([] ++ (paths.map newLibrary.addonJob).map (⟨bilingualTree, ·⟩))) := by
  refine injOn_bilingual fun call hcall => ?_
  obtain ⟨p, -, rfl⟩ := exists_addonJob hcall
  exact ⟨p, rfl, rfl⟩

theorem isWellFormed_bilingualTree : bilingualTree.isWellFormed = true := by decide

theorem loaded_bilingual :
    let paths : List Path := ["Addon.json", "Addon.yaml"]
    let together := newLibrary.perform (.addInterleaved [] paths) bilingualTree
    let each := newLibrary.live (paths.map .addModule) bilingualTree
    together.1.loaded = [] ∧ each.1.loaded = ["/modules/Addon.yaml"] := by
  decide +kernel

/-- The fingerprint of the module in YAML. -/
def bilingualFingerprint : Fingerprint :=
  ⟨"/modules/Addon.yaml", 3, 0, Sha256.hexDigest [0x7b, 0x78, 0x7d]⟩

/-- The fingerprint of the other module. -/
def namesakeFingerprint : Fingerprint :=
  ⟨"/modules/new/Addon.json", 2, 0, Sha256.hexDigest [0x7b, 0x7d]⟩

/-- The tree after the module was extracted by its path in YAML. -/
def bilingualStored : FileTree :=
  newLibrary.store.saved bilingualTree bilingualFingerprint addonConventions .empty

/-- The tree after the other module was extracted as well. -/
def bilingualReplaced : FileTree :=
  newLibrary.store.saved bilingualStored namesakeFingerprint addonConventions .empty

theorem extract?_bilingualTree :
    bilingualTree.extract? "Addon.yaml" addonConventions = some .empty
      ∧ bilingualTree.extract? "new/Addon.json" addonConventions = some .empty
      ∧ bilingualTree.extract? "Addon.json" addonConventions = none := by
  decide +kernel

theorem fingerprint?_bilingualTree :
    bilingualTree.fingerprint? "Addon.yaml" = some bilingualFingerprint
      ∧ bilingualTree.fingerprint? "Addon.json" = some bilingualFingerprint
      ∧ bilingualTree.fingerprint? "new/Addon.json" = some namesakeFingerprint := by
  have hkeys : bilingualTree.keyOf "Addon.yaml" = bilingualFingerprint.path
      ∧ bilingualTree.keyOf "Addon.json" = bilingualFingerprint.path
      ∧ bilingualTree.keyOf "new/Addon.json" = namesakeFingerprint.path := by decide
  have hfind : bilingualTree.find "Addon.yaml" =
      .ok (["modules", "Addon.yaml"], .file [0x7b, 0x78, 0x7d] 0) := rfl
  -- The link leads to the same file.
  have hlink : bilingualTree.find "Addon.json" =
      .ok (["modules", "Addon.yaml"], .file [0x7b, 0x78, 0x7d] 0) := rfl
  have hfind' : bilingualTree.find "new/Addon.json" =
      .ok (["modules", "new", "Addon.json"], .file [0x7b, 0x7d] 0) := rfl
  refine ⟨?_, ?_, ?_⟩
  · rw [Store.fingerprint?_of_find hfind, hkeys.1]
    rfl
  · rw [Store.fingerprint?_of_find hlink, hkeys.2.1]
    rfl
  · rw [Store.fingerprint?_of_find hfind', hkeys.2.2]
    rfl

/-- The paths of the modules. -/
def bilingualPaths : List Path := ["Addon.yaml", "Addon.json", "new/Addon.json"]

/-- The documents are not written over the modules. -/
theorem undisturbed_bilingualTree :
    newLibrary.store.Undisturbed (bilingualPaths.map newLibrary.addonJob) bilingualTree := by
  apply undisturbed_of_places
  decide

theorem saves_bilingualStored :
    newLibrary.store.Saves (bilingualPaths.map newLibrary.addonJob) bilingualTree
      bilingualStored := by
  have hj : newLibrary.addonJob "Addon.yaml" ∈ bilingualPaths.map newLibrary.addonJob :=
    List.mem_map_of_mem (by simp [bilingualPaths])
  exact .save .start hj fingerprint?_bilingualTree.1 extract?_bilingualTree.1

theorem saves_bilingualReplaced :
    newLibrary.store.Saves (bilingualPaths.map newLibrary.addonJob) bilingualTree
      bilingualReplaced := by
  have hj : newLibrary.addonJob "new/Addon.json" ∈ bilingualPaths.map newLibrary.addonJob :=
    List.mem_map_of_mem (by simp [bilingualPaths])
  exact .save saves_bilingualStored hj fingerprint?_bilingualTree.2.2 extract?_bilingualTree.2.1

theorem undisturbed_bilingual {paths : List Path} {t : FileTree}
    (ht : newLibrary.store.Saves (bilingualPaths.map newLibrary.addonJob) bilingualTree t)
    (hsub : paths ⊆ bilingualPaths) :
    newLibrary.store.Undisturbed (paths.map newLibrary.addonJob) t := by
  refine undisturbed_bilingualTree.of_saves ht fun j hj => ?_
  obtain ⟨p, hp, rfl⟩ := List.mem_map.1 hj
  exact List.mem_map_of_mem (hsub hp)

theorem find_bilingualStored {p : Path} (hp : p ∈ bilingualPaths) :
    bilingualStored.find p = bilingualTree.find p :=
  undisturbed_bilingualTree _ saves_bilingualStored (newLibrary.addonJob p)
    (List.mem_map_of_mem hp)

theorem find_bilingualReplaced {p : Path} (hp : p ∈ bilingualPaths) :
    bilingualReplaced.find p = bilingualTree.find p :=
  undisturbed_bilingualTree _ saves_bilingualReplaced (newLibrary.addonJob p)
    (List.mem_map_of_mem hp)

/-- One document serves both modules, so it is for the one that was extracted last. -/
theorem persisted?_bilingual :
    newLibrary.store.persisted? bilingualStored bilingualFingerprint addonConventions = some .empty
      ∧ newLibrary.store.persisted? bilingualStored namesakeFingerprint addonConventions = none
      ∧ newLibrary.store.persisted? bilingualReplaced bilingualFingerprint addonConventions =
          none := by
  have hwrite : ((FileSystem.writeWithDirectory
      (newLibrary.store.pathFor bilingualFingerprint.path) [] :
      Task OnTree _) bilingualTree).1 = .ok (.ok ()) := rfl
  have hpath : newLibrary.store.pathFor namesakeFingerprint.path =
      newLibrary.store.pathFor bilingualFingerprint.path := by decide
  have hne : namesakeFingerprint ≠ bilingualFingerprint := by
    simp [namesakeFingerprint, bilingualFingerprint]
  -- There is room for the document at first, and for the other one in its place.
  have hwritable := writable_of_writeWithDirectory hwrite
  have hwritable' : bilingualStored.Writable (newLibrary.store.pathFor namesakeFingerprint.path) :=
    Store.writable_saved (hpath ▸ hwritable) hwritable addonConventions .empty
  -- Both caches are empty, so each of them is what the first extraction gives.
  obtain ⟨m, hm⟩ := FileTree.extractedFrom_extract? extract?_bilingualTree.1
  have hrange : bilingualFingerprint.InRange := ⟨by decide, by decide, by decide⟩
  have hrange' : namesakeFingerprint.InRange := ⟨by decide, by decide, by decide⟩
  have hsizes : Cache.empty.sizes.InRange := ⟨by decide, by decide⟩
  refine ⟨Store.persisted?_saved hwritable hrange hm hsizes (by decide) _, ?_, ?_⟩
  · exact Store.persisted?_saved_eq_none hwritable hrange hm hsizes hpath hne _ _
  · exact Store.persisted?_saved_eq_none hwritable' hrange' hm hsizes hpath.symm hne.symm _ _

/-- The module is extracted by its path in YAML. -/
theorem obtain_bilingualTree :
    (newLibrary.store.obtain "Addon.yaml" addonConventions false : OnTree _) bilingualTree =
      ((.empty, .extracted), bilingualStored) := by
  have hnone := (madeBy_bilingualTree newLibrary.store).persisted?_eq_none bilingualFingerprint
    addonConventions
  exact Store.obtain_of_extract? fingerprint?_bilingualTree.1 (.inr hnone)
    extract?_bilingualTree.1

/-- The other module is not persisted, so it is extracted, and its document takes the place of the
first one. -/
theorem obtain_bilingualStored :
    (newLibrary.store.obtain "new/Addon.json" addonConventions false : OnTree _) bilingualStored =
      ((.empty, .extracted), bilingualReplaced) := by
  have hfind : bilingualStored.find "new/Addon.json" = bilingualTree.find "new/Addon.json" :=
    find_bilingualStored (by simp [bilingualPaths])
  have hextract := (extract?_congr hfind addonConventions).trans extract?_bilingualTree.2.1
  exact Store.obtain_of_extract? ((fingerprint?_congr hfind).trans fingerprint?_bilingualTree.2.2)
    (.inr persisted?_bilingual.2.1) hextract

/-- By its other path the module is no module, and its document is lost. -/
theorem obtain_bilingualReplaced :
    (newLibrary.store.obtain "Addon.json" addonConventions false : OnTree _) bilingualReplaced =
      ((.empty, .degraded), bilingualReplaced) := by
  have hfind : bilingualReplaced.find "Addon.json" = bilingualTree.find "Addon.json" :=
    find_bilingualReplaced (by simp [bilingualPaths])
  have hextract := (extract?_congr hfind addonConventions).trans extract?_bilingualTree.2.2
  exact Store.obtain_of_extract?_eq_none
    ((fingerprint?_congr hfind).trans fingerprint?_bilingualTree.2.1)
    (.inr persisted?_bilingual.2.2) hextract

theorem loaded_bilingualStored :
    let paths : List Path := ["new/Addon.json", "Addon.json"]
    let together := newLibrary.perform (.addInterleaved [1, 1] paths) bilingualStored
    let each := newLibrary.live (paths.map .addModule) bilingualStored
    together.1.loaded = ["/modules/Addon.yaml", "/modules/new/Addon.json"]
      ∧ each.1.loaded = ["/modules/new/Addon.json"] := by
  have hmem : "Addon.json" ∈ bilingualPaths := by simp [bilingualPaths]
  have hmem' : "new/Addon.json" ∈ bilingualPaths := by simp [bilingualPaths]
  have hf := (fingerprint?_congr (find_bilingualStored hmem)).trans fingerprint?_bilingualTree.2.1
  have hf' := (fingerprint?_congr (find_bilingualStored hmem')).trans
    fingerprint?_bilingualTree.2.2
  have hstored : bilingualStored.keyOf "Addon.json" = "/modules/Addon.yaml" :=
    (Store.path_of_fingerprint? hf).symm
  have hnew : bilingualStored.keyOf "new/Addon.json" = "/modules/new/Addon.json" :=
    (Store.path_of_fingerprint? hf').symm
  have hreplaced : bilingualReplaced.keyOf "Addon.json" = bilingualStored.keyOf "Addon.json" :=
    keyOf_congr ((find_bilingualReplaced hmem).trans (find_bilingualStored hmem).symm)
  -- Two keys with one document: that is what the workers get into each other's way about.
  have hne : bilingualStored.keyOf "Addon.json" ≠ bilingualStored.keyOf "new/Addon.json" := by
    rw [hstored, hnew]
    decide
  have hempty : ∀ key, key ∉ newLibrary.loaded := fun _ => List.not_mem_nil
  have hforce : newLibrary.force = false := rfl
  have hcache : newLibrary.store.persisted? bilingualStored bilingualFingerprint
      (newLibrary.conventions.keepingNamespace true) = some .empty := persisted?_bilingual.1
  have hfirst : newLibrary.obtained bilingualStored "new/Addon.json" true =
      ((.empty, .extracted), bilingualReplaced) := obtain_bilingualStored
  have hsecond : newLibrary.obtained bilingualReplaced "Addon.json" true =
      ((.empty, .degraded), bilingualReplaced) := obtain_bilingualReplaced
  -- The second worker has its two steps first, and the other one does all of its work after that.
  have htogether : (newLibrary.perform (.addInterleaved [1, 1] ["new/Addon.json", "Addon.json"])
      bilingualStored).1.loaded =
        [bilingualStored.keyOf "Addon.json", bilingualStored.keyOf "new/Addon.json"] :=
    loaded_of_overtaking (hempty _) (hempty _) hne hforce hf hcache hfirst
  have heach : (newLibrary.live ((["new/Addon.json", "Addon.json"] : List Path).map .addModule)
      bilingualStored).1.loaded = [bilingualStored.keyOf "new/Addon.json"] :=
    loaded_of_degraded (hempty _) (hempty _) hne hreplaced hfirst hsecond
  have hboth : [bilingualStored.keyOf "Addon.json", bilingualStored.keyOf "new/Addon.json"] =
      ["/modules/Addon.yaml", "/modules/new/Addon.json"] := by
    rw [hstored, hnew]
  exact ⟨htogether.trans hboth, heach.trans (congrArg (fun key => [key]) hnew)⟩

/-- The document is that of the call which has extracted the module by its path in YAML. -/
theorem madeBy_bilingualStored :
    newLibrary.store.MadeBy [⟨bilingualTree, newLibrary.addonJob "Addon.yaml"⟩] bilingualStored :=
  ((madeBy_bilingualTree newLibrary.store).mono nofun).saved List.mem_cons_self
    fingerprint?_bilingualTree.1 extract?_bilingualTree.1

theorem injOn_bilingualStored :
    Set.InjOn Sha256.hexDigest
      (Store.inputs ([⟨bilingualTree, newLibrary.addonJob "Addon.yaml"⟩]
        ++ ((["new/Addon.json", "Addon.json"] : List Path).map newLibrary.addonJob).map
          (⟨bilingualStored, ·⟩))) := by
  refine injOn_bilingual fun call hcall => ?_
  rcases List.mem_append.1 hcall with hcall | hcall
  · obtain rfl := List.mem_singleton.1 hcall
    exact ⟨_, rfl, rfl⟩
  -- The documents have left the modules alone.
  · obtain ⟨p, hp, rfl⟩ := exists_addonJob hcall
    have hsub : (["new/Addon.json", "Addon.json"] : List Path) ⊆ bilingualPaths := by decide
    exact ⟨p, rfl, find_bilingualStored (hsub hp)⟩

/-- **Three ways in which it does matter**, with the files of the modules left alone.

A path may lead through the directory of the documents, which is not there before one of them is
saved; all at once, the module is then known by that path, and one after the other by its key.

Two paths of one key may be taken for two formats; all at once, the second path is dropped as a
repetition of the first one, and one after the other, it is tried once the first one has failed.

A module may have been taken for another format when its document was made; all at once, it may be
hit before the document is replaced by that of another module. -/
theorem addInterleaved_ne_addEach :
    (let paths : List Path := ["Bell.json", "cache/../A.json"]
      let together := newLibrary.perform (.addInterleaved [] paths) linkedTree
      let each := newLibrary.live (paths.map .addModule) linkedTree
      newLibrary.store.MadeBy [] linkedTree ∧ linkedTree.isWellFormed = true
        ∧ Store.OneFormat ([] ++ (paths.map newLibrary.addonJob).map (⟨linkedTree, ·⟩))
        ∧ Set.InjOn Sha256.hexDigest
            (Store.inputs ([] ++ (paths.map newLibrary.addonJob).map (⟨linkedTree, ·⟩)))
        ∧ (∀ p ∈ (["/modules/A.json", "/modules/Bell.json"] : List Path),
            together.2.read p = linkedTree.read p ∧ each.2.read p = linkedTree.read p)
        ∧ together.1.inventory.loadOrder = ["/modules/Bell.json", "cache/../A.json"]
        ∧ each.1.inventory.loadOrder = ["/modules/Bell.json", "/modules/A.json"])
      ∧ (let paths : List Path := ["Addon.json", "Addon.yaml"]
        let together := newLibrary.perform (.addInterleaved [] paths) bilingualTree
        let each := newLibrary.live (paths.map .addModule) bilingualTree
        newLibrary.store.MadeBy [] bilingualTree ∧ bilingualTree.isWellFormed = true
          ∧ Set.InjOn Sha256.hexDigest
              (Store.inputs ([] ++ (paths.map newLibrary.addonJob).map (⟨bilingualTree, ·⟩)))
          ∧ newLibrary.store.Undisturbed (paths.map newLibrary.addonJob) bilingualTree
          ∧ together.1.loaded = [] ∧ each.1.loaded = ["/modules/Addon.yaml"])
      ∧ let paths : List Path := ["new/Addon.json", "Addon.json"]
        let call : Store.Call := ⟨bilingualTree, newLibrary.addonJob "Addon.yaml"⟩
        let together := newLibrary.perform (.addInterleaved [1, 1] paths) bilingualStored
        let each := newLibrary.live (paths.map .addModule) bilingualStored
        ((call.job.run newLibrary.store : OnTree _) bilingualTree).2 = bilingualStored
          ∧ newLibrary.store.MadeBy [call] bilingualStored ∧ bilingualStored.isWellFormed = true
          ∧ Store.OneFormat ((paths.map newLibrary.addonJob).map (⟨bilingualStored, ·⟩))
          ∧ Set.InjOn Sha256.hexDigest
              (Store.inputs
                ([call] ++ (paths.map newLibrary.addonJob).map (⟨bilingualStored, ·⟩)))
          ∧ newLibrary.store.Undisturbed (paths.map newLibrary.addonJob) bilingualStored
          ∧ together.1.loaded = ["/modules/Addon.yaml", "/modules/new/Addon.json"]
          ∧ each.1.loaded = ["/modules/new/Addon.json"] := by
  refine ⟨?_, ?_, ?_⟩
  -- Here all is well but that a document is saved where a path goes through.
  · have hformat : Store.OneFormat ([] ++ ((["Bell.json", "cache/../A.json"] : List Path).map
        newLibrary.addonJob).map (⟨linkedTree, ·⟩)) :=
      oneFormat_addons (by decide)
    exact ⟨madeBy_linkedTree _, isWellFormed_linkedTree, hformat, injOn_linkedTree _,
      loadOrder_detour⟩
  -- Here the listed paths are of two formats.
  · exact ⟨madeBy_bilingualTree _, isWellFormed_bilingualTree, injOn_bilingualTree _,
      undisturbed_bilingual .start (by decide), loaded_bilingual⟩
  -- Here they are of one format, but the earlier call was of the other one.
  · have hwell : bilingualStored.isWellFormed = true := by decide
    have hformat : Store.OneFormat (((["new/Addon.json", "Addon.json"] : List Path).map
        newLibrary.addonJob).map (⟨bilingualStored, ·⟩)) :=
      oneFormat_addons (by decide)
    have hstored : (((newLibrary.addonJob "Addon.yaml").run newLibrary.store : OnTree _)
        bilingualTree).2 = bilingualStored := congrArg Prod.snd obtain_bilingualTree
    exact ⟨hstored, madeBy_bilingualStored, hwell, hformat, injOn_bilingualStored,
      undisturbed_bilingual saves_bilingualStored (by decide), loaded_bilingualStored⟩

end Library

end SchemaGraph
