import SchemaGraph.Proofs.Library.Loads
import SchemaGraph.Proofs.Library.Opening
import SchemaGraph.Proofs.Store.Persistence

/-!
# Reopening a Library

A library leaves a document for each module that it extracts, and a second library hits those that
are left when it comes to their modules.  What is left of the documents is told by the whole of the
first run: a later module writes over the document of an earlier one if the two have one file name.
So the second library hits all of the modules just when each of them has a document of its own.

- `Library.hits_iff`: what the second library hits
- `Library.Stocked.loadAll`: what the first library leaves
- `Library.reopening_hits_iff`: both together
-/

namespace SchemaGraph

open OnTree FileTree

namespace Library

/-! ## §1 Loading modules in order -/

/-- A module that is loaded as the base module or as an add-on. -/
structure Load where
  path : Path
  /-- It is an add-on. -/
  namespacePrefix : Bool

/-- What happens to the library. -/
def Load.event : Load → Event
  | ⟨p, false⟩ => .loadBase p
  | ⟨p, true⟩ => .addModule p

/-- The library after it has loaded some modules in order. -/
def loadAll (l : Library) (xs : List Load) : OnTree Library := l.live (xs.map Load.event)

/-- What the inventory says about how a module was obtained. -/
def outcomeOf? (l : Library) (key : String) : Option Outcome :=
  (l.inventory.get? key).map (·.outcome)

variable {l : Library} {t : FileTree} {x : Load} {xs : List Load} {key : String}

theorem loadAll_cons (l : Library) (x : Load) (xs : List Load) (t : FileTree) :
    (l.loadAll (x :: xs) : OnTree Library) t =
      ((l.perform x.event t).1.loadAll xs : OnTree Library) (l.perform x.event t).2 := rfl

theorem loads_event (l : Library) (x : Load) :
    l.loads x.event = l.loadsOf x.path x.namespacePrefix := by
  obtain ⟨p, _ | _⟩ := x <;> rfl

/-- A module that is part of the library is not loaded. -/
theorem perform_event_of_mem (h : t.keyOf x.path ∈ l.loaded) : l.perform x.event t = (l, t) := by
  rw [perform_apply, loads_event, loadsOf_of_mem h]
  rfl

/-- What a load brings in. -/
def incoming (l : Library) (t : FileTree) (x : Load) : Incoming where
  key := t.keyOf x.path
  path := x.path
  cache := (l.obtained t x.path x.namespacePrefix).1.1
  outcome := (l.obtained t x.path x.namespacePrefix).1.2
  namespacePrefix := x.namespacePrefix

/-- The library after a load of a module that is not part of it. -/
def loading (l : Library) (t : FileTree) (x : Load) : Library :=
  l.taking (l.obtained t x.path x.namespacePrefix).2 (l.incoming t x)

theorem perform_event_of_notMem (h : t.keyOf x.path ∉ l.loaded) :
    l.perform x.event t = (l.loading t x, (l.obtained t x.path x.namespacePrefix).2) := by
  rw [perform_apply, loads_event, loadsOf_of_notMem h]
  rfl

@[simp] theorem store_loading : (l.loading t x).store = l.store := store_taking

@[simp] theorem conventions_loading : (l.loading t x).conventions = l.conventions :=
  conventions_taking

@[simp] theorem force_loading : (l.loading t x).force = l.force := force_taking

theorem loaded_loading (h : (l.obtained t x.path x.namespacePrefix).1.2 ≠ .degraded) :
    (l.loading t x).loaded = t.keyOf x.path :: l.loaded := by
  rw [loading, loaded_taking, if_neg (show (l.incoming t x).outcome ≠ .degraded from h)]
  rfl

theorem mem_loaded_loading (h : key ∈ l.loaded) : key ∈ (l.loading t x).loaded := by
  rw [loading, loaded_taking]
  split
  · exact h
  · exact List.mem_cons_of_mem _ h

theorem outcomeOf?_loading (l : Library) (t : FileTree) (x : Load) (key : String) :
    (l.loading t x).outcomeOf? key = if t.keyOf x.path = key then
      some (l.obtained t x.path x.namespacePrefix).1.2 else l.outcomeOf? key := by
  rw [outcomeOf?, loading, inventory_taking, Inventory.get?_record]
  show Option.map _ (if t.keyOf x.path = key then _ else _) = _
  split <;> rfl

/-- **What is noted about a module stays** once it is part of the library. -/
theorem outcomeOf?_loadAll (h : key ∈ l.loaded) (xs : List Load) (t : FileTree) :
    ((l.loadAll xs : OnTree Library) t).1.outcomeOf? key = l.outcomeOf? key := by
  induction xs generalizing l t with
  | nil => rfl
  | cons x xs ih =>
    rw [loadAll_cons]
    by_cases hx : t.keyOf x.path ∈ l.loaded
    -- A module that is part of the library already is not loaded again.
    · rw [perform_event_of_mem hx]
      exact ih h t
    -- Another module is loaded, which notes something under another key only.
    · have hne : t.keyOf x.path ≠ key := by
        rintro rfl
        exact hx h
      rw [perform_event_of_notMem hx, ih (mem_loaded_loading h), outcomeOf?_loading, if_neg hne]

/-! ## §2 What is hit -/

/-- What the store has for a module. -/
def kept? (l : Library) (t : FileTree) (x : Load) : Option Cache :=
  (t.fingerprint? x.path).bind fun f =>
    l.store.persisted? t f (l.conventions.keepingNamespace x.namespacePrefix)

@[simp] theorem kept?_loading (l : Library) (t t' : FileTree) (x y : Load) :
    (l.loading t' y).kept? t x = l.kept? t x := by
  simp [kept?]

/-- The module is extracted by the conventions of the library. -/
def Extracts (l : Library) (t : FileTree) (x : Load) : Prop :=
  (t.extract? x.path (l.conventions.keepingNamespace x.namespacePrefix)).isSome

theorem obtained_of_kept {cache : Cache} (hforce : l.force = false)
    (h : l.kept? t x = some cache) :
    l.obtained t x.path x.namespacePrefix = ((cache, .hit), t) := by
  obtain ⟨f, hf, hcache⟩ := Option.bind_eq_some_iff.1 h
  rw [obtained, hforce]
  exact Store.obtain_of_persisted? hf hcache

/-- A module is extracted unless it is hit. -/
theorem obtained_of_extracts {cache : Cache} {f : Fingerprint}
    (hmiss : l.force = true ∨ l.kept? t x = none) (hf : t.fingerprint? x.path = some f)
    (hcache : t.extract? x.path (l.conventions.keepingNamespace x.namespacePrefix) = some cache) :
    l.obtained t x.path x.namespacePrefix = ((cache, .extracted),
      l.store.saved t f (l.conventions.keepingNamespace x.namespacePrefix) cache) := by
  rw [kept?, hf, Option.bind_some] at hmiss
  exact Store.obtain_of_extract? hf hmiss hcache

theorem exists_of_extracts (h : l.Extracts t x) : ∃ f cache, t.fingerprint? x.path = some f
    ∧ t.extract? x.path (l.conventions.keepingNamespace x.namespacePrefix) = some cache := by
  obtain ⟨cache, hcache⟩ := Option.isSome_iff_exists.1 h
  cases hf : t.fingerprint? x.path with
  | none =>
    rw [Store.extract?_of_fingerprint?_eq_none hf] at hcache
    cases hcache
  | some f => exact ⟨f, cache, rfl, hcache⟩

/-- **What is hit**: a library that loads modules hits all of them if the store has something for
each of them before it begins. -/
theorem hits_iff (hforce : l.force = false) (hextracts : ∀ x ∈ xs, l.Extracts t x) :
    (∀ x ∈ newcomers (fun x => t.keyOf x.path) l.loaded xs,
        ((l.loadAll xs : OnTree Library) t).1.outcomeOf? (t.keyOf x.path) = some .hit) ↔
      ∀ x ∈ newcomers (fun x => t.keyOf x.path) l.loaded xs, (l.kept? t x).isSome := by
  induction xs generalizing l with
  | nil => exact iff_of_true (List.forall_mem_nil _) (List.forall_mem_nil _)
  | cons x xs ih =>
    obtain ⟨hx, hxs⟩ := List.forall_mem_cons.1 hextracts
    rw [loadAll_cons, newcomers]
    by_cases hmem : t.keyOf x.path ∈ l.loaded
    · rw [if_pos hmem, perform_event_of_mem hmem]
      exact ih hforce hxs
    · rw [if_neg hmem, perform_event_of_notMem hmem, List.forall_mem_cons, List.forall_mem_cons]
      cases hkept : l.kept? t x with
      | none =>
        -- The module is extracted, and that is noted for good.
        obtain ⟨f, cache, hf, hcache⟩ := exists_of_extracts hx
        have houtcome : (l.obtained t x.path x.namespacePrefix).1.2 = .extracted := by
          rw [obtained_of_extracts (.inr hkept) hf hcache]
        have hloaded := loaded_loading (l := l) (t := t) (x := x) (by simp [houtcome])
        rw [outcomeOf?_loadAll (hloaded ▸ List.mem_cons_self), outcomeOf?_loading, if_pos rfl,
          houtcome]
        constructor
        · rintro ⟨hhit, -⟩
          cases hhit
        · rintro ⟨hsome, -⟩
          cases hsome
      -- Nothing is extracted or written, so the store has for the rest what it had before.
      | some cache =>
        have hobtained := obtained_of_kept hforce hkept
        have hloaded := loaded_loading (l := l) (t := t) (x := x) (by simp [hobtained])
        have hrest := ih (l := l.loading t x) (force_loading.trans hforce)
          fun y hy => by simpa [Extracts] using hxs y hy
        rw [outcomeOf?_loadAll (hloaded ▸ List.mem_cons_self), outcomeOf?_loading, if_pos rfl,
          hobtained]
        simp only [kept?_loading, hloaded] at hrest
        simp only [hrest, Option.isSome_some, true_and]

/-! ## §3 What is left -/

/-- **Loading modules** writes nothing but documents. -/
theorem keeps_loadAll (l : Library) (xs : List Load) (t : FileTree) :
    FileTree.Keeps (l.store.Writes t) t ((l.loadAll xs : OnTree Library) t).2 := by
  induction xs generalizing l t with
  | nil => exact .refl t
  | cons x xs ih =>
    rw [loadAll_cons]
    by_cases hx : t.keyOf x.path ∈ l.loaded
    -- A load that does nothing writes nothing; any other writes the document of its module at most.
    · rw [perform_event_of_mem hx]
      exact ih l t
    · rw [perform_event_of_notMem hx]
      have hfirst : FileTree.Keeps (l.store.Writes t) t
          (l.obtained t x.path x.namespacePrefix).2 := l.store.keeps_obtain ..
      have hrest := ih (l.loading t x) (l.obtained t x.path x.namespacePrefix).2
      rw [store_loading, Store.writes_eq hfirst] at hrest
      exact hfirst.trans hrest

/-- What is at no place for documents stays where it is. -/
theorem find_loadAll {p : Path} {spot : Location} {e : Entry} (hfind : t.find p = .ok (spot, e))
    (houtside : ∀ key, spot ≠ l.store.placeFor t key) (xs : List Load) :
    ((l.loadAll xs : OnTree Library) t).2.find p = t.find p := by
  have hnew : ∀ contents, ¬ l.store.Writes t spot contents := by
    intro contents hwrites
    obtain ⟨key, d, hspot, -⟩ := hwrites
    exact houtside key hspot
  rw [hfind]
  exact (l.keeps_loadAll xs t).find hfind hnew

/-- A module that can be extracted and persisted: the cache is sound, the document can be written
and is no link to another file, and the numbers in it are not larger than what they are read as. -/
structure Load.Keepable (s : Store) (c : Conventions) (t : FileTree) (x : Load) : Prop where
  extracted : ∃ cache, ((extractModule x.path (c.keepingNamespace x.namespacePrefix) :
    Task OnTree Cache) t).1 = .ok cache ∧ cache.problems = [] ∧ cache.sizes.InRange
  fingerprint : ∀ f, ((Fingerprint.ofFile x.path : Task OnTree Fingerprint) t).1 = .ok f → f.InRange
  writable : t.Writable (s.pathFor (t.keyOf x.path))
  own : s.IsOwn t (t.keyOf x.path)

namespace Load.Keepable

variable {s : Store} {c : Conventions}

theorem extract? (h : x.Keepable s c t) : ∃ cache,
    t.extract? x.path (c.keepingNamespace x.namespacePrefix) = some cache
      ∧ cache.problems = [] ∧ cache.sizes.InRange := by
  obtain ⟨cache, hcache, hsound⟩ := h.extracted
  exact ⟨cache, extractModule_eq_ok_iff.1 hcache, hsound⟩

theorem inRange (h : x.Keepable s c t) {f : Fingerprint} (hf : t.fingerprint? x.path = some f) :
    f.InRange := by
  obtain ⟨answer, hanswer, hfingerprint⟩ := ofFile_apply x.path t
  rw [hf] at hfingerprint
  cases answer with
  | error e => cases hfingerprint
  | ok f' =>
    obtain rfl := Option.some.inj hfingerprint
    exact h.fingerprint f' (by rw [hanswer])

theorem extracts {l : Library} (h : x.Keepable l.store l.conventions t) : l.Extracts t x := by
  obtain ⟨cache, hcache, -⟩ := h.extract?
  exact Option.isSome_iff_exists.2 ⟨cache, hcache⟩

end Load.Keepable

/-- The store has what the library has just extracted. -/
theorem kept?_saved {f : Fingerprint} {cache : Cache}
    (hkeepable : x.Keepable l.store l.conventions t) (hf : t.fingerprint? x.path = some f)
    (hcache : t.extract? x.path (l.conventions.keepingNamespace x.namespacePrefix) = some cache)
    {now : FileTree} (hwritable : now.Writable (l.store.pathFor (t.keyOf x.path)))
    (hfind : (l.store.saved now f (l.conventions.keepingNamespace x.namespacePrefix) cache).find
      x.path = t.find x.path) :
    (l.kept? (l.store.saved now f (l.conventions.keepingNamespace x.namespacePrefix) cache)
      x).isSome := by
  -- What was written is what the extraction gave, which is small and sound enough to be read back.
  obtain ⟨m, hm⟩ := extractedFrom_extract? hcache
  obtain ⟨cache', hcache', hsound, hsizes⟩ := hkeepable.extract?
  obtain rfl := Option.some.inj (hcache.symm.trans hcache')
  rw [← Store.path_of_fingerprint? hf] at hwritable
  rw [kept?, fingerprint?_congr hfind, hf, Option.bind_some,
    Store.persisted?_saved hwritable (hkeepable.inRange hf) hm hsizes hsound]
  rfl

/-- The store still has what it had for a module with another document. -/
theorem kept?_saved_of_ne {y : Load} {f : Fingerprint} (hkept : (l.kept? t y).isSome)
    (hne : l.store.pathFor (t.keyOf y.path) ≠ l.store.pathFor f.path)
    (hy : l.store.IsOwn t (t.keyOf y.path)) (hf : l.store.IsOwn t f.path) {c : Conventions}
    {cache : Cache} (hfind : (l.store.saved t f c cache).find y.path = t.find y.path) :
    (l.kept? (l.store.saved t f c cache) y).isSome := by
  obtain ⟨cache', hcache'⟩ := Option.isSome_iff_exists.1 hkept
  obtain ⟨g, hg, hpersisted⟩ := Option.bind_eq_some_iff.1 hcache'
  rw [← Store.path_of_fingerprint? hg] at hne hy
  rw [kept?, fingerprint?_congr hfind, hg, Option.bind_some,
    Store.persisted?_saved_of_ne hpersisted hne hy hf]
  rfl

/-- A library on its way through some modules: the store has something for those that are done. -/
structure Stocked (s : Store) (c : Conventions) (t : FileTree) (all done : List Load) (l : Library)
    (now : FileTree) : Prop where
  store : l.store = s
  conventions : l.conventions = c
  keeps : FileTree.Keeps (s.Writes t) t now
  writable : ∀ y ∈ all, now.Writable (s.pathFor (t.keyOf y.path))
  modules : ∀ y ∈ all, now.find y.path = t.find y.path
  loaded : ∀ y ∈ done, y ∈ all ∧ t.keyOf y.path ∈ l.loaded
  kept : ∀ y ∈ done, (l.kept? now y).isSome

namespace Stocked

variable {s : Store} {c : Conventions} {all done : List Load} {now : FileTree}

theorem keeps_obtained (h : Stocked s c t all done l now) (x : Load) :
    FileTree.Keeps (s.Writes t) t (l.obtained now x.path x.namespacePrefix).2 := by
  have hkeeps : FileTree.Keeps (l.store.Writes now) now
      (l.obtained now x.path x.namespacePrefix).2 := l.store.keeps_obtain ..
  rw [h.store, Store.writes_eq h.keeps] at hkeeps
  exact h.keeps.trans hkeeps

/-- The library has loaded one module more, and the store has something for it as well. -/
theorem loading (h : Stocked s c t all done l now) (hx : x ∈ all)
    (hwritable : ∀ y ∈ all, (l.obtained now x.path x.namespacePrefix).2.Writable
      (s.pathFor (t.keyOf y.path)))
    (hmodules : ∀ y ∈ all, (l.obtained now x.path x.namespacePrefix).2.find y.path =
      t.find y.path)
    (houtcome : (l.obtained now x.path x.namespacePrefix).1.2 ≠ .degraded)
    (hkept : ∀ y ∈ x :: done, (l.kept? (l.obtained now x.path x.namespacePrefix).2 y).isSome) :
    Stocked s c t all (x :: done) (l.loading now x)
      (l.obtained now x.path x.namespacePrefix).2 where
  store := store_loading.trans h.store
  conventions := conventions_loading.trans h.conventions
  keeps := h.keeps_obtained x
  writable := hwritable
  modules := hmodules
  loaded := by
    rw [loaded_loading houtcome, keyOf_congr (h.modules x hx), List.forall_mem_cons]
    exact ⟨⟨hx, List.mem_cons_self⟩, fun y hy =>
      ⟨(h.loaded y hy).1, List.mem_cons_of_mem _ (h.loaded y hy).2⟩⟩
  kept y hy := by
    rw [kept?_loading]
    exact hkept y hy

/-- **One module**: it is hit or extracted, and then the store has it.  What the store had for
other modules is left, as they have other documents. -/
theorem step (h : Stocked s c t all done l now) (hx : x ∈ all)
    (hall : ∀ x ∈ all, x.Keepable s c t)
    (hinj : Set.InjOn s.pathFor {key | ∃ y ∈ all, t.keyOf y.path = key})
    (hnew : t.keyOf x.path ∉ l.loaded)
    (hmodules : ∀ y ∈ all, (l.obtained now x.path x.namespacePrefix).2.find y.path =
      t.find y.path) :
    Stocked s c t all (x :: done) (l.loading now x) (l.obtained now x.path x.namespacePrefix).2
      ∧ (l.obtained now x.path x.namespacePrefix).1.2 ≠ .degraded := by
  have hx' := h.modules x hx
  have hkeepable := hall x hx
  obtain ⟨rfl, rfl⟩ := And.intro h.store h.conventions
  obtain ⟨f, cache, hf, hcache⟩ := exists_of_extracts hkeepable.extracts
  by_cases hhit : l.force = false ∧ (l.kept? now x).isSome
  · -- Nothing is written.
    obtain ⟨cache', hkept⟩ := Option.isSome_iff_exists.1 hhit.2
    have hobtained := obtained_of_kept hhit.1 hkept
    have houtcome : (l.obtained now x.path x.namespacePrefix).1.2 ≠ .degraded := by
      rw [hobtained]
      exact nofun
    refine ⟨h.loading hx ?_ hmodules houtcome ?_, houtcome⟩
    · rw [hobtained]
      exact h.writable
    · rw [hobtained, List.forall_mem_cons]
      exact ⟨hhit.2, h.kept⟩
  · have hmiss : l.force = true ∨ l.kept? now x = none := by
      rw [not_and_or, Bool.not_eq_false, Option.not_isSome_iff_eq_none] at hhit
      exact hhit
    have hobtained := obtained_of_extracts hmiss ((fingerprint?_congr hx').trans hf)
      ((extract?_congr hx' _).trans hcache)
    -- The module is extracted, and its document written.
    have houtcome : (l.obtained now x.path x.namespacePrefix).1.2 ≠ .degraded := by
      rw [hobtained]
      exact nofun
    refine ⟨h.loading hx ?_ hmodules houtcome ?_, houtcome⟩
    · have hwritable : now.Writable (l.store.pathFor f.path) := by
        rw [Store.path_of_fingerprint? hf]
        exact h.writable x hx
      simp only [hobtained]
      exact fun y hy => Store.writable_saved (h.writable y hy) hwritable _ _
    -- What the store had for the modules before is still there: their documents are other ones,
    -- because no two of these modules share a document.
    · simp only [hobtained] at hmodules ⊢
      rw [List.forall_mem_cons]
      refine ⟨kept?_saved hkeepable hf hcache (h.writable x hx) (hmodules x hx), fun y hy => ?_⟩
      obtain ⟨hy', hmem⟩ := h.loaded y hy
      have hy'' := h.modules y hy'
      have hyown := (hall y hy').own.keeps h.keeps
      have hxown := hkeepable.own.keeps h.keeps
      rw [← keyOf_congr hy''] at hyown
      rw [← Store.path_of_fingerprint? hf] at hxown
      refine kept?_saved_of_ne (h.kept y hy) ?_ hyown hxown ((hmodules y hy').trans hy''.symm)
      rw [keyOf_congr hy'', Store.path_of_fingerprint? hf]
      intro hsame
      have hkeys := hinj ⟨y, hy', rfl⟩ ⟨x, hx, rfl⟩ hsame
      exact hnew (hkeys ▸ hmem)

/-- **All modules**: in the end the store has something for each of them, if they are still the
same and each of them has a document of its own. -/
theorem loadAll (h : Stocked s c t all done l now) (hxs : ∀ x ∈ xs, x ∈ all)
    (hkeepable : ∀ x ∈ all, x.Keepable s c t)
    (hinj : Set.InjOn s.pathFor {key | ∃ y ∈ all, t.keyOf y.path = key})
    (hend : ∀ x ∈ all, ((l.loadAll xs : OnTree Library) now).2.find x.path = t.find x.path) :
    ∃ l' done', Stocked s c t all done' l' ((l.loadAll xs : OnTree Library) now).2
      ∧ ∀ x, x ∈ done ∨ x ∈ newcomers (fun x => t.keyOf x.path) l.loaded xs → x ∈ done' := by
  induction xs generalizing l now done with
  | nil => exact ⟨l, done, h, fun x hx => hx.resolve_right List.not_mem_nil⟩
  | cons x xs ih =>
    obtain ⟨hx, hxs⟩ := List.forall_mem_cons.1 hxs
    have hkey := keyOf_congr (h.modules x hx)
    rw [loadAll_cons, newcomers]
    -- Both runs go on from the first load, which either does nothing or is the step above.
    rw [loadAll_cons] at hend
    by_cases hmem : t.keyOf x.path ∈ l.loaded
    · rw [perform_event_of_mem (hkey ▸ hmem)] at hend ⊢
      rw [if_pos hmem]
      exact ih h hxs hend
    · rw [perform_event_of_notMem (hkey ▸ hmem)] at hend ⊢
      -- The modules are the same now, as they are in the end.
      have hmodules : ∀ y ∈ all, (l.obtained now x.path x.namespacePrefix).2.find y.path =
          t.find y.path := by
        intro y hy
        obtain ⟨cache, hcache, -⟩ := (hkeepable y hy).extract?
        have hrest := (l.loading now x).keeps_loadAll xs (l.obtained now x.path x.namespacePrefix).2
        rw [store_loading, h.store, Store.writes_eq (h.keeps_obtained x)] at hrest
        exact Store.find_of_keeps (h.keeps_obtained x) hrest (hend y hy)
          (Option.isSome_iff_exists.2 ⟨cache, hcache⟩)
      obtain ⟨hstep, houtcome⟩ := h.step hx hkeepable hinj hmem hmodules
      obtain ⟨l', done', hstocked, hdone⟩ := ih hstep hxs hend
      refine ⟨l', done', hstocked, fun y hy => hdone y ?_⟩
      rw [if_neg hmem, List.mem_cons] at hy
      rw [loaded_loading houtcome, hkey, List.mem_cons]
      tauto

end Stocked

/-! ## §4 The second library -/

/-- A library loads some modules, and later another one loads the same modules: they can all be
persisted, and what the first library has left has not changed in between. -/
structure Reopening (s : Store) (c : Conventions) (force : Bool) (xs : List Load)
    (t t' : FileTree) : Prop where
  keepable : ∀ x ∈ xs, x.Keepable s c t
  unchanged : SameFiles
    ((((create s c force : OnTree Library) t).1.loadAll xs : OnTree Library) t).2 t'
  modules : ∀ x ∈ xs, t'.find x.path = t.find x.path

/-- The second library, which uses what is persisted. -/
def reopened (s : Store) (c : Conventions) (xs : List Load) (t : FileTree) : Library :=
  ((((create s c false : OnTree Library) t).1.loadAll xs : OnTree Library) t).1

namespace Reopening

variable {s : Store} {c : Conventions} {force : Bool} {t' : FileTree}

theorem keyOf_eq (h : Reopening s c force xs t t') (hx : x ∈ xs) :
    t'.keyOf x.path = t.keyOf x.path := keyOf_congr (h.modules x hx)

/-- The second library hits all modules if the store has something for each of them. -/
theorem hits_iff_kept (h : Reopening s c force xs t t') :
    (∀ x ∈ xs, (reopened s c xs t').outcomeOf? (t.keyOf x.path) = some .hit) ↔
      ∀ x ∈ newcomers (fun x => t.keyOf x.path) [] xs,
        (((create s c false : OnTree Library) t').1.kept? t' x).isSome := by
  let l := ((create s c false : OnTree Library) t').1
  -- No module is degraded when the library is reopened, as it can still be extracted.
  have hextracts : ∀ x ∈ xs, l.Extracts t' x := by
    intro x hx
    obtain ⟨cache, hcache, -⟩ := (h.keepable x hx).extract?
    exact Option.isSome_iff_exists.2 ⟨cache, (extract?_congr (h.modules x hx) _).trans hcache⟩
  have hhits := hits_iff (l := l) rfl hextracts
  -- Both libraries tell the modules apart in the same way, as no module has moved.
  have hsame : newcomers (fun x : Load => t'.keyOf x.path) l.loaded xs =
      newcomers (fun x : Load => t.keyOf x.path) [] xs :=
    newcomers_congr_key [] fun x hx => h.keyOf_eq hx
  rw [hsame] at hhits
  rw [← hhits]
  constructor
  · intro hall x hx
    rw [h.keyOf_eq (mem_of_mem_newcomers hx)]
    exact hall x (mem_of_mem_newcomers hx)
  · intro hall x hx
    -- The library knows the module by its key, under which some module has been loaded first.
    obtain ⟨y, hy, hsame⟩ := exists_mem_newcomers (fun x : Load => t.keyOf x.path) hx
    rw [← hsame, ← h.keyOf_eq (mem_of_mem_newcomers hy)]
    exact hall y hy

/-- What is kept for a module is in its document. -/
theorem exists_document {l : Library} (hkept : (l.kept? t x).isSome) :
    ∃ d, Store.documentAt? t (l.store.pathFor (t.keyOf x.path)) = some d
      ∧ d.fingerprint.path = t.keyOf x.path := by
  obtain ⟨cache, hcache⟩ := Option.isSome_iff_exists.1 hkept
  obtain ⟨f, hf, hpersisted⟩ := Option.bind_eq_some_iff.1 hcache
  obtain ⟨d, hd, husable⟩ := Option.bind_eq_some_iff.1 hpersisted
  rw [Store.path_of_fingerprint? hf] at hd
  -- The document is used only if its fingerprint is that of the module, hence of this path.
  refine ⟨d, hd, ?_⟩
  split at husable
  next hmatches =>
    simp only [Store.isUsable, Bool.and_eq_true, decide_eq_true_eq] at hmatches
    rw [hmatches.1.1.2, Store.path_of_fingerprint? hf]
  next => cases husable

/-- If all modules are hit, each of them has a document of its own. -/
theorem injOn_of_hits (h : Reopening s c force xs t t')
    (hhits : ∀ x ∈ xs, (reopened s c xs t').outcomeOf? (t.keyOf x.path) = some .hit) :
    Set.InjOn s.pathFor {key | ∃ x ∈ xs, t.keyOf x.path = key} := by
  have hkept := h.hits_iff_kept.1 hhits
  have hdocument : ∀ key ∈ {key | ∃ x ∈ xs, t.keyOf x.path = key},
      ∃ d, Store.documentAt? t' (s.pathFor key) = some d ∧ d.fingerprint.path = key := by
    rintro key ⟨x, hx, rfl⟩
    obtain ⟨y, hy, hsame⟩ := exists_mem_newcomers (fun x : Load => t.keyOf x.path) hx
    have hd := exists_document (hkept y hy)
    rw [h.keyOf_eq (mem_of_mem_newcomers hy)] at hd
    rw [← hsame]
    exact hd
  -- A document says which module it is about, so none of them can serve two modules.
  intro key hkey key' hkey' hsame
  obtain ⟨d, hd, rfl⟩ := hdocument key hkey
  obtain ⟨d', hd', rfl⟩ := hdocument key' hkey'
  rw [hsame, hd'] at hd
  rw [Option.some.inj hd]

/-- If each of the modules has a document of its own, all of them are hit. -/
theorem hits_of_injOn (h : Reopening s c force xs t t')
    (hinj : Set.InjOn s.pathFor {key | ∃ x ∈ xs, t.keyOf x.path = key}) :
    ∀ x ∈ xs, (reopened s c xs t').outcomeOf? (t.keyOf x.path) = some .hit := by
  let l := ((create s c force : OnTree Library) t).1
  -- At the start nothing has been loaded, so there is nothing that the store should have.
  have hstart : Stocked s c t xs [] l t :=
    ⟨rfl, rfl, .refl t, fun x hx => (h.keepable x hx).writable, fun _ _ => rfl, nofun, nofun⟩
  -- The first library has left the modules as they were: only the clock and what is noted with
  -- files have changed since.
  have hend : ∀ x ∈ xs, ((l.loadAll xs : OnTree Library) t).2.find x.path = t.find x.path :=
    fun x hx => (h.unchanged.find x.path).symm.trans (h.modules x hx)
  obtain ⟨l', done, hstocked, hdone⟩ :=
    hstart.loadAll (fun _ hx => hx) h.keepable hinj hend
  refine h.hits_iff_kept.2 fun x hx => ?_
  have hkept := hstocked.kept x (hdone x (.inr hx))
  -- What is persisted is told by the files alone.
  rw [kept?, hstocked.store, hstocked.conventions] at hkept
  obtain ⟨cache, hcache⟩ := Option.isSome_iff_exists.1 hkept
  obtain ⟨f, hf, hpersisted⟩ := Option.bind_eq_some_iff.1 hcache
  -- So the second library, which begins with the files of the first one, is given the same.
  have hf' := (fingerprint?_congr (h.unchanged.find x.path)).trans hf
  have hpersisted' := (Store.persisted?_congr (s := s) (h.unchanged.find (s.pathFor f.path))
    (c.keepingNamespace x.namespacePrefix)).trans hpersisted
  exact Option.isSome_iff_exists.2 ⟨cache, Option.bind_eq_some_iff.2 ⟨f, hf', hpersisted'⟩⟩

end Reopening

/-- **Reopening a library** hits every persisted cache just when each of the modules has a document
of its own. -/
theorem reopening_hits_iff {s : Store} {c : Conventions} {force : Bool} {xs : List Load}
    {t t' : FileTree} (h : Reopening s c force xs t t') :
    (∀ x ∈ xs, (reopened s c xs t').outcomeOf? (t.keyOf x.path) = some .hit) ↔
      Set.InjOn s.pathFor {key | ∃ x ∈ xs, t.keyOf x.path = key} :=
  ⟨h.injOn_of_hits, h.hits_of_injOn⟩

/-! Two modules in directories of their own, next to the directory of the documents. -/

/-- Both modules declare the same types; their files have the given names. -/
def neighbours (name name' : String) : FileTree :=
  (((FileTree.empty ["a"]).put ["b"] .directory).put ["a", name] (.file Store.bellBytes 0)).put
    ["b", name'] (.file Store.bellBytes 0)

/-- The one is loaded as the base module, and the other as an add-on. -/
def neighbourLoads (name name' : String) : List Load :=
  [⟨"/a/" ++ name, false⟩, ⟨"/b/" ++ name', true⟩]

/-- What the first library leaves. -/
def afterNeighbours (name name' : String) : FileTree :=
  ((((create ⟨"/cache"⟩ Store.bellConventions false : OnTree Library)
    (neighbours name name')).1.loadAll (neighbourLoads name name') : OnTree Library)
      (neighbours name name')).2

/-- The second library is opened at a later time. -/
def laterNeighbours (name name' : String) : FileTree :=
  { afterNeighbours name name' with seconds := 7, timestamp := "later" }

/-- The sample module can be persisted, wherever it is. -/
theorem keepable_of_bell {s : Store} {spot : Location}
    (hfind : t.find x.path = .ok (spot, .file Store.bellBytes 0))
    (hyaml : Path.isYaml x.path = false)
    (hwrite : ((FileSystem.writeWithDirectory (s.pathFor (t.keyOf x.path)) [] :
      Task OnTree _) t).1 = .ok (.ok ()))
    (hown : s.IsOwn t (t.keyOf x.path)) : x.Keepable s Store.bellConventions t where
  -- The module is extracted to a cache that is small and sound enough for a document.
  extracted := by
    refine ⟨Store.bellCache, extractModule_eq_ok_iff.2 ?_, by decide, by decide, by decide⟩
    rw [FileTree.extract?, read_of_file hfind, hyaml, Except.toOption, Option.bind_some]
    exact Store.extractContents?_bellBytes x.namespacePrefix
  fingerprint f hok := by
    obtain ⟨answer, hanswer, hfingerprint⟩ := ofFile_apply x.path t
    rw [hanswer] at hok
    rw [show answer = .ok f from hok, FileTree.fingerprint?, hfind] at hfingerprint
    obtain rfl := Option.some.inj hfingerprint
    exact ⟨Store.length_bellBytes_le, by simp, by simp⟩
  writable := writable_of_writeWithDirectory hwrite
  own := hown

/-- A library of both is reopened, whatever the names of the files are, if the modules can be read
where they are. -/
theorem reopening_neighbours (name name' : String)
    (h : ∀ x ∈ neighbourLoads name name', Path.isYaml x.path = false
      ∧ ((FileSystem.writeWithDirectory
          ((⟨"/cache"⟩ : Store).pathFor ((neighbours name name').keyOf x.path)) [] :
          Task OnTree _) (neighbours name name')).1 = .ok (.ok ())
      ∧ ∃ spot ∈ [["a", name], ["b", name']],
          (neighbours name name').find x.path = .ok (spot, .file Store.bellBytes 0)) :
    Reopening ⟨"/cache"⟩ Store.bellConventions false (neighbourLoads name name')
      (neighbours name name') (laterNeighbours name name') := by
  have hown : ∀ key, (⟨"/cache"⟩ : Store).IsOwn (neighbours name name') key := fun _ => rfl
  -- The clock has gone on since the first library, and the modules are where they were.
  refine ⟨fun x hx => ?_, SameFiles.clock (afterNeighbours name name') 7 "later", fun x hx => ?_⟩
  · obtain ⟨hyaml, hwrite, spot, -, hfind⟩ := h x hx
    exact keepable_of_bell hfind hyaml hwrite (hown _)
  · obtain ⟨-, -, spot, hspot, hfind⟩ := h x hx
    -- The modules are not where the documents are.
    have houtside : ∀ key, spot ≠
        (⟨"/cache"⟩ : Store).placeFor (neighbours name name') key := by
      have hdocuments : ((⟨"/cache"⟩ : Store).placeFor (neighbours name name') "").dropLast =
          ["cache"] := by
        have hempty : (neighbours name name').place ((⟨"/cache"⟩ : Store).pathFor "") =
            (FileTree.empty ["a"]).place ((⟨"/cache"⟩ : Store).pathFor "") :=
          place_congr rfl rfl _
        rw [Store.placeFor, hempty]
        decide
      intro key hkey
      rw [Store.dropLast_placeFor (hown "") (hown key), ← hkey] at hdocuments
      simp only [List.mem_cons, List.not_mem_nil, or_false] at hspot
      rcases hspot with rfl | rfl <;> simp at hdocuments
    exact ((SameFiles.clock (afterNeighbours name name') 7 "later").find x.path).trans
      (find_loadAll (l := ((create ⟨"/cache"⟩ Store.bellConventions false : OnTree Library)
        (neighbours name name')).1) hfind houtside _)

/-- Modules with different names are all hit. -/
theorem reopening_hits_neighbours :
    let t := neighbours "Core.json" "Extra.json"
    let t' := laterNeighbours "Core.json" "Extra.json"
    let xs := neighbourLoads "Core.json" "Extra.json"
    Reopening ⟨"/cache"⟩ Store.bellConventions false xs t t'
      ∧ xs.map (fun x => t.keyOf x.path) = ["/a/Core.json", "/b/Extra.json"]
      ∧ ∀ x ∈ xs, (reopened ⟨"/cache"⟩ Store.bellConventions xs t').outcomeOf?
          (t.keyOf x.path) = some .hit := by
  intro t t' xs
  have hreopening : Reopening ⟨"/cache"⟩ Store.bellConventions false xs t t' :=
    reopening_neighbours _ _ (by
      simp only [neighbourLoads, List.forall_mem_cons]
      exact ⟨⟨rfl, rfl, ["a", "Core.json"], by simp, rfl⟩,
        ⟨rfl, rfl, ["b", "Extra.json"], by simp, rfl⟩, List.forall_mem_nil _⟩)
  have hkeys : xs.map (fun x => t.keyOf x.path) = ["/a/Core.json", "/b/Extra.json"] := by
    decide
  -- The names give different documents, so the condition of the theorem holds.
  refine ⟨hreopening, hkeys, (reopening_hits_iff hreopening).2 ?_⟩
  have hnodup : (["/a/Core.json", "/b/Extra.json"].map (⟨"/cache"⟩ : Store).pathFor).Nodup := by
    decide
  have hmem : ∀ key ∈ {key | ∃ x ∈ xs, t.keyOf x.path = key},
      key ∈ ["/a/Core.json", "/b/Extra.json"] := by
    rintro key ⟨x, hx, rfl⟩
    rw [← hkeys]
    exact List.mem_map_of_mem hx
  exact fun key hkey key' hkey' =>
    List.inj_on_of_nodup_map hnodup (hmem key hkey) (hmem key' hkey')

/-- Modules of one name have one document, so they are not all hit. -/
theorem not_reopening_hits_namesakes :
    let t := neighbours "Core.json" "Core.json"
    let t' := laterNeighbours "Core.json" "Core.json"
    let xs := neighbourLoads "Core.json" "Core.json"
    Reopening ⟨"/cache"⟩ Store.bellConventions false xs t t'
      ∧ xs.map (fun x => t.keyOf x.path) = ["/a/Core.json", "/b/Core.json"]
      ∧ ¬ ∀ x ∈ xs, (reopened ⟨"/cache"⟩ Store.bellConventions xs t').outcomeOf?
          (t.keyOf x.path) = some .hit := by
  intro t t' xs
  have hreopening : Reopening ⟨"/cache"⟩ Store.bellConventions false xs t t' :=
    reopening_neighbours _ _ (by
      simp only [neighbourLoads, List.forall_mem_cons]
      exact ⟨⟨rfl, rfl, ["a", "Core.json"], by simp, rfl⟩,
        ⟨rfl, rfl, ["b", "Core.json"], by simp, rfl⟩, List.forall_mem_nil _⟩)
  have hkeys : xs.map (fun x => t.keyOf x.path) = ["/a/Core.json", "/b/Core.json"] := by
    decide
  -- The two modules have one document, whatever is in it.
  refine ⟨hreopening, hkeys, fun hhits => ?_⟩
  have hmem : ∀ key ∈ ["/a/Core.json", "/b/Core.json"], ∃ x ∈ xs, t.keyOf x.path = key := by
    intro key hkey
    rw [← hkeys] at hkey
    exact List.mem_map.1 hkey
  have hsame : (⟨"/cache"⟩ : Store).pathFor "/a/Core.json" =
      (⟨"/cache"⟩ : Store).pathFor "/b/Core.json" := by
    decide +kernel
  exact absurd (hreopening.injOn_of_hits hhits (hmem _ (by simp)) (hmem _ (by simp)) hsame)
    (by decide)

end Library

end SchemaGraph
