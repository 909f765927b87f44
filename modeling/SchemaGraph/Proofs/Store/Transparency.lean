import Mathlib.Data.Set.Function
import SchemaGraph.Proofs.Library.Workers
import SchemaGraph.Proofs.Module.Decoding
import SchemaGraph.Proofs.Store.Persistence

/-!
# The Store Is Transparent

Asking the store for a cache is as good as extracting the module.  A document of the store stands
for what a call has extracted; it is used only for the same module with the same contents and by
the same conventions, and then extraction would give the same once more.  That the documents are
those of calls is the invariant of the store: it survives any change of the modules and any damage
to the documents.

- `Store.Call.Makes.same`: a usable document was made from what it is used for
- `Store.Reaches.madeBy`: the invariant
- `Store.obtain_transparent`: what a call answers
-/

namespace SchemaGraph

open OnTree FileTree

namespace Store

/-! ## §1 Calls -/

/-- The store is asked for a cache when the files are those of a tree. -/
structure Call where
  tree : FileTree
  job : Job

namespace Call

/-- What the module is known by. -/
def key (call : Call) : String := call.tree.keyOf call.job.module

/-- What extracting the module gives. -/
def extract? (call : Call) : Option Cache :=
  call.tree.extract? call.job.module call.job.conventions

theorem extract?_mk (t : FileTree) (j : Job) :
    (⟨t, j⟩ : Call).extract? = t.extract? j.module j.conventions := rfl

/-- The document is one that the call may have left. -/
def Makes (call : Call) (d : PersistedCache) : Prop :=
  ∃ f cache now, call.tree.fingerprint? call.job.module = some f ∧ call.extract? = some cache
    ∧ d = .ofCache f call.job.conventions cache now

/-- What is hashed in the call: the contents of the module and the document of the conventions. -/
def hashed (call : Call) : List Bytes :=
  (call.tree.read call.job.module).toOption.toList
    ++ [Bytes.ofText call.job.conventions.toJson.compact]

end Call

/-- Everything that is hashed in some calls. -/
def inputs (calls : List Call) : Set Bytes := {b | ∃ call ∈ calls, b ∈ call.hashed}

/-- Calls that find the same contents in the same module take them for the same format.  The format
is that of the path, and links of both formats can lead to one module. -/
def OneFormat (calls : List Call) : Prop :=
  ∀ call ∈ calls, ∀ call' ∈ calls, call.key = call'.key →
    ∀ contents, call.tree.read call.job.module = .ok contents →
      call'.tree.read call'.job.module = .ok contents →
      Path.isYaml call.job.module = Path.isYaml call'.job.module

/-- Canonical paths are the keys themselves. -/
theorem oneFormat_of_canonical {calls : List Call}
    (h : ∀ call ∈ calls, call.key = call.job.module) : OneFormat calls := by
  intro call hcall call' hcall' hkey contents _ _
  rw [← h call hcall, ← h call' hcall', hkey]

/-- Paths that do not end like YAML are all taken for one format. -/
theorem oneFormat_of_not_isYaml {calls : List Call}
    (h : ∀ call ∈ calls, Path.isYaml call.job.module = false) : OneFormat calls := by
  intro call hcall call' hcall' _ _ _ _
  rw [h call hcall, h call' hcall']

/-- **Two formats** of one module take a link: other paths have the format of the key. -/
theorem oneFormat_of_not_isLink {calls : List Call}
    (hwell : ∀ call ∈ calls, call.tree.isWellFormed = true)
    (hlink : ∀ call ∈ calls, call.tree.isLink (call.tree.spot call.job.module) = false) :
    OneFormat calls := by
  intro call hcall call' hcall' hkey contents hread hread'
  have hyaml := FileTree.isYaml_keyOf (hwell call hcall) (hlink call hcall) hread
  have hyaml' := FileTree.isYaml_keyOf (hwell call' hcall') (hlink call' hcall') hread'
  rw [← hyaml, ← hyaml']
  exact congrArg Path.isYaml hkey

theorem fingerprint?_eq_some {t : FileTree} {p : Path} {f : Fingerprint}
    (h : t.fingerprint? p = some f) :
    ∃ contents modified, t.read p = .ok contents
      ∧ f = ⟨t.keyOf p, contents.length, modified, Sha256.hexDigest contents⟩ := by
  unfold FileTree.fingerprint? at h
  split at h
  next l contents modified hfind =>
    exact ⟨contents, _, FileTree.read_of_file hfind, (Option.some.inj h).symm⟩
  next => cases h

theorem path_of_fingerprint? {t : FileTree} {p : Path} {f : Fingerprint}
    (h : t.fingerprint? p = some f) : f.path = t.keyOf p := by
  obtain ⟨contents, modified, -, rfl⟩ := fingerprint?_eq_some h
  rfl

theorem fingerprint?_of_find {t : FileTree} {p : Path} {l : Location} {contents : Bytes}
    {modified : Int} (h : t.find p = .ok (l, .file contents modified)) :
    t.fingerprint? p =
      some ⟨t.keyOf p, contents.length, max modified 0, Sha256.hexDigest contents⟩ := by
  rw [FileTree.fingerprint?, h]

theorem Call.mem_hashed_read {call : Call} {contents : Bytes}
    (h : call.tree.read call.job.module = .ok contents) : contents ∈ call.hashed := by
  simp [hashed, h, Except.toOption]

theorem Call.mem_hashed_conventions (call : Call) :
    Bytes.ofText call.job.conventions.toJson.compact ∈ call.hashed := by
  simp [hashed]

/-- **A usable document** was made from the same module with the same contents by the same
conventions. -/
theorem Call.Makes.same {call call' : Call} {calls : List Call} {d : PersistedCache}
    {f : Fingerprint} (hmakes : call.Makes d) (hcall : call ∈ calls) (hcall' : call' ∈ calls)
    (hsha : Set.InjOn Sha256.hexDigest (inputs calls))
    (hf : call'.tree.fingerprint? call'.job.module = some f)
    (husable : isUsable f call'.job.conventions d = true) :
    call.key = call'.key ∧ call.tree.read call.job.module = call'.tree.read call'.job.module
      ∧ call.job.conventions = call'.job.conventions ∧ call.extract? = some d.cache := by
  obtain ⟨f', cache, now, hf', hcache, rfl⟩ := hmakes
  obtain ⟨contents, modified, hread, rfl⟩ := fingerprint?_eq_some hf
  obtain ⟨contents', modified', hread', rfl⟩ := fingerprint?_eq_some hf'
  simp only [isUsable, PersistedCache.ofCache, Bool.and_eq_true, decide_eq_true_eq,
    Fingerprint.mk.injEq] at husable
  obtain ⟨⟨⟨-, hkey, -, -, hdigest⟩, hconventions⟩, -⟩ := husable
  -- Equal digests, so equal contents and equal documents of the conventions.
  have hcontents : contents' = contents :=
    hsha ⟨call, hcall, mem_hashed_read hread'⟩ ⟨call', hcall', mem_hashed_read hread⟩ hdigest
  have hcompact := hsha ⟨call, hcall, call.mem_hashed_conventions⟩
    ⟨call', hcall', call'.mem_hashed_conventions⟩ (of_decide_eq_true hconventions)
  have hsame := Conventions.eq_of_compact_eq (Bytes.ofText_inj hcompact)
  exact ⟨hkey, by rw [hread, hread', hcontents], hsame, hcache⟩

/-- Same module, contents and conventions: the same cache. -/
theorem OneFormat.extract?_eq {calls : List Call} (h : OneFormat calls) {call call' : Call}
    (hcall : call ∈ calls) (hcall' : call' ∈ calls) (hkey : call.key = call'.key)
    (hread : call.tree.read call.job.module = call'.tree.read call'.job.module)
    (hconventions : call.job.conventions = call'.job.conventions) :
    call.extract? = call'.extract? := by
  rw [Call.extract?, Call.extract?, FileTree.extract?, FileTree.extract?, hconventions, ← hread]
  cases hcontents : call.tree.read call.job.module with
  | error e => rfl
  | ok contents =>
    have hyaml := h call hcall call' hcall' hkey contents hcontents (hread ▸ hcontents)
    rw [hyaml]

/-! ## §2 Documents of calls -/

/-- Every document that stands where the store looks was made by one of the calls. -/
def MadeBy (s : Store) (calls : List Call) (t : FileTree) : Prop :=
  ∀ key contents modified d, t.at? (s.placeFor t key) = some (.file contents modified) →
    PersistedCache.ofBytes? contents = some d → ∃ call ∈ calls, call.Makes d

namespace MadeBy
variable {s : Store} {calls : List Call} {t : FileTree}

theorem of_documentAt? (h : s.MadeBy calls t) {key : String} {d : PersistedCache}
    (hd : documentAt? t (s.pathFor key) = some d) : ∃ call ∈ calls, call.Makes d := by
  unfold documentAt? at hd
  cases hread : t.read (s.pathFor key) with
  | error e =>
    rw [hread] at hd
    cases hd
  | ok contents =>
    rw [hread] at hd
    obtain ⟨modified, hat⟩ := FileTree.at?_of_read hread
    exact h key contents modified d hat hd

/-- Without calls there are no persisted caches. -/
theorem persisted?_eq_none (h : s.MadeBy [] t) (f : Fingerprint) (c : Conventions) :
    s.persisted? t f c = none := by
  rw [Store.persisted?, Option.bind_eq_none_iff]
  intro d hd
  obtain ⟨call, hcall, -⟩ := h.of_documentAt? hd
  cases hcall

/-- Saving a cache leaves one more document, which is that of the call. -/
theorem saved (h : s.MadeBy calls t) {call : Call} (hcall : call ∈ calls) {f : Fingerprint}
    {cache : Cache} (hf : call.tree.fingerprint? call.job.module = some f)
    (hcache : call.extract? = some cache) :
    s.MadeBy calls (s.saved t f call.job.conventions cache) := by
  have hkeeps := s.keeps_saved t f call.job.conventions cache
  intro key contents modified d hat hd
  -- What stands at a place now stood there before, or it has just been saved.
  rw [placeFor, hkeeps.place_eq] at hat
  rcases hkeeps.files _ _ _ hat with hat | ⟨-, rfl⟩
  · exact h key contents modified d hat hd
  · obtain rfl := PersistedCache.eq_of_ofBytes?_toBytes hd
    exact ⟨call, hcall, f, cache, t.timestamp, hf, hcache, rfl⟩

theorem mono {calls' : List Call} (h : s.MadeBy calls t) (hsub : ∀ call ∈ calls, call ∈ calls') :
    s.MadeBy calls' t := by
  intro key contents modified d hat hd
  obtain ⟨call, hcall, hmakes⟩ := h key contents modified d hat hd
  exact ⟨call, hsub call hcall, hmakes⟩

/-- **Persisted caches** that are usable are what extraction gives. -/
theorem persisted? {all : List Call} (h : s.MadeBy calls t) (hcalls : ∀ call ∈ calls, call ∈ all)
    {call : Call} (hcall : call ∈ all) (hsha : Set.InjOn Sha256.hexDigest (inputs all))
    (hformat : OneFormat all) {f : Fingerprint} {cache : Cache}
    (hf : call.tree.fingerprint? call.job.module = some f)
    (hcache : s.persisted? t f call.job.conventions = some cache) :
    call.extract? = some cache ∧ ∃ earlier ∈ calls, earlier.key = call.key
      ∧ earlier.tree.read earlier.job.module = call.tree.read call.job.module
      ∧ earlier.job.conventions = call.job.conventions ∧ earlier.extract? = some cache := by
  obtain ⟨d, hd, husable⟩ := Option.bind_eq_some_iff.1 hcache
  -- The document says by which call it was made, and a usable one agrees with the module now.
  obtain ⟨earlier, hearlier, hmakes⟩ := h.of_documentAt? hd
  have hearlier' := hcalls _ hearlier
  split at husable
  next husable' =>
    obtain rfl := Option.some.inj husable
    obtain ⟨hkey, hread, hconventions, hextract⟩ :=
      hmakes.same hearlier' hcall hsha hf husable'
    have hsame := hformat.extract?_eq hearlier' hcall hkey hread hconventions
    exact ⟨hsame ▸ hextract, earlier, hearlier, hkey, hread, hconventions, hextract⟩
  next => cases husable

end MadeBy

/-! ## §3 Runs -/

/-- The files have changed, but the store finds no document that it did not find before. -/
structure Spares (s : Store) (t t' : FileTree) : Prop where
  home : t'.home = t.home
  documents : ∀ key contents modified d,
    t'.at? (s.placeFor t' key) = some (.file contents modified) →
    PersistedCache.ofBytes? contents = some d →
    ∃ modified', t.at? (s.placeFor t key) = some (.file contents modified')

/-- The trees that come up in a run, with the calls so far: the store starts without documents and
is asked for caches, while anything but its documents may change, and those may be damaged. -/
inductive Reaches (s : Store) : List Call → FileTree → Prop
  | start (t : FileTree) (h : s.MadeBy [] t) : Reaches s [] t
  | call {calls : List Call} {t : FileTree} (h : Reaches s calls t) (j : Job) :
      Reaches s (calls ++ [⟨t, j⟩]) ((j.run s : OnTree _) t).2
  | change {calls : List Call} {t t' : FileTree} (h : Reaches s calls t) (hspares : s.Spares t t') :
      Reaches s calls t'

/-- **The invariant of the store**: whatever happens, its documents were made by its calls. -/
theorem Reaches.madeBy {s : Store} {calls : List Call} {t : FileTree} (h : s.Reaches calls t) :
    s.MadeBy calls t := by
  induction h with
  | start t h => exact h
  | @call calls t h j ih =>
    -- What the new call is asked has to be among the calls before its document is.
    have hmem : (⟨t, j⟩ : Call) ∈ calls ++ [⟨t, j⟩] := List.mem_append_right _ List.mem_cons_self
    have hmade : s.MadeBy (calls ++ [⟨t, j⟩]) t :=
      ih.mono fun call hcall => List.mem_append_left _ hcall
    rw [Job.run, obtain_apply]
    split
    next => exact hmade
    next f hf =>
      split
      next => exact hmade
      next =>
        split
        next => exact hmade
        -- Only an extraction writes, and what it writes was made by the new call.
        next cache hcache =>
          have hsaved := hmade.saved hmem hf (Call.extract?_mk t j ▸ hcache)
          simp only
          exact hsaved
  | change h hspares ih =>
    -- Other events do not make documents, at most they lose some of them.
    intro key contents modified d hat hd
    obtain ⟨modified', hat'⟩ := hspares.documents key contents modified d hat hd
    exact ih key contents modified' d hat' hd

theorem extract?_of_fingerprint?_eq_none {t : FileTree} {p : Path} (h : t.fingerprint? p = none)
    (c : Conventions) : t.extract? p c = none := by
  have hread : (t.read p).toOption = none := by
    unfold FileTree.fingerprint? at h
    cases hfind : t.find p with
    | error e => rw [FileTree.read_of_error hfind]; rfl
    | ok found =>
      rcases found with ⟨l, _ | ⟨contents, modified⟩⟩
      · rw [FileTree.read_of_directory hfind]
        rfl
      · rw [hfind] at h
        cases h
  rw [FileTree.extract?, hread, Option.bind_none]

/-- **Calls**: what a call answers, if all documents were made by calls. -/
theorem MadeBy.obtain {s : Store} {calls all : List Call} {t : FileTree} (h : s.MadeBy calls t)
    {j : Job} (hcalls : ∀ call ∈ calls, call ∈ all) (hcall : (⟨t, j⟩ : Call) ∈ all)
    (hsha : Set.InjOn Sha256.hexDigest (inputs all)) (hformat : OneFormat all) :
    match t.extract? j.module j.conventions with
    | none => ((j.run s : OnTree _) t).1 = (.empty, .degraded)
    | some cache => ((j.run s : OnTree _) t).1 = (cache, .extracted)
        ∨ ((j.run s : OnTree _) t).1 = (cache, .hit)
          ∧ ∃ earlier ∈ calls, earlier.key = t.keyOf j.module
            ∧ earlier.tree.read earlier.job.module = t.read j.module
            ∧ earlier.job.conventions = j.conventions ∧ earlier.extract? = some cache := by
  rw [Job.run, obtain_apply]
  cases hf : t.fingerprint? j.module with
  | none =>
    rw [extract?_of_fingerprint?_eq_none hf]
  | some f =>
    simp only
    -- The store looks the cache up unless it is forced to extract it.
    cases hpersisted : (if j.force then none else s.persisted? t f j.conventions) with
    | none =>
      cases t.extract? j.module j.conventions with
      | none => rfl
      | some cache => exact .inl rfl
    | some cache =>
      have hcache : s.persisted? t f j.conventions = some cache := by
        split at hpersisted
        · cases hpersisted
        · exact hpersisted
      obtain ⟨hnow, hearlier⟩ := h.persisted? hcalls hcall hsha hformat hf hcache
      rw [Call.extract?_mk] at hnow
      rw [hnow]
      exact .inr ⟨rfl, hearlier⟩

/-- **The store is transparent.**  Whatever it was asked for before, and whatever happened to the
modules and to its documents in between, a call answers what extracting the module gives, or the
empty cache if that is not possible.  A hit goes back to an earlier call for the same module with
the same contents by the same conventions. -/
theorem obtain_transparent {s : Store} {calls : List Call} {t : FileTree}
    (h : s.Reaches calls t) (p : Path) (c : Conventions) (force : Bool)
    (hcanonical : ∀ call ∈ calls ++ [⟨t, p, c, force⟩],
      call.tree.keyOf call.job.module = call.job.module)
    (hsha : Set.InjOn Sha256.hexDigest (inputs (calls ++ [⟨t, p, c, force⟩]))) :
    ∃ cache outcome, ((s.obtain p c force : OnTree _) t).1 = (cache, outcome)
      ∧ (∀ extracted, ((extractModule p c : Task OnTree Cache) t).1 = .ok extracted →
          cache = extracted ∧ (outcome = .extracted ∨ outcome = .hit))
      ∧ (∀ e, ((extractModule p c : Task OnTree Cache) t).1 = .error e →
          cache = .empty ∧ outcome = .degraded)
      ∧ (outcome = .hit → ∃ earlier ∈ calls, earlier.job.module = p
          ∧ earlier.tree.read p = t.read p ∧ earlier.job.conventions = c
          ∧ ((extractModule p c : Task OnTree Cache) earlier.tree).1 = .ok cache) := by
  -- Canonical paths cannot name one file in two formats, so the general theorem applies.
  have hobtain := h.madeBy.obtain (j := ⟨p, c, force⟩) (fun _ => List.mem_append_left _)
    (List.mem_append_right _ List.mem_cons_self) hsha (oneFormat_of_canonical hcanonical)
  obtain ⟨answer, hrun, hanswer⟩ := extractModule_apply p c t
  rw [hrun]
  simp only [Job.run] at hobtain
  cases answer with
  | error e =>
    rw [← hanswer] at hobtain
    refine ⟨.empty, .degraded, hobtain, ?_, fun _ _ => ⟨rfl, rfl⟩, ?_⟩
    · intro extracted h
      cases h
    · intro h
      cases h
  | ok extracted =>
    rw [← hanswer] at hobtain
    have hextracted : ∀ extracted', (Except.ok extracted : Except Failure Cache) = .ok extracted' →
        extracted = extracted' := fun _ => Except.ok.inj
    have hok : ∀ e, (Except.ok extracted : Except Failure Cache) ≠ .error e := by
      intro e h
      cases h
    -- The module can be extracted; the store answers the cache itself or finds it again.
    rcases hobtain with hobtain | ⟨hobtain, earlier, hearlier, hkey, hread, hconventions, hcache⟩
    · refine ⟨extracted, .extracted, hobtain, fun _ h => ⟨hextracted _ h, .inl rfl⟩,
        fun e h => absurd h (hok e), ?_⟩
      intro h
      cases h
    -- Canonical paths are their own keys, so the earlier call was about this very path.
    · have hmodule : earlier.job.module = p := by
        have hearlier' := hcanonical earlier (List.mem_append_left _ hearlier)
        have hp := hcanonical _ (List.mem_append_right _ List.mem_cons_self)
        exact hearlier'.symm.trans (hkey.trans hp)
      obtain ⟨answer', hrun', hanswer'⟩ := extractModule_apply p c earlier.tree
      rw [Call.extract?, hmodule, hconventions, ← hanswer'] at hcache
      rw [hmodule] at hread
      refine ⟨extracted, .hit, hobtain, fun _ h => ⟨hextracted _ h, .inr rfl⟩,
        fun e h => absurd h (hok e), fun _ => ⟨earlier, hearlier, hmodule, hread, hconventions, ?_⟩⟩
      rw [hrun']
      cases answer' with
      | error e => cases hcache
      | ok cache' =>
        obtain rfl := Option.some.inj hcache
        rfl

/-! ## §4 A sample store

A module with a type of definitions that refers to itself.  It is extracted, its document is lost,
it is extracted again, and then it is hit. -/

/-- The module as a document. -/
def bellDocument : Json :=
  .obj [("types", .arr
    [.obj [("full_name", .str "Def")],
      .obj [("full_name", .str "Bell"), ("base", .str "Def"), ("members", .arr
        [.obj [("name", .str "next"), ("type", .str "Bell")]])]])]

/-- The file of the module. -/
def bellBytes : Bytes := Bytes.ofText bellDocument.compact

/-- Simple conventions to extract the module by. -/
def bellConventions : Conventions :=
  { definitionBase := "Def", registryMarker := "", localizationHandleMarker := "",
    mustLocalizeMarker := "", universalRoot := "Object", bannedNamespaces := [], scalarTypes := [],
    scalarShortNames := [], propertiesLead := "Properties", componentTail := "Comp" }

/-- What extraction gives. -/
def bellCache : Cache where
  definitions := [⟨"Bell", "Bell", "Def", false, false, "Bell", [.nested "next" "Bell" 0]⟩]
  catalog := .empty
  schemas := [⟨"Bell", [.nested "next" "Bell" 0]⟩]
  variants := []
  castTable := SortedMap.empty.insert "Bell" "Bell"

/-- A tree with the module. -/
def bellTree : FileTree :=
  (FileTree.empty ["modules"]).put ["modules", "Bell.json"] (.file bellBytes 0)

/-- The module is asked for. -/
def bellJob : Job := ⟨"/modules/Bell.json", bellConventions, false⟩

/-- What is hashed in samples: the module, some files that are none or hardly one, and the
conventions. -/
def bellInputs : List Bytes :=
  [bellBytes, [0x62], [0x7b, 0x78, 0x7d], [0x7b, 0x7d],
    Bytes.ofText bellConventions.toJson.compact,
    Bytes.ofText (bellConventions.keepingNamespace true).toJson.compact]

theorem injOn_bellInputs : Set.InjOn Sha256.hexDigest {b | b ∈ bellInputs} := by
  have hnodup : (bellInputs.map Sha256.hexDigest).Nodup := by
    rw [bellInputs, bellBytes, Json.compact, Json.compact, Json.compact, Bytes.ofText_ofList,
      Bytes.ofText_ofList, Bytes.ofText_ofList]
    decide +kernel
  exact fun b hb b' hb' => List.inj_on_of_nodup_map hnodup hb hb'

/-- What is hashed in a call for the module. -/
theorem mem_bellInputs {t : FileTree} (keep : Bool) {force : Bool} {b : Bytes}
    (hread : t.read bellJob.module = .ok bellBytes)
    (hb : b ∈ (⟨t, bellJob.module, bellConventions.keepingNamespace keep, force⟩ : Call).hashed) :
    b ∈ bellInputs := by
  rw [Call.hashed, hread] at hb
  rcases List.mem_append.1 hb with hb | hb
  · obtain rfl := List.mem_singleton.1 hb
    exact List.mem_cons_self
  · obtain rfl := List.mem_singleton.1 hb
    -- The conventions of the sample do not keep namespaces.
    have hbell : bellConventions.keepingNamespace false = bellConventions := rfl
    cases keep <;> simp [bellInputs, hbell]

theorem extractContents?_bellBytes (keep : Bool) :
    extractContents? false (bellConventions.keepingNamespace keep) bellBytes = some bellCache := by
  have hparse : Json.parse? bellDocument.compact = some bellDocument :=
    Json.parse?_compact (by decide)
  rw [extractContents?, bellBytes, Bytes.text?_ofText]
  simp only [Option.bind_some, ModuleManifest.ofText?, hparse, Bool.false_eq_true, if_false]
  cases keep <;> decide +kernel

theorem length_bellBytes_le : bellBytes.length ≤ 0xFFFFFFFFFFFFFFFF := by
  rw [bellBytes, Json.compact, Bytes.ofText_ofList]
  decide

theorem ofBytes?_bellBytes : PersistedCache.ofBytes? bellBytes = none := by
  rw [bellBytes, Json.compact, Bytes.ofText_ofList]
  decide

theorem find_bellTree : bellTree.find bellJob.module =
    .ok (["modules", "Bell.json"], .file bellBytes 0) := rfl

theorem bellTree_files {l : Location} {contents : Bytes} {modified : Int}
    (h : bellTree.at? l = some (.file contents modified)) : contents = bellBytes := by
  rw [bellTree, FileTree.at?_put] at h
  split at h
  · cases h
  · split at h
    · cases h
      rfl
    · exact absurd h (FileTree.at?_empty_ne_file _ _ _ _)

/-- The store starts without documents. -/
theorem madeBy_bellTree (s : Store) : s.MadeBy [] bellTree := by
  intro key contents modified d hat hd
  rw [bellTree_files hat, ofBytes?_bellBytes] at hd
  cases hd

theorem extract?_bellTree (keep : Bool) :
    bellTree.extract? bellJob.module (bellConventions.keepingNamespace keep) = some bellCache := by
  have hyaml : Path.isYaml bellJob.module = false := by decide
  rw [extract?, read_of_file find_bellTree, hyaml, Except.toOption, Option.bind_some]
  exact extractContents?_bellBytes keep

/-- The fingerprint of the module. -/
def bellFingerprint : Fingerprint :=
  ⟨bellJob.module, bellBytes.length, 0, Sha256.hexDigest bellBytes⟩

theorem fingerprint?_bellTree : bellTree.fingerprint? bellJob.module = some bellFingerprint := by
  have hkey : bellTree.keyOf bellJob.module = bellJob.module := by decide
  rw [fingerprint?_of_find find_bellTree, hkey]
  rfl

/-- The tree after the module is extracted. -/
def bellStored : FileTree := (⟨"/cache"⟩ : Store).saved bellTree bellFingerprint bellConventions
  bellCache

theorem run_bellTree : (bellJob.run ⟨"/cache"⟩ : OnTree _) bellTree =
    ((bellCache, .extracted), bellStored) := by
  have hnone := (madeBy_bellTree ⟨"/cache"⟩).persisted?_eq_none bellFingerprint bellConventions
  exact obtain_of_extract? fingerprint?_bellTree (.inr hnone) (extract?_bellTree false)

theorem home_bellStored : bellStored.home = bellTree.home :=
  ((⟨"/cache"⟩ : Store).keeps_saved bellTree bellFingerprint bellConventions bellCache).home

/-- The document is not written over the module. -/
theorem find_bellStored : bellStored.find bellJob.module = bellTree.find bellJob.module := by
  have hplace : (⟨"/cache"⟩ : Store).placeFor bellTree bellJob.module =
      ["cache", "BellCache.json.gz"] := by decide
  rw [find_bellTree]
  refine find_saved find_bellTree ?_ _ _
  rw [show bellFingerprint.path = bellJob.module from rfl, hplace]
  decide

/-- The document is there. -/
theorem persisted?_bellStored :
    (⟨"/cache"⟩ : Store).persisted? bellStored bellFingerprint bellConventions =
      some bellCache := by
  have hwrite : ((FileSystem.writeWithDirectory ((⟨"/cache"⟩ : Store).pathFor bellFingerprint.path)
      [] : Task OnTree _) bellTree).1 = .ok (.ok ()) := rfl
  obtain ⟨m, hm⟩ := FileTree.extractedFrom_extract? (extract?_bellTree false)
  exact persisted?_saved (writable_of_writeWithDirectory hwrite)
    ⟨length_bellBytes_le, by decide, by decide⟩ hm ⟨by decide, by decide⟩ (by decide) _

/-- The module is extracted twice, as its document is lost in between, and then it is hit. -/
theorem obtain_transparent_bell :
    let s : Store := ⟨"/cache"⟩
    let call : Call := ⟨bellTree, bellJob⟩
    s.Reaches [call, call] bellStored
      ∧ (∀ call' ∈ [call, call] ++ [⟨bellStored, bellJob⟩],
          call'.tree.keyOf call'.job.module = call'.job.module)
      ∧ Set.InjOn Sha256.hexDigest (inputs ([call, call] ++ [⟨bellStored, bellJob⟩]))
      ∧ ((s.obtain bellJob.module bellConventions false : OnTree _) bellStored).1 =
          (bellCache, .hit)
      ∧ ∃ earlier ∈ [call, call], earlier.job.module = bellJob.module
          ∧ earlier.tree.read bellJob.module = bellStored.read bellJob.module
          ∧ earlier.job.conventions = bellConventions
          ∧ ((extractModule bellJob.module bellConventions : Task OnTree Cache)
              earlier.tree).1 = .ok bellCache := by
  intro s call
  -- Losing the document leaves a tree without documents, on which nothing was made wrongly.
  have hspares : s.Spares bellStored bellTree := by
    refine ⟨home_bellStored.symm, fun key contents modified d hat hd => ?_⟩
    rw [bellTree_files hat, ofBytes?_bellBytes] at hd
    cases hd
  have hstored : ((bellJob.run s : OnTree _) bellTree).2 = bellStored :=
    congrArg Prod.snd run_bellTree
  have hfirst : s.Reaches [call] bellStored :=
    hstored ▸ (Reaches.start bellTree (madeBy_bellTree s)).call bellJob
  -- The document is lost and made again, hence the tree is the same as before.
  have hreaches : s.Reaches [call, call] bellStored :=
    hstored ▸ (hfirst.change hspares).call bellJob
  have hkey : bellTree.keyOf bellJob.module = bellJob.module := by decide
  have hcanonical : ∀ call' ∈ [call, call] ++ [⟨bellStored, bellJob⟩],
      call'.tree.keyOf call'.job.module = call'.job.module := by
    simp only [List.cons_append, List.nil_append, List.forall_mem_cons]
    exact ⟨hkey, hkey, (keyOf_congr find_bellStored).trans hkey, List.forall_mem_nil _⟩
  -- All calls are about one file and one set of conventions, so there are two inputs to hash.
  have hsha : Set.InjOn Sha256.hexDigest (inputs ([call, call] ++ [⟨bellStored, bellJob⟩])) := by
    refine injOn_bellInputs.mono ?_
    rintro b ⟨call', hcall', hb⟩
    have hread := read_of_file find_bellTree
    simp only [List.cons_append, List.nil_append, List.mem_cons, List.not_mem_nil,
      or_false] at hcall'
    rcases hcall' with rfl | rfl | rfl
    · exact mem_bellInputs false hread hb
    · exact mem_bellInputs false hread hb
    · exact mem_bellInputs false ((read_congr find_bellStored).trans hread) hb
  -- Now the document is found, so the third call is a hit.
  have hhit : (s.obtain bellJob.module bellConventions false : OnTree _) bellStored =
      ((bellCache, .hit), bellStored) :=
    obtain_of_persisted? ((fingerprint?_congr find_bellStored).trans fingerprint?_bellTree)
      persisted?_bellStored
  obtain ⟨cache, outcome, hanswer, -, -, hearlier⟩ :=
    obtain_transparent hreaches bellJob.module bellConventions false hcanonical hsha
  obtain ⟨rfl, rfl⟩ := Prod.mk.inj ((congrArg Prod.fst hhit).symm.trans hanswer)
  exact ⟨hreaches, hcanonical, hsha, congrArg Prod.fst hhit, hearlier rfl⟩

end Store

end SchemaGraph
