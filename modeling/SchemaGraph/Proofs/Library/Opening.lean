import SchemaGraph.Proofs.CommandLine
import SchemaGraph.Proofs.Extraction.Fidelity
import SchemaGraph.Proofs.Library.Loads
import SchemaGraph.Proofs.Merge.NormalForm
import SchemaGraph.Proofs.Store.Extracted
import SchemaGraph.Proofs.Store.Transparency

/-!
# Opening a Library

A library starts as the empty cache and merges what it loads.  Extraction names every schema and
every variant once, so an extracted cache is in normal form and the first merge leaves it as it
is: the library of one module holds what extracting the module gives, and merging one cache file
gives a file of that cache once more.

- `Module.normalForm_extract`: extracted caches are in normal form
- `Library.cache_ofBase`: what a library of one module holds
- `Cache.empty_merge_reproduces`: the empty base, for caches, libraries and cache files
-/

namespace SchemaGraph

open OnTree

/-! ## §1 Extracted caches -/

/-- Names that are all different make a normal form, whatever the fields are. -/
theorem Cache.normalForm_of_names {c : Cache} (hvariants : (c.variants.map (·.fullName)).Nodup)
    (hschemas : (c.schemas.map (·.fullName)).Nodup) : c.NormalForm where
  variants := hvariants
  schemas := (List.pairwise_map.1 hschemas).imp fun hne hmatches => hne hmatches.fullName

namespace Pass

/-- **Sessions extract normal forms**, whatever was done before in them. -/
theorem normalForm_of_mem_session (p : Pass) {ops : List Operation}
    {step : Except IntrospectionError Reply × State} {c : Cache}
    (hstep : step ∈ p.session ops start) (hc : step.1 = .ok (.cache c)) : c.NormalForm := by
  have hask := supports_request_meant (agrees_refl p)
  have hmarked := supports_request_meant (agrees_marked p)
  have hstart : p.fidelity.Inv start := faithful_empty p
  obtain ⟨-, hreplies⟩ := hask.of_mem_session hmarked hstart hstep
  obtain ⟨op, -, hreply⟩ := hreplies _ hc
  cases op <;> try exact hreply.elim
  rcases hreply with rfl | ⟨s, hcollected⟩
  · exact Cache.normalForm_empty
  · exact Cache.normalForm_of_names hcollected.reads.variantNames hcollected.reads.schemaNames

end Pass

theorem Module.normalForm_extract {m : Module} {conventions : Conventions} {c : Cache}
    (h : m.extract conventions = .ok c) : c.NormalForm := by
  obtain ⟨step, hstep, hreply⟩ := Module.exists_reply_of_extract h
  exact Pass.normalForm_of_mem_session _ hstep hreply

theorem extractModule_eq_ok_iff {t : FileTree} {p : Path} {conventions : Conventions} {c : Cache} :
    ((extractModule p conventions : Task OnTree Cache) t).1 = .ok c ↔
      t.extract? p conventions = some c := by
  obtain ⟨answer, hrun, hanswer⟩ := extractModule_apply p conventions t
  rw [hrun, ← hanswer]
  cases answer <;> simp [Except.toOption]

theorem FileTree.normalForm_extract? {t : FileTree} {p : Path} {conventions : Conventions}
    {c : Cache} (h : t.extract? p conventions = some c) : c.NormalForm := by
  obtain ⟨m, hm⟩ := FileTree.exists_module_of_extract? h
  exact Module.normalForm_extract hm

/-! ## §2 The library of one module -/

namespace Library

/-- A library that is opened on one module merges what the store answers into nothing. -/
theorem cache_ofBase (p : Path) (s : Store) (conventions : Conventions) (t : FileTree) :
    ((ofBase p s conventions : OnTree Library) t).1.cache =
      Cache.empty.merge .append
        ((s.obtain p (conventions.keepingNamespace false) false : OnTree _) t).1.1 := by
  let l := ((create s conventions false : OnTree Library) t).1
  have hnew : t.keyOf p ∉ l.loaded := fun h => nomatch h
  have hrun : (ofBase p s conventions : OnTree Library) t =
      (do return (← l.loadOne p false).2 : OnTree Library) t := rfl
  rw [hrun, loadOne_apply, loadsOf_of_notMem hnew]
  exact cache_taking

/-- **A library of one module** holds what extracting the module gives, whether its store extracts
the module now or still has a document of an earlier call. -/
theorem cache_ofBase_of_extract {s : Store} {calls : List Store.Call} {t : FileTree} {p : Path}
    {conventions : Conventions} {extracted : Cache} (h : s.Reaches calls t)
    (hformat : Store.OneFormat (calls ++ [⟨t, p, conventions.keepingNamespace false, false⟩]))
    (hsha : Set.InjOn Sha256.hexDigest
      (Store.inputs (calls ++ [⟨t, p, conventions.keepingNamespace false, false⟩])))
    (hextracted : t.extract? p (conventions.keepingNamespace false) = some extracted) :
    ((ofBase p s conventions : OnTree Library) t).1.cache = extracted := by
  have hobtain := h.madeBy.obtain (j := ⟨p, conventions.keepingNamespace false, false⟩)
    (fun _ => List.mem_append_left _) (List.mem_append_right _ List.mem_cons_self) hsha hformat
  rw [hextracted] at hobtain
  -- The store extracts or hits; either way it answers the extracted cache.
  have hanswer : ((s.obtain p (conventions.keepingNamespace false) false : OnTree _) t).1.1 =
      extracted := by
    rcases hobtain with hobtain | ⟨hobtain, -⟩
    · exact congrArg Prod.fst hobtain
    · exact congrArg Prod.fst hobtain
  rw [cache_ofBase, hanswer]
  exact (FileTree.normalForm_extract? hextracted).merge_empty_left

end Library

/-! ## §3 What an empty base reproduces -/

namespace Cache

/-- **Merging into the empty cache** keeps a cache as it is, dangling handles included, if it is in
normal form and only then.  Caches that are extracted are, so a library of one module holds what
extracting the module gives; and merging one cache file saves the cache of the file, which is then
loaded as that cache once more. -/
theorem empty_merge_reproduces :
    (∀ c : Cache, empty.merge .append c = c ↔ c.NormalForm)
      -- Extraction, in a pass of its own or in one that was used before.
      ∧ (∀ (m : Module) (conventions : Conventions) (c : Cache), m.extract conventions = .ok c →
          c.NormalForm ∧ empty.merge .append c = c)
      ∧ (∀ (p : Pass) (ops : List Pass.Operation), ∀ step ∈ p.session ops Pass.start,
          ∀ c, step.1 = .ok (.cache c) → c.NormalForm ∧ empty.merge .append c = c)
      -- A library that is opened on one module, whatever its store was used for before.
      ∧ (∀ (s : Store) (calls : List Store.Call) (t : FileTree) (p : Path)
          (conventions : Conventions) (extracted : Cache),
          let call : Store.Call := ⟨t, p, conventions.keepingNamespace false, false⟩
          s.Reaches calls t → Store.OneFormat (calls ++ [call]) →
          Set.InjOn Sha256.hexDigest (Store.inputs (calls ++ [call])) →
          ((extractModule p call.job.conventions : Task OnTree Cache) t).1 = .ok extracted →
          ((Library.ofBase p s conventions : OnTree Library) t).1.cache = extracted)
      -- The command that merges cache files, with one file.
      ∧ ∀ (t t' : FileTree) (p output : Path) (c : Cache) (tr : CommandLine.Transcript),
          let run := (CommandLine.runMerge [p] output false : CommandLine.Run OnTree Unit) tr t
          let saved := (c.save output : Task OnTree Unit) t'
          c.NormalForm → (Cache.load p : Task OnTree Cache) t = (.ok c, t') →
          run.2 = saved.2 ∧ (run.1.1 = .ok () ↔ saved.1 = .ok ())
            ∧ (run.1.1 = .ok () → c.toJson.height ≤ Json.maxDepth →
                (Cache.load output : Task OnTree Cache) run.2 = (.ok c, run.2)) := by
  refine ⟨fun c => merge_empty_left_iff, fun m conventions c h => ?_,
    fun p ops step hstep c h => ?_, ?_, ?_⟩
  · exact ⟨Module.normalForm_extract h, (Module.normalForm_extract h).merge_empty_left⟩
  · have hc := p.normalForm_of_mem_session hstep h
    exact ⟨hc, hc.merge_empty_left⟩
  · intro s calls t p conventions extracted call h hformat hsha hok
    exact Library.cache_ofBase_of_extract h hformat hsha (extractModule_eq_ok_iff.1 hok)
  · intro t t' p output c tr run saved hc hload
    have hmerge := CommandLine.runMerge_singleton hload output tr
    rw [hc.merge_empty_left] at hmerge
    obtain ⟨htree, hanswer⟩ := hmerge
    refine ⟨htree, hanswer, fun hok hheight => ?_⟩
    -- The numbers have been read once, so they can be read again.
    have hsave : (c.save output : Task OnTree Unit) t' = (.ok (), run.2) :=
      Prod.ext (hanswer.1 hok) htree.symm
    exact load_of_save (inRange_of_load hload) hheight hsave

/-- Some of the handles lead nowhere, and two schemas of one name have different fields. -/
def strayCache : Cache where
  definitions :=
    [⟨"LampDef", "LampDef", "Def", false, false, "Mod.LampDef",
      [.polymorphicList "parts" "List<Mod.Part>" 7 [0, 9, -2]]⟩]
  catalog := .empty
  schemas :=
    [⟨"Mod.Part", [.nested "next" "Mod.Part" 0]⟩, ⟨"Mod.Part", [.nested "next" "Mod.Cord" 4]⟩]
  variants := [⟨"Bulb", 5, false, [.nested "cord" "Mod.Cord" 1]⟩]
  castTable := .empty

theorem inRange_strayCache : strayCache.InRange :=
  Ensures.cache strayCache.toJson strayCache (by decide)

/-- A tree with a file of the cache. -/
def strayTree : FileTree :=
  (FileTree.empty []).put ["stray.json"] (.file (strayCache.toBytes false) 0)

theorem load_strayTree :
    (Cache.load "/stray.json" : Task OnTree Cache) strayTree = (.ok strayCache, strayTree) := by
  have hfind : strayTree.find "/stray.json" =
      .ok (["stray.json"], .file (strayCache.toBytes false) 0) := rfl
  exact load_apply (FileTree.read_of_file hfind)
    (ofBytes?_toBytes inRange_strayCache (by decide) false)

theorem empty_merge_reproduces_samples :
    -- A cache with dangling handles, and one that was extracted.
    strayCache.NormalForm ∧ empty.merge .append strayCache = strayCache
      ∧ (Module.ofManifest "lamps.json" Pass.lampManifest).extract {} = .ok Pass.lampCache
      ∧ empty.merge .append Pass.lampCache = Pass.lampCache
      -- A library on a tree with one module.
      ∧ ((Library.ofBase Store.bellJob.module ⟨"/cache"⟩ Store.bellConventions :
          OnTree Library) Store.bellTree).1.cache = Store.bellCache
      -- A file of the cache with dangling handles.
      ∧ let run := (CommandLine.runMerge ["/stray.json"] "/out/stray.json" false :
          CommandLine.Run OnTree Unit) {} strayTree
        run.1.1 = .ok ()
          ∧ (Cache.load "/out/stray.json" : Task OnTree Cache) run.2 = (.ok strayCache, run.2) := by
  obtain ⟨hnormal, hextract, -, hopen, hmerge⟩ := empty_merge_reproduces
  have hstray : strayCache.NormalForm := ⟨by decide, by decide +kernel⟩
  have hlamps : (Module.ofManifest "lamps.json" Pass.lampManifest).extract {} =
      .ok Pass.lampCache := by decide +kernel
  let call : Store.Call :=
    ⟨Store.bellTree, Store.bellJob.module, Store.bellConventions.keepingNamespace false, false⟩
  have hformat : Store.OneFormat ([] ++ [call]) := by
    refine Store.oneFormat_of_not_isLink ?_ ?_ <;>
      · intro call' hcall'
        obtain rfl := List.mem_singleton.1 hcall'
        decide
  have hsha : Set.InjOn Sha256.hexDigest (Store.inputs ([] ++ [call])) := by
    refine Store.injOn_bellInputs.mono ?_
    rintro b ⟨call', hcall', hb⟩
    obtain rfl := List.mem_singleton.1 hcall'
    exact Store.mem_bellInputs _ (FileTree.read_of_file Store.find_bellTree) hb
  have hextracted := extractModule_eq_ok_iff.2 (Store.extract?_bellTree false)
  have hopened := hopen ⟨"/cache"⟩ [] Store.bellTree Store.bellJob.module Store.bellConventions
    Store.bellCache (.start _ (Store.madeBy_bellTree _)) hformat hsha hextracted
  obtain ⟨-, hanswer, hloaded⟩ :=
    hmerge _ _ "/stray.json" "/out/stray.json" strayCache {} hstray load_strayTree
  have hok := hanswer.2 rfl
  exact ⟨hstray, (hnormal _).2 hstray, hlamps, (hextract _ _ _ hlamps).2, hopened, hok,
    hloaded hok (by decide)⟩

end Cache

end SchemaGraph
