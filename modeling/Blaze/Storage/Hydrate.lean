import Blaze.Storage.DiskForest

/-!
# Loading routing files into memory

A worker without a directory for routing files loads the committed ones into its
memtable, oldest first.  A newer file moves only points that the older ones leave
alone, so the memtable ends up with the root maps of the whole stack.  A scope is
registered under the shared root of the moment, which a newer file may absorb;
the file that absorbs it then carries a pair of the scope at the new root.
-/

namespace Blaze

open List RootMap PairTable LayeredBase

variable {pairs : List (NodeId × NodeId)} {f : ScopedForest LayeredBase} {files : List PuffinBase}
  {file : PuffinBase} {d : Dsu} {pair : NodeId × NodeId} {mem : Memtable} {x : NodeId} {s : ScopeId}
  {memberIndex : Bool} {events : Set EdgeEvent}

/-! ## One table -/

namespace Dsu

/-- Linking the first pair of a resolved table whose points are roots leaves the
points of the other pairs roots. -/
theorem link_resolved (decreasing : d.Decreasing) (resolved : Resolved (pair :: pairs))
    (atop : Over (tableRoot (pair :: pairs)) d.root) :
    (d.link pair.1 pair.2).Decreasing ∧ Over (tableRoot pairs) (d.link pair.1 pair.2).root ∧
      ∀ x, tableRoot pairs ((d.link pair.1 pair.2).root x) =
        tableRoot (pair :: pairs) (d.root x) := by
  have smaller := resolved.smaller pair mem_cons_self
  have here : tableRoot (pair :: pairs) pair.1 = pair.2 := by
    rw [tableRoot_cons, if_pos rfl]
  have fixed := atop pair.1 (by rw [here]; exact smaller.ne)
  rw [here] at fixed
  rcases link_spec decreasing smaller fixed.1 fixed.2 with ⟨linked, roots⟩
  have root : ∀ x, (d.link pair.1 pair.2).root x =
      if d.root x = pair.1 then pair.2 else d.root x := by
    intro x
    rw [roots]
    simp [RootMap.link, fixed.1, fixed.2, max_eq_left smaller.le, min_eq_right smaller.le]
  have notKey : pair.1 ∉ pairs.map Prod.fst := (nodup_cons.mp resolved.nodup).1
  have notValue : pair.2 ∉ pairs.map Prod.fst := fun key =>
    resolved.settled pair mem_cons_self (mem_cons_of_mem pair.1 key)
  refine ⟨linked, fun x moved => ?_, fun x => ?_⟩
  · -- a later pair neither starts nor ends at the point just linked
    have key := (resolved.of_cons.tableRoot_ne_iff x).mp moved
    have other : x ≠ pair.1 := fun same => notKey (same ▸ key)
    have same : tableRoot (pair :: pairs) x = tableRoot pairs x := by
      rw [tableRoot_cons, if_neg other]
    have valueOther : tableRoot pairs x ≠ pair.1 := by
      rcases mem_map.mp key with ⟨later, member, rfl⟩
      rw [tableRoot_of_mem resolved.of_cons.nodup (y := later.2) member]
      intro hit
      apply resolved.settled later (mem_cons_of_mem pair member)
      rw [hit]
      exact mem_cons_self
    have both := atop x (by rw [same]; exact moved)
    rw [same] at both
    rw [root, root, both.1, both.2, if_neg other, if_neg valueOther]
    exact ⟨rfl, rfl⟩
  · rw [root, tableRoot_cons]
    split
    · exact tableRoot_of_not_mem notValue
    · rfl

/-- Loading a resolved table over points that are roots composes the root maps. -/
theorem hydrate_spec (decreasing : d.Decreasing) (resolved : Resolved pairs)
    (atop : Over (tableRoot pairs) d.root) :
    (d.hydrate pairs).Decreasing ∧ ∀ x, (d.hydrate pairs).root x = tableRoot pairs (d.root x) := by
  -- the counter `hydrate` sets at the end plays no part in the roots
  change (pairs.foldl (fun d pair => if pair.1 ≠ pair.2 then d.link pair.1 pair.2 else d)
    d).Decreasing ∧ ∀ x, (pairs.foldl
      (fun d pair => if pair.1 ≠ pair.2 then d.link pair.1 pair.2 else d) d).root x = _
  induction pairs generalizing d with
  | nil => exact ⟨decreasing, fun x => rfl⟩
  | cons pair pairs ih =>
    rcases link_resolved decreasing resolved atop with ⟨linked, rest, composed⟩
    have moved : pair.1 ≠ pair.2 := (resolved.smaller pair mem_cons_self).ne'
    rw [foldl_cons, if_pos moved]
    rcases ih linked resolved.of_cons rest with ⟨decreasing', roots⟩
    exact ⟨decreasing', fun x => by rw [roots, composed]⟩

end Dsu

/-! ## One file -/

/-- Points are registered for a scope under their shared roots; nothing else
changes but compressed paths. -/
structure Registers (scope : ScopeId) (points : List NodeId) (mem mem' : Memtable) : Prop where
  global : Dsu.CompressedTo mem.global mem'.global
  overlay : mem'.overlay = mem.overlay
  keeps : ∀ r s, s ∈ mem.scopesAt r → s ∈ mem'.scopesAt r
  adds : ∀ m ∈ points, scope ∈ mem'.scopesAt (mem.global.root m)

namespace Registers

variable {scope : ScopeId} {points more : List NodeId} {mem mem' mem'' : Memtable}

theorem refl (decreasing : mem.global.Decreasing) : Registers scope [] mem mem :=
  ⟨.refl decreasing, rfl, fun _ _ held => held, by simp⟩

theorem trans (first : Registers scope points mem mem')
    (second : Registers scope more mem' mem'') : Registers scope (points ++ more) mem mem'' where
  global := first.global.trans second.global
  overlay := second.overlay.trans first.overlay
  keeps r s held := second.keeps r s (first.keeps r s held)
  adds m member := by
    rcases mem_append.mp member with early | late
    · exact second.keeps _ _ (first.adds m early)
    · rw [← first.global.root_eq]
      exact second.adds m late

/-- Registering one point under the root that a find returns. -/
theorem point (decreasing : mem.global.Decreasing) (m : NodeId) :
    Registers scope [m] mem
      ((mem.setGlobal (mem.global.find m).1).register (mem.global.find m).2 [scope]) where
  global := Dsu.find_compressed decreasing m
  overlay := by
    funext s
    rw [Memtable.overlay_register, Memtable.overlay_setGlobal]
  keeps r s held := (Memtable.mem_scopesAt_register _ _ _ _ _).mpr (Or.inl held)
  adds m' member := by
    rw [mem_singleton.mp member, Memtable.mem_scopesAt_register, Dsu.find_snd decreasing]
    exact Or.inr ⟨rfl, mem_singleton_self scope⟩

end Registers

namespace ScopedForest

/-- The two points of each pair. -/
def endpoints (pairs : List (NodeId × NodeId)) : List NodeId :=
  pairs.flatMap fun pair => [pair.1, pair.2]

theorem registers_registerPairs (scope : ScopeId) (pairs : List (NodeId × NodeId))
    (decreasing : mem.global.Decreasing) :
    Registers scope (endpoints pairs) mem (pairs.foldl (registerPair scope) mem) := by
  induction pairs generalizing mem with
  | nil => exact .refl decreasing
  | cons pair pairs ih =>
    have left : Registers scope _ mem _ := Registers.point decreasing pair.1
    have both := left.trans (Registers.point left.global.decreasing pair.2)
    exact both.trans (ih both.global.decreasing)

/-- The overlays of some scopes are loaded, and their points registered. -/
structure LoadsScopes (entries : List (ScopeId × List (NodeId × NodeId)))
    (mem mem' : Memtable) : Prop where
  global : Dsu.CompressedTo mem.global mem'.global
  loaded : ∀ entry ∈ entries, mem'.overlay entry.1 = (mem.overlay entry.1).hydrate entry.2
  others : ∀ s, s ∉ entries.map Prod.fst → mem'.overlay s = mem.overlay s
  keeps : ∀ r s, s ∈ mem.scopesAt r → s ∈ mem'.scopesAt r
  adds : ∀ entry ∈ entries, ∀ m ∈ endpoints entry.2, entry.1 ∈ mem'.scopesAt (mem.global.root m)

theorem base_hydrateScopes (entries : List (ScopeId × List (NodeId × NodeId)))
    (f : ScopedForest LayeredBase) : (entries.foldl hydrateScope f).tier.base = f.tier.base := by
  induction entries generalizing f with
  | nil => rfl
  | cons entry entries ih => exact ih (f.hydrateScope entry)

theorem loadsScopes_hydrateScopes {entries : List (ScopeId × List (NodeId × NodeId))}
    (distinct : (entries.map Prod.fst).Nodup) (decreasing : f.tier.mem.global.Decreasing) :
    LoadsScopes entries f.tier.mem (entries.foldl hydrateScope f).tier.mem := by
  induction entries generalizing f with
  | nil => exact ⟨.refl decreasing, by simp, fun _ _ => rfl, fun _ _ held => held, by simp⟩
  | cons entry entries ih =>
    rw [map_cons, nodup_cons] at distinct
    set loaded := f.tier.mem.setOverlay entry.1 ((f.tier.mem.overlay entry.1).hydrate entry.2)
      with loadedDef
    have here : Registers entry.1 (endpoints entry.2) loaded (f.hydrateScope entry).tier.mem :=
      registers_registerPairs entry.1 entry.2 decreasing
    have rest := ih (f := f.hydrateScope entry) distinct.2 here.global.decreasing
    have otherOverlays : ∀ s, s ≠ entry.1 →
        (f.hydrateScope entry).tier.mem.overlay s = f.tier.mem.overlay s := by
      intro s different
      rw [here.overlay, loadedDef, Memtable.overlay_setOverlay_of_ne _ different]
    refine ⟨here.global.trans rest.global, fun later member => ?_, fun s absent => ?_,
      fun r s held => rest.keeps r s (here.keeps r s held), fun later member m point => ?_⟩
    · rcases mem_cons.mp member with rfl | inRest
      · rw [foldl_cons, rest.others _ distinct.1, here.overlay, loadedDef,
          Memtable.overlay_setOverlay_self]
      · have different : later.1 ≠ entry.1 := by
          intro same
          rw [← same] at distinct
          exact distinct.1 (mem_map_of_mem inRest)
        rw [foldl_cons, rest.loaded later inRest, otherOverlays _ different]
    · rw [map_cons, mem_cons, not_or] at absent
      rw [foldl_cons, rest.others s absent.2, otherOverlays s absent.1]
    · rcases mem_cons.mp member with rfl | inRest
      · exact rest.keeps _ _ (here.adds m point)
      · have added := rest.adds later inRest m point
        rwa [here.global.root_eq] at added

/-! ## A stack of files -/

/-- The point is an endpoint of a pair some file holds for the scope. -/
def Mentions (files : List PuffinBase) (s : ScopeId) (m : NodeId) : Prop :=
  ∃ file ∈ files, m ∈ endpoints (file.overlay s)

theorem mem_endpoints_of_mem (member : pair ∈ pairs) :
    pair.1 ∈ endpoints pairs ∧ pair.2 ∈ endpoints pairs := by
  constructor
  · exact mem_flatMap.mpr ⟨pair, member, by simp⟩
  · exact mem_flatMap.mpr ⟨pair, member, by simp⟩

/-- A table mentions what it moves, and where it moves it to. -/
theorem mem_endpoints_of_moved (resolved : Resolved pairs) (moved : tableRoot pairs x ≠ x) :
    x ∈ endpoints pairs ∧ tableRoot pairs x ∈ endpoints pairs := by
  rcases mem_map.mp ((resolved.tableRoot_ne_iff x).mp moved) with ⟨pair, member, rfl⟩
  rw [tableRoot_of_mem resolved.nodup (y := pair.2) member]
  exact mem_endpoints_of_mem member

/-- Where a stack moves a point to is mentioned by some file. -/
theorem mentions_stackOverlay (wellFormed : ∀ file ∈ files, file.WellFormed) (x : NodeId) :
    stackOverlay files s x = x ∨ Mentions files s (stackOverlay files s x) := by
  induction files generalizing x with
  | nil => exact Or.inl rfl
  | cons file files ih =>
    have here := (wellFormed file mem_cons_self).overlays s
    have unfolded : stackOverlay (file :: files) s x =
        stackOverlay files s (file.overlayRoot s x) := rfl
    rcases ih (fun later member => wellFormed later
      (mem_cons_of_mem file member)) (file.overlayRoot s x) with fixed | ⟨later, inRest, at_⟩
    · rw [unfolded, fixed]
      by_cases moved : file.overlayRoot s x = x
      · exact Or.inl moved
      · exact Or.inr ⟨file, mem_cons_self, (mem_endpoints_of_moved here moved).2⟩
    · rw [unfolded]
      exact Or.inr ⟨later, mem_cons_of_mem file inRest, at_⟩

theorem mentions_of_touches (ok : StackOk files) (touched : Touches (stackOverlay files s) x) :
    Mentions files s x := by
  rcases touched with moved | ⟨y, different, hit⟩
  · by_contra unmentioned
    apply moved
    apply (stackRoot_eq_self_iff (ok.overlay s).rootMap x).mpr
    intro root member
    rcases mem_map.mp member with ⟨file, inFiles, rfl⟩
    by_contra movedHere
    exact unmentioned ⟨file, inFiles,
      (mem_endpoints_of_moved ((ok.wellFormed file inFiles).overlays s) movedHere).1⟩
  · rcases mentions_stackOverlay ok.wellFormed (s := s) y with fixed | mentioned
    · rw [hit] at fixed
      exact absurd fixed.symm different
    · rwa [hit] at mentioned

/-- The memtable holds what the files hold.  A scope is registered at every
shared root that some file mentions for it. -/
structure Hydrated (f : ScopedForest LayeredBase) (files : List PuffinBase) : Prop where
  base : f.tier.base = none
  global : f.tier.mem.global.Decreasing
  overlays : ∀ s, (f.tier.mem.overlay s).Decreasing
  shared : f.tier.mem.global.root = stackShared files
  overlay : ∀ s, f.tier.mem.overlayRoot s = stackOverlay files s
  registered : ∀ s m, Mentions files s m → stackShared files m = m → s ∈ f.tier.mem.scopesAt m

theorem hydrated_nil (fresh : f.tier = ⟨none, Memtable.new memberIndex⟩) : Hydrated f [] := by
  refine ⟨?_, ?_, fun s => ?_, ?_, fun s => ?_, ?_⟩
  · rw [fresh]
  · rw [fresh]
    exact Dsu.decreasing_trackingMembers _
  · rw [fresh, Memtable.overlay_new]
    exact Dsu.decreasing_trackingMembers _
  · rw [fresh]
    funext x
    exact Dsu.root_trackingMembers _ x
  · rw [fresh]
    funext x
    exact Memtable.overlayRoot_new _ s x
  · rintro s m ⟨file, impossible, -⟩
    cases impossible

/-- Loading a file loads its shared pairs first and then the overlay of each of its
scopes. -/
theorem loadsScopes_hydrate (decreasing : (f.tier.mem.global.hydrate file.shared).Decreasing) :
    LoadsScopes file.overlays.toList
      (f.tier.mem.setGlobal (f.tier.mem.global.hydrate file.shared))
      (f.hydrate (blobsToSnapshot file)).tier.mem := by
  have distinct : (file.overlays.toList.map Prod.fst).Nodup := by
    rw [Std.TreeMap.map_fst_toList_eq_keys]
    exact Std.TreeMap.nodup_keys
  exact loadsScopes_hydrateScopes distinct (f := f.setTier { f.tier with
    mem := f.tier.mem.setGlobal (f.tier.mem.global.hydrate file.shared) }) decreasing

/-- The overlay of a scope is loaded if the file has one. -/
theorem LoadsScopes.overlay {mem' : Memtable} (loads : LoadsScopes file.overlays.toList mem mem')
    (s : ScopeId) :
    mem'.overlay s = mem.overlay s ∧ file.overlay s = [] ∨
      mem'.overlay s = (mem.overlay s).hydrate (file.overlay s) ∧
        (s, file.overlay s) ∈ file.overlays.toList := by
  cases present : file.overlays[s]? with
  | none =>
    have unlisted : s ∉ file.overlays.toList.map Prod.fst := by
      rw [Std.TreeMap.map_fst_toList_eq_keys, Std.TreeMap.mem_keys,
        Std.TreeMap.mem_iff_isSome_getElem?, present]
      simp
    refine Or.inl ⟨loads.others s unlisted, ?_⟩
    rw [PuffinBase.overlay, Std.TreeMap.getD_eq_getD_getElem?, present]
    rfl
  | some pairs =>
    have same : file.overlay s = pairs := by
      rw [PuffinBase.overlay, Std.TreeMap.getD_eq_getD_getElem?, present]
      rfl
    have entry : (s, file.overlay s) ∈ file.overlays.toList := by
      rw [same]
      exact Std.TreeMap.mem_toList_iff_getElem?_eq_some.mpr present
    exact Or.inr ⟨loads.loaded _ entry, entry⟩

/-- Loading one more file composes its tables with what is there. -/
theorem Hydrated.hydrate (hydrated : Hydrated f files) (ok : StackOk (files ++ [file])) :
    Hydrated (f.hydrate (blobsToSnapshot file)) (files ++ [file]) := by
  rcases StackOk.pop ok with ⟨here, sharedOver, overlayOver⟩
  have global := Dsu.hydrate_spec hydrated.global here.shared (by
    rw [hydrated.shared]
    exact sharedOver)
  have loads := loadsScopes_hydrate global.1
  have loaded : ∀ s, ((f.hydrate (blobsToSnapshot file)).tier.mem.overlay s).Decreasing ∧
      ∀ x, ((f.hydrate (blobsToSnapshot file)).tier.mem.overlay s).root x =
        file.overlayRoot s (f.tier.mem.overlayRoot s x) := by
    intro s
    rcases loads.overlay s with ⟨kept, empty⟩ | ⟨loaded, -⟩
    · rw [kept, PuffinBase.overlayRoot, empty]
      exact ⟨hydrated.overlays s, fun x => rfl⟩
    · rw [loaded]
      exact Dsu.hydrate_spec (hydrated.overlays s) (here.overlays s) (by
        have atop := overlayOver s
        rw [← hydrated.overlay] at atop
        exact atop)
  have sharedEq :
      stackShared (files ++ [file]) = fun x => file.sharedRoot (stackShared files x) := by
    funext x
    simp [stackShared, stackRoot_append]
  have rootEq : (f.tier.mem.global.hydrate file.shared).root = stackShared (files ++ [file]) := by
    funext x
    rw [global.2, sharedEq, hydrated.shared]
    rfl
  refine ⟨?_, loads.global.decreasing, fun s => (loaded s).1, ?_, fun s => ?_, ?_⟩
  · exact (base_hydrateScopes _ _).trans hydrated.base
  · rw [loads.global.root_eq]
    exact rootEq
  · funext x
    refine ((loaded s).2 x).trans ?_
    rw [hydrated.overlay]
    simp [stackOverlay, stackRoot_append]
  · rintro s m ⟨mentioning, member, point⟩ fixed
    rcases mem_append.mp member with older | newest
    · -- what the whole stack fixes, the older files fix as well
      apply loads.keeps
      apply hydrated.registered s m ⟨mentioning, older, point⟩
      apply stackRoot_fixed_of_subset ok.shared.rootMap _ fixed
      exact map_subset _ (subset_append_left _ _)
    · rw [mem_singleton.mp newest] at point
      rcases loads.overlay s with ⟨-, empty⟩ | ⟨-, entry⟩
      · rw [empty] at point
        cases point
      · have added := loads.adds _ entry m point
        have live : (f.tier.mem.setGlobal (f.tier.mem.global.hydrate file.shared)).global.root m =
            m := by
          change (f.tier.mem.global.hydrate file.shared).root m = m
          rw [rootEq, fixed]
        rwa [live] at added

/-- A memtable that holds the files answers as they do. -/
theorem Hydrated.onDisk (hydrated : Hydrated f files) (routes : Routes files events) :
    f.OnDisk events := by
  have baseShared : ∀ x, RoutingBase.sharedRoot f.tier.base x = x := by
    intro x
    rw [hydrated.base]
    rfl
  have baseOverlay : ∀ s x, RoutingBase.overlayRoot f.tier.base s x = x := by
    intro s x
    rw [hydrated.base]
    rfl
  have shared : f.tier.view.shared = stackShared files := by
    funext x
    change f.tier.mem.global.root (RoutingBase.sharedRoot f.tier.base x) = _
    rw [baseShared, hydrated.shared]
  have overlay : f.tier.view.overlay = stackOverlay files := by
    funext s x
    change f.tier.mem.overlayRoot s (RoutingBase.overlayRoot f.tier.base s x) = _
    rw [baseOverlay, hydrated.overlay]
  refine ⟨⟨⟨?_, hydrated.global, hydrated.overlays, fun x _ => ?_, fun s x _ => ?_⟩, ?_⟩, ?_⟩
  · rw [hydrated.base]
    exact RoutingBase.lawful_none
  · exact ⟨baseShared x, baseShared _⟩
  · exact ⟨baseOverlay s x, baseOverlay s _⟩
  · apply routes.view.rerecord shared overlay
    · intro s x touched
      apply Or.inl
      apply hydrated.registered
      · exact mentions_of_touches routes.stack (routes.view.touches_shared touched)
      · exact routes.view.shared.rootMap.idem x
    · rintro s x (moved | ⟨y, different, hit⟩)
      · refine Or.inr ⟨x, ?_, Or.inl ?_⟩
        · rw [hydrated.overlay]
          exact moved
        · rw [baseShared, hydrated.shared]
          rfl
      · refine Or.inr ⟨y, ?_, Or.inr ?_⟩
        · rw [hydrated.overlay]
          intro fixed
          exact different (fixed.symm.trans hit)
        · rw [baseShared, hydrated.shared, hydrated.overlay]
          exact congrArg (stackShared files) hit
  · rw [hydrated.base]
    exact stackOk_nil

end ScopedForest

/-- Load the committed routing state into memory. -/
def hydrateAll (forest : ScopedForest LayeredBase) (files : List PuffinBase) :
    ScopedForest LayeredBase :=
  files.foldl (fun forest file => forest.hydrate (blobsToSnapshot file)) forest

/-- Loading all files, oldest first, leaves a memtable that holds them all. -/
theorem hydrated_hydrateAll {older : List PuffinBase} (hydrated : f.Hydrated older)
    (ok : StackOk (older ++ files)) : (hydrateAll f files).Hydrated (older ++ files) := by
  induction files generalizing f older with
  | nil =>
    rw [append_nil]
    exact hydrated
  | cons file files ih =>
    rw [append_cons] at ok ⊢
    exact ih (hydrated.hydrate (StackOk.of_append_left ok)) ok

/-- A forest hydrated from files answers as the files do. -/
theorem onDisk_hydrateAll (fresh : f.tier = ⟨none, Memtable.new memberIndex⟩)
    (routes : Routes files events) : (hydrateAll f files).OnDisk events :=
  (hydrated_hydrateAll (ScopedForest.hydrated_nil fresh) routes.stack).onDisk routes

end Blaze
