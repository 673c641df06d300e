import Tapestry.Proofs.DiskPaths
import Tapestry.Proofs.ReadSet

/-!
# Building again

A build comes out the same on another disk and with other options, if every unit that its visits
ask for is still found under the same name and holds the same, and none of its visits is too deep.
-/

namespace Tapestry

namespace Expansion

section Shallow

variable {loader : Loader} {limit other levels : Nat} {trail : List Visit} {file : Text}
  {node : Node} {state : State}

/-- What comes about without deep visits comes about also under another limit with fewer levels
left. -/
theorem visit_of_fewer_levels (more : Nat)
    (h : ∀ v ∈ (visit ⟨loader, limit⟩ (levels + more) trail file node state).visits,
      v.depth ≤ levels + trail.length) :
    visit ⟨loader, other⟩ levels trail file node state =
      visit ⟨loader, limit⟩ (levels + more) trail file node state := by
  induction levels generalizing trail file node state with
  | zero =>
    -- The visit itself is too deep.
    obtain ⟨record, below, hrecords, hvisits, _⟩ :=
      visit_siblings ⟨loader, limit⟩ (0 + more) trail file node state
    have hdepth := (hrecords []).place.2.1
    have hle := h record (by rw [hvisits]; exact List.mem_append_right _ List.mem_cons_self)
    omega
  | succ less ih =>
    rw [Nat.add_right_comm] at h ⊢
    refine visit_succ_congr rfl fun hdescends => ?_
    rw [hdescends.visits_eq] at h
    refine visitAll_congr (fun progress => ∀ v ∈ progress.visits, v.depth ≤ less + 1 + trail.length)
      (fun _ _ _ hall v hv => hall v (visits_subset_visitAll hv)) (fun _ _ hvisit => ih ?_) h
    intro v hv
    have hle := hvisit v hv
    rw [List.length_cons]
    omega

/-- An expansion without deep visits is the same under any limit that they keep to. -/
theorem run_of_shallow {name : Text} {body : List Node} {last : State}
    (h : run ⟨loader, limit⟩ name body = .ready last) (hdepth : ∀ v ∈ last.visits, v.depth ≤ other) :
    run ⟨loader, other⟩ name body = .ready last := by
  rcases Nat.le_total limit other with hle | hle
  · rw [run_of_higher_limit hle, h]
    simp [h]
  · obtain ⟨more, rfl⟩ := Nat.exists_eq_add_of_le hle
    rw [← h]
    refine visitAll_congr (fun progress => ∀ v ∈ progress.visits, v.depth ≤ other)
      (fun _ _ _ hall v hv => hall v (visits_subset_visitAll hv))
      (fun _ _ => visit_of_fewer_levels more) ?_
    intro v hv
    refine hdepth v ?_
    have hready : visitAll (visit ⟨loader, other + more⟩ (other + more) [] name) body
        (.initial name body) = .ready last := h
    rw [hready] at hv
    exact List.mem_reverse.mp hv

end Shallow

end Expansion

namespace Disk

variable {disk other : Disk} {path origin target unit : Text} {search : List Text}
  {body : List Node} {build : Build} {options : BuildOptions}

/-- A file can be read. -/
theorem exists_read_of_isFile (h : disk.isFile path = true) :
    ∃ contents, disk.read path = .ok contents := by
  unfold isFile at h
  split at h
  case h_1 contents hfind => exact ⟨contents, read_eq_ok_iff.mpr hfind⟩
  case h_2 => cases h

/-- An absolute path has bytes. -/
theorem absolute_ne_nil (h : disk.working.Named) (path : Text) : disk.absolute path ≠ [] := by
  rw [absolute_eq h]
  exact List.cons_ne_nil _ _

/-- A unit that is found has a name. -/
theorem Rooted.name_ne_nil (h : disk.Rooted)
    (hloaded : disk.loader search target origin = ⟨unit, .ok body⟩) :
    unit ≠ [] := by
  unfold loader at hloaded
  split at hloaded
  case h_1 path _ =>
    obtain ⟨rfl, _⟩ := Loaded.mk.inj hloaded
    exact absolute_ne_nil h.working_named path
  case h_2 => cases hloaded

/-- A unit that is found holds what is read under its name. -/
theorem Rooted.loader_eq (h : disk.Rooted) {content : Except Failure (List Node)}
    (hunit : unit ≠ []) (hloaded : disk.loader search target origin = ⟨unit, content⟩) :
    ∃ contents, disk.read unit = .ok contents ∧ content = Source.parse contents := by
  unfold loader at hloaded
  split at hloaded
  case h_1 path hpath =>
    obtain ⟨rfl, rfl⟩ := Loaded.mk.inj hloaded
    obtain ⟨contents, hread⟩ := exists_read_of_isFile (List.find?_some hpath)
    refine ⟨contents, h.read_absolute hread, ?_⟩
    rw [parse, hread]
  case h_2 =>
    obtain ⟨rfl, _⟩ := Loaded.mk.inj hloaded
    exact absurd rfl hunit

/-- A unit that is found under the same name and holds the same is loaded alike. -/
theorem Rooted.loader_congr (h : disk.Rooted) (hother : other.Rooted) {again : List Text}
    (hloaded : disk.loader search target origin = ⟨unit, .ok body⟩)
    (hname : (other.loader again target origin).name = unit)
    (hsame : other.read unit = disk.read unit) :
    other.loader again target origin = ⟨unit, .ok body⟩ := by
  have hunit := h.name_ne_nil hloaded
  obtain ⟨contents, hread, hparse⟩ := h.loader_eq hunit hloaded
  cases hfound : other.loader again target origin with
  | mk name content =>
    obtain rfl : name = unit := by rwa [hfound] at hname
    obtain ⟨found, hagain, rfl⟩ := hother.loader_eq hunit hfound
    rw [hsame, hread] at hagain
    rw [hparse, Except.ok.inj hagain]

/-- A build is that of a file. -/
theorem exists_read_of_build (h : disk.build options path = .ok build) :
    ∃ contents, disk.read path = .ok contents ∧
      (disk.setup options).build (disk.absolute path) contents = .ok build := by
  unfold Disk.build at h
  split at h
  case h_1 => cases h
  case h_2 contents hread => exact ⟨contents, hread, h⟩

/-- A build comes out the same on another disk and with other options, if its main unit can be
opened, what its visits ask for is still found under the same names, all these units hold the same,
and no visit is deeper than the options allow. -/
theorem Rooted.build_again (h : disk.Rooted) (hother : other.Rooted) {again : BuildOptions}
    {source : Text} (hbuild : disk.build options path = .ok build)
    (hname : other.absolute source = disk.absolute path)
    (hopens : ∃ contents, other.read source = .ok contents)
    (hsame : ∀ file ∈ build.files, other.read file = disk.read file)
    (hfound : ∀ visit ∈ build.visits, ∀ target origin, visit.request? = some (target, origin) →
      (other.loader again.search target origin).name =
        (disk.loader options.search target origin).name)
    (hdepth : ∀ visit ∈ build.visits, visit.depth ≤ again.maxDepth) :
    other.build again source = .ok build := by
  obtain ⟨contents, hread, hbuilt⟩ := exists_read_of_build hbuild
  obtain ⟨body, last, hparse, hrun, rfl⟩ := Expansion.Setup.exists_ready_of_build hbuilt
  -- The main unit holds the same, under whatever path.
  have hmain : disk.absolute path ∈ last.files := by
    rw [(Expansion.keepsUnits_of_reached (Expansion.reached_end hrun)).files_eq]
    exact List.mem_cons_self
  have hsource : other.read source = .ok contents := by
    obtain ⟨found, hfound⟩ := hopens
    have hsame := hsame _ hmain
    rw [← hname, hother.read_absolute hfound, hname, h.read_absolute hread] at hsame
    rw [hfound, Except.ok.inj hsame]
  -- So the same expressions are gone through, with units loaded alike.
  have hrun : Expansion.run ⟨disk.loader options.search, options.maxDepth⟩
      (disk.absolute path) body = .ready last := hrun
  have hagain := Expansion.run_congr_of_ready hrun fun visit hvisit target origin hrequest unit hunit
      content hloaded => by
    have hstill := hfound visit (List.mem_reverse.mpr hvisit) target origin hrequest
    rw [hloaded] at hstill
    exact h.loader_congr hother hloaded hstill (hsame unit hunit)
  have hshallow := Expansion.run_of_shallow hagain fun visit hvisit =>
    hdepth visit (List.mem_reverse.mpr hvisit)
  rw [Disk.build, hsource]
  dsimp only
  rw [hname]
  rw [Expansion.Setup.build, hparse] at hbuilt ⊢
  rw [← hbuilt]
  exact congrArg Expansion.Progress.build (hshallow.trans hrun.symm)

end Disk

end Tapestry
