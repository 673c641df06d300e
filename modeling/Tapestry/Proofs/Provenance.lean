import Tapestry.File.Library
import Tapestry.Proofs.BuildLimits
import Tapestry.Proofs.SourceStatements
import Tapestry.Proofs.TypeSoundness
import Tapestry.Proofs.VisitTree

/-!
# Where instructions come from

The expressions that an expansion visits were all written in units it has read: those of the
main source, those of the units it loads, and those kept in templates and caller blocks until
they are expanded, each under the name of its own unit and the number of the parse that gave it. So
the place noted for an instruction is the place of a statement in the unit it names.

The instructions of a build are those of its visits, one visit behind the other. An instruction at an
index belongs to the visit whose stretch covers the index; it was emitted where that visit was made,
by the built-in function that the first word of its statement names there.
-/

namespace Tapestry

/-- No built-in function is a template. -/
theorem Function.isBuiltin_of_mem_builtins : ∀ f ∈ Function.builtins, f.isBuiltin = true := by
  decide

namespace Expansion

variable {units : Text → Except Failure (List Node)} {files : List Text} {file name : Text}
  {node : Node} {body : List Node} {env : Env} {setup : Setup} {frame : Frame} {parse : Nat}
  {visit : Visit}

/-- An expression whose statements are all statements of a unit. -/
def Written (units : Text → Except Failure (List Node)) (file : Text) (node : Node) : Prop :=
  ∃ unit, units file = .ok unit ∧ node.statements ⊆ Node.bodyStatements unit

/-- Nodes made of the statements of an expression are written where it is. -/
theorem Written.of_subset (h : Written units file node)
    (hsubset : Node.bodyStatements body ⊆ node.statements) :
    ∀ child ∈ body, Written units file child := by
  obtain ⟨unit, hunit, hnode⟩ := h
  exact fun child hchild =>
    ⟨unit, hunit, fun _ hmem => hnode (hsubset (Node.statements_subset_of_mem hchild hmem))⟩

/-- A unit read keeps its number as more units are read. -/
theorem getElem?_of_more {more : List Text} (h : files[parse]? = some file)
    (hmore : files <+: more) :
    more[parse]? = some file := by
  obtain ⟨later, rfl⟩ := hmore
  rw [List.getElem?_append_left (List.getElem?_eq_some_iff.mp h).1, h]

/-- A body kept for later: the parse that gave it is that of its unit, and its expressions were written
there. -/
structure Stored (units : Text → Except Failure (List Node)) (files : List Text) (parse : Nat)
    (file : Text) (body : List Node) : Prop where
  file_eq : files[parse]? = some file
  written : ∀ node ∈ body, Written units file node

/-- A body stays stored as more units are read. -/
theorem Stored.mono {more : List Text} (h : Stored units files parse file body)
    (hmore : files <+: more) : Stored units more parse file body :=
  ⟨getElem?_of_more h.file_eq hmore, h.written⟩

/-- An environment whose templates and blocks are stored. -/
structure EnvStored (units : Text → Except Failure (List Node)) (files : List Text) (env : Env) :
    Prop where
  templates : ∀ f, .func f ∈ env.symbols → f.isBuiltin = false →
    Stored units files f.parse f.file f.body
  blocks : ∀ entry ∈ env.blocks, Stored units files entry.2.parse entry.2.file entry.2.body

namespace EnvStored

/-- An environment stays stored as more units are read. -/
theorem mono {more : List Text} (h : EnvStored units files env) (hmore : files <+: more) :
    EnvStored units more env :=
  ⟨fun f hf htemplate => (h.templates f hf htemplate).mono hmore,
    fun entry hentry => (h.blocks entry hentry).mono hmore⟩

/-- A variable can be installed. -/
theorem adds_var {after : Env} {v : Variable} (h : EnvStored units files env)
    (hadds : Env.Adds (.var v) env after) : EnvStored units files after := by
  refine ⟨fun f hf => ?_, hadds.blocks_eq ▸ h.blocks⟩
  rcases (hadds.mem_symbols _).mp hf with heq | hold
  · cases heq
  · exact h.templates f hold

/-- A stored template can be installed. -/
theorem adds_func {after : Env} {template : Function} (h : EnvStored units files env)
    (hadds : Env.Adds (.func template) env after)
    (hstored : Stored units files template.parse template.file template.body) : EnvStored units files after := by
  refine ⟨fun f hf => ?_, hadds.blocks_eq ▸ h.blocks⟩
  rcases (hadds.mem_symbols _).mp hf with heq | hold
  · obtain rfl : f = template := Symbol.func.inj heq
    exact fun _ => hstored
  · exact h.templates f hold

/-- A scope of variables and stored blocks can be entered. -/
theorem nested {scope : Scope} (h : EnvStored units files env) (vars : List Variable)
    (hvars : ∀ symbol ∈ scope.symbols, ∃ v ∈ vars, symbol = .var v)
    (hblocks : ∀ entry ∈ scope.blocks, Stored units files entry.2.parse entry.2.file entry.2.body) :
    EnvStored units files (.nested scope env) := by
  constructor
  · intro f hf
    rcases List.mem_append.mp (Env.symbols_nested scope env ▸ hf) with hinner | houter
    · obtain ⟨v, _, hv⟩ := hvars _ hinner
      cases hv
    · exact h.templates f houter
  · intro entry hentry
    rcases List.mem_append.mp (Env.blocks_nested scope env ▸ hentry) with hinner | houter
    · exact hblocks entry hinner
    · exact h.blocks entry houter

/-- A scope can be left. -/
theorem outer (h : EnvStored units files env) : EnvStored units files env.outer :=
  ⟨fun f hf => h.templates f (Env.symbols_outer_subset env hf),
    fun entry hentry => h.blocks entry (Env.blocks_outer_subset env hentry)⟩

/-- A template found under a name is stored. -/
theorem of_resolved {token : Token} {f : Function} (h : EnvStored units files env)
    (hf : env.resolveFunction token = .ok f) (htemplate : f.isBuiltin = false) :
    Stored units files f.parse f.file f.body :=
  h.templates f (Env.mem_of_resolveFunction hf).1 htemplate

end EnvStored

/-- A state all of whose expressions come from units read, each with the number of the parse that gave
it: `main` is among them, and so is the unit at work. -/
structure Traced (units : Text → Except Failure (List Node)) (main : Text) (trail : List Visit)
    (file : Text) (state : State) : Prop where
  main_mem : main ∈ state.files
  file_eq : state.files[Visit.parseInside trail]? = some file
  visits : ∀ visit ∈ state.visits, state.files[visit.parse]? = some visit.file
  trail : trail ⊆ state.visits
  env : EnvStored units state.files state.env

namespace Traced

variable {main origin : Text} {trail : List Visit} {state : State} {visit : Visit}

/-- A visit in the unit at work can be recorded. -/
theorem record (h : Traced units main trail file state) (hfile : visit.file = file)
    (hparse : visit.parse = Visit.parseInside trail) :
    Traced units main trail file (state.record visit) where
  main_mem := h.main_mem
  file_eq := h.file_eq
  visits := by
    refine List.forall_mem_cons.mpr ⟨?_, h.visits⟩
    rw [hparse, hfile]
    exact h.file_eq
  trail := List.subset_cons_of_subset visit h.trail
  env := h.env

/-- A visit that has been recorded can lead to expressions of another parse. -/
theorem inside (h : Traced units main trail file (state.record visit))
    (horigin : state.files[visit.bodyParse]? = some origin) :
    Traced units main (visit :: trail) origin (state.record visit) :=
  { h with
    file_eq := horigin
    trail := List.cons_subset.mpr ⟨List.mem_cons_self, h.trail⟩ }

/-- The unit of the innermost visit around may go on. -/
theorem back (h : Traced units main (visit :: trail) origin state) (hfile : visit.file = file)
    (hparse : visit.parse = Visit.parseInside trail) :
    Traced units main trail file state := by
  obtain ⟨hvisit, htrail⟩ := List.cons_subset.mp h.trail
  exact { h with
    file_eq := hfile ▸ hparse ▸ h.visits visit hvisit
    trail := htrail }

end Traced

/-- A template defined by an expression of a unit is stored under that unit. -/
theorem stored_of_definedFunction {wantsBlock : Bool} {token : Token} {lifetime : Lifetime}
    {template : Function} (hfile : files[visit.parse]? = some visit.file)
    (hwritten : Written units visit.file visit.node)
    (h : definedFunction wantsBlock visit name token lifetime = .ok template) :
    Stored units files template.parse template.file template.body := by
  have howned := Node.bodyStatements_body_subset visit.node
  obtain ⟨action, rfl, ⟨-, rfl⟩ | ⟨marked, -, hmarked, rfl⟩⟩ := exists_of_definedFunction h
  · exact ⟨hfile, hwritten.of_subset howned⟩
  · exact ⟨hfile, hwritten.of_subset (Node.bodyStatements_of_markAll hmarked ▸ howned)⟩

/-- A loader gives the units of a table under their names, `main` apart. -/
def LoadsFrom (loader : Loader) (units : Text → Except Failure (List Node)) (main : Text) : Prop :=
  ∀ target origin body, (loader target origin).content = .ok body →
    (loader target origin).name ≠ main → units (loader target origin).name = .ok body

/-- Steps keep every expression traced to its unit. -/
theorem traced_kept {main : Text} (hloads : LoadsFrom setup.loader units main) :
    Kept setup (Traced units main) (Written units) where
  done := by
    intro trail file node state record env hstate hnode hstep
    have hacts := acts_of_stepAt hstep
    have hrecorded := hstate.record hacts.record_file hacts.record_parse
    cases hacts with
    | idle | emit | included => exact hrecorded
    | register _ _ _ pushed =>
      exact { hrecorded with env := hstate.env.adds_var (Env.adds_of_push pushed) }
    | define _ _ _ _ defined pushed =>
      have hstored := stored_of_definedFunction hstate.file_eq hnode defined
      exact { hrecorded with env := hstate.env.adds_func (Env.adds_of_push pushed) hstored }
  enter := by
    intro trail file node state record scope body origin hstate hnode hstep
    have hacts := acts_of_stepAt hstep
    have hrecorded := hstate.record hacts.record_file hacts.record_parse
    cases hacts with
    | splice _ found =>
      have hblock := hstate.env.blocks _ (Env.mem_of_block? found)
      exact ⟨{ hrecorded.inside hblock.file_eq with
        env := hstate.env.nested [] (by simp [Scope.empty]) (by simp [Scope.empty]) },
        hblock.written⟩
    | @template function _ _ _ call action pushed =>
      have hstored := hstate.env.of_resolved call.resolved (by simp [Function.isBuiltin, action])
      refine ⟨{ hrecorded.inside hstored.file_eq with
        env := hstate.env.nested _ (Scope.exists_var_of_pushAll rfl pushed) ?_ }, ?_⟩
      · simp [Scope.eq_of_pushAll pushed, Scope.empty]
      · simpa only [Function.body, action] using hstored.written
    | @blockTemplate function _ _ _ call action pushed =>
      have hstored := hstate.env.of_resolved call.resolved (by simp [Function.isBuiltin, action])
      refine ⟨{ hrecorded.inside hstored.file_eq with
        env := hstate.env.nested _ (Scope.exists_var_of_pushAll rfl pushed) ?_ }, ?_⟩
      · intro entry hentry
        rw [Scope.eq_of_pushAll pushed] at hentry
        rcases Scope.mem_blocks_addBlock hentry with rfl | hold
        · exact ⟨hstate.file_eq, hnode.of_subset (Node.bodyStatements_body_subset node)⟩
        · cases hold
      · simpa only [Function.body, action] using hstored.written
  leave := by
    intro trail file node state record scope body origin after hstate hnode hstep hafter
    have hacts := acts_of_stepAt hstep
    exact { hafter.back hacts.record_file hacts.record_parse with env := hafter.env.outer }
  unit := by
    intro trail file node state record name body hstate hnode hstep
    have hacts := acts_of_stepAt hstep
    have hrecorded := hstate.record hacts.record_file hacts.record_parse
    have hmore : state.files <+: state.files ++ [name] := List.prefix_append _ _
    cases hacts with
    | unit call action path loaded outside fresh =>
      -- The unit is not the main one, which has been read from the start.
      have hmain : (setup.loader _ file).name ≠ main := fun heq => fresh (heq ▸ hstate.main_mem)
      have hunit := hloads _ _ _ loaded hmain
      exact ⟨{
        main_mem := hmore.subset hstate.main_mem
        file_eq := List.getElem?_concat_length
        visits := fun visit hvisit => getElem?_of_more (hrecorded.visits visit hvisit) hmore
        trail := List.cons_subset.mpr ⟨List.mem_cons_self, hrecorded.trail⟩
        env := hstate.env.mono hmore },
        fun child hchild => ⟨body, hunit, Node.statements_subset_of_mem hchild⟩⟩
  endUnit := by
    intro trail file node state record name body after hstate hnode hstep hafter
    have hacts := acts_of_stepAt hstep
    have hback := hafter.back hacts.record_file hacts.record_parse
    exact { hback with }

/-- Before the first expression everything is traced to the main unit. -/
theorem traced_initial (name : Text) (body : List Node) :
    Traced units name [] name (.initial name body) where
  main_mem := List.mem_singleton_self _
  file_eq := rfl
  visits := by simp [State.initial, Visit.root]
  trail := List.nil_subset _
  env := by
    constructor
    · intro f hf htemplate
      obtain ⟨g, hg, heq⟩ := exists_builtin_of_initial hf
      obtain rfl := Symbol.func.inj heq
      rw [Function.isBuiltin_of_mem_builtins f hg] at htemplate
      cases htemplate
    · simp [State.initial, Scope.initial]

/-- Every point reached is traced, and so are its expressions. -/
theorem traced_of_reached (hloads : LoadsFrom setup.loader units name)
    (hmain : units name = .ok body) (h : Reached setup name body frame) :
    Traced units name frame.trail frame.file frame.state ∧
      ∀ node ∈ frame.nodes, Written units frame.file node :=
  (traced_kept hloads).reached (traced_initial name body)
    (fun _ hnode => ⟨body, hmain, Node.statements_subset_of_mem hnode⟩) h

/-! ## Emitted instructions -/

/-- A visit of an expansion, with the visits before and after it in pre-order, was made where its
expression calls the built-in function that its first word names there, and its instructions are the
ones that this call emits. -/
inductive EmitsAt (setup : Setup) (name : Text) (body : List Node) (earlier : List Visit)
    (visit : Visit) (later : List Visit) : Prop where
  | mk {levels trail rest state function bindings}
      (reached : Reached setup name body ⟨levels + 1, trail, visit.file, visit.node :: rest, state⟩)
      (made : Frame.Makes setup (run setup name body)
        ⟨levels + 1, trail, visit.file, visit.node :: rest, state⟩ earlier visit later)
      (builtin : function ∈ Function.builtins)
      (named : function.name = visit.node.head.head.text)
      (call : Calls state.env visit.node function bindings)
      (emitted : visit.code = (stepCall setup.loader state (called state.env
        (Visit.start trail visit.node visit.file state.env) function bindings) function).record.code)

/-- A visit is about an expression of the unit it names. -/
theorem written_of_records {record : Visit} (hloads : LoadsFrom setup.loader units name)
    (hmain : units name = .ok body) (hreached : Reached setup name body frame)
    (hrecords : frame.Records setup record) :
    Written units record.file record.node := by
  obtain ⟨levels, trail, file, nodes, state⟩ := frame
  cases nodes with
  | nil => cases hrecords
  | cons node rest =>
    obtain ⟨rfl, rfl⟩ := Prod.mk.inj hrecords.place.1
    exact (traced_of_reached hloads hmain hreached).2 _ List.mem_cons_self

/-- A visit that has instructions was made by a call of a built-in function, which emits them. -/
theorem emitsAt_of_makes {earlier later : List Visit} {instruction : Instruction}
    (hreached : Reached setup name body frame)
    (hmakes : frame.Makes setup (run setup name body) earlier visit later)
    (hmem : instruction ∈ visit.code) : EmitsAt setup name body earlier visit later := by
  obtain ⟨levels, trail, file, nodes, state⟩ := frame
  cases nodes with
  | nil => cases hmakes.records
  | cons node rest =>
    cases levels with
    | zero =>
      -- A visit beyond the limit has emitted nothing.
      cases hmakes.records with
      | tooDeep => cases hmem
    | succ levels =>
      obtain ⟨rfl, rfl⟩ := Prod.mk.inj hmakes.records.place.1
      have hrecord := hmakes.record_eq
      have hacts := acts_of_stepAt (rfl : stepAt setup trail visit.file visit.node state = _)
      obtain ⟨function, bindings, call, hbuiltin⟩ :=
        hacts.calls_of_mem_code rfl (hrecord.symm ▸ hmem)
      have hfunction : function ∈ Function.builtins := by
        rcases call.sound (sound_of_reached hreached) with hfunction | htemplate
        · exact hfunction
        · cases hbuiltin.symm.trans htemplate
      refine .mk hreached hmakes hfunction (Env.mem_of_resolveFunction call.resolved).2 call ?_
      rw [← step_of_calls setup.loader call, ← stepAt, hrecord]

end Expansion

/-- A value that fits a signed 64-bit word does not wrap around. -/
theorem Number.wrap_of_le {n : Int} (hleast : least ≤ n) (hgreatest : n ≤ greatest) :
    wrap n = n := by
  unfold least at hleast
  unfold greatest at hgreatest
  unfold wrap span
  exact Int.bmod_eq_of_le (by omega) (by omega)

/-- A visit is located at its statement. -/
theorem Visit.location_of_placed {visit : Visit} (h : visit.node.head.Placed) :
    visit.location =
      { file := visit.file
        line := visit.node.head.line
        column := visit.node.head.head.column + 1 } := by
  have hline : visit.node.callee.line = visit.node.head.line := h.line_eq
  have hpos := h.line_pos
  have hnonneg := h.column_nonneg
  have hlt := h.column_lt
  have hwrap : Number.wrap (visit.node.callee.column + 1) = visit.node.head.head.column + 1 := by
    unfold Lines.limit at hlt
    apply Number.wrap_of_le
    · unfold Number.least Node.callee
      omega
    · unfold Number.greatest Node.callee
      omega
  simp [location, Token.position, hline, hwrap, show ¬ visit.node.head.line ≤ 0 by omega]

/-- An instruction belongs to the visit whose stretch covers its index, and so does its location. -/
theorem exists_covering_visit {visits : List Visit} {i : Nat} {instruction : Instruction}
    (h : (visits.flatMap Visit.code)[i]? = some instruction) :
    ∃ earlier visit later, visits = earlier ++ visit :: later ∧
      (earlier.flatMap Visit.code).length ≤ i ∧
        i < (earlier.flatMap Visit.code).length + visit.code.length ∧
          visit.code[i - (earlier.flatMap Visit.code).length]? = some instruction ∧
            (visits.flatMap Visit.locations)[i]? = some visit.location := by
  induction visits generalizing i with
  | nil => simp at h
  | cons visit rest ih =>
    have hlength : visit.locations.length = visit.code.length := by simp [Visit.locations]
    rw [List.flatMap_cons] at h
    by_cases hi : i < visit.code.length
    · rw [List.getElem?_append_left hi] at h
      refine ⟨[], visit, rest, rfl, Nat.zero_le i, by simpa using hi, h, ?_⟩
      rw [List.flatMap_cons, List.getElem?_append_left (hlength ▸ hi), Visit.locations,
        List.getElem?_map, h, Option.map_some]
    · rw [List.getElem?_append_right (by omega)] at h
      obtain ⟨earlier, found, later, rfl, hfrom, hto, hcode, hlocation⟩ := ih h
      refine ⟨visit :: earlier, found, later, rfl, ?_, ?_, ?_, ?_⟩
      · rw [List.flatMap_cons, List.length_append]
        omega
      · rw [List.flatMap_cons, List.length_append]
        omega
      · rw [List.flatMap_cons, List.length_append, ← Nat.sub_sub]
        exact hcode
      · rw [List.flatMap_cons, List.getElem?_append_right (by omega), hlength]
        exact hlocation

namespace Library

/-- The expressions of the unit of a name: the main source, or else a file of the library. -/
def unit (library : Library) (main source name : Text) : Except Failure (List Node) :=
  if name = main then Source.parse source
  else
    match library.find? name with
    | some entry => entry.parse name
    | none => .error (.trouble (.unitNotFound name))

/-- What a library loads is what it has under the name given for it. -/
theorem exists_find?_of_loader {library : Library} {target origin : Text} {body : List Node}
    (h : (library.loader target origin).content = .ok body) :
    ∃ entry, library.find? (library.loader target origin).name = some entry ∧
      entry.parse (library.loader target origin).name = .ok body := by
  unfold loader at *
  dsimp only at *
  split at h
  case h_1 name entry hfound =>
    obtain ⟨candidate, _, hcandidate⟩ := List.exists_of_findSome?_eq_some hfound
    obtain ⟨found, hopen, heq⟩ := Option.map_eq_some_iff.mp hcandidate
    obtain ⟨rfl, rfl⟩ := Prod.mk.inj heq
    exact ⟨found, hopen, h⟩
  case h_2 => cases h

/-- A library loads its own files. -/
theorem loadsFrom (library : Library) (main source : Text) :
    Expansion.LoadsFrom library.loader (library.unit main source) main := by
  intro target origin body hload hmain
  obtain ⟨entry, hopen, hparse⟩ := exists_find?_of_loader hload
  rw [unit, if_neg hmain, hopen]
  exact hparse

/-- The expressions of a unit come from a text. -/
theorem exists_parse_of_unit {library : Library} {main source name : Text} {body : List Node}
    (h : library.unit main source name = .ok body) : ∃ text, Source.parse text = .ok body := by
  unfold unit at h
  split at h
  case isTrue => exact ⟨source, h⟩
  case isFalse =>
    split at h
    case h_1 entry _ =>
      cases entry with
      | file contents => exact ⟨contents, h⟩
      | directory => cases h
    case h_2 => cases h

end Library

namespace Compiler

/-- Every instruction of a build has a location. It belongs to the visit whose stretch of the program
covers its index, and its location is that of this visit: the unit has been read, and on the line and
at the column a statement of that unit starts, the one that the visit is about. The instruction was
emitted where the visit was made, by calling the built-in function that the first word of the
statement names there. -/
theorem locations_trace_statements (library : Library) (maxDepth : Int) (name source : Text)
    {build : Build} (h : Compiler.build ⟨library.loader, maxDepth⟩ name source = some (.ok build)) :
    build.locations.length = build.code.length ∧
      ∃ setup body, WorksWith ⟨library.loader, maxDepth⟩ setup ∧ Source.parse source = .ok body ∧
        (Expansion.run setup name body).visits = build.visits ∧
        ∀ (i : Nat) (instruction : Instruction), build.code[i]? = some instruction →
          ∃ earlier visit later, build.visits = earlier ++ visit :: later ∧
            (earlier.flatMap Visit.code).length ≤ i ∧
            i < (earlier.flatMap Visit.code).length + visit.code.length ∧
            visit.code[i - (earlier.flatMap Visit.code).length]? = some instruction ∧
            build.locations[i]? = some visit.location ∧
            visit.location.file ∈ build.files ∧
            (∃ unit, library.unit name source visit.location.file = .ok unit ∧
              visit.node.head ∈ Node.bodyStatements unit ∧
              visit.node.head.line = visit.location.line ∧
              visit.node.head.head.column = visit.location.column - 1) ∧
            Expansion.EmitsAt setup name body earlier visit later := by
  have hlength : build.locations.length = build.code.length := by
    simp [Build.locations, Build.code, Visit.locations, List.length_flatMap]
  obtain ⟨setup, hworks, hbuild⟩ := exists_setup_of_build h
  obtain ⟨body, last, hparse, hrun, rfl⟩ := Expansion.Setup.exists_ready_of_build hbuild
  have hloads : Expansion.LoadsFrom setup.loader (library.unit name source) name :=
    hworks.loader ▸ library.loadsFrom name source
  have hmain : library.unit name source name = .ok body := by simp [Library.unit, hparse]
  have hvisits : (Expansion.run setup name body).visits = last.visits.reverse := by rw [hrun]; rfl
  refine ⟨hlength, setup, body, hworks, hparse, hvisits, ?_⟩
  intro i instruction hcode
  obtain ⟨earlier, visit, later, hsplit, hfrom, hto, hown, hlocation⟩ := exists_covering_visit hcode
  have hmem : instruction ∈ visit.code := List.mem_of_getElem? hown
  -- The root has no instructions, so the visit was made at a point reached.
  have hearlier : earlier ≠ [] := by
    rintro rfl
    obtain ⟨added, hadded⟩ := Expansion.exists_visits_eq setup name body
    obtain rfl := (List.cons.inj (hadded.symm.trans (hvisits.trans hsplit))).1
    cases hmem
  obtain ⟨frame, hreached, hmakes⟩ :=
    Expansion.exists_reached_of_visits (hvisits.trans hsplit) hearlier
  obtain ⟨unit, hunit, hsubset⟩ :=
    Expansion.written_of_records hloads hmain hreached hmakes.records
  have hstatement := hsubset visit.node.head_mem_statements
  obtain ⟨text, htext⟩ := Library.exists_parse_of_unit hunit
  have hplaced := Source.placed_of_mem_statements (Source.statements_of_parse htext) hstatement
  have hend := (Expansion.traced_of_reached hloads hmain (Expansion.reached_end hrun)).1
  have hvisit : visit ∈ last.visits := by
    have hmem : visit ∈ earlier ++ visit :: later := by simp
    rw [← hsplit] at hmem
    exact List.mem_reverse.mp hmem
  refine ⟨earlier, visit, later, hsplit, hfrom, hto, hown, hlocation, ?_, ?_,
    Expansion.emitsAt_of_makes hreached hmakes hmem⟩
  · rw [Visit.location_of_placed hplaced]
    exact List.mem_of_getElem? (hend.visits visit hvisit)
  · rw [Visit.location_of_placed hplaced]
    exact ⟨unit, hunit, hstatement, rfl, by simp⟩

/-- A unit with a block template and with a template that passes it a block. -/
def echoes : Library :=
  ⟨[("tools", Text.ofString "macroblock global twice\n    code\n    code\n" ++
    "macro global shout int n\n    twice\n        __plus n\n")]⟩

/-- A source that splices calls of the one template into the other, and then does itself what they
do. -/
def echoing : Text := "import 'tools'\ntwice\n    shout 2\n__plus 2\n"

/-- The last two instructions are equal. One comes from the innermost block, in the unit that was asked
for, and the other from the last statement of the source. -/
theorem locations_trace_statements_echoing :
    ∃ build, Compiler.build ⟨echoes.loader, 8⟩ "main" echoing = some (.ok build) ∧
      build.code[6]? = some (.moveCell 2) ∧ build.code[7]? = some (.moveCell 2) ∧
      ∃ setup body, WorksWith ⟨echoes.loader, 8⟩ setup ∧
        (∃ earlier visit later, build.visits = earlier ++ visit :: later ∧
          (earlier.flatMap Visit.code).length ≤ 6 ∧ visit.location = ⟨"tools", 6, 9⟩ ∧
            Text.ofString "tools" ∈ build.files ∧
              Expansion.EmitsAt setup "main" body earlier visit later) ∧
          ∃ earlier visit later, build.visits = earlier ++ visit :: later ∧
            (earlier.flatMap Visit.code).length ≤ 7 ∧ visit.location = ⟨"main", 4, 1⟩ ∧
              (∃ unit, echoes.unit "main" echoing "main" = .ok unit ∧
                visit.node.head ∈ Node.bodyStatements unit ∧ visit.node.head.line = 4 ∧
                  visit.node.head.head.column = 0) ∧
                Expansion.EmitsAt setup "main" body earlier visit later := by
  have hlast : (Expansion.Setup.build ⟨echoes.loader, 8⟩ "main" echoing).toOption.map (fun build =>
      ((build.code[6]?, build.locations[6]?), build.code[7]?, build.locations[7]?)) =
        some ((some (.moveCell 2), some ⟨"tools", 6, 9⟩), some (.moveCell 2), some ⟨"main", 4, 1⟩) := by
    decide +kernel
  obtain ⟨build, hresult, hparts⟩ := Option.map_eq_some_iff.mp hlast
  obtain ⟨hsixth, hseventh⟩ := Prod.mk.inj hparts
  obtain ⟨hcode, hlocation⟩ := Prod.mk.inj hsixth
  obtain ⟨hcode', hlocation'⟩ := Prod.mk.inj hseventh
  have hbuild : Compiler.build ⟨echoes.loader, 8⟩ "main" echoing = some (.ok build) :=
    (build_of_limit rfl "main" echoing).trans (congrArg some (eq_ok_of_toOption hresult))
  obtain ⟨_, setup, body, hworks, _, _, htrace⟩ := locations_trace_statements echoes 8 "main" echoing hbuild
  obtain ⟨earlier, visit, later, hsplit, hfrom, _, _, hplace, hfile, _, hemits⟩ := htrace 6 _ hcode
  obtain ⟨earlier', visit', later', hsplit', hfrom', _, _, hplace', _, hunit', hemits'⟩ :=
    htrace 7 _ hcode'
  have htools := Option.some.inj (hplace.symm.trans hlocation)
  have hmain := Option.some.inj (hplace'.symm.trans hlocation')
  rw [htools] at hfile
  rw [hmain] at hunit'
  exact ⟨build, hbuild, hcode, hcode', setup, body, hworks,
    ⟨earlier, visit, later, hsplit, hfrom, htools, hfile, hemits⟩,
    earlier', visit', later', hsplit', hfrom', hmain, hunit', hemits'⟩

end Compiler

end Tapestry
