import Tapestry.Proofs.ArgumentBinding
import Tapestry.Proofs.ExpansionFrames

/-!
# Type soundness

No point of an expansion has a reference among its variables: what a call binds has been looked
up, and all other variables are reserved cells. So whenever a built-in function is called, each
argument it looks up is bound, and to a value of the kind it asks for.

A definition looks up its own lifetime and name. It finds these, and not the kinds of the
parameters it declares, also when those are called `lifetime` or `name`.
-/

namespace Tapestry

/-- What a scope may hold: resolved variables, built-in functions, and templates. -/
def Symbol.Sound : Symbol → Prop
  | .var v => v.Resolved
  | .func f => f ∈ Function.builtins ∨ f.isBuiltin = false

namespace Function

variable {bindings : Bindings} {tokens : List Token} {wantsBlock : Bool} {f : Function}

/-- The lookups of a definition give the first two words of its header. -/
def FindsHeader (tokens : List Token) (bindings : Bindings) : Prop :=
  ∃ first second rest lifetime name,
    tokens = first :: second :: rest ∧
      Value.readLifetime first = .ok lifetime ∧
        Bindings.lifetime? bindings "lifetime" = some lifetime ∧
          Value.readIdentifier second = .ok name ∧
            Bindings.identifier? bindings "name" = some (name, second)

/-- Nothing a header declares hides its own lifetime and name. -/
theorem ReadsHeader.findsHeader (h : ReadsHeader tokens bindings) :
    FindsHeader tokens bindings := by
  obtain ⟨hlifetime, hname, _⟩ := h
  have hother : (Text.ofString "lifetime" == Text.ofString "name") = false := by decide
  exact ⟨_, _, _, _, _, rfl, hlifetime, by simp [Bindings.lifetime?, Bindings.get?], hname, by
    simp [Bindings.identifier?, Bindings.get?, hother]⟩

/-- A definition finds all it looks up in its header. -/
theorem ReadsHeader.supplied (h : ReadsHeader tokens bindings) :
    (Action.define wantsBlock).Supplied bindings := by
  obtain ⟨_, _, _, _, _, _, _, hlifetime, _, hname⟩ := h.findsHeader
  obtain ⟨_, _, hkinds⟩ := h
  refine ⟨by simp [hlifetime], by simp [hname], by simp, fun v hv => ?_⟩
  obtain ⟨kind, hkind⟩ := hkinds v hv
  simp [Value.kind, hkind, Datum.kindOf]

/-- A definition binds its header. -/
theorem readsHeader_of_bind {env : Env} (hf : f ∈ builtins)
    (haction : f.action = .define wantsBlock) (h : f.bind tokens env = .ok bindings) :
    ReadsHeader tokens bindings := by
  have hinterface := interface?_of_mem_builtins f hf
  simp only [haction, Action.interface?, Option.some.injEq, Prod.mk.injEq] at hinterface
  simp only [bind, ← hinterface.1] at h
  exact readsHeader_of_bindHeader h

/-- A built-in function finds every argument it looks up. -/
theorem supplied_of_bind {env : Env} (hf : (Symbol.func f).Sound)
    (henv : ∀ v ∈ env.vars, v.Resolved) (h : f.bind tokens env = .ok bindings) :
    f.action.Supplied bindings := by
  rcases hf with hf | hf
  · have hinterface := interface?_of_mem_builtins f hf
    -- The words are bound one by one to the parameters that the action declares.
    have htakes {params : List Param} (hparams : f.action.interface? = some (.positional, params)) :
        List.Forall₂ Param.Takes params bindings := by
      obtain ⟨hstyle, rfl⟩ := Prod.mk.inj (Option.some.inj (hinterface.symm.trans hparams))
      simp only [bind, hstyle] at h
      exact takes_of_bindPositional henv h
    cases haction : f.action with
    | primitive emitter =>
      exact Primitive.isSome_code? (htakes (by rw [haction]; rfl))
    | register =>
      obtain ⟨bound, hbound⟩ :=
        Bindings.exists_identifier? "name" (htakes (by rw [haction]; rfl)) (by decide)
      simp [Action.Supplied, hbound]
    | expandUnit =>
      obtain ⟨contents, hcontents⟩ :=
        Bindings.exists_str? "path" (htakes (by rw [haction]; rfl)) (by decide)
      simp [Action.Supplied, hcontents]
    | define wantsBlock => exact (readsHeader_of_bind hf haction h).supplied
    | template body | blockTemplate body => trivial
  · unfold isBuiltin at hf
    split at hf
    case h_1 body haction => simp [haction, Action.Supplied]
    case h_2 body haction => simp [haction, Action.Supplied]
    case h_3 => cases hf

end Function

namespace Expansion

variable {visit : Visit} {frame : Frame}

/-- Every variable of a state is resolved, in each scope and in what each visit has bound. -/
structure State.Resolved (state : State) : Prop where
  vars : ∀ v ∈ state.env.vars, v.Resolved
  bindings : ∀ visit ∈ state.visits, ∀ v ∈ visit.bindings, v.Resolved

/-- A state with nothing in it but what its scopes may hold. -/
structure State.Sound (state : State) : Prop where
  symbols : ∀ symbol ∈ state.env.symbols, symbol.Sound
  bindings : ∀ visit ∈ state.visits, ∀ v ∈ visit.bindings, v.Resolved

namespace State.Sound

variable {state : State}

/-- The variables of a sound state are resolved. -/
theorem vars (h : state.Sound) : ∀ v ∈ state.env.vars, v.Resolved :=
  fun _ hv => h.symbols _ (Env.mem_vars_iff.mp hv)

/-- A sound state is resolved. -/
theorem resolved (h : state.Sound) : state.Resolved := ⟨h.vars, h.bindings⟩

/-- A visit that has bound resolved variables can be recorded. -/
theorem record (h : state.Sound) {visit : Visit} (hvisit : ∀ v ∈ visit.bindings, v.Resolved) :
    (state.record visit).Sound :=
  ⟨h.symbols, List.forall_mem_cons.mpr ⟨hvisit, h.bindings⟩⟩

/-- A sound symbol can be installed. -/
theorem adds (h : state.Sound) {symbol : Symbol} {env : Env} (hadds : Env.Adds symbol state.env env)
    (hsymbol : symbol.Sound) : { state with env }.Sound := by
  refine ⟨fun other hother => ?_, h.bindings⟩
  rcases (hadds.mem_symbols other).mp hother with rfl | hold
  · exact hsymbol
  · exact h.symbols other hold

/-- A scope of resolved variables can be entered. -/
theorem enter (h : state.Sound) {scope : Scope} (hscope : ∀ symbol ∈ scope.symbols, symbol.Sound) :
    (state.enter scope).Sound := by
  refine ⟨fun symbol hsymbol => ?_, h.bindings⟩
  rcases List.mem_append.mp (Env.symbols_nested scope state.env ▸ hsymbol) with hinner | houter
  · exact hscope symbol hinner
  · exact h.symbols symbol houter

/-- A scope can be left. -/
theorem leave (h : state.Sound) : state.leave.Sound :=
  ⟨fun symbol hsymbol => h.symbols symbol (Env.symbols_outer_subset _ hsymbol), h.bindings⟩

end State.Sound

variable {setup : Setup} {state : State} {trail : List Visit} {file : Text} {node : Node}
  {function : Function} {bindings : Bindings}

/-- What a call binds is resolved. -/
theorem Calls.resolved_bindings (hstate : state.Sound)
    (call : Calls state.env node function bindings) : ∀ v ∈ bindings, v.Resolved :=
  Function.resolved_of_bind hstate.vars call.bound

/-- The function of a call is sound. -/
theorem Calls.sound (hstate : state.Sound) (call : Calls state.env node function bindings) :
    (Symbol.func function).Sound :=
  hstate.symbols _ (Env.mem_of_resolveFunction call.resolved).1

/-- A visit binds only resolved variables, however far it comes. -/
theorem Began.resolved_bindings (hstate : state.Sound) {record : Visit}
    (hvisit : visit.bindings = []) (h : Began state.env visit record) :
    ∀ v ∈ record.bindings, v.Resolved := by
  cases h with
  | start => simp [hvisit]
  | found _ => simp [hvisit]
  | bound call => exact call.resolved_bindings hstate

/-- A step records a visit that has bound only resolved variables. -/
theorem Acts.resolved_bindings {loader : Loader} (hstate : state.Sound)
    (hvisit : visit.bindings = []) {outcome : Step} (h : Acts loader state visit outcome) :
    ∀ v ∈ outcome.record.bindings, v.Resolved := by
  cases h with
  | fail began => exact began.resolved_bindings hstate hvisit
  | splice _ _ => simp [Step.record, hvisit]
  | idle call | emit call | register call | define call | included call | unit call
  | template call | blockTemplate call => exact call.resolved_bindings hstate

/-- The arguments of a template make a sound scope. -/
theorem sound_of_pushAll {scope after : Scope} (hempty : scope.symbols = [])
    (hbindings : ∀ v ∈ bindings, v.Resolved) (h : scope.pushAll (bindings.map .var) = .ok after) :
    ∀ symbol ∈ after.symbols, symbol.Sound := by
  intro symbol hsymbol
  obtain ⟨v, hv, rfl⟩ := Scope.exists_var_of_pushAll hempty h symbol hsymbol
  exact hbindings v hv

/-- A defined template is no built-in function. -/
theorem sound_of_definedFunction {wantsBlock : Bool} {name : Text} {token : Token}
    {lifetime : Lifetime} {template : Function}
    (h : definedFunction wantsBlock visit name token lifetime = .ok template) :
    (Symbol.func template).Sound := by
  obtain ⟨action, rfl, ⟨-, rfl⟩ | ⟨marked, -, -, rfl⟩⟩ := exists_of_definedFunction h <;>
    exact .inr rfl

/-- Steps keep states sound. -/
theorem sound_kept (setup : Setup) : Kept setup (fun _ _ => State.Sound) (fun _ _ => True) where
  done := by
    intro trail file node state record env hstate _ hstep
    have hacts := acts_of_stepAt hstep
    have hrecorded : (state.record record).Sound :=
      hstate.record (hacts.resolved_bindings hstate rfl)
    cases hacts with
    | idle | emit | included => exact hrecorded
    | register _ _ _ pushed => exact hrecorded.adds (Env.adds_of_push pushed) rfl
    | define _ _ _ _ defined pushed =>
      exact hrecorded.adds (Env.adds_of_push pushed) (sound_of_definedFunction defined)
  enter := by
    intro trail file node state record scope body origin hstate _ hstep
    have hacts := acts_of_stepAt hstep
    have hrecorded : (state.record record).Sound :=
      hstate.record (hacts.resolved_bindings hstate rfl)
    refine ⟨hrecorded.enter ?_, fun _ _ => trivial⟩
    cases hacts with
    | splice => simp [Scope.empty]
    | template call _ pushed =>
      exact sound_of_pushAll rfl (call.resolved_bindings hstate) pushed
    | blockTemplate call _ pushed =>
      exact sound_of_pushAll rfl (call.resolved_bindings hstate) pushed
  leave := fun _ _ _ hafter => hafter.leave
  unit := by
    intro trail file node state record name body hstate _ hstep
    have hrecorded : (state.record record).Sound :=
      hstate.record ((acts_of_stepAt hstep).resolved_bindings hstate rfl)
    exact ⟨⟨hrecorded.symbols, hrecorded.bindings⟩, fun _ _ => trivial⟩
  endUnit := fun _ _ _ hafter => ⟨hafter.symbols, hafter.bindings⟩

/-- The state before the first expression is sound. -/
theorem sound_initial (name : Text) (body : List Node) : (State.initial name body).Sound := by
  refine ⟨fun symbol hsymbol => ?_, by simp [State.initial, Visit.root]⟩
  obtain ⟨f, hf, rfl⟩ := exists_builtin_of_initial hsymbol
  exact .inl hf

/-- Every point reached has a sound state. -/
theorem sound_of_reached {name : Text} {body : List Node} (h : Reached setup name body frame) :
    frame.state.Sound :=
  ((sound_kept setup).reached (sound_initial name body) (fun _ _ => trivial) h).1

/-- A point where no lookup can fail. -/
structure Frame.WellTyped (frame : Frame) : Prop where
  /-- No reference is stored. -/
  resolved : frame.state.Resolved
  /-- No call binds a reference. -/
  bound : ∀ {node function bindings}, Calls frame.state.env node function bindings →
    ∀ v ∈ bindings, v.Resolved
  /-- Every call finds the arguments it looks up. -/
  supplied : ∀ {node function bindings}, Calls frame.state.env node function bindings →
    function.action.Supplied bindings
  /-- Every definition finds its own lifetime and name. -/
  header : ∀ {node function bindings wantsBlock}, Calls frame.state.env node function bindings →
    function.action = .define wantsBlock → Function.FindsHeader node.arguments bindings

/-- No lookup fails where the state is sound. -/
theorem wellTyped_of_sound (h : frame.state.Sound) : frame.WellTyped where
  resolved := h.resolved
  bound call := call.resolved_bindings h
  supplied call := Function.supplied_of_bind (call.sound h) h.vars call.bound
  header := by
    intro node function bindings wantsBlock call haction
    rcases call.sound h with hbuiltin | htemplate
    · exact (Function.readsHeader_of_bind hbuiltin haction call.bound).findsHeader
    · simp [Function.isBuiltin, haction] at htemplate

/-- What a point records has bound only resolved variables. -/
theorem Frame.Records.resolved_bindings {record : Visit} (hstate : frame.state.Sound)
    (h : frame.Records setup record) :
    ∀ v ∈ record.bindings, v.Resolved := by
  cases h with
  | tooDeep => simp [Visit.start]
  | step => exact (acts_of_stepAt rfl).resolved_bindings hstate rfl

/-- The state an expansion comes to, or stops in, is resolved. -/
theorem resolved_run (setup : Setup) (name : Text) (body : List Node) :
    (run setup name body).state.Resolved := by
  cases hrun : run setup name body with
  | ready state => exact (sound_of_reached (reached_end hrun)).resolved
  | stopped state error =>
    obtain ⟨frame, record, hreached, hrecords, rfl, _⟩ := exists_reached_of_stopped hrun
    have hsound := sound_of_reached hreached
    exact (hsound.record (hrecords.resolved_bindings hsound)).resolved

/-- Whatever the program, the units it asks for and the limit on its depth, no lookup can fail at
any point of its expansion, and no reference is stored at any point or at the end. -/
theorem expansion_well_typed (setup : Setup) (name : Text) (body : List Node) :
    (∀ frame, Reached setup name body frame → frame.WellTyped) ∧
      (run setup name body).state.Resolved :=
  ⟨fun _ hreached => wellTyped_of_sound (sound_of_reached hreached), resolved_run setup name body⟩

/-- A definition whose parameters are called like the lookups of a definition, and its call. -/
def shadowing : List Node :=
  [ .block ⟨1, 0, ⟨1, 0, "macro"⟩,
      [⟨1, 6, "global"⟩, ⟨1, 13, "bump"⟩, ⟨1, 18, "int"⟩, ⟨1, 22, "name"⟩, ⟨1, 27, "address"⟩,
        ⟨1, 35, "lifetime"⟩], []⟩
      [.call ⟨2, 1, ⟨2, 4, "_add"⟩, [⟨2, 9, "lifetime"⟩, ⟨2, 18, "name"⟩], []⟩],
    .call ⟨3, 0, ⟨3, 0, "reg"⟩, [⟨3, 4, "x"⟩], []⟩,
    .call ⟨4, 0, ⟨4, 0, "bump"⟩, [⟨4, 5, "3"⟩, ⟨4, 7, "x"⟩], []⟩ ]

set_option maxRecDepth 4000 in
/-- The definition is reached with its header, and the call inside the template with what it adds. -/
theorem expansion_well_typed_shadowing :
    (∃ frame node function bindings,
      Reached ⟨fun _ _ => ⟨[], .ok []⟩, 8⟩ "main" shadowing frame ∧
        Calls frame.state.env node function bindings ∧ function.action = .define false ∧
          Function.FindsHeader node.arguments bindings) ∧
      ∃ frame node function bindings,
        Reached ⟨fun _ _ => ⟨[], .ok []⟩, 8⟩ "main" shadowing frame ∧
          Calls frame.state.env node function bindings ∧ function.action = .primitive .add ∧
            function.action.Supplied bindings ∧ bindings.length = 2 ∧
              ∀ v ∈ bindings, v.Resolved := by
  have hsound := (expansion_well_typed ⟨fun _ _ => ⟨[], .ok []⟩, 8⟩ "main" shadowing).1
  constructor
  · have hreached : Reached ⟨fun _ _ => ⟨[], .ok []⟩, 8⟩ "main" shadowing _ := .refl
    have hcall : Calls (State.initial "main" shadowing).env (shadowing.headD (.root [])) _ _ :=
      ⟨by rintro _ _ ⟨⟩, rfl, rfl, rfl⟩
    exact ⟨_, _, _, _, hreached, hcall, rfl, (hsound _ hreached).header hcall rfl⟩
  · -- Past the definition and the reserved cell, then into the template.
    obtain ⟨frame, function, bindings, hreached, hcall, haction, hlength⟩ :
        ∃ frame function bindings, Reached ⟨fun _ _ => ⟨[], .ok []⟩, 8⟩ "main" shadowing frame ∧
          Calls frame.state.env
            (.call ⟨2, 1, ⟨2, 4, "_add"⟩, [⟨2, 9, "lifetime"⟩, ⟨2, 18, "name"⟩], []⟩)
            function bindings ∧ function.action = .primitive .add ∧ bindings.length = 2 :=
      ⟨_, _, _, .tail (.tail (.tail .refl (.next rfl)) (.next rfl)) (.enter rfl),
        ⟨by rintro _ _ ⟨⟩, rfl, rfl, rfl⟩, rfl, rfl⟩
    exact ⟨frame, _, function, bindings, hreached, hcall, haction,
      (hsound _ hreached).supplied hcall, hlength, (hsound _ hreached).bound hcall⟩

end Expansion

end Tapestry
