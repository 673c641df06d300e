import Tapestry.Proofs.DefinitionPlaces
import Tapestry.Proofs.FaultWords
import Tapestry.Proofs.TemplateSubstitution

/-!
# Templates can be called

A template in sight was declared by a header, so its parameters are names, no two of them the same.
A call binds its arguments under these names, and they can always be installed in the new scope of
the call: entering a template never fails.

Whatever a statement installs has a name, and names start with a letter. The words that start with an
underscore are left to the built-in functions, which stay in the root scope.
-/

namespace Tapestry

/-- What a scope may hold: a built-in function, a template that a header declares, or a variable
under a name. -/
def Symbol.Declared : Symbol → Prop
  | .func f => f ∈ Function.builtins ∨ ∃ header : Header, f.Follows header
  | .var v => Value.IsName v.name

namespace Symbol.Declared

variable {f : Function} {symbol : Symbol}

/-- A template that is declared follows a header. -/
theorem exists_header (h : (Symbol.func f).Declared) (htemplate : f.isBuiltin = false) :
    ∃ header : Header, f.Follows header := by
  rcases h with hmem | hheader
  · rw [Function.isBuiltin_of_mem_builtins f hmem] at htemplate
    cases htemplate
  · exact hheader

/-- A built-in function that is declared is one of the known ones. -/
theorem mem_builtins (h : (Symbol.func f).Declared) (hbuiltin : f.isBuiltin = true) :
    f ∈ Function.builtins := by
  rcases h with hmem | ⟨header, hfollows⟩
  · exact hmem
  · rw [hfollows.template] at hbuiltin
    cases hbuiltin

/-- Only a built-in function has a name that starts with an underscore. -/
theorem exists_builtin {text : Text} (h : symbol.Declared) (hname : symbol.name = text)
    (hreserved : text.head? = some 95) : ∃ f ∈ Function.builtins, symbol = .func f := by
  subst hname
  cases symbol with
  | func f =>
    rcases h with hmem | ⟨header, hfollows⟩
    · exact ⟨f, hmem, rfl⟩
    · exact absurd hreserved (Value.not_number_of_isIdentifier hfollows.isIdentifier_name).2.2
  | var v => exact absurd hreserved (Value.not_number_of_isIdentifier (Value.isIdentifier_iff.mpr h)).2.2

end Symbol.Declared

/-- The arguments of a template are bound under names of its parameters. -/
theorem Function.Follows.isName_of_bind {f : Function} {header : Header} {tokens : List Token}
    {env : Env} {bindings : Bindings} (hfollows : f.Follows header)
    (h : f.bind tokens env = .ok bindings) : ∀ v ∈ bindings, Value.IsName v.name := by
  simp only [bind, hfollows.style_eq, bindPositional] at h
  split at h
  case isTrue =>
    intro v hv
    have hname := (Param.of_bindAll h).2.subset (List.mem_map_of_mem hv)
    obtain ⟨param, hparam, heq⟩ := List.mem_map.mp hname
    rw [hfollows.params_eq] at hparam
    exact heq ▸ header.isName_of_mem_params param hparam
  case isFalse => cases h

/-! ## Reserved words -/

/-- The root scope is one of the scopes in sight. -/
theorem Env.rootScope_mem_scopes (env : Env) : env.rootScope ∈ env.scopes := by
  induction env with
  | root scope => exact List.mem_singleton_self scope
  | nested scope env ih => exact List.mem_cons_of_mem scope ih

/-- No two built-in functions have one name. -/
theorem Scope.nodup_names_initial : (Scope.initial.symbols.map Symbol.name).Nodup := by
  decide

/-- A built-in function is found under its name in a root scope that keeps them all. -/
theorem Scope.func?_of_mem_builtins {scope : Scope} {f : Function}
    (hroot : Scope.initial.symbols <+: scope.symbols) (hf : f ∈ Function.builtins) :
    scope.func? f.name = some f := by
  have hinitial : Scope.initial.find? f.name = some (.func f) :=
    (find?_name_eq_some_iff nodup_names_initial).mpr ⟨List.mem_map_of_mem hf, rfl⟩
  rw [func?, find?_of_prefix hroot hinitial]
  rfl

section Reserved

variable {env : Env} {token : Token} {f : Function}

/-- A function that a word with an underscore in front names is built in. -/
theorem Env.mem_builtins_of_resolveFunction (hdeclared : ∀ symbol ∈ env.symbols, symbol.Declared)
    (hreserved : token.text.head? = some 95) (h : env.resolveFunction token = .ok f) :
    f ∈ Function.builtins ∧ f.name = token.text := by
  obtain ⟨hmem, hsame⟩ := mem_of_resolveFunction h
  obtain ⟨other, hother, heq⟩ := (hdeclared _ hmem).exists_builtin hsame hreserved
  exact ⟨Symbol.func.inj heq ▸ hother, hsame⟩

/-- Where the root scope keeps the built-in functions, a word with an underscore in front names the
built-in function that is called so, and nothing else. -/
theorem Env.resolveFunction_eq_ok_iff (hdeclared : ∀ symbol ∈ env.symbols, symbol.Declared)
    (hroot : Scope.initial.symbols <+: env.rootScope.symbols) (hreserved : token.text.head? = some 95) :
    env.resolveFunction token = .ok f ↔ f ∈ Function.builtins ∧ f.name = token.text := by
  refine ⟨mem_builtins_of_resolveFunction hdeclared hreserved, ?_⟩
  rintro ⟨hmem, hsame⟩
  have hfunc : env.rootScope.func? token.text = some f := hsame ▸ Scope.func?_of_mem_builtins hroot hmem
  cases hresolved : env.resolveFunction token with
  | error fault =>
    unfold resolveFunction at hresolved
    split at hresolved
    case h_1 => cases hresolved
    case h_2 hnone =>
      have hmissing := List.findSome?_eq_none_iff.mp hnone _ env.rootScope_mem_scopes
      rw [hfunc] at hmissing
      cases hmissing
  | ok g =>
    obtain ⟨hother, hlike⟩ := mem_builtins_of_resolveFunction hdeclared hreserved hresolved
    have hfound : env.rootScope.func? token.text = some g :=
      hlike ▸ Scope.func?_of_mem_builtins hroot hother
    rw [Option.some.inj (hfound.symm.trans hfunc)]

/-- No word with an underscore in front names a variable. -/
theorem Env.resolveVariable_ne_ok (hdeclared : ∀ symbol ∈ env.symbols, symbol.Declared)
    (hreserved : token.text.head? = some 95) (v : Variable) : env.resolveVariable token ≠ .ok v := by
  intro h
  obtain ⟨hmem, hsame⟩ := mem_of_resolveVariable h
  obtain ⟨f, -, heq⟩ := (hdeclared _ hmem).exists_builtin hsame hreserved
  cases heq

end Reserved

/-! ## Points of an expansion -/

namespace Expansion

variable {setup : Setup} {name : Text} {body : List Node} {frame : Frame} {env : Env} {node : Node}
  {f : Function} {bindings : Bindings}

/-- A function that is called in sight of declared symbols is declared. -/
theorem Calls.declared (hdeclared : ∀ symbol ∈ env.symbols, symbol.Declared)
    (call : Calls env node f bindings) : (Symbol.func f).Declared :=
  hdeclared _ (Env.mem_of_resolveFunction call.resolved).1

/-- Statements install what a scope may hold. -/
theorem symbolsKept_declared : SymbolsKept Symbol.Declared where
  register := by
    intro env node f bindings name token henv call action named
    have hf := (call.declared henv).mem_builtins (by simp [Function.isBuiltin, action])
    exact (Function.arguments_of_register hf action call.bound named).2.2
  define := by
    intro env visit f bindings wantsBlock lifetime name token template henv call action lasting named
      defined
    have hf := (call.declared henv).mem_builtins (by simp [Function.isBuiltin, action])
    obtain ⟨header, -, -, hfollows⟩ :=
      Function.exists_follows_of_define hf call action lasting named defined
    exact .inr ⟨header, hfollows⟩
  argument := by
    intro env node f bindings henv call htemplate
    obtain ⟨header, hfollows⟩ := (call.declared henv).exists_header htemplate
    exact hfollows.isName_of_bind call.bound

/-- All symbols in sight are declared, at every point of an expansion. -/
theorem declared_of_reached (h : Reached setup name body frame) :
    ∀ symbol ∈ frame.state.env.symbols, symbol.Declared :=
  symbolsKept_declared.of_reached (fun _ hf => .inl hf) h

/-- The arguments of a template have different names. -/
theorem Calls.nodup_bindings (hdeclared : ∀ symbol ∈ env.symbols, symbol.Declared)
    (call : Calls env node f bindings) (htemplate : f.isBuiltin = false) :
    (bindings.map Variable.name).Nodup := by
  obtain ⟨header, hfollows⟩ := (call.declared hdeclared).exists_header htemplate
  exact Function.nodup_of_bind hfollows.style_eq hfollows.nodup_params call.bound

/-- A call of a template enters its body, with the arguments in a scope of their own. -/
theorem Calls.exists_enter {trail : List Visit} {file : Text} {state : State}
    (hdeclared : ∀ symbol ∈ state.env.symbols, symbol.Declared)
    (call : Calls state.env node f bindings) (htemplate : f.isBuiltin = false) :
    ∃ record scope, stepAt setup trail file node state = .enter record scope f.body f.file ∧
      scope.symbols = bindings.map .var := by
  have hnodup := call.nodup_bindings hdeclared htemplate
  have hstep : stepAt setup trail file node state = stepCall setup.loader state
      (called state.env (Visit.start trail node file state.env) f bindings) f :=
    step_of_calls setup.loader call
  rw [hstep]
  unfold stepCall Function.body
  cases haction : f.action with
  | template body => exact ⟨_, _, stepBody_eq_enter rfl hnodup _ _, rfl⟩
  | blockTemplate body => exact ⟨_, _, stepBody_eq_enter rfl hnodup _ _, rfl⟩
  | primitive | register | expandUnit | define => simp [Function.isBuiltin, haction] at htemplate

/-- A definition that ends well has installed a template that follows its header. -/
theorem Calls.exists_installed {wantsBlock : Bool} {record : Visit}
    (hreached : Reached setup name body frame) (call : Calls frame.state.env node f bindings)
    (action : f.action = .define wantsBlock)
    (hstep : stepAt setup frame.trail frame.file node frame.state = .done record env) :
    ∃ (header : Header) (template : Function), header.words = node.arguments ∧
      template.Follows header ∧ frame.state.env.push (.func template) header.lifetime = .ok env := by
  have hdefines : ∀ {g others}, Calls frame.state.env node g others → g.action = .define wantsBlock :=
    fun other => Except.ok.inj (call.resolved.symm.trans other.resolved) ▸ action
  cases acts_of_stepAt hstep with
  | idle other missing =>
    exact absurd ((wellTyped_of_sound (sound_of_reached hreached)).supplied other) missing
  | emit other haction | register other haction | included other haction =>
    cases haction.symm.trans (hdefines other)
  | define other haction lasting named defined pushed =>
    have hf := (other.mem_builtins hreached (by simp [Function.isBuiltin, haction])).1
    obtain ⟨header, hwords, rfl, hfollows⟩ :=
      Function.exists_follows_of_define hf other haction lasting named defined
    exact ⟨header, _, hwords, hfollows, pushed⟩

/-- A point where every template in sight can be called, and no word of a built-in function names
anything else. -/
structure Frame.Callable (setup : Setup) (frame : Frame) : Prop where
  /-- A definition installs a template with the parameters of its header. -/
  installs : ∀ {node f bindings wantsBlock record env}, Calls frame.state.env node f bindings →
    f.action = .define wantsBlock →
      stepAt setup frame.trail frame.file node frame.state = .done record env →
        ∃ (header : Header) (template : Function), header.words = node.arguments ∧
          template.Follows header ∧ frame.state.env.push (.func template) header.lifetime = .ok env
  /-- The parameters of a template have different names, in whatever scope it is. -/
  distinct : ∀ f, .func f ∈ frame.state.env.symbols → f.isBuiltin = false →
    (f.params.map Param.name).Nodup
  /-- The arguments of a template can be installed in any scope without symbols. -/
  pushes : ∀ {node f bindings}, Calls frame.state.env node f bindings → f.isBuiltin = false →
    ∀ fresh : Scope, fresh.symbols = [] →
      fresh.pushAll (bindings.map .var) = .ok ⟨bindings.map .var, fresh.blocks⟩
  /-- A call of a template enters its body, with just the arguments in the new scope. -/
  enters : ∀ {node f bindings}, Calls frame.state.env node f bindings → f.isBuiltin = false →
    ∃ record scope, stepAt setup frame.trail frame.file node frame.state =
      .enter record scope f.body f.file ∧ scope.symbols = bindings.map .var
  /-- A word that starts with an underscore names the built-in function that is called so. -/
  reserved : ∀ token : Token, token.text.head? = some 95 →
    (∀ f, frame.state.env.resolveFunction token = .ok f ↔
      f ∈ Function.builtins ∧ f.name = token.text) ∧
      ∀ v, frame.state.env.resolveVariable token ≠ .ok v

/-- Every template in sight can be called, at every point of an expansion. -/
theorem callable_of_reached (h : Reached setup name body frame) : frame.Callable setup := by
  have hdeclared := declared_of_reached h
  exact {
    installs := fun call action hstep => call.exists_installed h action hstep
    distinct := fun f hf htemplate => by
      obtain ⟨header, hfollows⟩ := (hdeclared _ hf).exists_header htemplate
      exact hfollows.nodup_params
    pushes := fun call htemplate _ hempty =>
      Scope.pushAll_of_nodup hempty (call.nodup_bindings hdeclared htemplate)
    enters := fun call htemplate => call.exists_enter hdeclared htemplate
    reserved := fun _ hreserved =>
      ⟨fun _ => Env.resolveFunction_eq_ok_iff hdeclared (initial_prefix_of_reached h) hreserved,
        Env.resolveVariable_ne_ok hdeclared hreserved⟩ }

/-- Binding accepts exactly the words of headers: a lifetime and a name, then a kind and a name for
each parameter, under different names. So whatever the program, the units it asks for and the limit
on its depth, every template in sight of any point of its expansion can be called there, and no word
that starts with an underscore names anything but a built-in function. -/
theorem headers_make_templates_callable :
    (∀ (function : Function) (tokens : List Token) (bindings : Bindings),
      function.bindHeader tokens = .ok bindings ↔
        ∃ header : Header, header.words = tokens ∧ header.bindings = bindings) ∧
    ∀ (setup : Setup) (name : Text) (body : List Node) (frame : Frame),
      Reached setup name body frame → frame.Callable setup :=
  ⟨fun _ _ _ => Function.bindHeader_eq_ok_iff, fun _ _ _ _ => callable_of_reached⟩

/-- The definition of a block template, with parameters called like the lookups of a definition. -/
def eachDefinition : Node :=
  .block ⟨2, 1, ⟨2, 4, "macroblock"⟩,
    [⟨2, 15, "parent"⟩, ⟨2, 22, "each"⟩, ⟨2, 27, "int"⟩, ⟨2, 31, "name"⟩, ⟨2, 36, "address"⟩,
      ⟨2, 44, "lifetime"⟩], []⟩
    [.call ⟨3, 2, ⟨3, 8, "_add"⟩, [⟨3, 13, "lifetime"⟩, ⟨3, 22, "name"⟩], []⟩,
      .call ⟨4, 2, ⟨4, 8, "code"⟩, [], []⟩]

/-- A call of the block template. -/
def eachCall : Node :=
  .block ⟨6, 0, ⟨6, 0, "each"⟩, [⟨6, 5, "3"⟩, ⟨6, 7, ":7"⟩], []⟩
    [.call ⟨7, 1, ⟨7, 4, "_print"⟩, [⟨7, 11, ":7"⟩], []⟩]

/-- A template that defines the block template outside itself, and a call of each. -/
def making : List Node :=
  [ .block ⟨1, 0, ⟨1, 0, "macro"⟩, [⟨1, 6, "local"⟩, ⟨1, 12, "make"⟩], []⟩ [eachDefinition],
    .call ⟨5, 0, ⟨5, 0, "make"⟩, [], []⟩, eachCall ]

set_option maxRecDepth 4000 in
/-- Inside the outer template the block template is installed with the parameters of its header, and
behind it the call enters the block template with both arguments. -/
theorem headers_make_templates_callable_making :
    (∃ frame function bindings record env header template,
      Reached ⟨fun _ _ => ⟨[], .ok []⟩, 8⟩ "main" making frame ∧ frame.trail.length = 1 ∧
        Calls frame.state.env eachDefinition function bindings ∧ function.action = .define true ∧
          stepAt ⟨fun _ _ => ⟨[], .ok []⟩, 8⟩ frame.trail frame.file eachDefinition frame.state =
            .done record env ∧
            Header.words header = eachDefinition.arguments ∧ Function.Follows template header ∧
              frame.state.env.push (.func template) header.lifetime = .ok env) ∧
      ∃ frame function bindings record scope,
        Reached ⟨fun _ _ => ⟨[], .ok []⟩, 8⟩ "main" making frame ∧
          Calls frame.state.env eachCall function bindings ∧ function.isBuiltin = false ∧
            .func function ∈ frame.state.env.symbols ∧ (function.params.map Param.name).Nodup ∧
              stepAt ⟨fun _ _ => ⟨[], .ok []⟩, 8⟩ frame.trail frame.file eachCall frame.state =
                .enter record scope function.body function.file ∧
                scope.symbols = bindings.map .var ∧ bindings.length = 2 ∧
                  ∃ f, frame.state.env.resolveFunction ⟨3, 8, "_add"⟩ = .ok f ∧
                    f ∈ Function.builtins := by
  have hcallable := headers_make_templates_callable.2 ⟨fun _ _ => ⟨[], .ok []⟩, 8⟩ "main" making
  constructor
  · obtain ⟨frame, function, bindings, record, env, hreached, hdepth, hcall, haction, hstep⟩ :
        ∃ frame function bindings record env,
          Reached ⟨fun _ _ => ⟨[], .ok []⟩, 8⟩ "main" making frame ∧ frame.trail.length = 1 ∧
            Calls frame.state.env eachDefinition function bindings ∧
              function.action = .define true ∧
                stepAt ⟨fun _ _ => ⟨[], .ok []⟩, 8⟩ frame.trail frame.file eachDefinition
                  frame.state = .done record env :=
      ⟨_, _, _, _, _, .tail (.tail .refl (.next rfl)) (.enter rfl), rfl,
        ⟨by rintro _ _ ⟨⟩, rfl, rfl, rfl⟩, rfl, rfl⟩
    obtain ⟨header, template, hinstalled⟩ := (hcallable _ hreached).installs hcall haction hstep
    exact ⟨frame, function, bindings, record, env, header, template, hreached, hdepth, hcall, haction,
      hstep, hinstalled⟩
  · obtain ⟨frame, function, bindings, hreached, hcall, htemplate, hlength⟩ :
        ∃ frame function bindings, Reached ⟨fun _ _ => ⟨[], .ok []⟩, 8⟩ "main" making frame ∧
          Calls frame.state.env eachCall function bindings ∧ function.isBuiltin = false ∧
            bindings.length = 2 :=
      ⟨_, _, _, .tail (.tail .refl (.next rfl)) (.next rfl), ⟨by rintro _ _ ⟨⟩, rfl, rfl, rfl⟩, rfl,
        rfl⟩
    have hmem := (Env.mem_of_resolveFunction hcall.resolved).1
    obtain ⟨record, scope, hstep, hscope⟩ := (hcallable _ hreached).enters hcall htemplate
    obtain ⟨hresolves, -⟩ := (hcallable _ hreached).reserved ⟨3, 8, "_add"⟩ rfl
    have hadd : ∃ f ∈ Function.builtins, f.name = Text.ofString "_add" := by decide
    obtain ⟨f, hf, hname⟩ := hadd
    exact ⟨frame, function, bindings, record, scope, hreached, hcall, htemplate, hmem,
      (hcallable _ hreached).distinct function hmem htemplate, hstep, hscope, hlength, f,
      (hresolves f).mpr ⟨hf, hname⟩, hf⟩

end Expansion

end Tapestry
