import Tapestry.File.Library
import Tapestry.Proofs.ExpansionFrames

/-!
# What a call leaves behind

The body of a template is expanded in a scope of its own, which is gone when the call is done. The
scopes around the call stay as they were, but for symbols added behind the others. How far an
addition reaches is decided where it is made: a definition for everywhere reaches the root scope,
one for outside reaches just past the scope its statement runs in, and all others stay in that
scope. So what a call adds are functions, those for everywhere to the root scope and those for
outside to the scope the call runs in.

The scopes in sight of a call are all that it could change: that it spares scopes which have been left
is shown where expansion is followed in a forest of scopes.
-/

namespace Tapestry

namespace Env

variable {after env : Env} {symbol : Symbol}

/-- An environment of the same scopes, each with symbols added behind its own. Which symbols may
be added to a scope depends on the number of scopes inside it. -/
structure Widens (allowed : Nat → Symbol → Prop) (before after : Env) : Prop where
  depth_eq : after.depth = before.depth
  scope_at : ∀ i scope, before.scopes[i]? = some scope →
    ∃ added, after.scopes[i]? = some { scope with symbols := scope.symbols ++ added } ∧
      ∀ symbol ∈ added, allowed i symbol

namespace Widens

variable {allowed : Nat → Symbol → Prop} {before middle after : Env}

/-- Nothing need be added. -/
theorem refl (allowed : Nat → Symbol → Prop) (env : Env) : Widens allowed env env :=
  ⟨rfl, fun i scope h => ⟨[], by rw [List.append_nil]; exact h, by simp⟩⟩

/-- Symbols are added behind those that were added before. -/
theorem trans (first : Widens allowed before middle) (second : Widens allowed middle after) :
    Widens allowed before after := by
  refine ⟨second.depth_eq.trans first.depth_eq, fun i scope h => ?_⟩
  obtain ⟨early, hmiddle, hearly⟩ := first.scope_at i scope h
  obtain ⟨late, hafter, hlate⟩ := second.scope_at i _ hmiddle
  refine ⟨early ++ late, by rw [hafter, List.append_assoc], fun symbol hsymbol => ?_⟩
  rcases List.mem_append.mp hsymbol with hsymbol | hsymbol
  · exact hearly symbol hsymbol
  · exact hlate symbol hsymbol

/-- More symbols may be allowed. -/
theorem mono {more : Nat → Symbol → Prop} (h : Widens allowed before after)
    (hmore : ∀ i symbol, allowed i symbol → more i symbol) : Widens more before after := by
  refine ⟨h.depth_eq, fun i scope hscope => ?_⟩
  obtain ⟨added, hafter, hadded⟩ := h.scope_at i scope hscope
  exact ⟨added, hafter, fun symbol hsymbol => hmore i symbol (hadded symbol hsymbol)⟩

/-- Around a scope, the others may be widened. -/
theorem nested (scope : Scope) (h : Widens (fun i => allowed (i + 1)) before after) :
    Widens allowed (.nested scope before) (.nested scope after) := by
  refine ⟨congrArg (· + 1) h.depth_eq, fun i other hother => ?_⟩
  cases i with
  | zero => exact ⟨[], by simpa [scopes] using hother, by simp⟩
  | succ i => exact h.scope_at i other hother

/-- Without the innermost scope, the others are widened all the same. -/
theorem outer {scope : Scope} (h : Widens allowed (.nested scope before) after) :
    Widens (fun i => allowed (i + 1)) before after.outer := by
  cases after with
  | root last => cases h.depth_eq
  | nested last around => exact ⟨Nat.succ.inj h.depth_eq, fun i => h.scope_at (i + 1)⟩

end Widens

/-- The number of scopes inside the one that a lifetime installs into. -/
def distance (env : Env) : Lifetime → Nat
  | .everywhere => env.depth
  | .outside => min 1 env.depth
  | .here | .unknown _ => 0

/-- Installing in the innermost scope adds the symbol there. -/
theorem widens_of_pushHere (h : pushHere symbol env = .ok after) :
    env.Widens (fun i other => i = 0 ∧ other = symbol) after := by
  -- The scopes around the innermost one are the same on both sides.
  have hscope {scope next other : Scope} (hpush : scope.push symbol = .ok next)
      (hother : some scope = some other) :
      ∃ added, some next = some { other with symbols := other.symbols ++ added } ∧
        ∀ symbol' ∈ added, 0 = 0 ∧ symbol' = symbol := by
    cases hother
    exact ⟨[symbol], congrArg some (Scope.eq_of_push hpush), by simp⟩
  cases env with
  | root scope =>
    obtain ⟨next, hpush, rfl⟩ := exists_of_map_eq_ok h
    refine ⟨rfl, fun i other hother => ?_⟩
    cases i with
    | zero => exact hscope hpush hother
    | succ i => cases hother
  | nested scope outer =>
    obtain ⟨next, hpush, rfl⟩ := exists_of_map_eq_ok h
    refine ⟨rfl, fun i other hother => ?_⟩
    cases i with
    | zero => exact hscope hpush hother
    | succ i => exact ⟨[], by simpa [scopes] using hother, by simp⟩

/-- Installing in the root scope adds the symbol there. -/
theorem widens_of_pushRoot (h : pushRoot symbol env = .ok after) :
    env.Widens (fun i other => i = env.depth ∧ other = symbol) after := by
  induction env generalizing after with
  | root scope => exact widens_of_pushHere h
  | nested scope outer ih =>
    obtain ⟨next, hpush, rfl⟩ := exists_of_map_eq_ok h
    apply Widens.nested
    apply (ih hpush).mono
    rintro i other ⟨rfl, rfl⟩
    exact ⟨rfl, rfl⟩

/-- An installed symbol is added to the scope that its lifetime says, and nothing else is. -/
theorem widens_of_push {lifetime : Lifetime} (h : env.push symbol lifetime = .ok after) :
    env.Widens (fun i other => i = env.distance lifetime ∧ other = symbol) after := by
  cases lifetime with
  | everywhere => exact widens_of_pushRoot h
  | here => exact widens_of_pushHere h
  | unknown code => exact widens_of_pushHere h
  | outside =>
    cases env with
    | root scope => exact widens_of_pushHere h
    | nested scope outer =>
      obtain ⟨next, hpush, rfl⟩ := exists_of_map_eq_ok h
      apply Widens.nested
      apply (widens_of_pushHere hpush).mono
      rintro i other ⟨rfl, rfl⟩
      exact ⟨by simp [distance, depth], rfl⟩

end Env

namespace Expansion

/-- What an expression may add to a scope with so many scopes inside it: anything to the one it
runs in, and otherwise a function whose lifetime reaches that far. -/
def Reaching (depth i : Nat) (symbol : Symbol) : Prop :=
  i = 0 ∨ ∃ f, symbol = .func f ∧
    (f.lifetime = .everywhere ∧ i = depth ∨ f.lifetime = .outside ∧ i = 1)

/-- What a call of a template may add to a scope with so many scopes inside it: a function for
everywhere to the root scope, and one for outside to the scope the call runs in. -/
def Leaving (depth i : Nat) (symbol : Symbol) : Prop :=
  ∃ f, symbol = .func f ∧ (f.lifetime = .everywhere ∧ i = depth ∨ f.lifetime = .outside ∧ i = 0)

/-- What reaches past the scope of a body leaves it. -/
theorem leaving_of_reaching {depth i : Nat} {symbol : Symbol}
    (h : Reaching (depth + 1) (i + 1) symbol) : Leaving depth i symbol := by
  obtain hi | ⟨f, hf, ⟨hlifetime, hi⟩ | ⟨hlifetime, hi⟩⟩ := h
  · cases hi
  · exact ⟨f, hf, .inl ⟨hlifetime, Nat.succ.inj hi⟩⟩
  · exact ⟨f, hf, .inr ⟨hlifetime, Nat.succ.inj hi⟩⟩

/-- What leaves a body is within reach of the expression that led into it. -/
theorem reaching_of_leaving {depth i : Nat} {symbol : Symbol} (h : Leaving depth i symbol) :
    Reaching depth i symbol := by
  obtain ⟨f, hf, hroot | hlocal⟩ := h
  · exact .inr ⟨f, hf, .inl hroot⟩
  · exact .inl hlocal.2

/-- A function is installed within reach of its definition. -/
theorem reaching_distance (env : Env) (f : Function) :
    Reaching env.depth (env.distance f.lifetime) (.func f) := by
  cases hlifetime : f.lifetime with
  | everywhere => exact .inr ⟨f, rfl, .inl ⟨hlifetime, rfl⟩⟩
  | here => exact .inl rfl
  | unknown code => exact .inl rfl
  | outside =>
    cases env with
    | root scope => exact .inl rfl
    | nested scope outer =>
      exact .inr ⟨f, rfl, .inr ⟨hlifetime, by simp [Env.distance, Env.depth]⟩⟩

/-- The template of a definition has the lifetime it is installed with. -/
theorem lifetime_of_definedFunction {wantsBlock : Bool} {visit : Visit} {name : Text} {token : Token}
    {lifetime : Lifetime} {template : Function}
    (h : definedFunction wantsBlock visit name token lifetime = .ok template) :
    template.lifetime = lifetime := by
  cases wantsBlock with
  | false =>
    cases h
    rfl
  | true =>
    simp only [definedFunction, if_true] at h
    obtain ⟨action, _, h⟩ := exists_of_bind_eq_ok h
    cases h
    rfl

/-- A scope entered for a body is left with nothing but what leaves it. -/
theorem widens_leave {scope : Scope} {env : Env} {after : State}
    (h : Env.Widens (Reaching (env.depth + 1)) (.nested scope env) after.env) :
    env.Widens (Leaving env.depth) after.leave.env :=
  h.outer.mono fun _ _ => leaving_of_reaching

/-- An expression with everything below it adds only what it may reach. -/
theorem reaching_spans (setup : Setup) :
    Spans setup fun before after => before.env.Widens (Reaching before.env.depth) after.env where
  refl state := .refl _ state.env
  trans first second := first.trans (first.depth_eq ▸ second)
  done := by
    intro trail file node state record env hstep
    cases acts_of_stepAt hstep with
    | idle | emit | included => exact .refl _ state.env
    | register _ _ _ pushed =>
      apply (Env.widens_of_push pushed).mono
      rintro i symbol ⟨rfl, rfl⟩
      exact .inl rfl
    | define _ _ _ _ defined pushed =>
      obtain rfl := lifetime_of_definedFunction defined
      apply (Env.widens_of_push pushed).mono
      rintro i symbol ⟨rfl, rfl⟩
      exact reaching_distance state.env _
  leave := by
    intro trail file node state record scope body origin after hstep hafter
    exact (widens_leave hafter).mono fun _ _ => reaching_of_leaving
  -- A unit runs in the environment of the expression that asks for it.
  endUnit _ hafter := hafter

/-- A body that was expanded in a scope of its own leaves behind what leaves that scope. -/
theorem widens_of_body {setup : Setup} {levels : Nat} {trail : List Visit} {origin : Text}
    {body : List Node} {state last : State} {record : Visit} {scope : Scope}
    (h : visitAll (visit setup levels (record :: trail) origin) body
      ((state.record record).enter scope) = .ready last) :
    state.env.Widens (Leaving state.env.depth) last.leave.env :=
  widens_leave ((reaching_spans setup).visitAll (fun _ _ _ => (reaching_spans setup).visit) h)

/-- A template looks up no arguments. -/
theorem supplied_of_not_isBuiltin {function : Function} (h : function.isBuiltin = false)
    (bindings : Bindings) : function.action.Supplied bindings := by
  unfold Function.isBuiltin at h
  split at h
  case h_1 body haction => rw [haction]; trivial
  case h_2 body haction => rw [haction]; trivial
  case h_3 => cases h

/-- A call of a template that comes to its end has entered a scope for the body. -/
theorem exists_enter_of_ready {setup : Setup} {levels : Nat} {trail : List Visit} {file : Text}
    {node : Node} {state after : State} {function : Function}
    (hcall : (stepAt setup trail file node state).record.function = some function)
    (htemplate : function.isBuiltin = false)
    (h : visit setup levels trail file node state = .ready after) :
    ∃ less record scope body origin last,
      visitAll (visit setup less (record :: trail) origin) body
          ((state.record record).enter scope) = .ready last ∧
        last.leave = after := by
  cases levels with
  | zero => cases h
  | succ less =>
    rw [visit_succ] at h
    have hacts := acts_of_stepAt (rfl : stepAt setup trail file node state = _)
    generalize stepAt setup trail file node state = outcome at h hcall hacts
    cases hacts with
    | fail => cases h
    | splice | template | blockTemplate =>
      obtain ⟨last, hlast, hafter⟩ := exists_of_mapReady h
      exact ⟨less, _, _, _, _, last, hlast, hafter⟩
    | idle call missing =>
      cases hcall
      exact absurd (supplied_of_not_isBuiltin htemplate _) missing
    | emit call action | register call action | define call action | included call action
    | unit call action =>
      cases hcall
      simp [Function.isBuiltin, action] at htemplate

/-- Whatever the program, the units it asks for and the point its expansion has come to: a call of
a template that comes to its end leaves every scope in sight as it was, with symbols added behind
the others. No variable is among these, and a function only if it is for everywhere and added to
the root scope, or for outside and added to the scope that the call runs in. -/
theorem template_calls_confined (setup : Setup) (levels : Nat) (trail : List Visit) (file : Text)
    (node : Node) (state after : State) (function : Function)
    (hcall : (stepAt setup trail file node state).record.function = some function)
    (htemplate : function.isBuiltin = false)
    (h : visit setup levels trail file node state = .ready after) :
    state.env.Widens (Leaving state.env.depth) after.env := by
  obtain ⟨less, record, scope, body, origin, last, hbody, rfl⟩ :=
    exists_enter_of_ready hcall htemplate h
  exact widens_of_body hbody

/-- A unit that reserves a cell and defines a template for outside. -/
def lending : Library := ⟨[("lent", "reg u\nmacro parent lend\n    __plus 4\n")]⟩

/-- A source with a block template that defines templates of every lifetime, reserves a cell, asks
for a unit and splices in a block that does the same, called in the body of another template. -/
def publishing : Text :=
  Text.ofString "macroblock global publish\n    macro parent up\n        __plus 1\n" ++
    "    macro global all\n        __plus 2\n    macro local own\n        __plus 3\n    reg r\n" ++
    "    import 'lent'\n    code\nmacro global outer\n    reg kept\n    publish\n" ++
    "        macro parent hidden\n            __plus 5\n        reg s\n    up\nouter\n"

/-- The scope of the caller keeps its variable and gets the template for outside and that of the
unit. Behind the built-in functions, the root scope gets the template for everywhere. -/
theorem template_calls_confined_publishing :
    ∃ body frame node rest function after, Source.parse publishing = .ok body ∧
      Reached ⟨lending.loader, 8⟩ "main" body frame ∧ frame.nodes = node :: rest ∧
        (stepAt ⟨lending.loader, 8⟩ frame.trail frame.file node frame.state).record.function =
            some function ∧
          function.isBuiltin = false ∧
            visit ⟨lending.loader, 8⟩ frame.levels frame.trail frame.file node frame.state =
                .ready after ∧
              frame.state.env.scopes.map (fun scope => scope.symbols.map Symbol.name) =
                  [[Text.ofString "kept"], Function.builtins.map Function.name ++
                    [Text.ofString "publish", Text.ofString "outer"]] ∧
                after.env.scopes.map (fun scope => scope.symbols.map Symbol.name) =
                    [[Text.ofString "kept", Text.ofString "up", Text.ofString "lend"],
                      Function.builtins.map Function.name ++
                        [Text.ofString "publish", Text.ofString "outer", Text.ofString "all"]] ∧
                  frame.state.env.Widens (Leaving frame.state.env.depth) after.env := by
  have hfacts : (Source.parse publishing).toOption.bind (fun body =>
      ((Frame.initial ⟨lending.loader, 8⟩ "main" body).follow ⟨lending.loader, 8⟩
        [.past, .past, .into, .past]).bind fun frame => frame.nodes.head?.bind fun node =>
          (visit ⟨lending.loader, 8⟩ frame.levels frame.trail frame.file node
            frame.state).ready?.map fun after =>
              ((stepAt ⟨lending.loader, 8⟩ frame.trail frame.file node
                  frame.state).record.function.map Function.isBuiltin,
                frame.state.env.scopes.map (fun scope => scope.symbols.map Symbol.name),
                after.env.scopes.map (fun scope => scope.symbols.map Symbol.name))) =
      some (some false,
        [[Text.ofString "kept"], Function.builtins.map Function.name ++
          [Text.ofString "publish", Text.ofString "outer"]],
        [[Text.ofString "kept", Text.ofString "up", Text.ofString "lend"],
          Function.builtins.map Function.name ++
            [Text.ofString "publish", Text.ofString "outer", Text.ofString "all"]]) := by
    decide +kernel
  obtain ⟨body, hparse, hfacts⟩ := Option.bind_eq_some_iff.mp hfacts
  obtain ⟨frame, hfollow, hfacts⟩ := Option.bind_eq_some_iff.mp hfacts
  obtain ⟨node, hnode, hfacts⟩ := Option.bind_eq_some_iff.mp hfacts
  obtain ⟨after, hafter, hfacts⟩ := Option.map_eq_some_iff.mp hfacts
  simp only [Prod.mk.injEq] at hfacts
  obtain ⟨hfunction, hbefore, hscopes⟩ := hfacts
  obtain ⟨function, hcall, htemplate⟩ := Option.map_eq_some_iff.mp hfunction
  obtain ⟨rest, hnodes⟩ := List.head?_eq_some_iff.mp hnode
  have hvisit := Progress.eq_ready_of_ready? hafter
  exact ⟨body, frame, node, rest, function, after, eq_ok_of_toOption hparse,
    reached_of_follow hfollow, hnodes, hcall, htemplate, hvisit, hbefore, hscopes,
    template_calls_confined _ _ _ _ _ _ _ _ hcall htemplate hvisit⟩

end Expansion

end Tapestry
