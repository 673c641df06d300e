import Tapestry.Proofs.DefinitionHeaders
import Tapestry.Proofs.SplicedBlocks
import Tapestry.Proofs.TypeSoundness

/-!
# Templates as substitution

A call of a template binds its words to the parameters in a scope of its own, and the body looks
them up there. For bodies that only emit instructions this comes to the same as writing the words
of the call in place of the parameters, and the block of the call in place of each marker, where the
call stands.

The reason is that a parameter is a name, and no built-in function reads a name as a number or a
cell. So each word of the body that is a parameter is looked up and found as what the word of the
call was bound to, and every other word means what it means outside.
-/

namespace Tapestry

/-! ## Writing words in place of parameters -/

namespace Node

/-- A call without a block of a function whose name starts with an underscore. -/
def isEmission : Node → Bool
  | call head => head.head.text.head? == some 95
  | block .. | splice .. => false

/-- A marker without arguments. -/
def isMarker : Node → Bool
  | call head => head.head.text == marker && head.args.isEmpty
  | block .. | splice .. => false

end Node

/-- The word of a call for the parameter that a word names, or else the word itself. -/
def Token.instantiate (params : List Param) (words : List Token) (token : Token) : Token :=
  ((params.zip words).find? (·.1.name == token.text)).elim token Prod.snd

/-- A statement with the words of a call in place of its parameters. -/
def Statement.instantiate (params : List Param) (words : List Token) (statement : Statement) :
    Statement :=
  { statement with args := statement.args.map (Token.instantiate params words) }

/-- A body with the words of a call in place of its parameters, and the block of the call in place
of each marker. -/
def Node.instantiateAll (params : List Param) (words : List Token) (block : List Node) :
    List Node → List Node
  | [] => []
  | call head :: rest =>
    if (call head).isMarker then block ++ instantiateAll params words block rest
    else call (head.instantiate params words) :: instantiateAll params words block rest
  | node :: rest => node :: instantiateAll params words block rest

namespace Node

/-- What emits is no marker, and stays as it is. -/
theorem mark_of_isEmission {node : Node} (h : node.isEmission = true) (owner : Text) :
    node.isMarker = false ∧ node.mark owner = .ok node := by
  cases node with
  | block | splice => cases h
  | call head =>
    have hne : head.head.text ≠ marker := by
      intro heq
      rw [isEmission, heq] at h
      cases h
    simp [isMarker, mark, hne]

/-- A marker becomes a splice point. -/
theorem mark_of_isMarker {head : Statement} (h : (call head).isMarker = true) (owner : Text) :
    (call head).mark owner = .ok (splice head owner) := by
  obtain ⟨hname, hargs⟩ := Bool.and_eq_true_iff.mp h
  simp [mark, beq_iff_eq.mp hname, List.isEmpty_iff.mp hargs]

/-- A body that only emits has nothing to mark. -/
theorem markAll_of_isEmission {body : List Node} (h : ∀ node ∈ body, node.isEmission = true)
    (owner : Text) : markAll owner body = .ok body := by
  induction body with
  | nil => rfl
  | cons node rest ih =>
    have hrest := ih fun other hother => h other (by simp [hother])
    rw [markAll, (mark_of_isEmission (h node (by simp)) owner).2, hrest]
    rfl

end Node

/-! ## Names are no numbers -/

namespace Value

/-- A name does not read as a number or as a cell index, and starts with no underscore. -/
theorem not_number_of_isIdentifier {text : Text} (h : isIdentifier text = true) :
    Number.int? text = none ∧ cellDigits? text = none ∧ text.head? ≠ some 95 := by
  obtain ⟨first, rest, rfl, hletter, -⟩ := isIdentifier_iff.mp h
  have hfirst : Byte.isDigit first = false ∧ first ≠ 43 ∧ first ≠ 45 ∧ first ≠ 58 ∧ first ≠ 95 := by
    simp only [Byte.isLetter, Byte.isDigit, Bool.or_eq_true, Bool.and_eq_true, decide_eq_true_eq,
      Bool.and_eq_false_iff, decide_eq_false_iff_not, UInt8.le_iff_toNat_le, ne_eq,
      ← UInt8.toNat_inj] at hletter ⊢
    simp at hletter ⊢
    omega
  obtain ⟨hdigit, hplus, hminus, hcolon, hunderscore⟩ := hfirst
  have hnat : Number.nat? (first :: rest) = none := by simp [Number.nat?, hdigit]
  refine ⟨?_, ?_, by simpa using hunderscore⟩
  · unfold Number.int?
    split
    case h_1 heq => exact absurd (List.cons.inj heq).1 hplus
    case h_2 heq => exact absurd (List.cons.inj heq).1 hminus
    case h_3 => rw [hnat, Option.bind_none]
  · unfold cellDigits?
    split
    case h_1 heq => exact absurd (List.cons.inj heq).1 hcolon
    case h_2 => rfl

end Value

/-! ## Binding the words of a call -/

namespace Param

variable {param other : Param} {token word : Token} {env inner outer : Env} {v found : Variable}

/-- What a word is bound to depends only on the variable it names. -/
theorem bind_congr (param : Param) (h : inner.var? token.text = outer.var? token.text) :
    param.bind token inner = param.bind token outer := by
  unfold bind Env.resolveVariable
  rw [h]

/-- Parameters of one kind are bound alike but for their names. -/
theorem bind_rename (hkind : param.kind = other.kind) (h : param.bind token env = .ok v) :
    other.bind token env = .ok (v.rename other.name) := by
  have hshare {found : Variable} (h : param.share token found = .ok v) :
      other.share token found = .ok (v.rename other.name) := by
    unfold share at h ⊢
    split at h
    case isTrue hfound =>
      cases h
      rw [if_pos (hfound.trans hkind)]
      rfl
    case isFalse => cases h
  unfold bind at h ⊢
  rw [← hkind]
  split at h
  case h_1 value hread =>
    split at h
    case isTrue href =>
      obtain ⟨found, hfound, hshared⟩ := exists_of_bind_eq_ok h
      simp only [href, if_true, hfound]
      exact hshare hshared
    case isFalse href =>
      cases h
      simp only [href]
      rfl
  case h_2 unread hread =>
    split at h
    case h_1 => cases h
    case h_2 name hname =>
      split at h
      case h_1 => cases h
      case h_2 found hfound =>
        exact hshare h

/-- A name bound as a number or an address is bound to the variable of that name. -/
theorem bind_name (hkind : param.kind = .int ∨ param.kind = .address)
    (hname : Value.isIdentifier token.text = true) (hfound : env.var? token.text = some found)
    (h : param.bind token env = .ok v) :
    found.value.kind = param.kind ∧ v = found.rename param.name := by
  have hresolve : env.resolveVariable token = .ok found := by
    unfold Env.resolveVariable
    rw [hfound]
  have hbind : param.share token found = .ok v := by
    obtain ⟨hint, hcell, -⟩ := Value.not_number_of_isIdentifier hname
    unfold bind Value.read Value.readDatum at h
    rcases hkind with hkind | hkind
    · rw [hkind] at h
      simpa [Value.readInt, hint, Value.readIdentifier, hname, hresolve, Except.map] using h
    · rw [hkind] at h
      simpa [Value.readAddress, hcell, hname, hresolve, Except.map, Datum.isReference, Except.bind]
        using h
  unfold share at hbind
  split at hbind
  case isTrue hkind => exact ⟨hkind, (Except.ok.inj hbind).symm⟩
  case isFalse => cases hbind

/-- The words of a call and what they are bound to are found under the same names. -/
theorem find?_of_bindAll {params : List Param} {words : List Token} {bindings : Bindings}
    (henv : ∀ v ∈ env.vars, v.Resolved) (hlength : words.length = params.length)
    (h : bindAll env params words = .ok bindings) (name : Text) :
    (params.zip words).find? (·.1.name == name) = none ∧ Bindings.get? bindings name = none ∨
      ∃ param ∈ params, ∃ word v, param.name = name ∧
        (params.zip words).find? (·.1.name == name) = some (param, word) ∧
          Bindings.get? bindings name = some v ∧ param.bind word env = .ok v := by
  induction params generalizing words bindings with
  | nil =>
    obtain rfl := List.eq_nil_of_length_eq_zero hlength
    cases h
    exact .inl ⟨rfl, rfl⟩
  | cons param params ih =>
    cases words with
    | nil => cases hlength
    | cons word words =>
      obtain ⟨v, hbind, hrest⟩ := exists_of_bind_eq_ok h
      obtain ⟨rest, hbindAll, rfl⟩ := exists_of_map_eq_ok hrest
      have hv : v.name = param.name := (takes_of_bind henv hbind).name_eq
      by_cases hname : param.name = name
      · refine .inr ⟨param, by simp, word, v, hname, by simp [hname], ?_, hbind⟩
        simp [Bindings.get?, hv, hname]
      · rcases ih (by simpa using hlength) hbindAll with ⟨hfind, hget⟩ | hfound
        · exact .inl ⟨by simpa [hname] using hfind, by simpa [Bindings.get?, hv, hname] using hget⟩
        · obtain ⟨other, hother, word', v', hother_name, hfind, hget, hbound⟩ := hfound
          refine .inr ⟨other, by simp [hother], word', v', hother_name, ?_, ?_, hbound⟩
          · simpa [hname] using hfind
          · simpa [Bindings.get?, hv, hname] using hget

end Param

namespace Scope

variable {scope : Scope} {bindings : Bindings}

/-- In a scope of arguments, a name leads to the argument bound under it. -/
theorem find?_of_symbols (h : scope.symbols = bindings.map .var) (name : Text) :
    scope.find? name = (Bindings.get? bindings name).map .var := by
  rw [find?, h, List.find?_map]
  rfl

/-- A scope of variables has each under its name. -/
theorem var?_of_symbols (h : scope.symbols = bindings.map .var) (name : Text) :
    scope.var? name = Bindings.get? bindings name := by
  rw [var?, find?_of_symbols h]
  cases Bindings.get? bindings name <;> rfl

/-- A scope of variables has no functions. -/
theorem func?_of_symbols (h : scope.symbols = bindings.map .var) (name : Text) :
    scope.func? name = none := by
  rw [func?, find?_of_symbols h]
  cases Bindings.get? bindings name <;> rfl

end Scope

/-! ## Names of functions and parameters -/

/-- What is called by a name, and has names for parameters, unless it is built in. -/
def Function.Named (function : Function) : Prop :=
  function ∈ Function.builtins ∨
    function.isBuiltin = false ∧ Value.isIdentifier function.name = true ∧
      ∀ param ∈ function.params, Value.isIdentifier param.name = true

/-- An environment whose functions are all named. -/
def Env.Named (env : Env) : Prop := ∀ function, .func function ∈ env.symbols → function.Named

/-- A built-in function that starts with an underscore emits instructions, given numbers and
addresses. -/
theorem Function.emits_of_underscore : ∀ function ∈ Function.builtins,
    function.name.head? = some 95 → function.style = .positional ∧
      (match function.action with
        | .primitive _ => true
        | _ => false) = true ∧
      ∀ param ∈ function.params, param.kind = .int ∨ param.kind = .address := by
  decide

namespace Expansion

variable {name : Text} {env : Env}

/-- Only built-in functions of an environment with names are not templates. -/
theorem mem_builtins_of_named {node : Node} {function : Function} {bindings : Bindings}
    (henv : env.Named) (call : Calls env node function bindings)
    (hbuiltin : function.isBuiltin = true) : function ∈ Function.builtins := by
  rcases henv function (Env.mem_of_resolveFunction call.resolved).1 with hmem | ⟨hother, -⟩
  · exact hmem
  · rw [hbuiltin] at hother
    cases hother

/-- What a definition installs is named. -/
theorem named_of_define {visit : Visit} {function template : Function} {bindings : Bindings}
    {wantsBlock : Bool} {lifetime : Lifetime} {token : Token} (henv : env.Named)
    (call : Calls env visit.node function bindings) (action : function.action = .define wantsBlock)
    (lasting : Bindings.lifetime? bindings "lifetime" = some lifetime)
    (named : Bindings.identifier? bindings "name" = some (name, token))
    (defined : definedFunction wantsBlock (called env visit function bindings) name token lifetime =
      .ok template) :
    template.Named := by
  have hbuiltin := mem_builtins_of_named henv call (by simp [Function.isBuiltin, action])
  obtain ⟨header, -, -, hfollows⟩ :=
    Function.exists_follows_of_define hbuiltin call action lasting named defined
  exact .inr ⟨hfollows.template, hfollows.isIdentifier_name, hfollows.isIdentifier_params⟩

/-- An environment is named if its symbols are, as far as they are functions. -/
theorem named_iff :
    env.Named ↔ ∀ symbol ∈ env.symbols, ∀ function, symbol = .func function → function.Named := by
  constructor
  · rintro henv _ hsymbol function rfl
    exact henv function hsymbol
  · exact fun henv function hfunction => henv _ hfunction function rfl

/-- The functions that steps install are named. -/
theorem symbolsKept_named :
    SymbolsKept fun symbol => ∀ function, symbol = .func function → function.Named where
  register := by
    intro _ _ _ _ _ _ _ _ _ _ _ hvar
    cases hvar
  define := by
    intro env visit function bindings wantsBlock lifetime name token template henv call action lasting
      named defined _ htemplate
    obtain rfl := Symbol.func.inj htemplate
    exact named_of_define (named_iff.mpr henv) call action lasting named defined
  argument := by
    intro _ _ _ _ _ _ _ _ _ _ hvar
    cases hvar

/-- Steps keep functions named. -/
theorem named_kept (setup : Setup) :
    Kept setup (fun _ _ state => state.env.Named) (fun _ _ => True) := by
  simp only [named_iff]
  exact symbolsKept_named.kept setup

/-- Every function in sight of a point reached is built in or named. -/
theorem named_of_reached {setup : Setup} {body : List Node} {frame : Frame}
    (h : Reached setup name body frame) : frame.state.env.Named := by
  refine named_iff.mpr (symbolsKept_named.of_reached (fun f hf function hfunction => ?_) h)
  obtain rfl := Symbol.func.inj hfunction
  exact .inl hf

/-! ## What is written -/

/-- From one state to another an expansion has only written code: the scopes and the units are as
they were. -/
structure Wrote (before after : State) (code : List Instruction) : Prop where
  env_eq : after.env = before.env
  imports_eq : after.imports = before.imports
  files_eq : after.files = before.files
  visits_eq : ∃ added, after.visits = added ++ before.visits ∧ added.reverse.flatMap Visit.code = code

/-- Nothing was written between a state and itself. -/
theorem Wrote.refl (state : State) : Wrote state state [] := ⟨rfl, rfl, rfl, [], rfl, rfl⟩

/-- What was written in turn was written. -/
theorem Wrote.trans {before middle after : State} {first second : List Instruction}
    (h : Wrote before middle first) (h' : Wrote middle after second) :
    Wrote before after (first ++ second) := by
  obtain ⟨added, hadded, hcode⟩ := h.visits_eq
  obtain ⟨added', hadded', hcode'⟩ := h'.visits_eq
  refine ⟨h'.env_eq.trans h.env_eq, h'.imports_eq.trans h.imports_eq, h'.files_eq.trans h.files_eq,
    added' ++ added, ?_, ?_⟩
  · rw [hadded', hadded, List.append_assoc]
  · rw [List.reverse_append, List.flatMap_append, hcode, hcode']

/-- What is written inside a scope is written where it was entered. -/
theorem Wrote.of_enter {state last : State} {record : Visit} {scope : Scope}
    {code : List Instruction} (hrecord : record.code = [])
    (h : Wrote ((state.record record).enter scope) last code) : Wrote state last.leave code := by
  obtain ⟨added, hadded, hcode⟩ := h.visits_eq
  refine ⟨?_, h.imports_eq, h.files_eq, added ++ [record], ?_, ?_⟩
  · change last.env.outer = state.env
    rw [h.env_eq]
    rfl
  · change last.visits = _
    rw [hadded, List.append_assoc]
    rfl
  · rw [List.reverse_append, List.flatMap_append, hcode]
    simp [hrecord]

/-- The code that expressions emit when each calls a primitive. -/
inductive Emits (env : Env) : List Node → List Instruction → Prop
  | nil : Emits env [] []
  | cons {node rest function bindings primitive code} (call : Calls env node function bindings)
      (action : function.action = .primitive primitive) (behind : Emits env rest code) :
    Emits env (node :: rest) ((primitive.code? bindings).getD [] ++ code)

/-- Expressions emit their instructions in turn. -/
theorem Emits.append {front back : List Node} {first second : List Instruction}
    (h : Emits env front first) (h' : Emits env back second) :
    Emits env (front ++ back) (first ++ second) := by
  induction h with
  | nil => exact h'
  | cons call action _ ih =>
    rw [List.append_assoc]
    exact .cons call action ih

section Visiting

variable {setup : Setup} {levels : Nat} {trail : List Visit} {file : Text} {node : Node}
  {state after : State} {function : Function} {bindings : Bindings}

/-- The step of a call of a primitive. -/
theorem visit_of_primitive (setup : Setup) (levels : Nat) (trail : List Visit) (file : Text)
    {primitive : Primitive} (call : Calls state.env node function bindings)
    (action : function.action = .primitive primitive) :
    ∃ after, visit setup (levels + 1) trail file node state = .ready after ∧
      Wrote state after ((primitive.code? bindings).getD []) := by
  have hstep : stepAt setup trail file node state = _ := step_of_calls setup.loader call
  simp only [stepCall, action] at hstep
  rw [visit_succ, hstep]
  exact ⟨_, rfl, rfl, rfl, rfl, [_], rfl, by simp [called]⟩

/-- Expressions that emit code go well wherever that code is emitted. -/
theorem visitAll_of_emits (setup : Setup) (levels : Nat) (trail : List Visit) (file : Text)
    {nodes : List Node} {code : List Instruction} (h : Emits env nodes code)
    (henv : state.env = env) :
    ∃ after, visitAll (visit setup (levels + 1) trail file) nodes state = .ready after ∧
      Wrote state after code := by
  induction h generalizing state with
  | nil => exact ⟨state, rfl, .refl state⟩
  | cons call action _ ih =>
    subst henv
    obtain ⟨middle, hvisit, hwrote⟩ := visit_of_primitive setup levels trail file call action
    obtain ⟨after, hrest, hwrote'⟩ := ih hwrote.env_eq
    refine ⟨after, ?_, hwrote.trans hwrote'⟩
    rw [visitAll, hvisit]
    exact hrest

/-- An expression that is no splice point and goes well calls a function. -/
theorem exists_calls_of_ready (hnode : node.owner? = none)
    (h : visit setup levels trail file node state = .ready after) :
    ∃ less function bindings, levels = less + 1 ∧ Calls state.env node function bindings := by
  cases levels with
  | zero => cases h
  | succ less =>
    rw [visit_succ] at h
    have hacts : Acts setup.loader state _ (stepAt setup trail file node state) := acts_of_stepAt rfl
    generalize stepAt setup trail file node state = outcome at h hacts
    cases hacts with
    | fail => cases h
    | splice spliced =>
      change node = _ at spliced
      rw [spliced] at hnode
      cases hnode
    | idle call | emit call | register call | define call | included call | unit call
    | template call | blockTemplate call => exact ⟨less, _, _, rfl, call⟩

end Visiting

/-! ## Inside a call -/

/-- The environment inside a call: the parameters are bound to what the words of the call mean
outside, and all else is as it is outside. -/
structure Inside (outer : Env) (params : List Param) (words : List Token) (bindings : Bindings)
    (inner : Env) : Prop where
  resolved : ∀ v ∈ outer.vars, v.Resolved
  named : outer.Named
  names : ∀ param ∈ params, Value.isIdentifier param.name = true
  length_eq : words.length = params.length
  bound : Param.bindAll outer params words = .ok bindings
  var?_eq : ∀ name, inner.var? name = (Bindings.get? bindings name).or (outer.var? name)
  func?_eq : ∀ name, inner.func? name = outer.func? name

section Inside

variable {outer inner : Env} {params : List Param} {words : List Token} {bindings : Bindings}
  {head : Statement} {block : List Node}

/-- What is bound in a scope is found there first. -/
theorem Inside.of_call {scope : Scope} (hresolved : ∀ v ∈ outer.vars, v.Resolved)
    (hnamed : outer.Named) (hnames : ∀ param ∈ params, Value.isIdentifier param.name = true)
    (hlength : words.length = params.length)
    (hbound : Param.bindAll outer params words = .ok bindings)
    (hscope : scope.symbols = bindings.map .var) :
    Inside outer params words bindings (.nested scope outer) where
  resolved := hresolved
  named := hnamed
  names := hnames
  length_eq := hlength
  bound := hbound
  var?_eq name := by
    simp only [Env.var?, Env.scopes, List.findSome?_cons, Scope.var?_of_symbols hscope]
    cases Bindings.get? bindings name <;> rfl
  func?_eq name := by
    simp only [Env.func?, Env.scopes, List.findSome?_cons, Scope.func?_of_symbols hscope]

/-- An empty scope changes nothing. -/
theorem Inside.empty (h : Inside outer params words bindings inner) :
    Inside outer params words bindings (.nested .empty inner) :=
  { h with
    var?_eq := fun name => (h.var?_eq name ▸ rfl)
    func?_eq := fun name => (h.func?_eq name ▸ rfl) }

/-- A word means inside what the word written in its place means outside. -/
theorem Inside.bind_instantiate (h : Inside outer params words bindings inner) {param : Param}
    (hkind : param.kind = .int ∨ param.kind = .address) {token : Token} {v : Variable}
    (hbind : param.bind token inner = .ok v) :
    param.bind (token.instantiate params words) outer = .ok v := by
  rcases Param.find?_of_bindAll h.resolved h.length_eq h.bound token.text with
    ⟨hfind, hget⟩ | ⟨formal, hformal, word, found, hname, hfind, hget, hfound⟩
  · have hvar : inner.var? token.text = outer.var? token.text := by
      rw [h.var?_eq, hget, Option.none_or]
    rw [Token.instantiate, hfind]
    exact (param.bind_congr hvar).symm.trans hbind
  · have hvar : inner.var? token.text = some found := by
      rw [h.var?_eq, hget, Option.some_or]
    have hidentifier : Value.isIdentifier token.text = true := hname ▸ h.names formal hformal
    obtain ⟨hkinds, rfl⟩ := Param.bind_name hkind hidentifier hvar hbind
    have hsame : formal.kind = param.kind :=
      (Param.takes_of_bind h.resolved hfound).kind_eq.symm.trans hkinds
    rw [Token.instantiate, hfind]
    exact Param.bind_rename hsame hfound

/-- Words mean inside what the words written in their place mean outside. -/
theorem Inside.bindAll_instantiate (h : Inside outer params words bindings inner)
    {formals : List Param} (hkinds : ∀ formal ∈ formals, formal.kind = .int ∨ formal.kind = .address)
    {tokens : List Token} {found : Bindings} (hbind : Param.bindAll inner formals tokens = .ok found) :
    Param.bindAll outer formals (tokens.map (Token.instantiate params words)) = .ok found := by
  induction formals generalizing tokens found with
  | nil => exact hbind
  | cons formal formals ih =>
    cases tokens with
    | nil => exact hbind
    | cons token tokens =>
      obtain ⟨v, hv, hrest⟩ := exists_of_bind_eq_ok hbind
      obtain ⟨rest, hbindAll, rfl⟩ := exists_of_map_eq_ok hrest
      have hfirst := h.bind_instantiate (hkinds formal (by simp)) hv
      have hothers := ih (fun other hother => hkinds other (by simp [hother])) hbindAll
      rw [List.map_cons, Param.bindAll, hfirst]
      change (Param.bindAll outer formals _).map _ = _
      rw [hothers]
      rfl

/-- A call of an emitting function inside is one outside, with the words written in place. -/
theorem Inside.exists_calls (h : Inside outer params words bindings inner) {function : Function}
    {found : Bindings} (hemission : (Node.call head).isEmission = true)
    (call : Calls inner (.call head) function found) :
    Calls outer (.call (head.instantiate params words)) function found ∧
      ∃ primitive, function.action = .primitive primitive := by
  have hresolved : outer.resolveFunction head.head = .ok function := by
    have hsame : inner.resolveFunction head.head = .ok function := call.resolved
    unfold Env.resolveFunction at hsame ⊢
    rwa [← h.func?_eq]
  obtain ⟨hmem, hname⟩ := Env.mem_of_resolveFunction hresolved
  have hunderscore : function.name.head? = some 95 := by
    rw [hname]
    exact beq_iff_eq.mp hemission
  -- No name begins with an underscore, so the function is no template.
  have hbuiltin : function ∈ Function.builtins := by
    rcases h.named function hmem with hbuiltin | ⟨-, hidentifier, -⟩
    · exact hbuiltin
    · exact absurd hunderscore (Value.not_number_of_isIdentifier hidentifier).2.2
  obtain ⟨hstyle, haction, hkinds⟩ := Function.emits_of_underscore function hbuiltin hunderscore
  constructor
  · refine ⟨fun _ _ hsplice => ?_, hresolved, ?_, ?_⟩
    · cases hsplice
    · have hshaped := call.shaped
      cases hwants : function.wantsBlock with
      | true => simp [checkShape, hwants] at hshaped
      | false => simp [checkShape, hwants]
    · have hbound := call.bound
      simp only [Function.bind, hstyle, Function.bindPositional] at hbound ⊢
      split at hbound
      case isTrue hlength =>
        have hlength : (head.args.map (Token.instantiate params words)).length =
            function.params.length := by
          rw [List.length_map]
          exact hlength
        exact (if_pos hlength).trans (h.bindAll_instantiate hkinds hbound)
      case isFalse => cases hbound
  · split at haction
    case h_1 primitive hprimitive => exact ⟨primitive, hprimitive⟩
    case h_2 => cases haction

variable {setup : Setup} {levels : Nat} {trail : List Visit} {file : Text} {state after : State}

/-- What an emitting call writes inside is emitted outside, with the words written in place. -/
theorem Inside.emits_of_visit (h : Inside outer params words bindings state.env)
    (hemission : (Node.call head).isEmission = true)
    (hvisit : visit setup levels trail file (.call head) state = .ready after) :
    ∃ code, Wrote state after code ∧ Emits outer [.call (head.instantiate params words)] code := by
  obtain ⟨less, function, found, rfl, call⟩ := exists_calls_of_ready rfl hvisit
  obtain ⟨hcall, primitive, haction⟩ := h.exists_calls hemission call
  obtain ⟨after', hvisit', hwrote⟩ := visit_of_primitive setup less trail file call haction
  obtain rfl : after' = after := Progress.ready.inj (hvisit'.symm.trans hvisit)
  refine ⟨_, hwrote, ?_⟩
  rw [← List.append_nil ((primitive.code? found).getD [])]
  exact .cons hcall haction .nil

/-- A list that goes well does so expression by expression. -/
theorem exists_of_visitAll_cons {run : Node → State → Progress} {node : Node} {rest : List Node}
    (h : visitAll run (node :: rest) state = .ready after) :
    ∃ middle, run node state = .ready middle ∧ visitAll run rest middle = .ready after := by
  cases hrun : run node state with
  | stopped last error => simp [visitAll, hrun, Progress.andThen] at h
  | ready middle => exact ⟨middle, rfl, by simpa [visitAll, hrun, Progress.andThen] using h⟩

/-- Words that name no parameter stay as they are. -/
theorem instantiate_of_ne (h : ∀ token ∈ head.args, ∀ param ∈ params, token.text ≠ param.name) :
    head.instantiate params words = head := by
  have hargs : head.args.map (Token.instantiate params words) = head.args := by
    refine (List.map_congr_left fun token htoken => ?_).trans (List.map_id _)
    have hfind : (params.zip words).find? (·.1.name == token.text) = none := by
      refine List.find?_eq_none.mpr fun entry hentry heq => ?_
      exact h token htoken entry.1 (List.of_mem_zip hentry).1 (beq_iff_eq.mp heq).symm
    rw [Token.instantiate, hfind]
    rfl
  rw [Statement.instantiate, hargs]

/-- A block of emitting calls that names no parameter writes inside what it emits outside. -/
theorem Inside.emits_of_block (h : Inside outer params words bindings state.env)
    (hblock : ∀ node ∈ block, node.isEmission = true ∧
      ∀ token ∈ node.arguments, ∀ param ∈ params, token.text ≠ param.name)
    (hvisit : visitAll (visit setup levels trail file) block state = .ready after) :
    ∃ code, Wrote state after code ∧ Emits outer block code := by
  induction block generalizing state with
  | nil =>
    obtain rfl := Progress.ready.inj hvisit
    exact ⟨[], .refl state, .nil⟩
  | cons node rest ih =>
    obtain ⟨middle, hfirst, hrest⟩ := exists_of_visitAll_cons hvisit
    obtain ⟨hemission, hwords⟩ := hblock node (by simp)
    cases node with
    | block | splice => cases hemission
    | call head =>
      obtain ⟨first, hwrote, hemits⟩ := h.emits_of_visit hemission hfirst
      have hsame : head.instantiate params words = head := instantiate_of_ne hwords
      rw [hsame] at hemits
      obtain ⟨second, hwrote', hemits'⟩ := ih (hwrote.env_eq ▸ h)
        (fun other hother => hblock other (by simp [hother])) hrest
      exact ⟨first ++ second, hwrote.trans hwrote', hemits.append hemits'⟩

/-- A splice point writes what the block of the call emits outside. -/
theorem Inside.emits_of_splice {owner : Text} (h : Inside outer params words bindings state.env)
    (hblock : ∀ node ∈ block, node.isEmission = true ∧
      ∀ token ∈ node.arguments, ∀ param ∈ params, token.text ≠ param.name)
    (howner : (state.env.block? owner).map CallerBlock.body = some block)
    (hvisit : visit setup levels trail file (.splice head owner) state = .ready after) :
    ∃ code, Wrote state after code ∧ Emits outer block code := by
  obtain ⟨passed, hpassed, rfl⟩ := Option.map_eq_some_iff.mp howner
  cases levels with
  | zero => cases hvisit
  | succ levels =>
    rw [visit_succ, stepAt_splice_of_some setup trail file head hpassed] at hvisit
    obtain ⟨last, hlast, rfl⟩ := exists_of_mapReady hvisit
    obtain ⟨code, hwrote, hemits⟩ := Inside.emits_of_block (by exact h.empty) hblock hlast
    exact ⟨code, hwrote.of_enter rfl, hemits⟩

/-- The stored body of a template writes what the body of its definition emits outside, with the
words of the call written in place of the parameters and its block in place of the markers. -/
theorem Inside.emits_of_body {written stored : List Node} {owner : Text}
    (h : Inside outer params words bindings state.env)
    (hstored : Node.markAll owner written = .ok stored)
    (hwritten : ∀ node ∈ written, node.isEmission = true ∨ node.isMarker = true ∧
      (state.env.block? owner).map CallerBlock.body = some block)
    (hblock : ∀ node ∈ block, node.isEmission = true ∧
      ∀ token ∈ node.arguments, ∀ param ∈ params, token.text ≠ param.name)
    (hvisit : visitAll (visit setup levels trail file) stored state = .ready after) :
    ∃ code, Wrote state after code ∧
      Emits outer (Node.instantiateAll params words block written) code := by
  induction written generalizing stored state with
  | nil =>
    cases hstored
    obtain rfl := Progress.ready.inj hvisit
    exact ⟨[], .refl state, .nil⟩
  | cons node rest ih =>
    obtain ⟨marked, hmarked, hrest⟩ := exists_of_bind_eq_ok hstored
    obtain ⟨others, hothers, rfl⟩ := exists_of_map_eq_ok hrest
    obtain ⟨middle, hfirst, hbehind⟩ := exists_of_visitAll_cons hvisit
    -- What the rest of the body emits behind what its first expression does.
    have hconcat {front : List Node} {first : List Instruction} (hwrote : Wrote state middle first)
        (hemits : Emits outer front first)
        (hnodes : Node.instantiateAll params words block (node :: rest) =
          front ++ Node.instantiateAll params words block rest) :
        ∃ code, Wrote state after code ∧
          Emits outer (Node.instantiateAll params words block (node :: rest)) code := by
      obtain ⟨second, hwrote', hemits'⟩ := ih (hwrote.env_eq ▸ h) hothers
        (fun other hother => hwrote.env_eq ▸ hwritten other (by simp [hother])) hbehind
      exact ⟨first ++ second, hwrote.trans hwrote', hnodes ▸ hemits.append hemits'⟩
    cases node with
    | block | splice => rcases hwritten _ List.mem_cons_self with hnode | ⟨hnode, -⟩ <;> cases hnode
    | call head =>
      rcases hwritten _ List.mem_cons_self with hemission | ⟨hmarker, howner⟩
      · obtain ⟨hmarker, hmark⟩ := Node.mark_of_isEmission hemission owner
        obtain rfl := Except.ok.inj (hmark.symm.trans hmarked)
        obtain ⟨first, hwrote, hemits⟩ := h.emits_of_visit hemission hfirst
        exact hconcat hwrote hemits (by simp [Node.instantiateAll, hmarker])
      · obtain rfl := Except.ok.inj ((Node.mark_of_isMarker hmarker owner).symm.trans hmarked)
        obtain ⟨first, hwrote, hemits⟩ := h.emits_of_splice hblock howner hfirst
        exact hconcat hwrote hemits (by simp [Node.instantiateAll, hmarker])

end Inside

/-! ## Calls of templates -/

section Templates

variable {setup : Setup} {levels : Nat} {trail : List Visit} {file name title : Text}
  {source : List Node} {frame : Frame} {call : Node} {template : Function} {bindings : Bindings}
  {definition : Visit} {token : Token} {lifetime : Lifetime} {wantsBlock : Bool} {after : State}

/-- A body that is entered and goes well is visited in a scope of its own, with the arguments. -/
theorem exists_of_stepBody {node : Node} {state : State} {record : Visit} {opened : Scope}
    {stored : List Node}
    (hstep : stepAt setup trail file node state = stepBody record template opened stored)
    (hvisit : visit setup levels trail file node state = .ready after) :
    ∃ less scope last, opened.pushAll (record.bindings.map .var) = .ok scope ∧
      visitAll (visit setup less ({ record with bodyParse := template.parse } :: trail) template.file)
        stored ((state.record { record with bodyParse := template.parse }).enter scope) = .ready last ∧
          last.leave = after := by
  cases levels with
  | zero => cases hvisit
  | succ less =>
    rw [visit_succ, hstep] at hvisit
    unfold stepBody at hvisit
    cases hpushed : opened.pushAll (record.bindings.map .var) with
    | error fault => simp [hpushed] at hvisit
    | ok scope =>
      simp only [hpushed] at hvisit
      obtain ⟨last, hlast, hafter⟩ := exists_of_mapReady hvisit
      exact ⟨less, scope, last, rfl, hlast, hafter⟩

/-- The words of a positional call are bound one by one. -/
theorem bindAll_of_calls (hstyle : template.style = .positional)
    (hcall : Calls env call template bindings) :
    call.arguments.length = template.params.length ∧
      Param.bindAll env template.params call.arguments = .ok bindings := by
  have hbound := hcall.bound
  simp only [Function.bind, hstyle, Function.bindPositional] at hbound
  split at hbound
  case isTrue hlength => exact ⟨hlength, hbound⟩
  case isFalse => cases hbound

/-- Expanding a call of a template comes to the same as writing the words of the call in place of
the parameters, and its block in place of each marker, where the call stands: that list of
expressions goes well there, at any depth within the limit, and emits the same code. -/
theorem expansion_substitutes (hreached : Reached setup name source frame)
    (hdefined : definedFunction wantsBlock definition title token lifetime = .ok template)
    (hbody : ∀ node ∈ definition.node.body,
      node.isEmission = true ∨ wantsBlock = true ∧ node.isMarker = true)
    (hcall : Calls frame.state.env call template bindings)
    (hblock : ∀ node ∈ call.body, node.isEmission = true ∧
      ∀ token ∈ node.arguments, ∀ param ∈ template.params, token.text ≠ param.name)
    (hvisit : visit setup levels trail file call frame.state = .ready after) :
    ∃ code, Wrote frame.state after code ∧
      ∀ levels' trail' file', ∃ after',
        visitAll (visit setup (levels' + 1) trail' file')
          (Node.instantiateAll template.params call.arguments call.body definition.node.body)
          frame.state = .ready after' ∧
        Wrote frame.state after' code := by
  obtain ⟨action, htemplate, haction⟩ := exists_of_definedFunction hdefined
  have hname : template.name = title := by rw [htemplate]
  have hstyle : template.style = .positional := by rw [htemplate]
  obtain rfl : action = template.action := by rw [htemplate]
  obtain ⟨hlength, hbound⟩ := bindAll_of_calls hstyle hcall
  have hnamed := named_of_reached hreached
  have hnames : ∀ param ∈ template.params, Value.isIdentifier param.name = true := by
    rcases hnamed template (Env.mem_of_resolveFunction hcall.resolved).1 with hbuiltin | ⟨-, -, hnames⟩
    · have hinterface := Function.interface?_of_mem_builtins template hbuiltin
      rcases haction with ⟨-, haction⟩ | ⟨marked, -, -, haction⟩ <;>
        simp [haction, Action.interface?] at hinterface
    · exact hnames
  have hinside {scope : Scope} (hscope : scope.symbols = bindings.map .var) :
      Inside frame.state.env template.params call.arguments bindings
        (.nested scope frame.state.env) :=
    .of_call (sound_of_reached hreached).vars hnamed hnames hlength hbound hscope
  have hstep : stepAt setup trail file call frame.state = _ := step_of_calls setup.loader hcall
  suffices hcode : ∃ code, Wrote frame.state after code ∧ Emits frame.state.env
      (Node.instantiateAll template.params call.arguments call.body definition.node.body) code by
    obtain ⟨code, hwrote, hemits⟩ := hcode
    exact ⟨code, hwrote, fun _ _ _ => visitAll_of_emits _ _ _ _ hemits rfl⟩
  -- With a block the body was stored with its markers turned into splice points, without one as it is.
  rcases haction with ⟨rfl, haction⟩ | ⟨marked, rfl, hmarked, haction⟩
  · simp only [stepCall, haction] at hstep
    obtain ⟨less, scope, last, hpushed, hlast, rfl⟩ := exists_of_stepBody hstep hvisit
    have hscope : scope.symbols = bindings.map .var := by rw [Scope.eq_of_pushAll hpushed]; rfl
    have hemission : ∀ node ∈ definition.node.body, node.isEmission = true := by
      intro node hnode
      simpa using hbody node hnode
    obtain ⟨code, hwrote, hemits⟩ := Inside.emits_of_body (hinside hscope)
      (Node.markAll_of_isEmission hemission title) (fun node hnode => .inl (hemission node hnode))
      hblock hlast
    exact ⟨code, hwrote.of_enter rfl, hemits⟩
  · simp only [stepCall, haction] at hstep
    obtain ⟨less, scope, last, hpushed, hlast, rfl⟩ := exists_of_stepBody hstep hvisit
    have hopened := Scope.eq_of_pushAll hpushed
    have hscope : scope.symbols = bindings.map .var := by rw [hopened]; rfl
    have howner : ((Env.nested scope frame.state.env).block? title).map CallerBlock.body =
        some call.body := by
      simp [Env.block?, Env.scopes, Scope.block?, hopened, Scope.addBlock, hname, called, Visit.start]
    obtain ⟨code, hwrote, hemits⟩ := Inside.emits_of_body (hinside hscope) hmarked
      (fun node hnode => (hbody node hnode).imp_right fun hmarker => ⟨hmarker.2, howner⟩) hblock hlast
    exact ⟨code, hwrote.of_enter rfl, hemits⟩

/-- The definition of a block template with two markers. -/
def refrainDefinition : Node :=
  .block ⟨1, 0, ⟨1, 0, "macroblock"⟩,
    [⟨1, 11, "global"⟩, ⟨1, 18, "twice"⟩, ⟨1, 24, "address"⟩, ⟨1, 32, "at"⟩, ⟨1, 35, "int"⟩,
      ⟨1, 39, "by"⟩], []⟩
    [.call ⟨2, 1, ⟨2, 4, "_add"⟩, [⟨2, 9, "at"⟩, ⟨2, 12, "by"⟩], []⟩,
      .call ⟨3, 1, ⟨3, 4, "code"⟩, [], []⟩, .call ⟨4, 1, ⟨4, 4, "_null"⟩, [⟨4, 10, "at"⟩], []⟩,
      .call ⟨5, 1, ⟨5, 4, "code"⟩, [], []⟩]

/-- A call of the block template. -/
def refrainCall : Node :=
  .block ⟨7, 0, ⟨7, 0, "twice"⟩, [⟨7, 6, "x"⟩, ⟨7, 8, "3"⟩], []⟩
    [.call ⟨8, 1, ⟨8, 4, "_print"⟩, [⟨8, 11, ":7"⟩], []⟩]

/-- The definition, a reserved cell, and the call. -/
def refrain : List Node :=
  [refrainDefinition, .call ⟨6, 0, ⟨6, 0, "reg"⟩, [⟨6, 4, "x"⟩], []⟩, refrainCall]

set_option maxRecDepth 4000 in
/-- The call writes what the four statements written in its place write. -/
theorem expansion_substitutes_refrain :
    ∃ frame after code,
      Reached ⟨fun _ _ => ⟨[], .ok []⟩, 8⟩ "main" refrain frame ∧
      visit ⟨fun _ _ => ⟨[], .ok []⟩, 8⟩ 8 [] "main" refrainCall frame.state = .ready after ∧
      Wrote frame.state after code ∧
      ∃ after', visitAll (visit ⟨fun _ _ => ⟨[], .ok []⟩, 8⟩ 8 [] "main")
        [.call ⟨2, 1, ⟨2, 4, "_add"⟩, [⟨7, 6, "x"⟩, ⟨7, 8, "3"⟩], []⟩,
          .call ⟨8, 1, ⟨8, 4, "_print"⟩, [⟨8, 11, ":7"⟩], []⟩,
          .call ⟨4, 1, ⟨4, 4, "_null"⟩, [⟨7, 6, "x"⟩], []⟩,
          .call ⟨8, 1, ⟨8, 4, "_print"⟩, [⟨8, 11, ":7"⟩], []⟩] frame.state = .ready after' ∧
        Wrote frame.state after' code := by
  obtain ⟨frame, after, template, bindings, definition, hreached, hnode, hdefined, hparams, hcall,
      hvisit⟩ : ∃ frame after template bindings, ∃ definition : Visit,
        Reached ⟨fun _ _ => ⟨[], .ok []⟩, 8⟩ "main" refrain frame ∧
        definition.node = refrainDefinition ∧
        definedFunction true definition "twice" ⟨1, 18, "twice"⟩ .everywhere = .ok template ∧
        template.params = [⟨"at", .address⟩, ⟨"by", .int⟩] ∧
        Calls frame.state.env refrainCall template bindings ∧
        visit ⟨fun _ _ => ⟨[], .ok []⟩, 8⟩ 8 [] "main" refrainCall frame.state = .ready after :=
    ⟨_, _, _, _, { Visit.start [] refrainDefinition "main" (.root .initial) with
        bindings := ((Function.definer "macroblock" true).bindHeader
          refrainDefinition.arguments).toOption.getD [] },
      .tail (.tail .refl (.next rfl)) (.next rfl), rfl, rfl, rfl, ⟨by rintro _ _ ⟨⟩, rfl, rfl, rfl⟩,
      rfl⟩
  have hbody : ∀ node ∈ definition.node.body,
      node.isEmission = true ∨ true = true ∧ node.isMarker = true := by
    rw [hnode]
    decide
  have hblock : ∀ node ∈ refrainCall.body, node.isEmission = true ∧
      ∀ token ∈ node.arguments, ∀ param ∈ template.params, token.text ≠ param.name := by
    rw [hparams]
    decide
  obtain ⟨code, hwrote, hsame⟩ :=
    expansion_substitutes hreached hdefined hbody hcall hblock hvisit
  have hlist := hsame 7 [] "main"
  rw [hnode, hparams] at hlist
  exact ⟨frame, after, code, hreached, hvisit, hwrote, hlist⟩

end Templates

end Expansion

end Tapestry
