import Mathlib.Data.List.Forall2
import Tapestry.Builtin
import Tapestry.Proofs.ScopeContents

/-!
# What binding gives

A word bound to a parameter gives a variable of the name and the kind of the parameter. It is
never a reference still to be looked up, as long as no variable in sight is one. A bound header
starts with its own lifetime and name, so these are found first whatever the parameters it
declares are called.
-/

namespace Tapestry

/-- A variable whose value is no reference still to be looked up. -/
def Variable.Resolved (v : Variable) : Prop := v.value.datum.isReference = false

/-- A variable that a parameter can be bound to. -/
structure Param.Takes (param : Param) (v : Variable) : Prop where
  name_eq : v.name = param.name
  kind_eq : v.value.kind = param.kind
  resolved : v.Resolved

namespace Value

/-- An address reads as an address. -/
theorem kindOf_of_readAddress {token : Token} {datum : Datum} (h : readAddress token = .ok datum) :
    datum.kindOf = .address := by
  unfold readAddress at h
  split at h
  case h_1 index _ =>
    split at h
    · cases h
      rfl
    · cases h
  case h_2 =>
    split at h
    · cases h
      rfl
    · cases h

/-- A word reads as a value of the kind asked for. -/
theorem kind_of_read {kind : Kind} {token : Token} {value : Value}
    (h : read kind token = .ok value) : value.kind = kind := by
  obtain ⟨datum, hdatum, rfl⟩ := exists_of_map_eq_ok h
  cases kind with
  | address => exact kindOf_of_readAddress hdatum
  | unknown code => cases hdatum
  | int | identifier | str | typeName | lifetime =>
    obtain ⟨content, _, rfl⟩ := exists_of_map_eq_ok hdatum
    rfl

end Value

namespace Param

/-- What parameters take holds no references. -/
theorem resolved_of_takes {params : List Param} {bindings : Bindings}
    (h : List.Forall₂ Takes params bindings) : ∀ v ∈ bindings, v.Resolved := by
  induction h with
  | nil => simp
  | cons htakes _ ih => exact List.forall_mem_cons.mpr ⟨htakes.resolved, ih⟩

/-- Sharing a resolved variable gives what the parameter takes. -/
theorem takes_of_share {param : Param} {token : Token} {found v : Variable}
    (hfound : found.Resolved) (h : param.share token found = .ok v) : param.Takes v := by
  unfold share at h
  split at h
  case isTrue hkind =>
    cases h
    exact ⟨rfl, hkind, hfound⟩
  case isFalse => cases h

/-- Binding a word gives what the parameter takes. -/
theorem takes_of_bind {param : Param} {token : Token} {env : Env} {v : Variable}
    (henv : ∀ v ∈ env.vars, v.Resolved) (h : param.bind token env = .ok v) : param.Takes v := by
  have hshared {found : Variable} (hfound : env.resolveVariable token = .ok found)
      (hshare : param.share token found = .ok v) : param.Takes v :=
    takes_of_share (henv found (Env.mem_vars_iff.mpr (Env.mem_of_resolveVariable hfound).1)) hshare
  unfold bind at h
  split at h
  case h_1 value hread =>
    split at h
    case isTrue =>
      obtain ⟨found, hfound, hshare⟩ := exists_of_bind_eq_ok h
      exact hshared hfound hshare
    case isFalse hresolved =>
      cases h
      exact ⟨rfl, Value.kind_of_read hread, by simpa [Variable.Resolved] using hresolved⟩
  case h_2 =>
    split at h
    case h_1 => cases h
    case h_2 =>
      split at h
      case h_1 => cases h
      case h_2 found hfound => exact hshared hfound h

/-- Binding words in order gives each parameter what it takes. -/
theorem takes_of_bindAll {env : Env} (henv : ∀ v ∈ env.vars, v.Resolved) {params : List Param}
    {tokens : List Token} {bindings : Bindings} (hlength : tokens.length = params.length)
    (h : bindAll env params tokens = .ok bindings) : List.Forall₂ Takes params bindings := by
  induction params generalizing tokens bindings with
  | nil =>
    obtain rfl := List.eq_nil_of_length_eq_zero hlength
    cases h
    exact .nil
  | cons param params ih =>
    cases tokens with
    | nil => cases hlength
    | cons token tokens =>
      obtain ⟨v, hbind, hrest⟩ := exists_of_bind_eq_ok h
      obtain ⟨rest, hbindAll, rfl⟩ := exists_of_map_eq_ok hrest
      exact .cons (takes_of_bind henv hbind) (ih (by simpa using hlength) hbindAll)

end Param

namespace Function

variable {bindings : Bindings} {function : Function} {tokens : List Token} {env : Env}

/-- Positional binding gives each parameter what it takes. -/
theorem takes_of_bindPositional (henv : ∀ v ∈ env.vars, v.Resolved)
    (h : function.bindPositional tokens env = .ok bindings) :
    List.Forall₂ Param.Takes function.params bindings := by
  unfold bindPositional at h
  split at h
  case isTrue hlength => exact Param.takes_of_bindAll henv hlength h
  case isFalse => cases h

/-- Each pair of a kind and a name binds the kind. -/
theorem exists_kind_of_bindPairs {seen : List Text} (h : bindPairs seen tokens = .ok bindings) :
    ∀ v ∈ bindings, ∃ kind, v.value.datum = .kind kind := by
  fun_induction bindPairs seen tokens generalizing bindings with
  | case1 seen kindToken nameToken rest ih =>
    obtain ⟨kind, _, h⟩ := exists_of_bind_eq_ok h
    obtain ⟨name, _, h⟩ := exists_of_bind_eq_ok h
    split at h
    case isTrue => cases h
    case isFalse =>
      obtain ⟨vars, hvars, h⟩ := exists_of_bind_eq_ok h
      cases h
      exact List.forall_mem_cons.mpr ⟨⟨kind, rfl⟩, ih name hvars⟩
  | case2 seen tokens _ =>
    cases h
    simp

/-- The words of a header and what they are bound to: a lifetime, a name, then kinds. -/
inductive ReadsHeader : List Token → Bindings → Prop where
  | mk {lifetimeToken nameToken : Token} {rest : List Token} {lifetime : Lifetime} {name : Text}
      {params : Bindings} (lasting : Value.readLifetime lifetimeToken = .ok lifetime)
      (named : Value.readIdentifier nameToken = .ok name)
      (kinds : ∀ v ∈ params, ∃ kind, v.value.datum = .kind kind) :
    ReadsHeader (lifetimeToken :: nameToken :: rest)
      ({ name := "lifetime", value := ⟨.lifetime lifetime, lifetimeToken⟩ } ::
        { name := "name", value := ⟨.identifier name, nameToken⟩ } :: params)

/-- A bound header is what its words say. -/
theorem readsHeader_of_bindHeader (h : function.bindHeader tokens = .ok bindings) :
    ReadsHeader tokens bindings := by
  unfold bindHeader at h
  split at h
  case h_1 lifetimeToken nameToken rest =>
    split at h
    case isTrue =>
      obtain ⟨lifetime, hlifetime, h⟩ := exists_of_bind_eq_ok h
      obtain ⟨name, hname, h⟩ := exists_of_bind_eq_ok h
      obtain ⟨params, hparams, h⟩ := exists_of_bind_eq_ok h
      cases h
      exact .mk hlifetime hname (exists_kind_of_bindPairs hparams)
    case isFalse => cases h
  case h_2 => cases h

/-- A bound header holds no references. -/
theorem ReadsHeader.resolved (h : ReadsHeader tokens bindings) : ∀ v ∈ bindings, v.Resolved := by
  obtain ⟨_, _, hkinds⟩ := h
  refine List.forall_mem_cons.mpr ⟨rfl, List.forall_mem_cons.mpr ⟨rfl, fun v hv => ?_⟩⟩
  obtain ⟨kind, hkind⟩ := hkinds v hv
  simp [Variable.Resolved, hkind, Datum.isReference]

/-- What is bound for a call holds no references. -/
theorem resolved_of_bind (henv : ∀ v ∈ env.vars, v.Resolved)
    (h : function.bind tokens env = .ok bindings) : ∀ v ∈ bindings, v.Resolved := by
  unfold bind at h
  split at h
  case h_1 => exact Param.resolved_of_takes (takes_of_bindPositional henv h)
  case h_2 => exact (readsHeader_of_bindHeader h).resolved

end Function

/-! ## Looking up what was bound -/

namespace Bindings

variable {params : List Param} {bindings : Bindings}

/-- The first parameter of a name leads to the variable bound for it. -/
theorem exists_get? {name : Text} {kind : Kind} (h : List.Forall₂ Param.Takes params bindings)
    (hparam : params.find? (·.name == name) = some ⟨name, kind⟩) :
    ∃ v, get? bindings name = some v ∧ Param.Takes ⟨name, kind⟩ v := by
  induction h with
  | nil => cases hparam
  | @cons first v params bindings htakes _ ih =>
    by_cases hname : first.name = name
    · obtain rfl : first = ⟨name, kind⟩ := by simpa [hname] using hparam
      exact ⟨v, by simp [get?, htakes.name_eq], htakes⟩
    · obtain ⟨w, hget, hw⟩ := ih (by simpa [hname] using hparam)
      exact ⟨w, by simpa [get?, htakes.name_eq, hname] using hget, hw⟩

/-- An integer parameter is bound to an integer. -/
theorem exists_int? (name : Text) (h : List.Forall₂ Param.Takes params bindings)
    (hparam : params.find? (·.name == name) = some ⟨name, .int⟩) :
    ∃ value, int? bindings name = some value := by
  obtain ⟨v, hget, htakes⟩ := exists_get? h hparam
  have hkind : v.value.datum.kindOf = .int := htakes.kind_eq
  simp only [int?, hget, Option.bind_some]
  cases hdatum : v.value.datum with
  | int value => exact ⟨value, rfl⟩
  | _ => simp [hdatum, Datum.kindOf] at hkind

/-- An address parameter is bound to a cell index. -/
theorem exists_cell? (name : Text) (h : List.Forall₂ Param.Takes params bindings)
    (hparam : params.find? (·.name == name) = some ⟨name, .address⟩) :
    ∃ index, cell? bindings name = some index := by
  obtain ⟨v, hget, htakes⟩ := exists_get? h hparam
  have hkind : v.value.datum.kindOf = .address := htakes.kind_eq
  have hresolved : v.value.datum.isReference = false := htakes.resolved
  simp only [cell?, hget, Option.bind_some]
  cases hdatum : v.value.datum with
  | cell index => exact ⟨index, rfl⟩
  | reference name => simp [hdatum, Datum.isReference] at hresolved
  | _ => simp [hdatum, Datum.kindOf] at hkind

/-- A name parameter is bound to a name. -/
theorem exists_identifier? (name : Text) (h : List.Forall₂ Param.Takes params bindings)
    (hparam : params.find? (·.name == name) = some ⟨name, .identifier⟩) :
    ∃ bound, identifier? bindings name = some bound := by
  obtain ⟨v, hget, htakes⟩ := exists_get? h hparam
  have hkind : v.value.datum.kindOf = .identifier := htakes.kind_eq
  simp only [identifier?, hget, Option.bind_some]
  cases hdatum : v.value.datum with
  | identifier bound => exact ⟨_, rfl⟩
  | _ => simp [hdatum, Datum.kindOf] at hkind

/-- A string parameter is bound to a string. -/
theorem exists_str? (name : Text) (h : List.Forall₂ Param.Takes params bindings)
    (hparam : params.find? (·.name == name) = some ⟨name, .str⟩) :
    ∃ contents, str? bindings name = some contents := by
  obtain ⟨v, hget, htakes⟩ := exists_get? h hparam
  have hkind : v.value.datum.kindOf = .str := htakes.kind_eq
  simp only [str?, hget, Option.bind_some]
  cases hdatum : v.value.datum with
  | str contents => exact ⟨_, rfl⟩
  | _ => simp [hdatum, Datum.kindOf] at hkind

end Bindings

/-! ## What built-in functions look up -/

/-- The parameters of the function that emits a primitive. -/
def Primitive.params : Primitive → List Param
  | plus | minus | move | moveAbs | moveAbsLeft => [⟨"value", .int⟩]
  | moveRel => [⟨"from", .address⟩, ⟨"to", .address⟩]
  | print | read | loopEnter | loopExit => []
  | add => [⟨"addr", .address⟩, ⟨"value", .int⟩]
  | null | printAt | readAt => [⟨"addr", .address⟩]
  | mov => [⟨"to", .address⟩, ⟨"from", .address⟩]
  | mov2 => [⟨"to1", .address⟩, ⟨"to2", .address⟩, ⟨"from", .address⟩]

/-- A primitive finds every argument it looks up. -/
theorem Primitive.isSome_code? {primitive : Primitive} {bindings : Bindings}
    (h : List.Forall₂ Param.Takes primitive.params bindings) :
    (primitive.code? bindings).isSome := by
  cases primitive with
  | plus | minus | move | moveAbs | moveAbsLeft =>
    obtain ⟨value, hvalue⟩ := Bindings.exists_int? "value" h (by decide)
    simp [code?, hvalue]
  | print | read | loopEnter | loopExit => rfl
  | null | printAt | readAt =>
    obtain ⟨cell, hcell⟩ := Bindings.exists_cell? "addr" h (by decide)
    simp [code?, hcell]
  | add =>
    obtain ⟨cell, hcell⟩ := Bindings.exists_cell? "addr" h (by decide)
    obtain ⟨value, hvalue⟩ := Bindings.exists_int? "value" h (by decide)
    simp [code?, hcell, hvalue]
  | moveRel | mov =>
    obtain ⟨source, hsource⟩ := Bindings.exists_cell? "from" h (by decide)
    obtain ⟨target, htarget⟩ := Bindings.exists_cell? "to" h (by decide)
    simp [code?, hsource, htarget]
  | mov2 =>
    obtain ⟨source, hsource⟩ := Bindings.exists_cell? "from" h (by decide)
    obtain ⟨first, hfirst⟩ := Bindings.exists_cell? "to1" h (by decide)
    obtain ⟨second, hsecond⟩ := Bindings.exists_cell? "to2" h (by decide)
    simp [code?, hsource, hfirst, hsecond]

/-- How the arguments of a built-in function are bound, by what calling it does. -/
def Action.interface? : Action → Option (BindingStyle × List Param)
  | .primitive emitter => some (.positional, emitter.params)
  | .register => some (.positional, [⟨"name", .identifier⟩])
  | .expandUnit => some (.positional, [⟨"path", .str⟩])
  | .define _ => some (.header, [])
  | .template _ | .blockTemplate _ => none

/-- Every built-in function declares what calling it looks up. -/
theorem Function.interface?_of_mem_builtins :
    ∀ f ∈ Function.builtins, f.action.interface? = some (f.style, f.params) := by
  decide

end Tapestry
