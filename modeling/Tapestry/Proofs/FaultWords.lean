import Tapestry.Proofs.DefinitionHeaders
import Tapestry.Proofs.SourceStatements

/-!
# The word that a fault blames

When the step of an expression fails, the fault blames a word of the expression or of the block it
owns. There are two exceptions. A fault about missing arguments blames no word. A fault about a unit
blames the word that its path was read from, and where the path is the value of a variable, that word
stands at the call that bound the variable.

Installing arguments never fails, since the parameters of a template have different names.
-/

namespace Tapestry

/-! ## Words of expressions -/

namespace Node

/-- The words of an expression and of the block it owns. -/
def words (node : Node) : List Token := node.statements.flatMap Statement.tokens

/-- The words of expressions and of the blocks they own. -/
def bodyWords (nodes : List Node) : List Token := (bodyStatements nodes).flatMap Statement.tokens

/-- The words of its own statement are words of an expression. -/
theorem tokens_head_subset (node : Node) : node.head.tokens ⊆ node.words :=
  fun _ htoken => List.mem_flatMap.mpr ⟨node.head, node.head_mem_statements, htoken⟩

/-- The word that an expression calls by is one of its words. -/
theorem callee_mem_words (node : Node) : node.callee ∈ node.words :=
  node.tokens_head_subset List.mem_cons_self

/-- The arguments of an expression are words of it. -/
theorem arguments_subset_words (node : Node) : node.arguments ⊆ node.words :=
  fun _ htoken => node.tokens_head_subset (List.mem_cons_of_mem _ htoken)

/-- The words of its block are words of an expression. -/
theorem bodyWords_body_subset (node : Node) : bodyWords node.body ⊆ node.words := by
  intro token htoken
  obtain ⟨statement, hstatement, hmem⟩ := List.mem_flatMap.mp htoken
  exact List.mem_flatMap.mpr ⟨statement, bodyStatements_body_subset node hstatement, hmem⟩

/-- The words of a list are those of its expressions in turn. -/
theorem bodyWords_cons (node : Node) (rest : List Node) :
    bodyWords (node :: rest) = node.words ++ bodyWords rest := by
  rw [bodyWords, bodyStatements, List.flatMap_append, words, bodyWords]

end Node

/-! ## Faults and words -/

/-- A fault that blames one of the given words, or that complains about missing words and blames
none. -/
def Fault.Points (words : List Token) (fault : Fault) : Prop :=
  (∃ token ∈ words, fault.token = some token) ∨
    (fault.token = none ∧ fault.line = none ∧ fault.kind = .argumentLen)

/-- A fault, if there is one, points to the given words. -/
def PointsTo {α : Type} (words : List Token) (result : Except Fault α) : Prop :=
  ∀ fault, result = .error fault → fault.Points words

/-- A fault that points to some words points to more. -/
theorem Fault.Points.mono {words more : List Token} {fault : Fault} (h : fault.Points words)
    (hsubset : words ⊆ more) : fault.Points more := by
  rcases h with ⟨token, hmem, htoken⟩ | hnone
  · exact .inl ⟨token, hsubset hmem, htoken⟩
  · exact .inr hnone

/-- A fault that blames a word points to it. -/
theorem Fault.points_blame {words : List Token} {token : Token} (hmem : token ∈ words)
    (kind : FaultKind) (detail : Text) : (Fault.blame kind token detail).Points words :=
  .inl ⟨token, hmem, rfl⟩

namespace PointsTo

variable {α β : Type} {words more : List Token} {fault : Fault}

/-- What succeeds points nowhere. -/
theorem ok (a : α) : PointsTo words (.ok a) := by
  intro fault h
  cases h

/-- What fails with a fault points where the fault does. -/
theorem error (h : fault.Points words) : PointsTo words (.error fault : Except Fault α) := by
  intro other hother
  cases hother
  exact h

/-- What goes on points where its parts do. -/
theorem bind {first : Except Fault α} {rest : α → Except Fault β} (hfirst : PointsTo words first)
    (hrest : ∀ a, PointsTo words (rest a)) : PointsTo words (first.bind rest) := by
  cases first with
  | error fault => exact error (hfirst fault rfl)
  | ok a => exact hrest a

/-- Changing what comes out changes no fault. -/
theorem map {f : α → β} {result : Except Fault α} (h : PointsTo words result) :
    PointsTo words (result.map f) := by
  cases result with
  | error fault => exact error (h fault rfl)
  | ok a => exact ok (f a)

/-- What points to some words points to more. -/
theorem mono {result : Except Fault α} (h : PointsTo words result) (hsubset : words ⊆ more) :
    PointsTo more result :=
  fun fault hfault => (h fault hfault).mono hsubset

end PointsTo

/-! ## Reading and binding -/

section Reading

variable {words : List Token} {token : Token}

/-- A word that is no name is blamed. -/
theorem Value.pointsTo_readIdentifier (hmem : token ∈ words) : PointsTo words (readIdentifier token) := by
  unfold readIdentifier
  split
  case isTrue => exact .ok _
  case isFalse => exact .error (Fault.points_blame hmem _ _)

/-- A word that is no kind is blamed. -/
theorem Value.pointsTo_readKind (hmem : token ∈ words) : PointsTo words (readKind token) := by
  unfold readKind
  split
  case h_1 => exact .ok _
  case h_2 => exact .error (Fault.points_blame hmem _ _)

/-- A word that is no lifetime is blamed. -/
theorem Value.pointsTo_readLifetime (hmem : token ∈ words) : PointsTo words (readLifetime token) := by
  unfold readLifetime
  split
  case h_1 => exact .ok _
  case h_2 => exact .error (Fault.points_blame hmem _ _)

/-- A word that names no variable is blamed. -/
theorem Env.pointsTo_resolveVariable (env : Env) (hmem : token ∈ words) :
    PointsTo words (env.resolveVariable token) := by
  unfold resolveVariable
  split
  case h_1 => exact .ok _
  case h_2 => exact .error (Fault.points_blame hmem _ _)

/-- A word that names no function is blamed. -/
theorem Env.pointsTo_resolveFunction (env : Env) (hmem : token ∈ words) :
    PointsTo words (env.resolveFunction token) := by
  unfold resolveFunction
  split
  case h_1 => exact .ok _
  case h_2 => exact .error (Fault.points_blame hmem _ _)

/-- A word whose variable has the wrong kind is blamed. -/
theorem Param.pointsTo_share (param : Param) (hmem : token ∈ words) (found : Variable) :
    PointsTo words (param.share token found) := by
  unfold share
  split
  case isTrue => exact .ok _
  case isFalse => exact .error (Fault.points_blame hmem _ _)

/-- Binding a word blames it, whatever keeps it from being read. -/
theorem Param.pointsTo_bind (param : Param) (env : Env) (hmem : token ∈ words) :
    PointsTo words (param.bind token env) := by
  unfold bind
  split
  case h_1 =>
    split
    case isTrue => exact (env.pointsTo_resolveVariable hmem).bind (param.pointsTo_share hmem)
    case isFalse => exact .ok _
  case h_2 =>
    split
    case h_1 => exact .error (.inl ⟨token, hmem, rfl⟩)
    case h_2 =>
      split
      case h_1 => exact .error (.inl ⟨token, hmem, rfl⟩)
      case h_2 found _ => exact param.pointsTo_share hmem found

end Reading

/-- Binding arguments one by one blames one of them, or that there are too few or too many. -/
theorem Param.pointsTo_bindAll (env : Env) (params : List Param) (tokens : List Token) :
    PointsTo tokens (bindAll env params tokens) := by
  induction params generalizing tokens with
  | nil => exact .ok _
  | cons param params ih =>
    cases tokens with
    | nil => exact .ok _
    | cons token tokens =>
      refine (param.pointsTo_bind env List.mem_cons_self).bind fun _ => ?_
      exact ((ih tokens).mono (List.subset_cons_self _ _)).map

namespace Function

/-- Binding the parameters of a definition blames a word of its header. -/
theorem pointsTo_bindPairs (seen : List Text) (tokens : List Token) :
    PointsTo tokens (bindPairs seen tokens) := by
  fun_induction bindPairs seen tokens with
  | case1 seen kindToken nameToken rest ih =>
    have hname : nameToken ∈ kindToken :: nameToken :: rest := List.mem_cons_of_mem _ List.mem_cons_self
    have hrest : rest ⊆ kindToken :: nameToken :: rest := fun _ hmem =>
      List.mem_cons_of_mem _ (List.mem_cons_of_mem _ hmem)
    refine (Value.pointsTo_readKind List.mem_cons_self).bind fun kind => ?_
    refine (Value.pointsTo_readIdentifier hname).bind fun name => ?_
    split
    case isTrue => exact .error (Fault.points_blame hname _ _)
    case isFalse => exact ((ih name).mono hrest).bind fun _ => .ok _
  | case2 => exact .ok _

/-- A number of words that is wrong is blamed on one of them, or on none if words are missing. -/
theorem points_of_argumentLen {tokens : List Token} {fault : Fault} (hkind : fault.kind = .argumentLen)
    (hline : fault.line = none) (htoken : ∀ token, fault.token = some token → token ∈ tokens) :
    fault.Points tokens := by
  cases hfault : fault.token with
  | none => exact .inr ⟨hfault, hline, hkind⟩
  | some token => exact .inl ⟨token, htoken token hfault, hfault⟩

/-- Binding arguments blames one of the words, if any. -/
theorem pointsTo_bind (function : Function) (tokens : List Token) (env : Env) :
    PointsTo tokens (function.bind tokens env) := by
  unfold bind
  split
  case h_1 =>
    unfold bindPositional
    split
    case isTrue => exact Param.pointsTo_bindAll env _ tokens
    case isFalse =>
      exact .error (points_of_argumentLen rfl rfl fun _ htoken => List.mem_of_getElem? htoken)
  case h_2 =>
    have hheader : (bindHeader.badHeader function tokens).Points tokens :=
      points_of_argumentLen rfl rfl fun _ htoken => List.mem_of_getLast? htoken
    unfold bindHeader
    split
    case h_1 lifetimeToken nameToken rest =>
      have hname : nameToken ∈ lifetimeToken :: nameToken :: rest :=
        List.mem_cons_of_mem _ List.mem_cons_self
      have hrest : rest ⊆ lifetimeToken :: nameToken :: rest := fun _ hmem =>
        List.mem_cons_of_mem _ (List.mem_cons_of_mem _ hmem)
      split
      case isTrue =>
        refine (Value.pointsTo_readLifetime List.mem_cons_self).bind fun lifetime => ?_
        refine (Value.pointsTo_readIdentifier hname).bind fun name => ?_
        exact ((pointsTo_bindPairs [] rest).mono hrest).bind fun _ => .ok _
      case isFalse => exact .error hheader
    case h_2 => exact .error hheader

end Function

/-! ## Marking -/

mutual

/-- Marking an expression blames a word of it. -/
theorem Node.pointsTo_mark (owner : Text) (node : Node) : PointsTo node.words (node.mark owner) := by
  cases node with
  | call head =>
    unfold mark
    split
    case isTrue =>
      split
      case h_1 => exact .ok _
      case h_2 first rest hargs =>
        have hfirst : first ∈ (call head).arguments := by
          rw [arguments, Node.head, hargs]
          exact List.mem_cons_self
        exact .error (Fault.points_blame ((call head).arguments_subset_words hfirst) _ _)
    case isFalse => exact .ok _
  | block head body =>
    unfold mark
    split
    case isTrue => exact .error (.inl ⟨head.head, (block head body).callee_mem_words, rfl⟩)
    case isFalse =>
      split
      case isTrue => exact .ok _
      case isFalse =>
        exact ((pointsTo_markAll owner body).mono (block head body).bodyWords_body_subset).map
  | splice head other => exact .ok _

/-- Marking a list of expressions blames a word of one of them. -/
theorem Node.pointsTo_markAll (owner : Text) (nodes : List Node) :
    PointsTo (bodyWords nodes) (markAll owner nodes) := by
  cases nodes with
  | nil => exact .ok _
  | cons node rest =>
    rw [bodyWords_cons]
    refine ((pointsTo_mark owner node).mono (List.subset_append_left _ _)).bind fun _ => ?_
    exact ((pointsTo_markAll owner rest).mono (List.subset_append_right _ _)).map

end

/-! ## Words of bound values -/

/-- A value bound at a call: read from one of the words there, or that of a variable in sight. Names
are always read. -/
def Variable.FromWords (tokens : List Token) (env : Env) (v : Variable) : Prop :=
  v.value.token ∈ tokens ∨
    v.value.kind ≠ .identifier ∧ ∃ found, .var found ∈ env.symbols ∧ found.value = v.value

/-- A value from some words is one from more. -/
theorem Variable.FromWords.mono {tokens more : List Token} {env : Env} {v : Variable}
    (h : v.FromWords tokens env) (hsubset : tokens ⊆ more) : v.FromWords more env :=
  h.imp_left fun hmem => hsubset hmem

namespace Param

variable {param : Param} {token : Token} {env : Env} {v : Variable} {tokens : List Token}

/-- The value of a variable that is shared is that of the variable in sight. -/
theorem fromWords_of_share {found : Variable} (hkind : param.kind ≠ .identifier)
    (hfound : env.resolveVariable token = .ok found) (h : param.share token found = .ok v) :
    v.FromWords tokens env := by
  unfold share at h
  split at h
  case isTrue hsame =>
    cases h
    exact .inr ⟨fun hname => hkind (hsame.symm.trans hname), found,
      (Env.mem_of_resolveVariable hfound).1, rfl⟩
  case isFalse => cases h

/-- A word that is no name is not read as one. -/
theorem kind_ne_identifier_of_read {unread : Fault} {name : Text}
    (hread : Value.read param.kind token = .error unread)
    (hname : Value.readIdentifier token = .ok name) : param.kind ≠ .identifier := by
  intro hkind
  simp only [hkind, Value.read, Value.readDatum, hname] at hread
  cases hread

/-- A value that is bound comes from its word, or from a variable in sight. -/
theorem fromWords_of_bind (h : param.bind token env = .ok v) : v.FromWords [token] env := by
  unfold bind at h
  split at h
  case h_1 value hread =>
    obtain ⟨datum, hdatum, rfl⟩ := exists_of_map_eq_ok hread
    split at h
    case isTrue hreference =>
      -- Only an address is looked up after it has been read.
      obtain ⟨found, hfound, hshare⟩ := exists_of_bind_eq_ok h
      refine fromWords_of_share (fun hkind => ?_) hfound hshare
      rw [hkind] at hdatum
      obtain ⟨name, _, rfl⟩ := exists_of_map_eq_ok hdatum
      cases hreference
    case isFalse =>
      cases h
      exact .inl List.mem_cons_self
  case h_2 unread hread =>
    split at h
    case h_1 => cases h
    case h_2 name hname =>
      split at h
      case h_1 => cases h
      case h_2 found hfound =>
        exact fromWords_of_share (kind_ne_identifier_of_read hread hname) hfound h

/-- A value is bound under the name of its parameter. -/
theorem name_of_bind (h : param.bind token env = .ok v) : v.name = param.name := by
  have hshared {found : Variable} (hshare : param.share token found = .ok v) : v.name = param.name := by
    unfold share at hshare
    split at hshare
    case isTrue =>
      cases hshare
      rfl
    case isFalse => cases hshare
  unfold bind at h
  split at h
  case h_1 =>
    split at h
    case isTrue =>
      obtain ⟨found, _, hshare⟩ := exists_of_bind_eq_ok h
      exact hshared hshare
    case isFalse =>
      cases h
      rfl
  case h_2 =>
    split at h
    case h_1 => cases h
    case h_2 =>
      split at h
      case h_1 => cases h
      case h_2 => exact hshared h

/-- Words bound in order are bound under the names of the parameters. -/
theorem of_bindAll {params : List Param} {bindings : Bindings}
    (h : bindAll env params tokens = .ok bindings) :
    (∀ v ∈ bindings, v.FromWords tokens env) ∧
      bindings.map Variable.name <+: params.map Param.name := by
  induction params generalizing tokens bindings with
  | nil =>
    cases h
    exact ⟨fun _ hv => absurd hv List.not_mem_nil, List.nil_prefix⟩
  | cons param params ih =>
    cases tokens with
    | nil =>
      cases h
      exact ⟨fun _ hv => absurd hv List.not_mem_nil, List.nil_prefix⟩
    | cons token tokens =>
      obtain ⟨v, hbind, hrest⟩ := exists_of_bind_eq_ok h
      obtain ⟨rest, hbindAll, rfl⟩ := exists_of_map_eq_ok hrest
      obtain ⟨hwords, hnames⟩ := ih hbindAll
      have hfirst : [token] ⊆ token :: tokens := List.cons_subset_cons token (List.nil_subset _)
      refine ⟨List.forall_mem_cons.mpr ⟨(fromWords_of_bind hbind).mono hfirst, fun w hw => ?_⟩, ?_⟩
      · exact (hwords w hw).mono (List.subset_cons_self _ _)
      · rw [List.map_cons, List.map_cons, name_of_bind hbind]
        exact (List.prefix_cons_inj _).mpr hnames

end Param

namespace Function

variable {bindings : Bindings} {function : Function} {tokens : List Token} {env : Env}

/-- The words of a header are bound to its lifetime, its name and different parameters. -/
theorem of_bindHeader (h : function.bindHeader tokens = .ok bindings) :
    (∀ v ∈ bindings, v.value.token ∈ tokens) ∧ ((bindings.drop 2).map Variable.name).Nodup := by
  obtain ⟨header, rfl, rfl⟩ := bindHeader_eq_ok_iff.mp h
  refine ⟨header.token_mem_words, ?_⟩
  rw [Header.bindings, List.drop_succ_cons, List.drop_succ_cons, List.drop_zero, List.map_map]
  exact header.distinct

/-- What is bound for a call is read from its words, or the value of a variable in sight. -/
theorem fromWords_of_bind (h : function.bind tokens env = .ok bindings) :
    ∀ v ∈ bindings, v.FromWords tokens env := by
  unfold bind at h
  split at h
  case h_1 =>
    unfold bindPositional at h
    split at h
    case isTrue => exact (Param.of_bindAll h).1
    case isFalse => cases h
  case h_2 => exact fun v hv => .inl ((of_bindHeader h).1 v hv)

/-- The parameters a header declares are among what is bound for it, in order. -/
theorem headerParams_sublist (bindings : Bindings) :
    ((headerParams bindings).map Param.name).Sublist ((bindings.drop 2).map Variable.name) := by
  unfold headerParams
  induction bindings.drop 2 with
  | nil => exact .slnil
  | cons v rest ih =>
    rw [List.filterMap_cons, List.map_cons]
    split
    case h_1 => exact ih.cons _
    case h_2 param hparam =>
      split at hparam
      case h_1 =>
        cases hparam
        exact ih.cons_cons _
      case h_2 => cases hparam

/-- A function whose arguments are bound as calling it wants: a definition reads a header, and a
template has parameters of different names. -/
def Orderly (function : Function) : Prop :=
  match function.action with
  | .define _ => function.style = .header
  | .template _ | .blockTemplate _ =>
    function.style = .positional ∧ (function.params.map Param.name).Nodup
  | _ => True

/-- A built-in function is in order, and it has no body. -/
theorem of_mem_builtins (h : function ∈ builtins) : function.Orderly ∧ function.body = [] := by
  have hinterface := interface?_of_mem_builtins function h
  unfold Orderly Function.body
  cases haction : function.action with
  | primitive | register | expandUnit => exact ⟨trivial, rfl⟩
  | define wantsBlock =>
    rw [haction] at hinterface
    exact ⟨(Prod.mk.inj (Option.some.inj hinterface)).1.symm, rfl⟩
  | template | blockTemplate =>
    rw [haction] at hinterface
    cases hinterface

/-- The arguments of a template have different names. -/
theorem nodup_of_bind (hstyle : function.style = .positional)
    (hnodup : (function.params.map Param.name).Nodup) (h : function.bind tokens env = .ok bindings) :
    (bindings.map Variable.name).Nodup := by
  simp only [bind, hstyle, bindPositional] at h
  split at h
  case isTrue => exact hnodup.sublist (Param.of_bindAll h).2.sublist
  case isFalse => cases h

end Function

/-! ## Steps -/

namespace Bindings

variable {bindings : Bindings} {key : Text} {token : Token}

/-- A value found under a name is one of the bindings. -/
theorem mem_of_get? {v : Variable} (h : get? bindings key = some v) : v ∈ bindings :=
  List.mem_of_find?_eq_some h

/-- A name found under a name comes from the word of a binding. -/
theorem exists_of_identifier? {name : Text} (h : identifier? bindings key = some (name, token)) :
    ∃ v ∈ bindings, v.value.kind = .identifier ∧ v.value.token = token := by
  obtain ⟨v, hget, hname⟩ := Option.bind_eq_some_iff.mp h
  refine ⟨v, mem_of_get? hget, ?_⟩
  split at hname
  case h_1 hdatum => exact ⟨congrArg Datum.kindOf hdatum, (Prod.mk.inj (Option.some.inj hname)).2⟩
  case h_2 => cases hname

/-- A string found under a name comes from the word of a binding. -/
theorem exists_of_str? {contents : Text} (h : str? bindings key = some (contents, token)) :
    ∃ v ∈ bindings, v.value.kind = .str ∧ v.value.token = token := by
  obtain ⟨v, hget, hstr⟩ := Option.bind_eq_some_iff.mp h
  refine ⟨v, mem_of_get? hget, ?_⟩
  split at hstr
  case h_1 hdatum => exact ⟨congrArg Datum.kindOf hdatum, (Prod.mk.inj (Option.some.inj hstr)).2⟩
  case h_2 => cases hstr

/-- A name that was bound stands among the words of the call. -/
theorem mem_of_identifier? {name : Text} {tokens : List Token} {env : Env}
    (hbound : ∀ v ∈ bindings, v.FromWords tokens env)
    (h : identifier? bindings key = some (name, token)) : token ∈ tokens := by
  obtain ⟨v, hv, hkind, rfl⟩ := exists_of_identifier? h
  exact (hbound v hv).resolve_right fun hshared => hshared.1 hkind

end Bindings

/-- Symbols of different names can be installed in a scope that has none of these names. -/
theorem Scope.exists_pushAll {scope : Scope} {symbols : List Symbol}
    (h : ((scope.symbols ++ symbols).map Symbol.name).Nodup) : ∃ after, scope.pushAll symbols = .ok after := by
  induction symbols generalizing scope with
  | nil => exact ⟨scope, rfl⟩
  | cons symbol rest ih =>
    have hfree : scope.find? symbol.name = none := by
      refine List.find?_eq_none.mpr fun other hother => ?_
      rw [List.map_append, List.map_cons] at h
      have hne := (List.nodup_append.mp h).2.2 _ (List.mem_map_of_mem hother) _ List.mem_cons_self
      simpa using hne
    have hpush : scope.push symbol = .ok { scope with symbols := scope.symbols ++ [symbol] } := by
      rw [push, hfree]
      rfl
    rw [pushAll, hpush]
    refine ih ?_
    rwa [List.append_assoc, List.singleton_append]

/-- Variables of different names can be installed in a scope without symbols. -/
theorem Scope.pushAll_of_nodup {scope : Scope} {vars : List Variable} (hempty : scope.symbols = [])
    (hnodup : (vars.map Variable.name).Nodup) :
    scope.pushAll (vars.map .var) = .ok ⟨vars.map .var, scope.blocks⟩ := by
  have hnames : ((scope.symbols ++ vars.map Symbol.var).map Symbol.name).Nodup := by
    rw [hempty, List.nil_append, List.map_map]
    exact hnodup
  obtain ⟨after, hpush⟩ := exists_pushAll hnames
  rw [hpush, eq_of_pushAll hpush, hempty, List.nil_append]

/-- A fault about a unit whose path is the value of a variable in sight. -/
structure Fault.Borrows (env : Env) (fault : Fault) : Prop where
  kind : fault.kind = .importFailed ∨ fault.kind = .importCycle
  word : ∃ found, .var found ∈ env.symbols ∧ found.value.kind = .str ∧
    fault.token = some found.value.token

namespace Expansion

/-- A step that fails points to the given words, or blames the word of a path borrowed. -/
def Step.Points (env : Env) (words : List Token) : Step → Prop
  | .fail _ fault => fault.Points words ∨ fault.Borrows env
  | .done _ _ | .enter _ _ _ _ | .unit _ _ _ => True

section Steps

variable {loader : Loader} {state : State} {visit : Visit} {words : List Token}

/-- Defining a function blames a word of its body. -/
theorem pointsTo_definedFunction (wantsBlock : Bool) (visit : Visit) (name : Text) (token : Token)
    (lifetime : Lifetime) :
    PointsTo (Node.bodyWords visit.node.body) (definedFunction wantsBlock visit name token lifetime) := by
  cases wantsBlock with
  | false => exact .ok _
  | true =>
    simp only [definedFunction, if_true]
    exact (Node.pointsTo_markAll name visit.node.body).map.bind fun _ => .ok _

/-- A call with or without a block that should be otherwise is blamed on the expression. -/
theorem pointsTo_checkShape (node : Node) (function : Function) :
    PointsTo node.words (checkShape node function) := by
  have hcallee := node.callee_mem_words
  unfold checkShape
  split
  case h_1 | h_3 => exact .error (Fault.points_blame hcallee _ _)
  case h_2 | h_4 => exact .ok _

/-- Reserving a cell blames the word of its name. -/
theorem points_stepRegister (hbound : ∀ v ∈ visit.bindings, v.FromWords words state.env) :
    (stepRegister state visit).Points state.env words := by
  unfold stepRegister
  split
  case h_1 => trivial
  case h_2 name token hname =>
    dsimp only
    split
    case h_1 => exact .inl (.inl ⟨token, Bindings.mem_of_identifier? hbound hname, rfl⟩)
    case h_2 => trivial

/-- Defining a template blames the word of its name or a word of its body. -/
theorem points_stepDefine (wantsBlock : Bool) (hbound : ∀ v ∈ visit.bindings, v.FromWords words state.env)
    (hbody : Node.bodyWords visit.node.body ⊆ words) :
    (stepDefine wantsBlock state visit).Points state.env words := by
  unfold stepDefine
  split
  case h_1 lifetime name token _ hname =>
    split
    case h_1 fault hfault =>
      exact .inl ((pointsTo_definedFunction wantsBlock visit name token lifetime fault hfault).mono hbody)
    case h_2 =>
      split
      case h_1 => exact .inl (.inl ⟨token, Bindings.mem_of_identifier? hbound hname, rfl⟩)
      case h_2 => trivial
  case h_2 => trivial

/-- Asking for a unit blames the word of its path, wherever that was bound. -/
theorem points_stepUnit (hbound : ∀ v ∈ visit.bindings, v.FromWords words state.env) :
    (stepUnit loader state visit).Points state.env words := by
  unfold stepUnit
  split
  case h_1 => trivial
  case h_2 target token hpath =>
    obtain ⟨v, hv, hkind, rfl⟩ := Bindings.exists_of_str? hpath
    -- Both faults about units blame the word of the path.
    have hblames {fault : Fault} (hfault : fault.kind = .importFailed ∨ fault.kind = .importCycle)
        (htoken : fault.token = some v.value.token) : fault.Points words ∨ fault.Borrows state.env := by
      rcases hbound v hv with hmem | ⟨_, found, hfound, hvalue⟩
      · exact .inl (.inl ⟨_, hmem, htoken⟩)
      · exact .inr ⟨hfault, found, hfound, hvalue ▸ hkind, hvalue ▸ htoken⟩
    dsimp only
    split
    case h_1 => exact hblames (.inl rfl) rfl
    case h_2 =>
      split
      case isTrue => exact hblames (.inr rfl) rfl
      case isFalse => split <;> trivial

/-- Arguments of different names are installed in the new scope of a body, and it is entered. -/
theorem stepBody_eq_enter {scope : Scope} (hempty : scope.symbols = [])
    (hnodup : (visit.bindings.map Variable.name).Nodup) (function : Function) (body : List Node) :
    stepBody visit function scope body =
      .enter { visit with bodyParse := function.parse } ⟨visit.bindings.map .var, scope.blocks⟩ body
        function.file := by
  rw [stepBody, Scope.pushAll_of_nodup hempty hnodup]

/-- A call that fails points to its words, or blames the word of a path borrowed. -/
theorem points_stepCall {function : Function} {bindings : Bindings}
    (call : Calls state.env visit.node function bindings) (horderly : function.Orderly) :
    (stepCall loader state (called state.env visit function bindings) function).Points state.env
      visit.node.words := by
  have hbound : ∀ v ∈ (called state.env visit function bindings).bindings,
      v.FromWords visit.node.words state.env := fun v hv =>
    (Function.fromWords_of_bind call.bound v hv).mono visit.node.arguments_subset_words
  unfold stepCall
  split
  case h_1 => trivial
  case h_2 => exact points_stepRegister hbound
  case h_3 => exact points_stepUnit hbound
  case h_4 wantsBlock _ => exact points_stepDefine wantsBlock hbound visit.node.bodyWords_body_subset
  case h_5 body haction | h_6 body haction =>
    simp only [Function.Orderly, haction] at horderly
    rw [stepBody_eq_enter rfl (Function.nodup_of_bind horderly.1 horderly.2 call.bound)]
    trivial

/-- The step of an expression that fails points to the words of the expression, or blames the word
of a path borrowed. -/
theorem points_step (loader : Loader) (visit : Visit)
    (horderly : ∀ f, .func f ∈ state.env.symbols → f.Orderly) :
    (step loader state visit).Points state.env visit.node.words := by
  have hcallee := visit.node.callee_mem_words
  unfold step
  split
  case h_1 head owner hnode =>
    unfold stepSplice
    split
    case h_1 => trivial
    case h_2 => exact .inl (Fault.points_blame hcallee _ _)
  case h_2 hnode =>
    split
    case h_1 fault hfault => exact .inl (state.env.pointsTo_resolveFunction hcallee fault hfault)
    case h_2 function hresolved =>
      dsimp only
      split
      case h_1 fault hfault => exact .inl (pointsTo_checkShape _ _ fault hfault)
      case h_2 hshaped =>
        split
        case h_1 fault hfault =>
          have hpoints := function.pointsTo_bind visit.node.arguments state.env fault hfault
          exact .inl (hpoints.mono visit.node.arguments_subset_words)
        case h_2 bindings hbound =>
          exact points_stepCall ⟨hnode, hresolved, hshaped, hbound⟩
            (horderly function (Env.mem_of_resolveFunction hresolved).1)

end Steps

end Expansion

end Tapestry
