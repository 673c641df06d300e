import Tapestry.Proofs.ExpansionStep
import Tapestry.Proofs.ValueGrammar

/-!
# Headers of definitions

The header of a definition is a lifetime and a name, then a kind and a name for each parameter, and
no two parameters have one name. Binding accepts exactly the words of headers. The parameters that a
definition takes from what was bound are those of its header, in their order.
-/

namespace Tapestry

/-- The declaration of a parameter: the word of its kind and the word of its name. -/
structure Declaration where
  kindToken : Token
  nameToken : Token
  kind : Kind
  kind_known : kind ∈ Kind.all
  kind_spelled : kind.name = kindToken.text
  name_spelled : Value.IsName nameToken.text

namespace Declaration

def name (declaration : Declaration) : Text := declaration.nameToken.text

def words (declaration : Declaration) : List Token := [declaration.kindToken, declaration.nameToken]

/-- The parameter that is declared. -/
def param (declaration : Declaration) : Param := ⟨declaration.name, declaration.kind⟩

/-- What is bound for the declaration: the kind, under the name of the parameter. -/
def binding (declaration : Declaration) : Variable :=
  ⟨declaration.name, ⟨.kind declaration.kind, declaration.kindToken⟩⟩

/-- A declaration has two words. -/
theorem length_words (declarations : List Declaration) :
    (declarations.flatMap words).length = 2 * declarations.length := by
  induction declarations with
  | nil => rfl
  | cons declaration rest ih =>
    rw [List.flatMap_cons, List.length_append, ih, List.length_cons]
    change 2 + _ = _
    omega

end Declaration

/-- The header of a definition. -/
structure Header where
  lifetimeToken : Token
  nameToken : Token
  lifetime : Lifetime
  declarations : List Declaration
  lifetime_known : lifetime ∈ Lifetime.all
  lifetime_spelled : lifetime.name = lifetimeToken.text
  name_spelled : Value.IsName nameToken.text
  /-- No two parameters have one name. -/
  distinct : (declarations.map Declaration.name).Nodup

namespace Header

variable (header : Header)

def name : Text := header.nameToken.text

/-- The words of the header in order. -/
def words : List Token :=
  header.lifetimeToken :: header.nameToken :: header.declarations.flatMap Declaration.words

/-- The declared parameters in order. -/
def params : List Param := header.declarations.map Declaration.param

/-- What is bound for the header. -/
def bindings : Bindings :=
  ⟨"lifetime", ⟨.lifetime header.lifetime, header.lifetimeToken⟩⟩ ::
    ⟨"name", ⟨.identifier header.name, header.nameToken⟩⟩ ::
      header.declarations.map Declaration.binding

/-- The parameters have the names that were declared. -/
theorem names_params : header.params.map Param.name = header.declarations.map Declaration.name := by
  rw [params, List.map_map]
  rfl

/-- No two parameters have one name. -/
theorem nodup_params : (header.params.map Param.name).Nodup :=
  header.names_params ▸ header.distinct

/-- The names of parameters are spelt as names. -/
theorem isName_of_mem_params : ∀ param ∈ header.params, Value.IsName param.name := by
  intro param hparam
  obtain ⟨declaration, -, rfl⟩ := List.mem_map.mp hparam
  exact declaration.name_spelled

/-- A definition takes its parameters from what was bound for the header. -/
theorem headerParams_bindings : Function.headerParams header.bindings = header.params := by
  change (header.declarations.map Declaration.binding).filterMap _ = _
  rw [List.filterMap_map, params, ← List.filterMap_eq_map]
  rfl

/-- The lifetime of a header is found among its bindings. -/
theorem lifetime?_bindings : Bindings.lifetime? header.bindings "lifetime" = some header.lifetime := by
  simp [Bindings.lifetime?, Bindings.get?, bindings]

/-- The name of the header is found even if a parameter is called `name`. -/
theorem identifier?_bindings :
    Bindings.identifier? header.bindings "name" = some (header.name, header.nameToken) := by
  have hother : (Text.ofString "lifetime" == Text.ofString "name") = false := by decide
  simp [Bindings.identifier?, Bindings.get?, bindings, hother]

/-- What is bound for a header stands among its words. -/
theorem token_mem_words : ∀ v ∈ header.bindings, v.value.token ∈ header.words := by
  intro v hv
  rcases List.mem_cons.mp hv with rfl | hv
  · exact List.mem_cons_self
  rcases List.mem_cons.mp hv with rfl | hv
  · exact List.mem_cons_of_mem _ List.mem_cons_self
  obtain ⟨declaration, hmem, rfl⟩ := List.mem_map.mp hv
  refine List.mem_cons_of_mem _ (List.mem_cons_of_mem _ (List.mem_flatMap.mpr ⟨declaration, hmem, ?_⟩))
  exact List.mem_cons_self

end Header

namespace Function

variable {bindings : Bindings} {tokens : List Token} {env : Env} {f : Function} {wantsBlock : Bool}

/-- Pairs of words are bound exactly if each declares a parameter, under a name that is new. -/
theorem bindPairs_eq_ok_iff {seen : List Text} (heven : tokens.length % 2 = 0) :
    bindPairs seen tokens = .ok bindings ↔
      ∃ declarations : List Declaration, declarations.flatMap Declaration.words = tokens ∧
        declarations.map Declaration.binding = bindings ∧
          (declarations.map Declaration.name).Nodup ∧ ∀ d ∈ declarations, d.name ∉ seen := by
  constructor
  · intro h
    fun_induction bindPairs seen tokens generalizing bindings with
    | case1 seen kindToken nameToken rest ih =>
      obtain ⟨kind, hkind, h⟩ := exists_of_bind_eq_ok h
      obtain ⟨name, hname, h⟩ := exists_of_bind_eq_ok h
      split at h
      case isTrue => cases h
      case isFalse hseen =>
        obtain ⟨vars, hvars, h⟩ := exists_of_bind_eq_ok h
        cases h
        obtain ⟨hknown, hspelled⟩ := Value.readKind_eq_ok_iff.mp hkind
        obtain ⟨hspelling, rfl⟩ := Value.readIdentifier_eq_ok_iff.mp hname
        have hrest : rest.length % 2 = 0 := by
          simp only [List.length_cons] at heven
          omega
        obtain ⟨declarations, rfl, rfl, hdistinct, hfresh⟩ := ih nameToken.text hrest hvars
        have hnew : nameToken.text ∉ declarations.map Declaration.name := by
          intro hmem
          obtain ⟨d, hd, heq⟩ := List.mem_map.mp hmem
          exact hfresh d hd (heq ▸ List.mem_cons_self)
        have hunseen : nameToken.text ∉ seen := by simpa using hseen
        refine ⟨⟨kindToken, nameToken, kind, hknown, hspelled, hspelling⟩ :: declarations, rfl, rfl,
          List.nodup_cons.mpr ⟨hnew, hdistinct⟩, List.forall_mem_cons.mpr ⟨hunseen, ?_⟩⟩
        exact fun d hd hmem => hfresh d hd (List.mem_cons_of_mem _ hmem)
    | case2 tokens seen hpair =>
      cases h
      -- One word alone would be odd, so there is none.
      cases tokens with
      | nil => exact ⟨[], rfl, rfl, List.nodup_nil, fun _ hd => absurd hd List.not_mem_nil⟩
      | cons first rest =>
        cases rest with
        | nil => exact absurd heven (by simp)
        | cons second rest => exact absurd rfl (hpair first second rest)
  · rintro ⟨declarations, rfl, rfl, hdistinct, hfresh⟩
    clear heven
    induction declarations generalizing seen with
    | nil => rfl
    | cons d rest ih =>
      obtain ⟨hnew, hrest⟩ := List.nodup_cons.mp hdistinct
      obtain ⟨hunseen, hothers⟩ := List.forall_mem_cons.mp hfresh
      have hvars : bindPairs (d.name :: seen) (rest.flatMap Declaration.words) =
          .ok (rest.map Declaration.binding) := by
        refine ih hrest fun other hother hmem => ?_
        rcases List.mem_cons.mp hmem with heq | hmem
        · exact hnew (heq ▸ List.mem_map_of_mem hother)
        · exact hothers other hother hmem
      have hkind := Value.readKind_eq_ok_iff.mpr ⟨d.kind_known, d.kind_spelled⟩
      have hname := Value.readIdentifier_eq_ok_iff.mpr ⟨d.name_spelled, rfl⟩
      rw [List.flatMap_cons]
      change bindPairs seen (d.kindToken :: d.nameToken :: rest.flatMap Declaration.words) = _
      rw [bindPairs, hkind, hname]
      change (if seen.contains d.name then _ else _) = _
      rw [if_neg (by simpa using hunseen)]
      change (bindPairs (d.name :: seen) _).bind _ = _
      rw [hvars]
      rfl

/-- Binding accepts exactly the words of headers. -/
theorem bindHeader_eq_ok_iff {function : Function} :
    function.bindHeader tokens = .ok bindings ↔
      ∃ header : Header, header.words = tokens ∧ header.bindings = bindings := by
  constructor
  · intro h
    unfold bindHeader at h
    split at h
    case h_1 lifetimeToken nameToken rest =>
      split at h
      case isTrue heven =>
        obtain ⟨lifetime, hlifetime, h⟩ := exists_of_bind_eq_ok h
        obtain ⟨name, hname, h⟩ := exists_of_bind_eq_ok h
        obtain ⟨params, hparams, h⟩ := exists_of_bind_eq_ok h
        cases h
        obtain ⟨hknown, hspelled⟩ := Value.readLifetime_eq_ok_iff.mp hlifetime
        obtain ⟨hspelling, rfl⟩ := Value.readIdentifier_eq_ok_iff.mp hname
        obtain ⟨declarations, rfl, rfl, hdistinct, -⟩ := (bindPairs_eq_ok_iff heven).mp hparams
        exact ⟨⟨lifetimeToken, nameToken, lifetime, declarations, hknown, hspelled, hspelling,
          hdistinct⟩, rfl, rfl⟩
      case isFalse => cases h
    case h_2 => cases h
  · rintro ⟨header, rfl, rfl⟩
    have heven : (header.declarations.flatMap Declaration.words).length % 2 = 0 := by
      rw [Declaration.length_words]
      omega
    have hlifetime := Value.readLifetime_eq_ok_iff.mpr ⟨header.lifetime_known, header.lifetime_spelled⟩
    have hname := Value.readIdentifier_eq_ok_iff.mpr ⟨header.name_spelled, rfl⟩
    have hparams : bindPairs [] (header.declarations.flatMap Declaration.words) =
        .ok (header.declarations.map Declaration.binding) :=
      (bindPairs_eq_ok_iff heven).mpr
        ⟨_, rfl, rfl, header.distinct, fun _ _ => List.not_mem_nil⟩
    simp only [Header.words, bindHeader, heven, if_true, hlifetime, hname, hparams]
    rfl

/-- A built-in function that defines templates is called with a header. -/
theorem exists_header_of_bind (hf : f ∈ builtins) (haction : f.action = .define wantsBlock)
    (h : f.bind tokens env = .ok bindings) :
    ∃ header : Header, header.words = tokens ∧ header.bindings = bindings := by
  have hinterface := interface?_of_mem_builtins f hf
  rw [haction] at hinterface
  obtain ⟨hstyle, -⟩ := Prod.mk.inj (Option.some.inj hinterface)
  rw [bind, ← hstyle] at h
  exact bindHeader_eq_ok_iff.mp h

/-! ## Templates that headers declare -/

/-- A template with the name, the parameters and the lifetime of a header. -/
structure Follows (f : Function) (header : Header) : Prop where
  name_eq : f.name = header.name
  params_eq : f.params = header.params
  lifetime_eq : f.lifetime = header.lifetime
  style_eq : f.style = .positional
  template : f.isBuiltin = false

namespace Follows

variable {f : Function} {header : Header}

/-- A template that follows a header has a name. -/
theorem isIdentifier_name (h : f.Follows header) : Value.isIdentifier f.name = true := by
  rw [h.name_eq, Value.isIdentifier_iff]
  exact header.name_spelled

/-- The parameters of a template that follows a header have names. -/
theorem isIdentifier_params (h : f.Follows header) :
    ∀ param ∈ f.params, Value.isIdentifier param.name = true := by
  intro param hparam
  rw [h.params_eq] at hparam
  exact Value.isIdentifier_iff.mpr (header.isName_of_mem_params param hparam)

/-- No two parameters of a template that follows a header have one name. -/
theorem nodup_params (h : f.Follows header) : (f.params.map Param.name).Nodup := by
  rw [h.params_eq]
  exact header.nodup_params

end Follows

/-- A definition makes a template that follows its header. -/
theorem exists_follows_of_define {visit : Visit} {template : Function} {lifetime : Lifetime}
    {name : Text} {token : Token} (hf : f ∈ builtins)
    (call : Expansion.Calls env visit.node f bindings) (action : f.action = .define wantsBlock)
    (lasting : Bindings.lifetime? bindings "lifetime" = some lifetime)
    (named : Bindings.identifier? bindings "name" = some (name, token))
    (defined : Expansion.definedFunction wantsBlock (Expansion.called env visit f bindings) name token
      lifetime = .ok template) :
    ∃ header : Header, header.words = visit.node.arguments ∧ header.lifetime = lifetime ∧
      template.Follows header := by
  obtain ⟨header, hwords, rfl⟩ := exists_header_of_bind hf action call.bound
  obtain rfl := Option.some.inj (header.lifetime?_bindings.symm.trans lasting)
  obtain ⟨rfl, rfl⟩ := Prod.mk.inj (Option.some.inj (header.identifier?_bindings.symm.trans named))
  have hparams := header.headerParams_bindings
  refine ⟨header, hwords, rfl, ?_⟩
  cases wantsBlock with
  | false =>
    cases defined
    exact ⟨rfl, hparams, rfl, rfl, rfl⟩
  | true =>
    simp only [Expansion.definedFunction, if_true] at defined
    obtain ⟨made, hmade, defined⟩ := exists_of_bind_eq_ok defined
    obtain ⟨marked, -, rfl⟩ := exists_of_map_eq_ok hmade
    cases defined
    exact ⟨rfl, hparams, rfl, rfl, rfl⟩

end Function

end Tapestry
