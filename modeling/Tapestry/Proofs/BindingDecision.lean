import Tapestry.Proofs.ArgumentBinding
import Tapestry.Proofs.Numerals

/-!
# How argument words are bound

A word is bound to a parameter in one of two ways: it reads directly as a value of the kind, or it
does not and is the name of a variable of that kind. If neither is so, one of four things is wrong.
The conditions exclude each other and one of them always holds, so they decide binding exactly. Words
are bound in order, and the first that cannot be bound decides what is wrong.
-/

namespace Tapestry

/-! ## Words read directly -/

namespace Value

variable {token : Token} {kind : Kind} {text : Text} {value : Value}

/-- A word that reads directly as a value of a kind. An address does so only as a colon and digits
whose number fits a word. -/
inductive Reads (token : Token) : Kind → Value → Prop where
  | plain {kind : Kind} {value : Value} (hkind : kind ≠ .address) (hread : read kind token = .ok value) :
    Reads token kind value
  | cell {digits : Text} (htext : token.text = 58 :: digits) (hsome : digits ≠ [])
      (hdigits : ∀ b ∈ digits, Byte.isDigit b) (hfits : Number.fits (Number.ofDigits digits)) :
    Reads token .address ⟨.cell (Number.ofDigits digits), token⟩

/-- The number of a colon and digits. -/
theorem cellDigits?_eq_some_iff {index : Nat} :
    cellDigits? text = some index ↔ ∃ digits, text = 58 :: digits ∧ digits ≠ [] ∧
      (∀ b ∈ digits, Byte.isDigit b) ∧ index = Number.ofDigits digits := by
  constructor
  · intro h
    unfold cellDigits? at h
    split at h
    case h_1 digits =>
      obtain ⟨hdigits, rfl⟩ := Number.nat?_eq_some_iff.mp h
      exact ⟨digits, rfl, hdigits.ne_nil, hdigits.digits, (Number.ofDigits_eq_decimal digits).symm⟩
    case h_2 => cases h
  · rintro ⟨digits, rfl, hsome, hdigits, rfl⟩
    exact Number.nat?_eq_some_iff.mpr ⟨⟨hsome, hdigits⟩, Number.ofDigits_eq_decimal digits⟩

/-- A name is no colon and digits. -/
theorem cellDigits?_of_isIdentifier (h : isIdentifier text) : cellDigits? text = none := by
  unfold cellDigits?
  split
  case h_1 digits =>
    have hletter : Byte.isLetter 58 = false := by decide
    simp [isIdentifier, hletter] at h
  case h_2 => rfl

/-- A word is an address if it is a colon and digits whose number fits, or a name. -/
theorem readAddress_eq_ok_iff {datum : Datum} :
    readAddress token = .ok datum ↔
      (∃ digits, token.text = 58 :: digits ∧ digits ≠ [] ∧ (∀ b ∈ digits, Byte.isDigit b) ∧
        Number.fits (Number.ofDigits digits) ∧ datum = .cell (Number.ofDigits digits)) ∨
      (isIdentifier token.text ∧ datum = .reference token.text) := by
  constructor
  · intro h
    unfold readAddress at h
    split at h
    case h_1 index hindex =>
      split at h
      case isTrue hfits =>
        obtain ⟨digits, htext, hsome, hdigits, rfl⟩ := cellDigits?_eq_some_iff.mp hindex
        exact .inl ⟨digits, htext, hsome, hdigits, hfits, (Except.ok.inj h).symm⟩
      case isFalse => cases h
    case h_2 =>
      split at h
      case isTrue hname => exact .inr ⟨hname, (Except.ok.inj h).symm⟩
      case isFalse => cases h
  · rintro (⟨digits, htext, hsome, hdigits, hfits, rfl⟩ | ⟨hname, rfl⟩)
    · have hindex := cellDigits?_eq_some_iff.mpr ⟨digits, htext, hsome, hdigits, rfl⟩
      simp only [readAddress, hindex, hfits, if_true]
    · simp only [readAddress, cellDigits?_of_isIdentifier hname, hname, if_true]

/-- What a word reads as is a reference only if it is a name read as an address. -/
theorem of_read_reference (h : read kind token = .ok value) (hreference : value.datum.isReference) :
    kind = .address ∧ isIdentifier token.text := by
  have hkind := kind_of_read h
  obtain ⟨datum, hdatum, rfl⟩ := exists_of_map_eq_ok h
  cases datum with
  | reference name =>
    obtain rfl : kind = .address := hkind.symm
    rcases readAddress_eq_ok_iff.mp hdatum with ⟨digits, _, _, _, _, hcell⟩ | ⟨hname, _⟩
    · cases hcell
    · exact ⟨rfl, hname⟩
  | int _ | identifier _ | cell _ | str _ | kind _ | lifetime _ => cases hreference

/-- A word reads directly as what it reads as, unless that is a reference. -/
theorem reads_iff :
    Reads token kind value ↔ read kind token = .ok value ∧ value.datum.isReference = false := by
  constructor
  · rintro (⟨hkind, hread⟩ | ⟨htext, hsome, hdigits, hfits⟩)
    · refine ⟨hread, Bool.eq_false_iff.mpr fun hreference => hkind (of_read_reference hread hreference).1⟩
    · have haddress := readAddress_eq_ok_iff.mpr (.inl ⟨_, htext, hsome, hdigits, hfits, rfl⟩)
      refine ⟨?_, rfl⟩
      rw [read, readDatum, haddress]
      rfl
  · rintro ⟨hread, hresolved⟩
    by_cases hkind : kind = .address
    · subst hkind
      obtain ⟨datum, hdatum, rfl⟩ := exists_of_map_eq_ok hread
      rcases readAddress_eq_ok_iff.mp hdatum with ⟨digits, htext, hsome, hdigits, hfits, rfl⟩ | ⟨_, rfl⟩
      · exact .cell htext hsome hdigits hfits
      · cases hresolved
    · exact .plain hkind hread

/-- A word that does not read directly, and is no name read as an address, cannot be read. -/
theorem exists_unread (hunread : ∀ value, ¬Reads token kind value)
    (hother : kind ≠ .address ∨ isIdentifier token.text = false) :
    ∃ unread, read kind token = .error unread := by
  cases hread : read kind token with
  | error unread => exact ⟨unread, rfl⟩
  | ok value =>
    exfalso
    cases hreference : value.datum.isReference with
    | false => exact hunread value (reads_iff.mpr ⟨hread, hreference⟩)
    | true =>
      obtain ⟨hkind, hname⟩ := of_read_reference hread hreference
      rcases hother with hne | hnot
      · exact hne hkind
      · rw [hname] at hnot
        cases hnot

end Value

/-! ## The innermost variable of a name -/

namespace Env

/-- A variable that a scope holds under a name, where no scope further in holds a variable under it. -/
def Innermost (env : Env) (name : Text) (v : Variable) : Prop :=
  ∃ inner scope outer, env.scopes = inner ++ scope :: outer ∧ scope.find? name = some (.var v) ∧
    ∀ s ∈ inner, ∀ w, s.find? name ≠ some (.var w)

/-- No scope holds a variable under a name. -/
def Lacks (env : Env) (name : Text) : Prop := ∀ scope ∈ env.scopes, ∀ v, scope.find? name ≠ some (.var v)

/-- A variable is found just if the name leads to it. -/
theorem var?_eq_some_iff {scope : Scope} {name : Text} {v : Variable} :
    scope.var? name = some v ↔ scope.find? name = some (.var v) := by
  unfold Scope.var?
  cases scope.find? name with
  | none => simp
  | some symbol => cases symbol <;> simp [Symbol.var?]

/-- No variable is found just if the name leads to none. -/
theorem var?_eq_none_iff {scope : Scope} {name : Text} :
    scope.var? name = none ↔ ∀ v, scope.find? name ≠ some (.var v) := by
  rw [Option.eq_none_iff_forall_ne_some]
  exact forall_congr' fun v => not_congr var?_eq_some_iff

/-- A word leads to the innermost variable of its name. -/
theorem resolveVariable_eq_ok_iff {env : Env} {token : Token} {v : Variable} :
    env.resolveVariable token = .ok v ↔ env.Innermost token.text v := by
  have hvar : env.var? token.text = some v ↔ env.Innermost token.text v := by
    unfold var? Innermost
    rw [List.findSome?_eq_some_iff]
    simp only [var?_eq_some_iff, var?_eq_none_iff]
  rw [← hvar, resolveVariable]
  cases env.var? token.text <;> simp

/-- A word leads nowhere if there is no variable of its name. -/
theorem resolveVariable_of_lacks {env : Env} {token : Token} (h : env.Lacks token.text) :
    env.resolveVariable token = .error (noVariable token) := by
  have hnone : env.var? token.text = none := by
    rw [var?, List.findSome?_eq_none_iff]
    exact fun scope hscope => var?_eq_none_iff.mpr (h scope hscope)
  rw [resolveVariable, hnone]

/-- There is an innermost variable of a name, or none at all. -/
theorem innermost_or_lacks (env : Env) (token : Token) :
    (∃ v, env.Innermost token.text v) ∨ env.Lacks token.text := by
  cases hvar : env.var? token.text with
  | some v =>
    refine .inl ⟨v, resolveVariable_eq_ok_iff.mp ?_⟩
    rw [resolveVariable, hvar]
  | none =>
    rw [var?, List.findSome?_eq_none_iff] at hvar
    exact .inr fun scope hscope => var?_eq_none_iff.mp (hvar scope hscope)

end Env

/-! ## One word -/

namespace Param

/-- A word bound to a parameter: as the value it reads as directly or, if there is none, as the value
of the innermost variable of its name. -/
inductive Binds (env : Env) (param : Param) (token : Token) : Variable → Prop where
  | direct {value : Value} (hreads : Value.Reads token param.kind value) :
    Binds env param token ⟨param.name, value⟩
  | shared {found : Variable} (hunread : ∀ value, ¬Value.Reads token param.kind value)
      (hname : Value.isIdentifier token.text) (hfound : env.Innermost token.text found)
      (hkind : found.value.kind = param.kind) :
    Binds env param token ⟨param.name, found.value⟩

/-- What is wrong with a word that cannot be bound to a parameter. -/
inductive Fails (env : Env) (param : Param) (token : Token) : Fault → Prop where
  /-- It neither reads as the kind nor is a name. -/
  | noName {unread noName : Fault} (hread : Value.read param.kind token = .error unread)
      (hname : Value.isIdentifier token.text = false) (hnoName : Value.readIdentifier token = .error noName) :
    Fails env param token
      { kind := .argumentParse
        detail := "cannot bind `" ++ token.text ++ "` to `" ++ param.render ++ "`"
        token := some token
        line := none
        causes := [.fault unread, .fault noName] }
  /-- It does not read as the kind, which is not an address, and is the name of no variable. -/
  | noVariable {unread notFound : Fault} (hkind : param.kind ≠ .address)
      (hread : Value.read param.kind token = .error unread)
      (hname : Value.isIdentifier token.text) (hlacks : env.Lacks token.text)
      (hnotFound : env.resolveVariable token = .error notFound) :
    Fails env param token
      { kind := .argumentParse
        detail := "cannot bind `" ++ token.text ++ "` to `" ++ param.render ++ "`"
        token := some token
        line := none
        causes := [.fault unread, .fault notFound] }
  /-- It is the name of no variable where an address is wanted. -/
  | noAddress (hkind : param.kind = .address) (hname : Value.isIdentifier token.text)
      (hlacks : env.Lacks token.text) :
    Fails env param token
      { kind := .variableNotFound
        detail := "cannot find variable `" ++ token.text ++ "`"
        token := some token
        line := none
        causes := [] }
  /-- It is the name of a variable of another kind. -/
  | otherKind {found : Variable} (hunread : ∀ value, ¬Value.Reads token param.kind value)
      (hname : Value.isIdentifier token.text) (hfound : env.Innermost token.text found)
      (hkind : found.value.kind ≠ param.kind) :
    Fails env param token
      { kind := .argumentType
        detail := "`" ++ found.name ++ "` is " ++ found.value.kind.name ++ ", argument `" ++ param.name ++
          "` expects " ++ param.kind.name
        token := some token
        line := none
        causes := [] }

section Word

variable {env : Env} {param : Param} {token : Token} {v : Variable} {fault : Fault}

/-- A name that does not read directly is bound as the variable it leads to. -/
theorem bind_of_unread (hunread : ∀ value, ¬Value.Reads token param.kind value)
    (hname : Value.isIdentifier token.text) {found : Variable}
    (hfound : env.resolveVariable token = .ok found) :
    param.bind token env = param.share token found := by
  have hidentifier : Value.readIdentifier token = .ok token.text := by
    rw [Value.readIdentifier, if_pos hname]
  unfold bind
  cases hread : Value.read param.kind token with
  | error unread => simp only [hidentifier, hfound]
  | ok value =>
    have hreference : value.datum.isReference = true := by
      by_contra hnot
      exact hunread value (Value.reads_iff.mpr ⟨hread, by simpa using hnot⟩)
    simp only [hreference, if_true, hfound]
    rfl

/-- Words are bound as the conditions say. -/
theorem bind_of_binds (h : Binds env param token v) : param.bind token env = .ok v := by
  cases h with
  | direct hreads =>
    obtain ⟨hread, hresolved⟩ := Value.reads_iff.mp hreads
    simp only [bind, hread, hresolved]
    rfl
  | @shared found hunread hname hfound hkind =>
    rw [bind_of_unread hunread hname (Env.resolveVariable_eq_ok_iff.mpr hfound), share, if_pos hkind]
    rfl

/-- Words are refused as the conditions say. -/
theorem bind_of_fails (h : Fails env param token fault) : param.bind token env = .error fault := by
  cases h with
  | noName hread hname hnoName =>
    simp only [bind, hread, hnoName]
    rfl
  | noVariable hkind hread hname hlacks hnotFound =>
    have hidentifier : Value.readIdentifier token = .ok token.text := by
      rw [Value.readIdentifier, if_pos hname]
    simp only [bind, hread, hidentifier, hnotFound]
    rfl
  | noAddress hkind hname hlacks =>
    have haddress := Value.readAddress_eq_ok_iff.mpr (.inr ⟨hname, rfl⟩)
    have hread : Value.read param.kind token = .ok ⟨.reference token.text, token⟩ := by
      rw [hkind, Value.read, Value.readDatum, haddress]
      rfl
    simp only [bind, hread, Datum.isReference, if_true, Env.resolveVariable_of_lacks hlacks]
    rfl
  | @otherKind found hunread hname hfound hkind =>
    rw [bind_of_unread hunread hname (Env.resolveVariable_eq_ok_iff.mpr hfound), share, if_neg hkind]
    rfl

/-- Every word can be bound or not. -/
theorem binds_or_fails (env : Env) (param : Param) (token : Token) :
    (∃ v, Binds env param token v) ∨ ∃ fault, Fails env param token fault := by
  by_cases hreads : ∃ value, Value.Reads token param.kind value
  · obtain ⟨value, hreads⟩ := hreads
    exact .inl ⟨_, .direct hreads⟩
  have hunread : ∀ value, ¬Value.Reads token param.kind value := not_exists.mp hreads
  cases hname : Value.isIdentifier token.text with
  | false =>
    obtain ⟨unread, hread⟩ := Value.exists_unread hunread (.inr hname)
    exact .inr ⟨_, .noName hread hname (by rw [Value.readIdentifier, hname]; rfl)⟩
  | true =>
    rcases env.innermost_or_lacks token with ⟨found, hfound⟩ | hlacks
    · by_cases hkind : found.value.kind = param.kind
      · exact .inl ⟨_, .shared hunread hname hfound hkind⟩
      · exact .inr ⟨_, .otherKind hunread hname hfound hkind⟩
    · by_cases hkind : param.kind = .address
      · exact .inr ⟨_, .noAddress hkind hname hlacks⟩
      · obtain ⟨unread, hread⟩ := Value.exists_unread hunread (.inl hkind)
        exact .inr ⟨_, .noVariable hkind hread hname hlacks (Env.resolveVariable_of_lacks hlacks)⟩

/-- A parameter is bound just as its word decides. -/
theorem bind_eq_ok_iff : param.bind token env = .ok v ↔ Binds env param token v := by
  refine ⟨fun h => ?_, bind_of_binds⟩
  rcases binds_or_fails env param token with ⟨w, hbinds⟩ | ⟨fault, hfails⟩
  · obtain rfl := Except.ok.inj ((bind_of_binds hbinds).symm.trans h)
    exact hbinds
  · cases (bind_of_fails hfails).symm.trans h

/-- A parameter is refused just as its word decides. -/
theorem bind_eq_error_iff : param.bind token env = .error fault ↔ Fails env param token fault := by
  refine ⟨fun h => ?_, bind_of_fails⟩
  rcases binds_or_fails env param token with ⟨w, hbinds⟩ | ⟨other, hfails⟩
  · cases (bind_of_binds hbinds).symm.trans h
  · obtain rfl := Except.error.inj ((bind_of_fails hfails).symm.trans h)
    exact hfails

end Word

/-! ## Words in order -/

/-- Words are bound exactly if each of them is bound to its parameter. -/
theorem bindAll_eq_ok_iff {env : Env} {params : List Param} {tokens : List Token} {bindings : Bindings} :
    bindAll env params tokens = .ok bindings ↔
      List.Forall₂ (fun entry v => Binds env entry.1 entry.2 v) (params.zip tokens) bindings := by
  induction params generalizing tokens bindings with
  | nil => cases bindings <;> simp [bindAll]
  | cons param params ih =>
    cases tokens with
    | nil => cases bindings <;> simp [bindAll]
    | cons token tokens =>
      rw [bindAll, List.zip_cons_cons]
      constructor
      · intro h
        obtain ⟨v, hfirst, h⟩ := exists_of_bind_eq_ok h
        obtain ⟨rest, hrest, rfl⟩ := exists_of_map_eq_ok h
        exact .cons (bind_eq_ok_iff.mp hfirst) (ih.mp hrest)
      · rintro (_ | ⟨hfirst, hrest⟩)
        rw [bind_eq_ok_iff.mpr hfirst, Except.bind, ih.mpr hrest]
        rfl

/-- Words are refused exactly as the first of them is that cannot be bound. -/
theorem bindAll_eq_error_iff {env : Env} {params : List Param} {tokens : List Token} {fault : Fault} :
    bindAll env params tokens = .error fault ↔
      ∃ front param token back, params.zip tokens = front ++ (param, token) :: back ∧
        (∀ entry ∈ front, ∃ v, Binds env entry.1 entry.2 v) ∧ Fails env param token fault := by
  induction params generalizing tokens with
  | nil => simp [bindAll]
  | cons param params ih =>
    cases tokens with
    | nil => simp [bindAll]
    | cons token tokens =>
      rw [bindAll, List.zip_cons_cons]
      constructor
      · intro h
        cases hfirst : param.bind token env with
        | error other =>
          rw [hfirst] at h
          cases h
          exact ⟨[], param, token, _, rfl, by simp, bind_eq_error_iff.mp hfirst⟩
        | ok v =>
          rw [hfirst] at h
          cases hrest : bindAll env params tokens with
          | ok rest =>
            rw [Except.bind, hrest] at h
            cases h
          | error other =>
            rw [Except.bind, hrest] at h
            cases h
            obtain ⟨front, wrong, word, back, hzip, hfront, hfails⟩ := ih.mp hrest
            refine ⟨(param, token) :: front, wrong, word, back, by rw [hzip, List.cons_append], ?_, hfails⟩
            exact List.forall_mem_cons.mpr ⟨⟨v, bind_eq_ok_iff.mp hfirst⟩, hfront⟩
      · rintro ⟨front, wrong, word, back, hzip, hfront, hfails⟩
        cases front with
        | nil =>
          obtain ⟨hentry, _⟩ := List.cons.inj hzip
          cases hentry
          rw [bind_eq_error_iff.mpr hfails]
          rfl
        | cons entry front =>
          obtain ⟨rfl, hrest⟩ := List.cons.inj hzip
          obtain ⟨⟨v, hfirst⟩, hfront⟩ := List.forall_mem_cons.mp hfront
          rw [bind_eq_ok_iff.mpr hfirst, Except.bind, ih.mpr ⟨front, wrong, word, back, hrest, hfront, hfails⟩]
          rfl

end Param

/-- Binding is decided exactly. Words are bound if there are as many as parameters and each is bound
to its parameter, in order and under its name, either as the value it reads as directly or, if there
is none, as the value of the innermost variable of its name, which must be of the kind. Otherwise
there is one fault. If the number of words is wrong, it is that, and it blames the first word too many.
If not, it is what is wrong with the first word that cannot be bound. -/
theorem Function.binding_decided (function : Function) (tokens : List Token) (env : Env) :
    (∀ bindings, function.bindPositional tokens env = .ok bindings ↔
      tokens.length = function.params.length ∧
        List.Forall₂ (fun entry v => Param.Binds env entry.1 entry.2 v) (function.params.zip tokens)
          bindings) ∧
    ∀ fault, function.bindPositional tokens env = .error fault ↔
      (tokens.length ≠ function.params.length ∧
        fault =
          { kind := .argumentLen
            detail := "`" ++ function.name ++ "` takes " ++ Number.nat function.params.length ++
              " arguments, got " ++ Number.nat tokens.length
            token := tokens[function.params.length]?
            line := none
            causes := [] }) ∨
      (tokens.length = function.params.length ∧
        ∃ front param token back, function.params.zip tokens = front ++ (param, token) :: back ∧
          (∀ entry ∈ front, ∃ v, Param.Binds env entry.1 entry.2 v) ∧ Param.Fails env param token fault) := by
  unfold bindPositional
  split
  case isTrue hlength =>
    simp only [hlength, true_and, ne_eq, not_true_eq_false, false_and, false_or]
    exact ⟨fun bindings => Param.bindAll_eq_ok_iff, fun fault => Param.bindAll_eq_error_iff⟩
  case isFalse hlength =>
    simp only [hlength, false_and, ne_eq, not_false_eq_true, true_and, or_false]
    exact ⟨fun bindings => by simp, fun fault => ⟨fun h => (Except.error.inj h).symm, fun h => by rw [h]⟩⟩

end Tapestry
