import Mathlib.Data.List.Nodup
import Tapestry.Scope

/-!
# What an environment holds

The symbols and the blocks of an environment are those of all its scopes. A lookup gives one of
them under the name asked for, and an installation adds one symbol wherever its lifetime puts it.
-/

namespace Tapestry

variable {α ε : Type}

/-- A sequence succeeds when its first part does and then the rest. -/
theorem exists_of_bind_eq_ok {β : Type} {first : Except ε α} {rest : α → Except ε β} {b : β}
    (h : first.bind rest = .ok b) : ∃ a, first = .ok a ∧ rest a = .ok b := by
  cases first with
  | error e => cases h
  | ok a => exact ⟨a, rfl, h⟩

/-- A mapped result is the image of a result. -/
theorem exists_of_map_eq_ok {β : Type} {f : α → β} {result : Except ε α} {b : β}
    (h : result.map f = .ok b) : ∃ a, result = .ok a ∧ f a = b := by
  cases result with
  | error e => cases h
  | ok a => exact ⟨a, rfl, Except.ok.inj h⟩

/-- A result that is there is the result. -/
theorem eq_ok_of_toOption {result : Except ε α} {a : α} (h : result.toOption = some a) :
    result = .ok a := by
  cases result with
  | error e => cases h
  | ok b => rw [Option.some.inj h]

/-- Among things of different names, the one found under a name is the one that has it. -/
theorem find?_name_eq_some_iff {name : α → Text} {items : List α} {text : Text} {a : α}
    (hnames : (items.map name).Nodup) :
    items.find? (name · == text) = some a ↔ a ∈ items ∧ name a = text := by
  constructor
  · intro hfound
    exact ⟨List.mem_of_find?_eq_some hfound, by simpa using List.find?_some hfound⟩
  · rintro ⟨hmem, rfl⟩
    obtain ⟨b, hfound⟩ : ∃ b, items.find? (name · == name a) = some b :=
      Option.isSome_iff_exists.mp (List.find?_isSome.mpr ⟨a, hmem, beq_self_eq_true _⟩)
    have hname : name b = name a := by simpa using List.find?_some hfound
    rw [hfound, List.inj_on_of_nodup_map hnames (List.mem_of_find?_eq_some hfound) hmem hname]

/-- Without the entries of one key, a table has the others as before. -/
theorem lookup_filter_ne {κ : Type} [BEq κ] [LawfulBEq κ] {table : List (κ × α)} {key other : κ}
    (h : other ≠ key) : (table.filter (·.1 != key)).lookup other = table.lookup other := by
  induction table with
  | nil => rfl
  | cons item rest ih =>
    by_cases hitem : item.1 = key
    · have hother : (other == item.1) = false := by simpa [hitem] using h
      rw [List.filter_cons_of_neg (by simp [hitem]), ih, List.lookup_cons, hother]
    · rw [List.filter_cons_of_pos (by simpa using hitem), List.lookup_cons, List.lookup_cons, ih]

namespace Symbol

/-- A symbol is a function just if it was made of one. -/
theorem func?_eq_some_iff (symbol : Symbol) (f : Function) : symbol.func? = some f ↔ symbol = .func f := by
  cases symbol <;> simp [func?]

/-- A symbol is a variable just if it was made of one. -/
theorem var?_eq_some_iff (symbol : Symbol) (v : Variable) : symbol.var? = some v ↔ symbol = .var v := by
  cases symbol <;> simp [var?]

end Symbol

namespace Scope

variable {name owner : Text} {scope after : Scope} {symbol : Symbol} {block : CallerBlock}
  {symbols : List Symbol}

/-- A symbol found under a name is in the scope and has that name. -/
theorem mem_of_find? (h : scope.find? name = some symbol) :
    symbol ∈ scope.symbols ∧ symbol.name = name :=
  ⟨List.mem_of_find?_eq_some h, by simpa using List.find?_some h⟩

/-- A function found under a name is in the scope and has that name. -/
theorem mem_of_func? {f : Function} (h : scope.func? name = some f) :
    .func f ∈ scope.symbols ∧ f.name = name := by
  obtain ⟨symbol, hfound, hfunc⟩ := Option.bind_eq_some_iff.mp h
  cases symbol with
  | func g =>
    obtain rfl : g = f := Option.some.inj hfunc
    exact mem_of_find? hfound
  | var v => cases hfunc

/-- A variable found under a name is in the scope and has that name. -/
theorem mem_of_var? {v : Variable} (h : scope.var? name = some v) :
    .var v ∈ scope.symbols ∧ v.name = name := by
  obtain ⟨symbol, hfound, hvar⟩ := Option.bind_eq_some_iff.mp h
  cases symbol with
  | func f => cases hvar
  | var w =>
    obtain rfl : w = v := Option.some.inj hvar
    exact mem_of_find? hfound

/-- A block found under the name of its owner is in the scope. -/
theorem mem_of_block? (h : scope.block? owner = some block) : (owner, block) ∈ scope.blocks := by
  obtain ⟨front, rest, heq, _⟩ := List.lookup_eq_some_iff.mp h
  simp [heq]

/-- An installed symbol stands behind the others. -/
theorem eq_of_push (h : scope.push symbol = .ok after) :
    after = ⟨scope.symbols ++ [symbol], scope.blocks⟩ := by
  unfold push at h
  split at h
  · cases h
  · exact (Except.ok.inj h).symm

/-- A symbol is installed only under a name that is free. -/
theorem nodup_of_push (h : scope.push symbol = .ok after)
    (hnames : (scope.symbols.map Symbol.name).Nodup) : (after.symbols.map Symbol.name).Nodup := by
  have hfree : ∀ other ∈ scope.symbols, other.name ≠ symbol.name := by
    unfold push at h
    split at h
    case isTrue => cases h
    case isFalse hnone =>
      rw [Option.not_isSome_iff_eq_none, find?, List.find?_eq_none] at hnone
      exact fun other hother => by simpa using hnone other hother
  rw [eq_of_push h, List.map_append, List.map_singleton, List.nodup_append]
  refine ⟨hnames, List.pairwise_singleton _ _, fun name hname other hother => ?_⟩
  obtain ⟨found, hfound, rfl⟩ := List.mem_map.mp hname
  obtain rfl := List.mem_singleton.mp hother
  exact hfree found hfound

/-- Symbols are installed one after the other only under names that are free. -/
theorem nodup_of_pushAll (h : scope.pushAll symbols = .ok after)
    (hnames : (scope.symbols.map Symbol.name).Nodup) :
    (after.symbols.map Symbol.name).Nodup := by
  induction symbols generalizing scope with
  | nil =>
    obtain rfl : scope = after := Except.ok.inj h
    exact hnames
  | cons symbol rest ih =>
    obtain ⟨next, hpush, hrest⟩ := exists_of_bind_eq_ok h
    exact ih hrest (nodup_of_push hpush hnames)

/-- Installed symbols stand behind the others in their order. -/
theorem eq_of_pushAll (h : scope.pushAll symbols = .ok after) :
    after = ⟨scope.symbols ++ symbols, scope.blocks⟩ := by
  induction symbols generalizing scope with
  | nil =>
    obtain rfl : scope = after := Except.ok.inj h
    simp
  | cons symbol rest ih =>
    obtain ⟨next, hpush, hrest⟩ := exists_of_bind_eq_ok h
    rw [ih hrest, eq_of_push hpush]
    simp

/-- An empty scope with variables installed holds just these. -/
theorem exists_var_of_pushAll {vars : List Variable} (hempty : scope.symbols = [])
    (h : scope.pushAll (vars.map .var) = .ok after) :
    ∀ symbol ∈ after.symbols, ∃ v ∈ vars, symbol = .var v := by
  intro symbol hsymbol
  rw [eq_of_pushAll h, hempty, List.nil_append] at hsymbol
  obtain ⟨v, hv, rfl⟩ := List.mem_map.mp hsymbol
  exact ⟨v, hv, rfl⟩

/-- A registered block is in the scope beside the blocks of other owners. -/
theorem mem_blocks_addBlock {entry : Text × CallerBlock}
    (h : entry ∈ (scope.addBlock owner block).blocks) :
    entry = (owner, block) ∨ entry ∈ scope.blocks := by
  simp only [addBlock, List.mem_cons, List.mem_filter] at h
  exact h.imp_right And.left

end Scope

namespace Env

variable {env after : Env} {symbol : Symbol} {token : Token} {v : Variable} {scope : Scope}

/-- The symbols of all scopes, those of the innermost first. -/
def symbols (env : Env) : List Symbol := env.scopes.flatMap Scope.symbols

/-- The blocks of all scopes, those of the innermost first. -/
def blocks (env : Env) : List (Text × CallerBlock) := env.scopes.flatMap Scope.blocks

/-- The symbols of a root are those of its scope. -/
@[simp]
theorem symbols_root (scope : Scope) : (root scope).symbols = scope.symbols := by
  simp [symbols, scopes]

/-- The symbols of a nested scope come before those around it. -/
@[simp]
theorem symbols_nested (scope : Scope) (env : Env) :
    (nested scope env).symbols = scope.symbols ++ env.symbols := by
  simp [symbols, scopes]

/-- The blocks of a root are those of its scope. -/
@[simp]
theorem blocks_root (scope : Scope) : (root scope).blocks = scope.blocks := by
  simp [blocks, scopes]

/-- The blocks of a nested scope come before those around it. -/
@[simp]
theorem blocks_nested (scope : Scope) (env : Env) :
    (nested scope env).blocks = scope.blocks ++ env.blocks := by
  simp [blocks, scopes]

/-- The symbols of the innermost scope are among those of the environment. -/
theorem symbols_scope_subset (env : Env) : env.scope.symbols ⊆ env.symbols := by
  cases env with
  | root scope => simp [Env.scope]
  | nested scope env => simp [Env.scope]

/-- The symbols around the innermost scope are among those of the environment. -/
theorem symbols_outer_subset (env : Env) : env.outer.symbols ⊆ env.symbols := by
  cases env with
  | root scope => exact List.Subset.refl _
  | nested scope env => simp [outer]

/-- The blocks around the innermost scope are among those of the environment. -/
theorem blocks_outer_subset (env : Env) : env.outer.blocks ⊆ env.blocks := by
  cases env with
  | root scope => exact List.Subset.refl _
  | nested scope env => simp [outer]

/-- A function found under a name is in the environment and has that name. -/
theorem mem_of_resolveFunction {f : Function} (h : env.resolveFunction token = .ok f) :
    .func f ∈ env.symbols ∧ f.name = token.text := by
  unfold resolveFunction at h
  split at h
  case h_1 g hfound =>
    obtain rfl : g = f := Except.ok.inj h
    obtain ⟨scope, hscope, hfunc⟩ := List.exists_of_findSome?_eq_some hfound
    have hmem := Scope.mem_of_func? hfunc
    exact ⟨List.mem_flatMap.mpr ⟨scope, hscope, hmem.1⟩, hmem.2⟩
  case h_2 => cases h

/-- A variable found under a name is in the environment and has that name. -/
theorem mem_of_resolveVariable (h : env.resolveVariable token = .ok v) :
    .var v ∈ env.symbols ∧ v.name = token.text := by
  unfold resolveVariable at h
  split at h
  case h_1 w hfound =>
    obtain rfl : w = v := Except.ok.inj h
    obtain ⟨scope, hscope, hvar⟩ := List.exists_of_findSome?_eq_some hfound
    have hmem := Scope.mem_of_var? hvar
    exact ⟨List.mem_flatMap.mpr ⟨scope, hscope, hmem.1⟩, hmem.2⟩
  case h_2 => cases h

/-- A block found under the name of its owner is in the environment. -/
theorem mem_of_block? {owner : Text} {block : CallerBlock} (h : env.block? owner = some block) :
    (owner, block) ∈ env.blocks := by
  obtain ⟨scope, hscope, hblock⟩ := List.exists_of_findSome?_eq_some h
  exact List.mem_flatMap.mpr ⟨scope, hscope, Scope.mem_of_block? hblock⟩

/-- The variables of an environment are its symbols of that sort. -/
theorem mem_vars_iff : v ∈ env.vars ↔ .var v ∈ env.symbols := by
  simp [vars, symbols, Scope.vars, List.mem_flatMap, Symbol.var?_eq_some_iff]

/-- An environment with one symbol more. -/
structure Adds (symbol : Symbol) (env after : Env) : Prop where
  mem_symbols : ∀ s, s ∈ after.symbols ↔ s = symbol ∨ s ∈ env.symbols
  blocks_eq : after.blocks = env.blocks

/-- Installing in the outermost scope adds one symbol. -/
theorem adds_root (h : (scope.push symbol).map root = .ok after) :
    Adds symbol (root scope) after := by
  obtain ⟨next, hpush, rfl⟩ := exists_of_map_eq_ok h
  constructor <;> simp [Scope.eq_of_push hpush, or_comm]

/-- Installing around a scope adds one symbol. -/
theorem adds_around {pushed : Except Fault Env} (h : pushed.map (nested scope) = .ok after)
    (ih : ∀ env', pushed = .ok env' → Adds symbol env env') :
    Adds symbol (nested scope env) after := by
  obtain ⟨next, hpush, rfl⟩ := exists_of_map_eq_ok h
  have hadds := ih next hpush
  constructor
  · intro s
    simp [hadds.mem_symbols, or_left_comm]
  · simp [hadds.blocks_eq]

/-- Installing in the innermost scope adds the symbol. -/
theorem adds_of_pushHere (h : pushHere symbol env = .ok after) : Adds symbol env after := by
  cases env with
  | root scope => exact adds_root h
  | nested scope env =>
    obtain ⟨next, hpush, rfl⟩ := exists_of_map_eq_ok h
    constructor <;> simp [Scope.eq_of_push hpush, or_left_comm]

/-- Installing in the root scope adds the symbol. -/
theorem adds_of_pushRoot (h : pushRoot symbol env = .ok after) : Adds symbol env after := by
  induction env generalizing after with
  | root scope => exact adds_root h
  | nested scope env ih => exact adds_around h fun _ hpush => ih hpush

/-- Installing around the innermost scope adds the symbol. -/
theorem adds_of_pushOuter (h : pushOuter symbol env = .ok after) : Adds symbol env after := by
  cases env with
  | root scope => exact adds_root h
  | nested scope env => exact adds_around h fun _ hpush => adds_of_pushHere hpush

/-- Installing adds one symbol, whatever its lifetime. -/
theorem adds_of_push {lifetime : Lifetime} (h : env.push symbol lifetime = .ok after) :
    Adds symbol env after := by
  cases lifetime with
  | everywhere => exact adds_of_pushRoot h
  | outside => exact adds_of_pushOuter h
  | here => exact adds_of_pushHere h
  | unknown code => exact adds_of_pushHere h

end Env

end Tapestry
