import Tapestry.Forest
import Tapestry.Proofs.ScopeContents

/-!
# Histories of nested scopes

Scopes are made inside others and symbols are installed in them, in any order, from any scope and
with any lifetime. Each step leaves all scopes but one as they were, so two invariants hold after
every history. Within a scope, the table and the list of symbols hold the same symbols, no two of one
name. Between scopes, every scope but the root lies inside an earlier one and knows the root.

From these follow where a symbol is installed and when it is refused, which symbol a name leads to,
and which variables are seen. The environments that expansion works on are what is seen from one
scope of a forest.
-/

namespace Tapestry

namespace Forest

variable {forest after : Forest} {number target : Nat} {token : Token} {fault : Fault}

/-- The forests that a history makes of a root scope. An installation that is refused is a step of
the history too. -/
inductive Grown : Forest → Prop where
  | root : Grown empty
  | child {forest : Forest} {number : Nat} (hgrown : Grown forest) (hnumber : number < forest.size) :
    Grown (forest.child number)
  | push {forest : Forest} {number : Nat} (symbol : Symbol) (lifetime : Lifetime)
      (hgrown : Grown forest) (hnumber : number < forest.size) :
    Grown (forest.push number symbol lifetime).1

/-! ## One scope after a step -/

/-- Changing a scope makes none. -/
@[simp]
theorem size_modify (change : Entry → Entry) : (forest.modify number change).size = forest.size :=
  List.length_modify ..

/-- Making a scope makes one. -/
@[simp]
theorem size_child : (forest.child number).size = forest.size + 1 := by
  simp [size, child]

/-- Changing a scope changes no other. -/
theorem entry_modify (change : Entry → Entry) (hnumber : number < forest.size) (n : Nat) :
    (forest.modify number change).entry n =
      if n = number then change (forest.entry n) else forest.entry n := by
  unfold entry modify
  rw [List.getD_eq_getElem?_getD, List.getD_eq_getElem?_getD, List.getElem?_modify]
  by_cases hn : n = number
  · subst hn
    have hsome : forest.entries[n]? = some forest.entries[n] := List.getElem?_eq_getElem hnumber
    simp [hsome]
  · have hne : number ≠ n := fun h => hn h.symm
    simp [hn, hne]

/-- A scope that was made is empty, and the others are as they were. -/
theorem entry_child (n : Nat) :
    (forest.child number).entry n =
      if n = forest.size then ⟨forest.chain number, forest.root number, [], .empty⟩
      else forest.entry n := by
  unfold entry child
  rw [List.getD_eq_getElem?_getD, List.getD_eq_getElem?_getD]
  rcases Nat.lt_trichotomy n forest.size with hlt | rfl | hgt
  · rw [List.getElem?_append_left hlt, if_neg (Nat.ne_of_lt hlt)]
  · simp [size, chain, root, entry]
  · have hlength : forest.entries.length + 1 ≤ n := hgt
    rw [if_neg (Nat.ne_of_gt hgt), List.getElem?_eq_none (by simpa using hlength),
      List.getElem?_eq_none (Nat.le_of_lt hgt)]

/-! ## The symbols of a scope -/

/-- The list names no symbol twice, and the table leads from each name to the symbol of that name in
the list. -/
structure Entry.Coherent (entry : Entry) : Prop where
  names_nodup : (entry.scope.symbols.map Symbol.name).Nodup
  lookup_iff : ∀ name symbol,
    entry.table.lookup name = some symbol ↔ symbol ∈ entry.scope.symbols ∧ symbol.name = name

namespace Entry

/-- Table and list agree where there are no symbols. -/
theorem coherent_of_empty (around : List Nat) (root : Nat) : Coherent ⟨around, root, [], .empty⟩ :=
  ⟨List.nodup_nil, by simp [Scope.empty]⟩

/-- An installed symbol is found under its name, and every other name leads where it led. -/
theorem lookup_install (entry : Entry) (symbol : Symbol) (name : Text) :
    (entry.install symbol).table.lookup name =
      if name = symbol.name then some symbol else entry.table.lookup name := by
  unfold install
  by_cases hname : name = symbol.name
  · rw [if_pos hname, hname, List.lookup_cons_self]
  · have hother : (name == symbol.name) = false := by simpa using hname
    rw [if_neg hname, List.lookup_cons, hother]
    exact lookup_filter_ne hname

/-- A name is free in the table if no symbol of the list has it. -/
theorem Coherent.lookup_isSome_iff {entry : Entry} (h : entry.Coherent) {name : Text} :
    (entry.table.lookup name).isSome ↔ ∃ held ∈ entry.scope.symbols, held.name = name := by
  rw [Option.isSome_iff_exists]
  exact exists_congr fun held => h.lookup_iff name held

/-- Table and list agree when a symbol of a free name was installed. -/
theorem Coherent.install {entry : Entry} (h : entry.Coherent) {symbol : Symbol}
    (hfree : ¬∃ held ∈ entry.scope.symbols, held.name = symbol.name) :
    (entry.install symbol).Coherent := by
  constructor
  · have hnew : symbol.name ∉ entry.scope.symbols.map Symbol.name := by
      rw [List.mem_map]
      exact hfree
    simpa [Entry.install] using List.Nodup.concat hnew h.names_nodup
  · intro name found
    have hsymbols : (entry.install symbol).scope.symbols = entry.scope.symbols ++ [symbol] := rfl
    rw [lookup_install, hsymbols, List.mem_append, List.mem_singleton]
    by_cases hname : name = symbol.name
    · subst hname
      rw [if_pos rfl, Option.some.injEq]
      constructor
      · rintro rfl
        exact ⟨.inr rfl, rfl⟩
      · rintro ⟨hheld | rfl, hfound⟩
        · exact absurd ⟨found, hheld, hfound⟩ hfree
        · rfl
    · rw [if_neg hname, h.lookup_iff]
      constructor
      · exact fun hfound => ⟨.inl hfound.1, hfound.2⟩
      · rintro ⟨hheld | rfl, hfound⟩
        · exact ⟨hheld, hfound⟩
        · exact absurd hfound.symm hname

end Entry

/-! ## The scopes around a scope -/

/-- The first scope is the root, the others lie inside earlier ones, and all know the root. -/
structure Nested (forest : Forest) : Prop where
  size_pos : 0 < forest.size
  around_root : (forest.entry 0).around = []
  around_inside : ∀ n, 0 < n → n < forest.size → ∃ p < n, (forest.entry n).around = forest.chain p
  root_eq : ∀ n, forest.root n = 0

/-- The scopes on the way from one to the scope around it, and so on to one with none around it. -/
inductive Ancestry (forest : Forest) : Nat → List Nat → Prop where
  | outermost {n : Nat} (hparent : forest.parent? n = none) : Ancestry forest n [n]
  | inside {n p : Nat} {rest : List Nat} (hparent : forest.parent? n = some p)
      (hrest : Ancestry forest p rest) : Ancestry forest n (n :: rest)

/-- The scope that a lifetime means, seen from another. The root stands in for the scope around it. -/
inductive Means (forest : Forest) (number : Nat) : Lifetime → Nat → Prop where
  | here : Means forest number .here number
  | unknown (code : Int) : Means forest number (.unknown code) number
  | everywhere : Means forest number .everywhere 0
  | outside {p : Nat} (hparent : forest.parent? number = some p) : Means forest number .outside p
  | outermost (hparent : forest.parent? number = none) : Means forest number .outside number

namespace Nested

/-- The root has no scope around it, and any other scope has an earlier one. -/
theorem parent_cases (h : forest.Nested) (hnumber : number < forest.size) :
    (number = 0 ∧ forest.parent? number = none ∧ forest.chain number = [0]) ∨
      ∃ p < number, forest.parent? number = some p ∧
        forest.chain number = number :: forest.chain p := by
  unfold parent? chain
  rcases Nat.eq_zero_or_pos number with rfl | hpos
  · exact .inl ⟨rfl, by simp [h.around_root]⟩
  · obtain ⟨p, hp, haround⟩ := h.around_inside number hpos hnumber
    exact .inr ⟨p, hp, by simp [haround, chain]⟩

/-- The scopes from one outward are met by going from each to the scope around it. -/
theorem ancestry_chain (h : forest.Nested) (hnumber : number < forest.size) :
    forest.Ancestry number (forest.chain number) := by
  induction number using Nat.strongRecOn with
  | ind number ih =>
    rcases h.parent_cases hnumber with ⟨rfl, hparent, hchain⟩ | ⟨p, hp, hparent, hchain⟩
    · rw [hchain]
      exact .outermost hparent
    · rw [hchain]
      exact .inside hparent (ih p hp (Nat.lt_trans hp hnumber))

/-- A symbol is installed in the scope that its lifetime means. -/
theorem means_target (h : forest.Nested) (lifetime : Lifetime) :
    forest.Means number lifetime (forest.target number lifetime) := by
  cases lifetime with
  | here => exact .here
  | unknown code => exact .unknown code
  | everywhere =>
    rw [target, h.root_eq]
    exact .everywhere
  | outside =>
    rw [target]
    cases hparent : forest.parent? number with
    | none => exact .outermost hparent
    | some p => exact .outside hparent

/-- A symbol is installed in a scope of the forest. -/
theorem target_lt_size (h : forest.Nested) (hnumber : number < forest.size) (lifetime : Lifetime) :
    forest.target number lifetime < forest.size := by
  cases lifetime with
  | here | unknown _ => exact hnumber
  | everywhere =>
    rw [target, h.root_eq]
    exact h.size_pos
  | outside =>
    rw [target]
    rcases h.parent_cases hnumber with ⟨_, hparent, _⟩ | ⟨p, hp, hparent, _⟩
    · rw [hparent]
      exact hnumber
    · rw [hparent]
      exact Nat.lt_trans hp hnumber

end Nested

/-! ## What a step does -/

/-- A scope was made inside another: it is empty, and the others are as they were. -/
structure Nests (forest : Forest) (number : Nat) (after : Forest) : Prop where
  size_eq : after.size = forest.size + 1
  parent_eq : after.parent? forest.size = some number
  scope_eq : after.scope forest.size = .empty
  entry_eq : ∀ n < forest.size, after.entry n = forest.entry n

/-- A symbol was installed in a scope: it stands behind the other symbols there, and all else is as
it was. -/
structure Appends (forest : Forest) (target : Nat) (symbol : Symbol) (after : Forest) : Prop where
  size_eq : after.size = forest.size
  around_eq : ∀ n, (after.entry n).around = (forest.entry n).around
  root_eq : ∀ n, after.root n = forest.root n
  symbols_eq : (after.scope target).symbols = (forest.scope target).symbols ++ [symbol]
  blocks_eq : (after.scope target).blocks = (forest.scope target).blocks
  entry_eq : ∀ n ≠ target, after.entry n = forest.entry n

/-- A scope holds a symbol of a name. -/
def Holds (forest : Forest) (number : Nat) (name : Text) : Prop :=
  ∃ held ∈ (forest.scope number).symbols, held.name = name

/-- Making a scope inside another does just that. -/
theorem nests_child : Nests forest number (forest.child number) := by
  have hnew : (forest.child number).entry forest.size =
      ⟨forest.chain number, forest.root number, [], .empty⟩ := by
    rw [entry_child, if_pos rfl]
  constructor
  · exact size_child
  · rw [parent?, hnew]
    rfl
  · rw [scope, hnew]
  · intro n hn
    rw [entry_child, if_neg (Nat.ne_of_lt hn)]

/-- Installing a symbol puts it behind the others of its scope. -/
theorem appends_modify (htarget : target < forest.size) (symbol : Symbol) :
    Appends forest target symbol (forest.modify target fun entry => entry.install symbol) := by
  have hentry := entry_modify (fun entry => entry.install symbol) htarget
  constructor
  · exact size_modify _
  · intro n
    rw [hentry]
    split <;> rfl
  · intro n
    rw [root, hentry]
    split <;> rfl
  · rw [scope, hentry, if_pos rfl]
    rfl
  · rw [scope, hentry, if_pos rfl]
    rfl
  · intro n hn
    rw [hentry, if_neg hn]

/-- A symbol is refused or put into the scope its lifetime means. -/
theorem push_cases (forest : Forest) (number : Nat) (symbol : Symbol) (lifetime : Lifetime) :
    (((forest.table (forest.target number lifetime)).lookup symbol.name).isSome ∧
      forest.push number symbol lifetime = (forest, some (Scope.taken symbol.name))) ∨
    (¬((forest.table (forest.target number lifetime)).lookup symbol.name).isSome ∧
      forest.push number symbol lifetime =
        (forest.modify (forest.target number lifetime) fun entry => entry.install symbol, none)) := by
  by_cases htaken : ((forest.table (forest.target number lifetime)).lookup symbol.name).isSome
  · exact .inl ⟨htaken, if_pos htaken⟩
  · exact .inr ⟨htaken, if_neg htaken⟩

/-! ## What every history keeps -/

/-- Scopes stay nested when one is made inside another. -/
theorem Nested.child (h : forest.Nested) (hnumber : number < forest.size) :
    (forest.child number).Nested := by
  have hchain (n : Nat) (hn : n < forest.size) : (forest.child number).chain n = forest.chain n := by
    rw [chain, entry_child, if_neg (Nat.ne_of_lt hn), chain]
  constructor
  · rw [size_child]
    exact Nat.succ_pos _
  · rw [entry_child, if_neg (Nat.ne_of_lt h.size_pos), h.around_root]
  · intro n hpos hn
    rw [size_child] at hn
    rcases Nat.lt_succ_iff_lt_or_eq.mp hn with hlt | rfl
    · obtain ⟨p, hp, haround⟩ := h.around_inside n hpos hlt
      exact ⟨p, hp, by rw [entry_child, if_neg (Nat.ne_of_lt hlt), haround, hchain p (Nat.lt_trans hp hlt)]⟩
    · exact ⟨number, hnumber, by rw [entry_child, if_pos rfl, hchain number hnumber]⟩
  · intro n
    rw [root, entry_child]
    split
    · exact h.root_eq number
    · exact h.root_eq n

/-- Scopes stay nested if none of them moves. -/
theorem Nested.of_same (h : forest.Nested) (hsize : after.size = forest.size)
    (haround : ∀ n, (after.entry n).around = (forest.entry n).around)
    (hroot : ∀ n, after.root n = forest.root n) : after.Nested := by
  constructor
  · rw [hsize]
    exact h.size_pos
  · rw [haround, h.around_root]
  · intro n hpos hn
    rw [hsize] at hn
    obtain ⟨p, hp, hinside⟩ := h.around_inside n hpos hn
    exact ⟨p, hp, by rw [haround, hinside, chain, chain, haround]⟩
  · intro n
    rw [hroot, h.root_eq]

/-- Scopes stay nested when a symbol is installed. -/
theorem Nested.of_appends {symbol : Symbol} (h : forest.Nested)
    (happends : Appends forest target symbol after) : after.Nested :=
  h.of_same happends.size_eq happends.around_eq happends.root_eq

/-- Scopes stay nested throughout a history. -/
theorem Grown.nested (h : Grown forest) : forest.Nested := by
  induction h with
  | root =>
    refine ⟨Nat.one_pos, rfl, fun n hpos hn => absurd hn (Nat.not_lt.mpr hpos), fun n => ?_⟩
    cases n <;> rfl
  | child _ hnumber ih => exact ih.child hnumber
  | push symbol lifetime _ hnumber ih =>
    rcases push_cases _ _ symbol lifetime with ⟨_, hpush⟩ | ⟨_, hpush⟩
    · rw [hpush]
      exact ih
    · rw [hpush]
      exact ih.of_appends (appends_modify (ih.target_lt_size hnumber lifetime) symbol)

/-- Tables and lists of symbols agree throughout a history. -/
theorem Grown.coherent (h : Grown forest) (n : Nat) : (forest.entry n).Coherent := by
  induction h with
  | root =>
    have hentry : empty.entry n = ⟨[], 0, [], .empty⟩ := by cases n <;> rfl
    rw [hentry]
    exact Entry.coherent_of_empty [] 0
  | child _ _ ih =>
    rw [entry_child]
    split
    · exact Entry.coherent_of_empty _ _
    · exact ih
  | push symbol lifetime hgrown hnumber ih =>
    rcases push_cases _ _ symbol lifetime with ⟨_, hpush⟩ | ⟨hfree, hpush⟩
    · rw [hpush]
      exact ih
    · rw [hpush, entry_modify _ (hgrown.nested.target_lt_size hnumber lifetime)]
      split
      case isTrue htarget =>
        subst htarget
        exact ih.install (mt ih.lookup_isSome_iff.mpr hfree)
      case isFalse => exact ih

/-- Installing a symbol makes no scope. -/
@[simp]
theorem size_push (symbol : Symbol) (lifetime : Lifetime) :
    (forest.push number symbol lifetime).1.size = forest.size := by
  rcases forest.push_cases number symbol lifetime with ⟨_, hpush⟩ | ⟨_, hpush⟩
  · rw [hpush]
  · rw [hpush, size_modify]

/-- Installing symbols one after the other is a history, also where one of them is refused. -/
theorem Grown.pushAll (h : Grown forest) (hnumber : number < forest.size) (lifetime : Lifetime)
    (symbols : List Symbol) : Grown (forest.pushAll number lifetime symbols).1 := by
  induction symbols generalizing forest with
  | nil => exact h
  | cons symbol rest ih =>
    have hpushed := h.push symbol lifetime hnumber
    have hsize : number < (forest.push number symbol lifetime).1.size := by rwa [size_push]
    rw [Forest.pushAll]
    split
    case h_1 after fault hpush =>
      rw [hpush] at hpushed
      exact hpushed
    case h_2 after hpush =>
      rw [hpush] at hpushed hsize
      exact ih hpushed hsize

/-- Where the symbols agree, a symbol is refused just if its name is taken. -/
theorem Grown.push_cases (h : Grown forest) (hnumber : number < forest.size) (symbol : Symbol)
    (lifetime : Lifetime) :
    (forest.Holds (forest.target number lifetime) symbol.name ∧
      forest.push number symbol lifetime = (forest, some (Scope.taken symbol.name))) ∨
    (¬forest.Holds (forest.target number lifetime) symbol.name ∧
      ∃ after, forest.push number symbol lifetime = (after, none) ∧
        Appends forest (forest.target number lifetime) symbol after) := by
  have hholds : ((forest.table (forest.target number lifetime)).lookup symbol.name).isSome ↔
      forest.Holds (forest.target number lifetime) symbol.name :=
    (h.coherent _).lookup_isSome_iff
  rcases forest.push_cases number symbol lifetime with ⟨htaken, hpush⟩ | ⟨hfree, hpush⟩
  · exact .inl ⟨hholds.mp htaken, hpush⟩
  · exact .inr ⟨mt hholds.mpr hfree, _, hpush,
      appends_modify (h.nested.target_lt_size hnumber lifetime) symbol⟩

/-! ## Names -/

section Names

variable {α : Type} {sort? : Symbol → Option α} {sort : α → Symbol} {name : Text} {entry : Entry}

/-- The symbol of a sort that the nearest of some scopes holds under a name: the scopes before hold no
symbol of this sort under it, whatever else they hold. -/
def Nearest (forest : Forest) (numbers : List Nat) (sort : α → Symbol) (name : Text) (a : α) : Prop :=
  ∃ inner holder outer, numbers = inner ++ holder :: outer ∧
    (sort a ∈ (forest.scope holder).symbols ∧ (sort a).name = name) ∧
    ∀ n ∈ inner, ∀ b, ¬(sort b ∈ (forest.scope n).symbols ∧ (sort b).name = name)

/-- None of some scopes holds a symbol of a sort under a name. -/
def Lacks (forest : Forest) (numbers : List Nat) (sort : α → Symbol) (name : Text) : Prop :=
  ∀ n ∈ numbers, ∀ b, ¬(sort b ∈ (forest.scope n).symbols ∧ (sort b).name = name)

/-- A symbol of a sort is found in the table just if the scope holds it under that name. -/
theorem Entry.Coherent.bind_eq_some_iff (h : entry.Coherent)
    (hsort : ∀ symbol a, sort? symbol = some a ↔ symbol = sort a) {a : α} :
    (entry.table.lookup name).bind sort? = some a ↔
      sort a ∈ entry.scope.symbols ∧ (sort a).name = name := by
  rw [Option.bind_eq_some_iff, ← h.lookup_iff]
  constructor
  · rintro ⟨symbol, hlookup, ha⟩
    rw [hlookup, (hsort symbol a).mp ha]
  · exact fun hlookup => ⟨sort a, hlookup, (hsort _ a).mpr rfl⟩

/-- No symbol of a sort is found in the table just if the scope holds none under that name. -/
theorem Entry.Coherent.bind_eq_none_iff (h : entry.Coherent)
    (hsort : ∀ symbol a, sort? symbol = some a ↔ symbol = sort a) :
    (entry.table.lookup name).bind sort? = none ↔
      ∀ b, ¬(sort b ∈ entry.scope.symbols ∧ (sort b).name = name) := by
  rw [Option.eq_none_iff_forall_ne_some]
  exact forall_congr' fun b => not_congr (h.bind_eq_some_iff hsort)

/-- Seeking finds the nearest symbol. -/
theorem Grown.seek_eq_some_iff (h : Grown forest)
    (hsort : ∀ symbol a, sort? symbol = some a ↔ symbol = sort a) {a : α} :
    forest.seek number sort? name = some a ↔ forest.Nearest (forest.chain number) sort name a := by
  rw [seek, List.findSome?_eq_some_iff]
  simp only [table, (h.coherent _).bind_eq_some_iff hsort, (h.coherent _).bind_eq_none_iff hsort]
  rfl

/-- Seeking finds nothing where there is nothing. -/
theorem Grown.seek_eq_none_iff (h : Grown forest)
    (hsort : ∀ symbol a, sort? symbol = some a ↔ symbol = sort a) :
    forest.seek number sort? name = none ↔ forest.Lacks (forest.chain number) sort name := by
  rw [seek, List.findSome?_eq_none_iff]
  simp only [table, (h.coherent _).bind_eq_none_iff hsort]
  rfl

end Names

/-- A word leads to the nearest function of its name. -/
theorem Grown.resolveFunction_eq_ok_iff (h : Grown forest) {f : Function} :
    forest.resolveFunction number token = .ok f ↔
      forest.Nearest (forest.chain number) .func token.text f := by
  rw [← h.seek_eq_some_iff Symbol.func?_eq_some_iff, resolveFunction]
  cases forest.seek number Symbol.func? token.text <;> simp

/-- A word names no function if there is none of its name. -/
theorem Grown.resolveFunction_eq_error_iff (h : Grown forest) :
    forest.resolveFunction number token = .error fault ↔
      fault = Env.noFunction token ∧ forest.Lacks (forest.chain number) .func token.text := by
  rw [← h.seek_eq_none_iff Symbol.func?_eq_some_iff, resolveFunction]
  cases forest.seek number Symbol.func? token.text <;> simp [eq_comm]

/-- A word leads to the nearest variable of its name. -/
theorem Grown.resolveVariable_eq_ok_iff (h : Grown forest) {v : Variable} :
    forest.resolveVariable number token = .ok v ↔
      forest.Nearest (forest.chain number) .var token.text v := by
  rw [← h.seek_eq_some_iff Symbol.var?_eq_some_iff, resolveVariable]
  cases forest.seek number Symbol.var? token.text <;> simp

/-- A word names no variable if there is none of its name. -/
theorem Grown.resolveVariable_eq_error_iff (h : Grown forest) :
    forest.resolveVariable number token = .error fault ↔
      fault = Env.noVariable token ∧ forest.Lacks (forest.chain number) .var token.text := by
  rw [← h.seek_eq_none_iff Symbol.var?_eq_some_iff, resolveVariable]
  cases forest.seek number Symbol.var? token.text <;> simp [eq_comm]

/-- After every history, each scope holds its symbols alike in table and list, no two of one name, and
all scopes lie in a tree under the first one. A new scope is empty and changes no other. A symbol goes
to the scope its lifetime means: if the name is taken there it is refused and nothing changes, and
otherwise it is put behind the symbols of that scope and nothing else changes. A word leads to the
nearest function, or variable, of its name among the scopes from one outward, and nowhere just if none
of them holds one. The variables seen are those of these scopes, one scope after the other, each in
the order they were installed. -/
theorem histories_keep_scopes (hgrown : Grown forest) :
    (∀ n < forest.size, (forest.entry n).Coherent) ∧
    forest.parent? 0 = none ∧ (∀ n < forest.size, 0 < n → ∃ p < n, forest.parent? n = some p) ∧
    ∀ number < forest.size,
      Nests forest number (forest.child number) ∧
      (∀ symbol lifetime, ∃ target < forest.size, forest.Means number lifetime target ∧
        ((forest.Holds target symbol.name ∧
            forest.push number symbol lifetime = (forest, some (Scope.taken symbol.name))) ∨
          (¬forest.Holds target symbol.name ∧
            ∃ after, forest.push number symbol lifetime = (after, none) ∧
              Appends forest target symbol after))) ∧
      ∃ numbers, forest.Ancestry number numbers ∧
        (∀ token f, forest.resolveFunction number token = .ok f ↔
          forest.Nearest numbers .func token.text f) ∧
        (∀ token fault, forest.resolveFunction number token = .error fault ↔
          fault = Env.noFunction token ∧ forest.Lacks numbers .func token.text) ∧
        (∀ token v, forest.resolveVariable number token = .ok v ↔
          forest.Nearest numbers .var token.text v) ∧
        (∀ token fault, forest.resolveVariable number token = .error fault ↔
          fault = Env.noVariable token ∧ forest.Lacks numbers .var token.text) ∧
        forest.vars number =
          numbers.flatMap fun n => (forest.scope n).symbols.filterMap Symbol.var? := by
  have hnested := hgrown.nested
  refine ⟨fun n _ => hgrown.coherent n, ?_, ?_, fun number hnumber => ⟨nests_child, ?_, ?_⟩⟩
  · rw [parent?, hnested.around_root]
    rfl
  · intro n hn hpos
    obtain ⟨p, hp, haround⟩ := hnested.around_inside n hpos hn
    refine ⟨p, hp, ?_⟩
    rw [parent?, haround]
    rfl
  · intro symbol lifetime
    exact ⟨forest.target number lifetime, hnested.target_lt_size hnumber lifetime,
      hnested.means_target lifetime, hgrown.push_cases hnumber symbol lifetime⟩
  · exact ⟨forest.chain number, hnested.ancestry_chain hnumber,
      fun _ _ => hgrown.resolveFunction_eq_ok_iff, fun _ _ => hgrown.resolveFunction_eq_error_iff,
      fun _ _ => hgrown.resolveVariable_eq_ok_iff, fun _ _ => hgrown.resolveVariable_eq_error_iff, rfl⟩

/-- From the innermost of three scopes a function is installed in the root, then a variable of its name
in the scope between. Neither hides the other. -/
theorem histories_keep_scopes_same_name :
    let f : Function := ⟨[102], [], .everywhere, .template [], .positional, none, [], 0⟩
    let v : Variable := ⟨[102], ⟨.int 1, ⟨1, 0, [49]⟩⟩⟩
    let nested := (empty.child 0).child 1
    let forest := ((nested.push 2 (.func f) .everywhere).1.pushAll 2 .outside [.var v]).1
    Grown forest ∧ 2 < forest.size ∧
      ∃ numbers, forest.Ancestry 2 numbers ∧
        forest.Nearest numbers .func [102] f ∧ forest.Nearest numbers .var [102] v := by
  intro f v nested forest
  have hnested : Grown nested := .child (.child .root (by decide)) (by decide)
  have hgrown : Grown forest := (hnested.push (.func f) .everywhere (by decide)).pushAll (by decide) _ _
  have hsize : 2 < forest.size := by decide
  obtain ⟨_, _, _, hlaws⟩ := histories_keep_scopes hgrown
  obtain ⟨_, _, numbers, hancestry, hfunction, _, hvariable, _⟩ := hlaws 2 hsize
  exact ⟨hgrown, hsize, numbers, hancestry, (hfunction ⟨1, 0, [102]⟩ f).mp rfl,
    (hvariable ⟨1, 0, [102]⟩ v).mp rfl⟩

/-! ## Environments -/

/-- Where no two symbols have one name, seeking through the list leads where the table leads. -/
theorem Entry.Coherent.find?_eq_lookup {entry : Entry} (h : entry.Coherent) (name : Text) :
    entry.scope.find? name = entry.table.lookup name := by
  cases hfound : entry.scope.find? name with
  | some symbol => exact ((h.lookup_iff name symbol).mpr (Scope.mem_of_find? hfound)).symm
  | none =>
    cases hlookup : entry.table.lookup name with
    | none => rfl
    | some symbol =>
      obtain ⟨hheld, hname⟩ := (h.lookup_iff name symbol).mp hlookup
      exact absurd (beq_iff_eq.mpr hname) (List.find?_eq_none.mp hfound symbol hheld)

/-- The scopes of an environment are those it was made of. -/
theorem scopes_envOf (scope : Scope) (outer : List Scope) : (envOf scope outer).scopes = scope :: outer := by
  induction outer generalizing scope with
  | nil => rfl
  | cons next outer ih => rw [envOf, Env.scopes, ih]

/-- The scopes of the environment seen from a scope are those from it outward. -/
theorem scopes_env : (forest.env number).scopes = (forest.chain number).map forest.scope := by
  rw [env, scopes_envOf, chain, List.map_cons]

/-- Seeking through the lists of the scopes in sight leads where seeking through their tables does. -/
theorem Grown.findSome?_scopes {α : Type} (h : Grown forest) (sort? : Symbol → Option α) (name : Text) :
    (forest.env number).scopes.findSome? (fun scope => (scope.find? name).bind sort?) =
      forest.seek number sort? name := by
  rw [scopes_env, List.findSome?_map, seek]
  congr 1
  funext n
  exact congrArg (·.bind sort?) ((h.coherent n).find?_eq_lookup name)

/-- The environment seen from a scope leads names where they lead from the scope. -/
theorem Grown.find?_env (h : Grown forest) (name : Text) :
    (forest.env number).find? name = forest.find? number name := by
  rw [find?, ← h.findSome?_scopes some name, Env.find?]
  simp only [Option.bind_fun_some]

/-- The environment seen from a scope leads words to the functions they lead to from the scope. -/
theorem Grown.resolveFunction_env (h : Grown forest) (token : Token) :
    (forest.env number).resolveFunction token = forest.resolveFunction number token := by
  have hseek : (forest.env number).func? token.text = forest.seek number Symbol.func? token.text :=
    h.findSome?_scopes Symbol.func? token.text
  rw [Env.resolveFunction, hseek]
  rfl

/-- The environment seen from a scope leads words to the variables they lead to from the scope. -/
theorem Grown.resolveVariable_env (h : Grown forest) (token : Token) :
    (forest.env number).resolveVariable token = forest.resolveVariable number token := by
  have hseek : (forest.env number).var? token.text = forest.seek number Symbol.var? token.text :=
    h.findSome?_scopes Symbol.var? token.text
  rw [Env.resolveVariable, hseek]
  rfl

/-- The variables in sight are those seen from the scope. -/
theorem vars_env : (forest.env number).vars = forest.vars number := by
  rw [Env.vars, scopes_env, List.flatMap_map, vars]

/-- The environment seen from a scope with none around it is a root. -/
theorem env_of_outermost (hparent : forest.parent? number = none) :
    forest.env number = .root (forest.scope number) := by
  rw [env, List.head?_eq_none_iff.mp hparent]
  rfl

/-- The environment seen from a scope is nested in the one seen from the scope around it. -/
theorem Nested.env_of_inside (h : forest.Nested) (hnumber : number < forest.size) {p : Nat}
    (hparent : forest.parent? number = some p) :
    forest.env number = .nested (forest.scope number) (forest.env p) := by
  rcases h.parent_cases hnumber with ⟨_, hnone, _⟩ | ⟨q, _, hsome, hchain⟩
  · rw [hnone] at hparent
    cases hparent
  · obtain rfl : q = p := Option.some.inj (hsome.symm.trans hparent)
    have haround : (forest.entry number).around = forest.chain q := List.tail_eq_of_cons_eq hchain
    rw [env, haround]
    rfl

section Installing

variable {target : Nat} {symbol : Symbol}

/-- Installing a symbol leaves every scope where it is. -/
theorem Appends.parent_eq (happends : Appends forest target symbol after) (n : Nat) :
    after.parent? n = forest.parent? n := by
  rw [parent?, happends.around_eq, parent?]

/-- Installing a symbol leaves the symbols of the other scopes. -/
theorem Appends.scope_of_ne (happends : Appends forest target symbol after) {n : Nat} (hn : n ≠ target) :
    after.scope n = forest.scope n := by
  rw [scope, happends.entry_eq n hn, scope]

/-- The scope a symbol was installed in is what installing it there gives. -/
theorem Appends.map_push {β : Type} (happends : Appends forest target symbol after) (f : Scope → β) :
    ((forest.scope target).push symbol).map f =
      ((forest.scope target).push symbol).map fun _ => f (after.scope target) := by
  cases hpush : (forest.scope target).push symbol with
  | error fault => rfl
  | ok pushed =>
    have hafter : after.scope target = pushed := by
      rw [Scope.eq_of_push hpush, ← happends.symbols_eq, ← happends.blocks_eq]
    rw [hafter]
    rfl

/-- What is seen from a scope outside the changed one is as it was. -/
theorem Nested.env_of_lt (h : forest.Nested) (happends : Appends forest target symbol after)
    (hnumber : number < forest.size) (hlt : number < target) : after.env number = forest.env number := by
  induction number using Nat.strongRecOn with
  | ind number ih =>
    have hscope := happends.scope_of_ne (Nat.ne_of_lt hlt)
    have hparents := happends.parent_eq number
    have hnumber' : number < after.size := by rwa [happends.size_eq]
    rcases h.parent_cases hnumber with ⟨_, hparent, _⟩ | ⟨p, hp, hparent, _⟩
    · rw [env_of_outermost hparent, env_of_outermost (hparents.trans hparent), hscope]
    · rw [h.env_of_inside hnumber hparent,
        (h.of_appends happends).env_of_inside hnumber' (hparents.trans hparent), hscope,
        ih p hp (Nat.lt_trans hp hnumber) (Nat.lt_trans hp hlt)]

/-- Installing in the innermost scope of an environment is installing in the scope it is seen from. -/
theorem Nested.pushHere_env (h : forest.Nested) (hnumber : number < forest.size)
    (happends : Appends forest number symbol after) :
    Env.pushHere symbol (forest.env number) =
      ((forest.scope number).push symbol).map fun _ => after.env number := by
  have hparents := happends.parent_eq number
  have hnumber' : number < after.size := by rwa [happends.size_eq]
  rcases h.parent_cases hnumber with ⟨_, hparent, _⟩ | ⟨p, hp, hparent, _⟩
  · rw [env_of_outermost hparent, env_of_outermost (hparents.trans hparent)]
    exact happends.map_push Env.root
  · rw [h.env_of_inside hnumber hparent,
      (h.of_appends happends).env_of_inside hnumber' (hparents.trans hparent),
      h.env_of_lt happends (Nat.lt_trans hp hnumber) hp]
    exact happends.map_push fun scope => Env.nested scope (forest.env p)

/-- Installing further out leaves the scope it is seen from. -/
theorem Nested.map_nested (h : forest.Nested) (hnumber : number < forest.size) {p : Nat}
    (hparent : forest.parent? number = some p) (happends : Appends forest target symbol after)
    (hne : number ≠ target) (pushed : Except Fault Scope) :
    (pushed.map fun _ => after.env p).map (Env.nested (forest.scope number)) =
      pushed.map fun _ => after.env number := by
  have hnumber' : number < after.size := by rwa [happends.size_eq]
  rw [(h.of_appends happends).env_of_inside hnumber' ((happends.parent_eq number).trans hparent),
    happends.scope_of_ne hne]
  cases pushed <;> rfl

/-- Installing around the innermost scope of an environment is installing around the scope it is seen
from. -/
theorem Nested.pushOuter_env (h : forest.Nested) (hnumber : number < forest.size) {p : Nat}
    (hparent : forest.parent? number = some p) (happends : Appends forest p symbol after) (hp : p < number) :
    Env.pushOuter symbol (forest.env number) =
      ((forest.scope p).push symbol).map fun _ => after.env number := by
  rw [h.env_of_inside hnumber hparent, Env.pushOuter,
    h.pushHere_env (Nat.lt_trans hp hnumber) happends,
    h.map_nested hnumber hparent happends (Nat.ne_of_gt hp)]

/-- Installing in the root scope of an environment is installing in the root. -/
theorem Nested.pushRoot_env (h : forest.Nested) (hnumber : number < forest.size)
    (happends : Appends forest 0 symbol after) :
    Env.pushRoot symbol (forest.env number) =
      ((forest.scope 0).push symbol).map fun _ => after.env number := by
  induction number using Nat.strongRecOn with
  | ind number ih =>
    rcases h.parent_cases hnumber with ⟨rfl, hparent, _⟩ | ⟨p, hp, hparent, _⟩
    · rw [env_of_outermost hparent, env_of_outermost ((happends.parent_eq 0).trans hparent)]
      exact happends.map_push Env.root
    · rw [h.env_of_inside hnumber hparent, Env.pushRoot, ih p hp (Nat.lt_trans hp hnumber),
        h.map_nested hnumber hparent happends (Nat.ne_of_gt (Nat.zero_lt_of_lt hp))]

/-- Installing in an environment is installing in the scope that the lifetime means. -/
theorem Nested.push_env (h : forest.Nested) (hnumber : number < forest.size) (lifetime : Lifetime)
    (happends : Appends forest (forest.target number lifetime) symbol after) :
    (forest.env number).push symbol lifetime =
      ((forest.scope (forest.target number lifetime)).push symbol).map fun _ => after.env number := by
  cases lifetime with
  | here | unknown _ => exact h.pushHere_env hnumber happends
  | everywhere =>
    rw [target, h.root_eq] at happends ⊢
    exact h.pushRoot_env hnumber happends
  | outside =>
    rcases h.parent_cases hnumber with ⟨_, hparent, _⟩ | ⟨p, hp, hparent, _⟩
    · rw [target, hparent, Option.getD_none] at happends ⊢
      rw [env_of_outermost hparent, env_of_outermost ((happends.parent_eq number).trans hparent)]
      exact happends.map_push Env.root
    · rw [target, hparent, Option.getD_some] at happends ⊢
      exact h.pushOuter_env hnumber hparent happends hp

end Installing

/-- Installing in the environment seen from a scope gives what is seen from there after installing in
the forest, and fails as this does. -/
theorem Grown.push_env (h : Grown forest) (hnumber : number < forest.size) (symbol : Symbol)
    (lifetime : Lifetime) :
    (forest.env number).push symbol lifetime =
      (forest.push number symbol lifetime).2.elim
        (.ok ((forest.push number symbol lifetime).1.env number)) .error := by
  have htarget := h.nested.target_lt_size hnumber lifetime
  have hfind : (forest.scope (forest.target number lifetime)).find? symbol.name =
      (forest.table (forest.target number lifetime)).lookup symbol.name :=
    (h.coherent _).find?_eq_lookup symbol.name
  rw [h.nested.push_env hnumber lifetime (appends_modify htarget symbol), Scope.push, hfind]
  rcases forest.push_cases number symbol lifetime with ⟨htaken, hpush⟩ | ⟨hfree, hpush⟩
  · rw [if_pos htaken, hpush]
    rfl
  · rw [if_neg hfree, hpush]
    rfl

end Forest

end Tapestry
